import IsalCrypto.Lib.Sizes
import Mathlib.Algebra.BigOperators.Intervals
import Mathlib.Algebra.BigOperators.Ring.Finset
import Mathlib.Algebra.CharP.Two
import Mathlib.Tactic.Ring

/-!
# Bit vectors as polynomials over GF(2)

`evalBits x v` is the polynomial whose coefficients are the bits of `v`, evaluated at a point `x` of
a ring of characteristic two. Exclusive or is its sum, the carry-less product of bit vectors its
product (`evalBits_clmul`), and shifts multiply it by powers of `x` up to the bits that leave the
vector (`evalBits_shiftLeft_add`).
-/

namespace IsalCrypto.Lib

variable {A : Type*} [CommRing A] (x : A) {m n : ℕ}

/-- The polynomial with the bits of `v` at `x`. -/
def evalBits (v : BitVec n) : A := ∑ i ∈ Finset.range n, if v.getLsbD i then x ^ i else 0

/-- Any bound above the width will do. -/
theorem evalBits_eq_sum (v : BitVec n) (h : n ≤ m) :
    evalBits x v = ∑ i ∈ Finset.range m, if v.getLsbD i then x ^ i else 0 := by
  refine Finset.sum_subset (Finset.range_subset_range.mpr h) fun i _ hi => ?_
  rw [Finset.mem_range, Nat.not_lt] at hi
  rw [BitVec.getLsbD_of_ge v i hi, if_neg Bool.false_ne_true]

theorem evalBits_congr {v : BitVec n} {w : BitVec m} (h : ∀ i, v.getLsbD i = w.getLsbD i) :
    evalBits x v = evalBits x w := by
  rw [evalBits_eq_sum x v (Nat.le_max_left n m), evalBits_eq_sum x w (Nat.le_max_right n m)]
  simp only [h]

@[simp]
theorem evalBits_zero : evalBits x 0#n = 0 :=
  Finset.sum_eq_zero fun i _ => by rw [BitVec.getLsbD_zero, if_neg Bool.false_ne_true]

theorem evalBits_setWidth (v : BitVec n) (h : n ≤ m) :
    evalBits x (v.setWidth m) = evalBits x v := by
  refine evalBits_congr x fun i => ?_
  rw [BitVec.getLsbD_setWidth]
  rcases Nat.lt_or_ge i m with hi | hi
  · rw [decide_eq_true hi, Bool.true_and]
  · rw [BitVec.getLsbD_of_ge v i (by omega), Bool.and_false]

theorem evalBits_append (hi : BitVec m) (lo : BitVec n) :
    evalBits x (hi ++ lo) = evalBits x lo + x ^ n * evalBits x hi := by
  have hlow : ∀ i ∈ Finset.range n, (if (hi ++ lo).getLsbD i then x ^ i else 0) =
      if lo.getLsbD i then x ^ i else 0 := fun i h => by
    rw [BitVec.getLsbD_append, if_pos (Finset.mem_range.mp h)]
  have hhigh : ∀ i ∈ Finset.range m, (if (hi ++ lo).getLsbD (n + i) then x ^ (n + i) else 0) =
      x ^ n * if hi.getLsbD i then x ^ i else 0 := fun i _ => by
    rw [BitVec.getLsbD_append, if_neg (Nat.not_lt.mpr (Nat.le_add_right n i)),
      Nat.add_sub_cancel_left, mul_ite, mul_zero, pow_add]
  rw [evalBits_eq_sum x (hi ++ lo) (Nat.le_of_eq (Nat.add_comm m n)), Finset.sum_range_add,
    Finset.sum_congr rfl hlow, Finset.sum_congr rfl hhigh, ← Finset.mul_sum, evalBits, evalBits]

/-- A left shift by `k` loses the `k` top bits, which the right shift by `n - k` keeps. -/
theorem evalBits_shiftLeft_add (v : BitVec n) {k : ℕ} (h : k ≤ n) :
    evalBits x (v <<< k) + x ^ n * evalBits x (v >>> (n - k)) = x ^ k * evalBits x v := by
  obtain ⟨r, rfl⟩ : ∃ r, n = k + r := ⟨n - k, by omega⟩
  rw [Nat.add_sub_cancel_left]
  have hlow : ∀ i ∈ Finset.range k, (if (v <<< k).getLsbD i then x ^ i else 0) = 0 := fun i h => by
    rw [BitVec.getLsbD_shiftLeft, decide_eq_true (Finset.mem_range.mp h), Bool.not_true,
      Bool.and_false, Bool.false_and, if_neg Bool.false_ne_true]
  have hkept : ∀ i ∈ Finset.range r, (if (v <<< k).getLsbD (k + i) then x ^ (k + i) else 0) =
      x ^ k * if v.getLsbD i then x ^ i else 0 := fun i h => by
    have hi := Finset.mem_range.mp h
    rw [BitVec.getLsbD_shiftLeft, decide_eq_true (by omega), decide_eq_false (by omega),
      Bool.not_false, Bool.true_and, Bool.true_and, Nat.add_sub_cancel_left, mul_ite, mul_zero,
      pow_add]
  have hlost : ∀ i ∈ Finset.range k, x ^ (k + r) * (if (v >>> r).getLsbD i then x ^ i else 0) =
      x ^ k * if v.getLsbD (r + i) then x ^ (r + i) else 0 := fun i _ => by
    rw [BitVec.getLsbD_ushiftRight, mul_ite, mul_ite, mul_zero, mul_zero, ← pow_add, ← pow_add,
      Nat.add_assoc]
  have hnone : ∀ i ∈ Finset.range r, (if (v >>> r).getLsbD (k + i) then x ^ (k + i) else 0) = 0 :=
    fun i _ => by
      rw [BitVec.getLsbD_ushiftRight, BitVec.getLsbD_of_ge v _ (by omega),
        if_neg Bool.false_ne_true]
  rw [evalBits, Finset.sum_range_add, Finset.sum_congr rfl hlow, Finset.sum_congr rfl hkept,
    evalBits, Finset.sum_range_add, Finset.sum_congr rfl hnone, Finset.sum_const_zero,
    Finset.sum_const_zero, zero_add, add_zero, Finset.mul_sum, Finset.sum_congr rfl hlost,
    ← Finset.mul_sum, ← Finset.mul_sum, ← mul_add, ← Finset.sum_range_add,
    evalBits_eq_sum x v (Nat.le_of_eq (Nat.add_comm k r))]

/-- Nothing is lost when the vector is wide enough. -/
theorem evalBits_setWidth_shiftLeft (v : BitVec n) {k : ℕ} (h : n + k ≤ m) :
    evalBits x (v.setWidth m <<< k) = x ^ k * evalBits x v := by
  have hzero : v.setWidth m >>> (m - k) = 0#m := BitVec.eq_of_getLsbD_eq fun i _ => by
    rw [BitVec.getLsbD_ushiftRight, BitVec.getLsbD_setWidth, BitVec.getLsbD_of_ge v _ (by omega),
      Bool.and_false, BitVec.getLsbD_zero]
  have hshift := evalBits_shiftLeft_add x (v.setWidth m) (k := k) (by omega)
  rwa [hzero, evalBits_zero, mul_zero, add_zero, evalBits_setWidth x v (by omega)] at hshift

section CharTwo

variable [CharP A 2]

theorem evalBits_xor (v w : BitVec n) : evalBits x (v ^^^ w) = evalBits x v + evalBits x w := by
  rw [evalBits, evalBits, evalBits, ← Finset.sum_add_distrib]
  refine Finset.sum_congr rfl fun i _ => ?_
  rw [BitVec.getLsbD_xor]
  cases v.getLsbD i <;> cases w.getLsbD i <;> simp [CharTwo.add_self_eq_zero]

/-- The carry-less product, after the first `k` bits of `a`. -/
def clmulBits (a : BitVec m) (b : BitVec n) : ℕ → BitVec (m + n)
  | 0 => 0#(m + n)
  | k + 1 => clmulBits a b k ^^^ if a.getLsbD k then b.setWidth (m + n) <<< k else 0#(m + n)

/-- The carry-less product. -/
def clmul (a : BitVec m) (b : BitVec n) : BitVec (m + n) := clmulBits a b m

theorem evalBits_clmulBits (a : BitVec m) (b : BitVec n) {k : ℕ} (h : k ≤ m) :
    evalBits x (clmulBits a b k) =
      (∑ i ∈ Finset.range k, if a.getLsbD i then x ^ i else 0) * evalBits x b := by
  induction k with
  | zero => rw [clmulBits, evalBits_zero, Finset.sum_range_zero, zero_mul]
  | succ k ih =>
    have hterm : evalBits x (if a.getLsbD k then b.setWidth (m + n) <<< k else 0#(m + n)) =
        (if a.getLsbD k then x ^ k else 0) * evalBits x b := by
      split
      · exact evalBits_setWidth_shiftLeft x b (by omega)
      · rw [evalBits_zero, zero_mul]
    rw [clmulBits, evalBits_xor, ih (by omega), hterm, Finset.sum_range_succ, add_mul]

theorem evalBits_clmul (a : BitVec m) (b : BitVec n) :
    evalBits x (clmul a b) = evalBits x a * evalBits x b :=
  evalBits_clmulBits x a b (Nat.le_refl m)

end CharTwo

end IsalCrypto.Lib
