import IsalCrypto.Lib.CarryLess
import Mathlib.FieldTheory.Finite.Basic
import Mathlib.RingTheory.AdjoinRoot

/-!
# GF(2^128) as GCM uses it

A 128-bit block is the polynomial whose coefficient of `x^i` is bit `i` from the left. `gfMul` is
Algorithm 1 of NIST SP 800-38D. The polynomial `x^128 + x^7 + x^2 + x + 1` is irreducible
(`irreducible_gcmPoly`), so blocks are the elements of a field `Gf` (`gfEl`), where `gfMul` is the
product (`gfEl_gfMul`) and no product of nonzero elements vanishes.
-/

namespace IsalCrypto.Lib

open Polynomial

/-! ## Multiplication of blocks -/

/-- `11100001 ‖ 0^120`. -/
def gcmR : BitVec 128 := 0xe1000000000000000000000000000000#128

/-- The block `V` of the next step: its product with `x`. -/
def mulX (v : BitVec 128) : BitVec 128 := v >>> 1 ^^^ if v.getLsbD 0 then gcmR else 0#128

/-- The first `k` steps: `Z` and `V`. -/
def gfMulSteps (a b : BitVec 128) : ℕ → BitVec 128 × BitVec 128
  | 0 => (0#128, b)
  | k + 1 =>
    let s := gfMulSteps a b k
    (s.1 ^^^ (if a.getMsbD k then s.2 else 0#128), mulX s.2)

/-- `a • b`. -/
def gfMul (a b : BitVec 128) : BitVec 128 := (gfMulSteps a b 128).1

/-! ## The element of a block in a ring -/

section Ring

variable {A : Type*} [CommRing A]

/-- The element of a block, for the element `x` of a ring. -/
def el (x : A) (v : BitVec 128) : A := evalBits x v.reverse

@[simp]
theorem el_zero (x : A) : el x 0#128 = 0 := by
  rw [el, BitVec.reverse_eq_zero_iff.mpr rfl, evalBits_zero]

/-- A single bit. -/
theorem evalBits_of_single (x : A) {n k : ℕ} {v : BitVec n} (hk : k < n)
    (h : ∀ i < n, v.getLsbD i = decide (i = k)) : evalBits x v = x ^ k := by
  rw [evalBits, Finset.sum_eq_single_of_mem k (Finset.mem_range.mpr hk), h k hk, decide_eq_true rfl,
    if_pos rfl]
  intro i hi hne
  rw [h i (Finset.mem_range.mp hi), decide_eq_false hne, if_neg Bool.false_ne_true]

theorem el_single (x : A) {k : ℕ} (hk : k < 128) : el x (1#128 <<< (127 - k)) = x ^ k :=
  evalBits_of_single x hk fun i hi => by
    rw [BitVec.getLsbD_reverse, BitVec.getMsbD_eq_getLsbD, BitVec.getLsbD_shiftLeft,
      BitVec.getLsbD_one]
    grind

theorem reverse_xor {n : ℕ} (v w : BitVec n) : (v ^^^ w).reverse = v.reverse ^^^ w.reverse := by
  refine BitVec.eq_of_getLsbD_eq fun i hi => ?_
  rw [BitVec.getLsbD_xor, BitVec.getLsbD_reverse, BitVec.getLsbD_reverse, BitVec.getLsbD_reverse,
    BitVec.getMsbD_xor]

theorem reverse_ushiftRight {n : ℕ} (v : BitVec n) (k : ℕ) :
    (v >>> k).reverse = v.reverse <<< k := by
  refine BitVec.eq_of_getLsbD_eq fun i hi => ?_
  rw [BitVec.getLsbD_reverse, BitVec.getMsbD_ushiftRight, BitVec.getLsbD_shiftLeft,
    BitVec.getLsbD_reverse, decide_eq_true hi]
  cases h : decide (i < k) <;> simp

theorem reverse_shiftLeft {n : ℕ} (v : BitVec n) (k : ℕ) :
    (v <<< k).reverse = v.reverse >>> k := by
  refine BitVec.eq_of_getLsbD_eq fun i hi => ?_
  rw [BitVec.getLsbD_reverse, BitVec.getMsbD_shiftLeft, BitVec.getLsbD_ushiftRight,
    BitVec.getLsbD_reverse, Nat.add_comm]

/-- What a shift by one bit loses. -/
theorem getLsbD_reverse_shiftLeft_last (v : BitVec 128) {i : ℕ} (hi : i < 128) :
    (v <<< (128 - 1)).reverse.getLsbD i = (decide (i = 0) && v.getLsbD 0) := by
  rw [reverse_shiftLeft, BitVec.getLsbD_ushiftRight, BitVec.getLsbD_reverse,
    BitVec.getMsbD_eq_getLsbD]
  rcases Nat.eq_zero_or_pos i with rfl | hpos
  · rfl
  · rw [decide_eq_false (by omega), decide_eq_false (by omega), Bool.false_and, Bool.false_and]

/-- A right shift multiplies by a power of `x`, up to the bits that leave the block. -/
theorem el_ushiftRight_add (x : A) (v : BitVec 128) {k : ℕ} (h : k ≤ 128) :
    el x (v >>> k) + x ^ 128 * el x (v <<< (128 - k)) = x ^ k * el x v := by
  rw [el, el, el, reverse_ushiftRight, reverse_shiftLeft, evalBits_shiftLeft_add x _ h]

variable [CharP A 2]

theorem el_xor (x : A) (v w : BitVec 128) : el x (v ^^^ w) = el x v + el x w := by
  rw [el, reverse_xor, evalBits_xor, el, el]

theorem el_gcmR (x : A) : el x gcmR = x ^ 7 + x ^ 2 + x + 1 := by
  have hsum : gcmR = 1#128 <<< (127 - 7) ^^^ 1#128 <<< (127 - 2) ^^^ 1#128 <<< (127 - 1) ^^^
      1#128 <<< (127 - 0) := by decide
  rw [hsum, el_xor, el_xor, el_xor, el_single x (by decide), el_single x (by decide),
    el_single x (by decide), el_single x (by decide), pow_one, pow_zero]

variable {x : A} (hx : x ^ 128 = x ^ 7 + x ^ 2 + x + 1)

include hx

theorem el_mulX (v : BitVec 128) : el x (mulX v) = x * el x v := by
  have hshift := el_ushiftRight_add x v (k := 1) (by decide)
  have hlost : x ^ 128 * el x (v <<< (128 - 1)) = el x (if v.getLsbD 0 then gcmR else 0#128) := by
    cases h : v.getLsbD 0 with
    | false =>
      have hzero : (v <<< (128 - 1)).reverse = 0#128 := BitVec.eq_of_getLsbD_eq fun i hi => by
        rw [getLsbD_reverse_shiftLeft_last v hi, h, Bool.and_false, BitVec.getLsbD_zero]
      rw [el, hzero, evalBits_zero, mul_zero, if_neg Bool.false_ne_true, el_zero]
    | true =>
      have hone : el x (v <<< (128 - 1)) = x ^ 0 := evalBits_of_single x (by decide) fun i hi => by
        rw [getLsbD_reverse_shiftLeft_last v hi, h, Bool.and_true]
      rw [hone, pow_zero, mul_one, if_pos rfl, el_gcmR, hx]
  rw [mulX, el_xor, ← hlost, hshift, pow_one]

theorem el_gfMulSteps (a b : BitVec 128) (k : ℕ) :
    el x (gfMulSteps a b k).1 =
        (∑ i ∈ Finset.range k, if a.getMsbD i then x ^ i else 0) * el x b ∧
      el x (gfMulSteps a b k).2 = x ^ k * el x b := by
  induction k with
  | zero => exact ⟨by rw [gfMulSteps, el_zero, Finset.sum_range_zero, zero_mul], by
      rw [gfMulSteps, pow_zero, one_mul]⟩
  | succ k ih =>
    obtain ⟨hz, hv⟩ := ih
    have hterm : el x (if a.getMsbD k then (gfMulSteps a b k).2 else 0#128) =
        (if a.getMsbD k then x ^ k else 0) * el x b := by
      split
      · exact hv
      · rw [el_zero, zero_mul]
    exact ⟨by rw [gfMulSteps, el_xor, hz, hterm, Finset.sum_range_succ, add_mul], by
      rw [gfMulSteps, el_mulX hx, hv, pow_succ']; ring⟩

/-- `•` is the product. -/
theorem el_gfMul (a b : BitVec 128) : el x (gfMul a b) = el x a * el x b := by
  rw [gfMul, (el_gfMulSteps hx a b 128).1]
  simp only [el, evalBits, BitVec.getLsbD_reverse]

/-- `k` squares. -/
theorem el_iterate_gfMul (v : BitVec 128) (k : ℕ) :
    el x ((fun w => gfMul w w)^[k] v) = el x v ^ 2 ^ k := by
  induction k with
  | zero => rw [Function.iterate_zero_apply, pow_zero, pow_one]
  | succ k ih => rw [Function.iterate_succ_apply', el_gfMul hx, ih, pow_succ, pow_mul, pow_two]

end Ring

/-! ## The polynomial is irreducible -/

/-- `x^128 + x^7 + x^2 + x + 1`. -/
noncomputable def gcmPoly : (ZMod 2)[X] := X ^ 128 + (X ^ 7 + X ^ 2 + X + 1)

theorem degree_gcmPoly : gcmPoly.degree = (128 : ℕ) := by
  unfold gcmPoly
  compute_degree!

theorem gcmPoly_monic : gcmPoly.Monic := by
  unfold gcmPoly
  monicity!

/-- The block of `x`. -/
def blockX : BitVec 128 := 0x40000000000000000000000000000000#128

theorem el_blockX {A : Type*} [CommRing A] (x : A) : el x blockX = x :=
  (el_single x (by decide : 1 < 128)).trans (pow_one x)

/-- `x` squared 64 times. -/
def blockX64 : BitVec 128 := 0x6f9945a9e519a7229d4c1ad657f8a686#128

/-- The block of `1`. -/
def blockOne : BitVec 128 := 0x80000000000000000000000000000000#128

theorem el_blockOne {A : Type*} [CommRing A] (x : A) : el x blockOne = 1 :=
  (el_single x (by decide : 0 < 128)).trans (pow_zero x)

/-- An inverse of the difference of the two. -/
def blockInv : BitVec 128 := 0x180da934bf53158251c13dbb149f5279#128

/-- The three products that the kernel computes. -/
theorem gfMul_blocks : (fun w => gfMul w w)^[64] blockX = blockX64 ∧
    (fun w => gfMul w w)^[64] blockX64 = blockX ∧
    gfMul blockInv (blockX64 ^^^ blockX) = blockOne := by
  decide +kernel

/-- Squaring has a period on a root of the polynomial that divides 128 and does not divide 64. -/
theorem dvd_of_isPeriodicPt {K : Type*} [Field K] [CharP K 2] {x : K}
    (hx : x ^ 128 = x ^ 7 + x ^ 2 + x + 1) {d : ℕ} (hd : Function.IsPeriodicPt (· ^ 2) d x) :
    128 ∣ d := by
  have h64 : x ^ 2 ^ 64 = el x blockX64 := by
    rw [← gfMul_blocks.1, el_iterate_gfMul hx, el_blockX]
  have h128 : Function.IsPeriodicPt (· ^ 2) (64 + 64) x := by
    rw [Function.IsPeriodicPt, pow_iterate, Function.IsFixedPt, pow_add, pow_mul, h64,
      ← el_iterate_gfMul hx, gfMul_blocks.2.1, el_blockX]
  -- a common period below 128 divides 64
  obtain ⟨j, hj, hgcd⟩ := (Nat.dvd_prime_pow Nat.prime_two).mp
    (show d.gcd 128 ∣ 2 ^ 7 from Nat.gcd_dvd_right ..)
  have hperiod : Function.IsPeriodicPt (· ^ 2) (2 ^ j) x := hgcd ▸ hd.gcd h128
  rcases Nat.lt_succ_iff_lt_or_eq.mp (Nat.lt_succ_of_le hj) with hlt | rfl
  · exfalso
    have hfix := hperiod.trans_dvd (show 2 ^ j ∣ 64 from pow_dvd_pow 2 (Nat.le_of_lt_succ hlt))
    rw [Function.IsPeriodicPt, pow_iterate, Function.IsFixedPt, h64] at hfix
    have hzero : el x (blockX64 ^^^ blockX) = 0 := by
      rw [el_xor, hfix, el_blockX, CharTwo.add_self_eq_zero]
    have hinv : el x blockOne = el x blockInv * el x (blockX64 ^^^ blockX) := by
      rw [← gfMul_blocks.2.2, el_gfMul hx]
    rw [hzero, mul_zero, el_blockOne] at hinv
    exact one_ne_zero hinv
  · exact Nat.gcd_eq_right_iff_dvd.mp hgcd

/-- A root of the polynomial. -/
theorem pow_128_of_map {A : Type*} [CommRing A] [CharP A 2] (f : (ZMod 2)[X] →+* A)
    (h : f gcmPoly = 0) : f X ^ 128 = f X ^ 7 + f X ^ 2 + f X + 1 := by
  have htail : f (X ^ 7 + X ^ 2 + X + 1) = f X ^ 7 + f X ^ 2 + f X + 1 := by
    simp only [map_add, map_pow, map_one]
  have hpow : f (X ^ 128) = f X ^ 128 := map_pow f X 128
  have hsum := map_add f (X ^ 128) (X ^ 7 + X ^ 2 + X + 1)
  unfold gcmPoly at h
  rw [hpow, htail, h] at hsum
  exact CharTwo.add_eq_zero.mp hsum.symm

/-- So an irreducible factor has the degree of the polynomial. -/
theorem dvd_natDegree_of_dvd_gcmPoly {p : (ZMod 2)[X]} (hp : Irreducible p) (hdvd : p ∣ gcmPoly) :
    128 ∣ p.natDegree := by
  have hfact : Fact (Irreducible p) := ⟨hp⟩
  have hchar : CharP (AdjoinRoot p) 2 := charP_of_injective_algebraMap
    (algebraMap (ZMod 2) (AdjoinRoot p)).injective 2
  have hfin : Module.Finite (ZMod 2) (AdjoinRoot p) := (AdjoinRoot.powerBasis hp.ne_zero).finite
  have := Module.finite_of_finite (ZMod 2) (M := AdjoinRoot p)
  have := Fintype.ofFinite (AdjoinRoot p)
  have hrank : Module.finrank (ZMod 2) (AdjoinRoot p) = p.natDegree := by
    rw [(AdjoinRoot.powerBasis hp.ne_zero).finrank, AdjoinRoot.powerBasis_dim]
  have hcard : Fintype.card (AdjoinRoot p) = 2 ^ p.natDegree := by
    rw [Module.card_eq_pow_finrank (K := ZMod 2), ZMod.card, hrank]
  refine dvd_of_isPeriodicPt (pow_128_of_map (AdjoinRoot.mk p) (AdjoinRoot.mk_eq_zero.mpr hdvd)) ?_
  rw [Function.IsPeriodicPt, pow_iterate, ← hcard]
  exact FiniteField.pow_card _

theorem irreducible_gcmPoly : Irreducible gcmPoly := by
  have hdeg : gcmPoly.natDegree = 128 := natDegree_eq_of_degree_eq_some degree_gcmPoly
  obtain ⟨p, hp, hdvd⟩ := exists_irreducible_of_natDegree_pos (f := gcmPoly) (by omega)
  have hle : p.natDegree ≤ 128 := hdeg ▸ natDegree_le_of_dvd hdvd gcmPoly_monic.ne_zero
  have hp128 : p.natDegree = 128 :=
    Nat.le_antisymm hle (Nat.le_of_dvd hp.natDegree_pos (dvd_natDegree_of_dvd_gcmPoly hp hdvd))
  have hassoc : Associated p gcmPoly := associated_of_dvd_of_degree_eq hdvd (by
    rw [degree_eq_natDegree hp.ne_zero, hp128, degree_gcmPoly])
  exact hassoc.irreducible hp

/-! ## The field -/

instance : Fact (Irreducible gcmPoly) := ⟨irreducible_gcmPoly⟩

/-- The field of the blocks. -/
abbrev Gf : Type := AdjoinRoot gcmPoly

instance : CharP Gf 2 :=
  charP_of_injective_algebraMap (algebraMap (ZMod 2) Gf).injective 2

/-- The class of `x`. -/
noncomputable def gfX : Gf := AdjoinRoot.mk gcmPoly X

/-- The element of a block. -/
noncomputable def gfEl (v : BitVec 128) : Gf := el gfX v

theorem gfX_pow_128 : gfX ^ 128 = gfX ^ 7 + gfX ^ 2 + gfX + 1 :=
  pow_128_of_map (AdjoinRoot.mk gcmPoly) AdjoinRoot.mk_self

@[simp]
theorem gfEl_zero : gfEl 0#128 = 0 := el_zero _

theorem gfEl_xor (v w : BitVec 128) : gfEl (v ^^^ w) = gfEl v + gfEl w := el_xor _ v w

theorem gfEl_gfMul (v w : BitVec 128) : gfEl (gfMul v w) = gfEl v * gfEl w :=
  el_gfMul gfX_pow_128 v w

theorem gfX_ne_zero : gfX ≠ 0 := by
  intro hzero
  have hx := gfX_pow_128
  rw [hzero] at hx
  simp at hx

/-- Read from the other end, the bits are coefficients of the powers of the inverse. -/
theorem evalBits_reverse {K : Type*} [Field K] {x : K} (hx : x ≠ 0) {n : ℕ} (v : BitVec n) :
    evalBits x v.reverse = x ^ (n - 1) * evalBits x⁻¹ v := by
  rw [evalBits, ← Finset.sum_range_reflect, evalBits, Finset.mul_sum]
  refine Finset.sum_congr rfl fun i hi => ?_
  have hlt := Finset.mem_range.mp hi
  rw [BitVec.getLsbD_reverse, BitVec.getMsbD_eq_getLsbD, decide_eq_true (by omega), Bool.true_and,
    show n - 1 - (n - 1 - i) = i by omega]
  split
  · rw [inv_pow, ← pow_sub₀ x hx (by omega)]
  · rw [mul_zero]

theorem gfEl_eq (v : BitVec 128) : gfEl v = gfX ^ 127 * evalBits gfX⁻¹ v :=
  evalBits_reverse gfX_ne_zero v

/-! ## Blocks are determined by their elements -/

/-- The bits of a vector are the coefficients of its polynomial. -/
theorem coeff_evalBits {n : ℕ} (v : BitVec n) (i : ℕ) :
    (evalBits (X : (ZMod 2)[X]) v).coeff i = if v.getLsbD i then 1 else 0 := by
  rcases Nat.lt_or_ge i n with hi | hi
  · rw [evalBits, finsetSum_coeff, Finset.sum_eq_single_of_mem i (Finset.mem_range.mpr hi)]
    · split
      · rw [coeff_X_pow_self]
      · rw [coeff_zero]
    · intro j _ hne
      split
      · rw [coeff_X_pow, if_neg hne.symm]
      · rw [coeff_zero]
  · rw [BitVec.getLsbD_of_ge v i hi, if_neg Bool.false_ne_true, evalBits, finsetSum_coeff]
    refine Finset.sum_eq_zero fun j hj => ?_
    have hlt := Finset.mem_range.mp hj
    split
    · rw [coeff_X_pow, if_neg (by omega)]
    · rw [coeff_zero]

theorem degree_evalBits_lt {n : ℕ} (v : BitVec n) :
    (evalBits (X : (ZMod 2)[X]) v).degree < (n : ℕ) := by
  refine (degree_lt_iff_coeff_zero _ n).mpr fun i hi => ?_
  rw [coeff_evalBits, BitVec.getLsbD_of_ge _ _ hi, if_neg Bool.false_ne_true]

theorem map_evalBits {A B : Type*} [CommRing A] [CommRing B] (f : A →+* B) (x : A) {n : ℕ}
    (v : BitVec n) : f (evalBits x v) = evalBits (f x) v := by
  rw [evalBits, map_sum, evalBits]
  refine Finset.sum_congr rfl fun i _ => ?_
  split
  · rw [map_pow]
  · rw [map_zero]

/-- A vector whose class is zero has a polynomial of too low a degree to be a multiple. -/
theorem eq_zero_of_evalBits_mk {n : ℕ} {p : (ZMod 2)[X]} (hp : p.degree = n) {v : BitVec n}
    (h : evalBits (AdjoinRoot.mk p X) v = 0) : v = 0#n := by
  rw [← map_evalBits, AdjoinRoot.mk_eq_zero] at h
  have hzero := eq_zero_of_dvd_of_degree_lt h (hp ▸ degree_evalBits_lt v)
  refine BitVec.eq_of_getLsbD_eq fun i _ => ?_
  have hcoeff := coeff_evalBits v i
  rw [hzero, coeff_zero] at hcoeff
  rw [BitVec.getLsbD_zero]
  by_contra hne
  rw [if_pos (Bool.eq_true_of_not_eq_false hne)] at hcoeff
  exact zero_ne_one hcoeff

theorem eq_zero_of_gfEl_eq_zero {v : BitVec 128} (h : gfEl v = 0) : v = 0#128 :=
  BitVec.reverse_eq_zero_iff.mp (eq_zero_of_evalBits_mk degree_gcmPoly h)

theorem gfEl_injective : Function.Injective gfEl := fun v w h => by
  have hsum : gfEl (v ^^^ w) = 0 := by rw [gfEl_xor, h, CharTwo.add_self_eq_zero]
  exact BitVec.xor_eq_zero_iff.mp (eq_zero_of_gfEl_eq_zero hsum)

/-! ## The product of blocks -/

theorem gfMul_xor_left (a b c : BitVec 128) : gfMul (a ^^^ b) c = gfMul a c ^^^ gfMul b c :=
  gfEl_injective (by rw [gfEl_gfMul, gfEl_xor, gfEl_xor, gfEl_gfMul, gfEl_gfMul, add_mul])

/-- No product of nonzero blocks vanishes. -/
theorem gfMul_eq_zero_iff {a b : BitVec 128} : gfMul a b = 0#128 ↔ a = 0#128 ∨ b = 0#128 := by
  rw [← gfEl_injective.eq_iff, gfEl_gfMul, gfEl_zero, mul_eq_zero, ← gfEl_zero,
    gfEl_injective.eq_iff, gfEl_injective.eq_iff]

/-- The powers of a block. -/
def gfPow (h : BitVec 128) : ℕ → BitVec 128
  | 0 => blockOne
  | n + 1 => gfMul (gfPow h n) h

theorem gfEl_gfPow (h : BitVec 128) (n : ℕ) : gfEl (gfPow h n) = gfEl h ^ n := by
  induction n with
  | zero => rw [gfPow, pow_zero, gfEl, el_blockOne]
  | succ n ih => rw [gfPow, gfEl_gfMul, ih, pow_succ]

end IsalCrypto.Lib
