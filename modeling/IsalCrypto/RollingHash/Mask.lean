import IsalCrypto.Api
import Mathlib.Order.Bounds.Basic
import Mathlib.Tactic.Linarith

/-!
# The mask generator

`rolling_hash/rolling_hashx_base.c` and `isal_rolling_hashx_mask_gen`. C leaves a shift by 32 or
more and a signed overflow undefined; such a step has no result here.

* `floorPow2_eq`: the loop finds the largest power of two.
* `isalRollingHashxMaskGen_iff`: the mask is stored, with every step defined, just for the shifts
  other than 0 and the means below `2^31`.
-/

namespace IsalCrypto.RollingHash

/-! ## The arithmetic of C -/

/-- A value that an `int` can hold. -/
def toInt? (x : ℤ) : Option ℤ := if -2 ^ 31 ≤ x ∧ x < 2 ^ 31 then some x else none

/-- `x << i` for an `int` shift. -/
def shl (x : BitVec 32) (i : ℤ) : Option (BitVec 32) :=
  if 0 ≤ i ∧ i < 32 then some (x <<< i.toNat) else none

/-- `x >> i` for a `size_t` shift. -/
def shr (x : BitVec 32) (i : BitVec 64) : Option (BitVec 32) :=
  if i.toNat < 32 then some (x >>> i.toNat) else none

/-! ## The functions -/

theorem toNat_pos {inp : BitVec 32} (h : inp ≠ 0#32) : 0 < inp.toNat :=
  Nat.pos_of_ne_zero fun hzero => h (BitVec.eq_of_toNat_eq hzero)

theorem toNat_sub_one {inp : BitVec 32} (h : inp ≠ 0#32) : (inp - 1#32).toNat = inp.toNat - 1 := by
  have hle : 1#32 ≤ inp := BitVec.le_def.mpr (toNat_pos h)
  rw [BitVec.toNat_sub_of_le hle]
  rfl

/-- The loop of `floor_pow2`. -/
def floorPow2Loop (x inp : BitVec 32) : BitVec 32 :=
  if inp = 0#32 then x else floorPow2Loop inp (inp &&& (inp - 1#32))
termination_by inp.toNat
decreasing_by
  rw [BitVec.toNat_and]
  refine Nat.lt_of_le_of_lt Nat.and_le_right ?_
  rw [toNat_sub_one ‹_›]
  exact Nat.sub_lt (toNat_pos ‹_›) (by decide)

/-- `floor_pow2`, with the conversion to `int` at the end. -/
def floorPow2 (inp : BitVec 32) : ℤ := (floorPow2Loop inp inp).toInt

/-- `rol`. -/
def rol (x : BitVec 32) (i : ℤ) : Option (BitVec 32) := do
  let left ← shl x i
  let right ← shr x (32#64 - BitVec.ofInt 64 i)
  return left ||| right

/-- `_rolling_hashx_mask_gen`. -/
def rollingHashxMaskGen (mean shift : ℤ) : Option (BitVec 32) := do
  let mean := if mean ≤ 2 then 2 else mean
  let x ← toInt? (floorPow2 (BitVec.ofInt 32 mean) - 1)
  rol (BitVec.ofInt 32 x) shift

/-- `isal_rolling_hashx_mask_gen`: the error code and what is stored at `mask`. -/
def isalRollingHashxMaskGen (b : Build) (mean shift : BitVec 32) (hasMask : Bool) :
    Option (IsalCryptoError × Option (BitVec 32)) :=
  if b.fipsMode then some (.errFipsInvalidAlgo, none)
  else if hasMask = false then some (.errNullMask, none)
  else (rollingHashxMaskGen mean.toNat shift.toInt).map fun mask => (.errNone, some mask)

/-! ## The power of two -/

section Power

variable {mean shift : BitVec 32} {x inp : BitVec 32} {i n p : ℕ}

/-- Without its lowest bit, a number that is no power of two has the same highest bit. -/
theorem log2_and_sub_one (hn : n ≠ 0) (hpow : ¬ n.isPowerOfTwo) :
    (n &&& (n - 1)).log2 = n.log2 := by
  have hbit := Nat.and_sub_one_testBit_log2 hn hpow
  have hne : n &&& (n - 1) ≠ 0 := fun hzero => by
    rw [hzero, Nat.zero_testBit] at hbit
    exact Bool.noConfusion hbit
  refine Nat.le_antisymm ?_ ((Nat.le_log2 hne).mpr (Nat.ge_two_pow_of_testBit hbit))
  exact (Nat.le_log2 hn).mpr (Nat.le_trans (Nat.log2_self_le hne) Nat.and_le_left)

theorem toNat_floorPow2Loop (hinp : inp ≠ 0#32) (x : BitVec 32) :
    (floorPow2Loop x inp).toNat = 2 ^ inp.toNat.log2 := by
  induction x, inp using floorPow2Loop.induct with
  | case1 x => exact absurd rfl hinp
  | case2 x inp _ ih =>
    have hpos : inp.toNat ≠ 0 := Nat.ne_of_gt (toNat_pos hinp)
    have hnext : (inp &&& (inp - 1#32)).toNat = inp.toNat &&& (inp.toNat - 1) := by
      rw [BitVec.toNat_and, toNat_sub_one hinp]
    rw [floorPow2Loop, if_neg hinp]
    by_cases hpow : inp.toNat.isPowerOfTwo
    · have hzero : inp &&& (inp - 1#32) = 0#32 :=
        BitVec.eq_of_toNat_eq
          (hnext.trans ((Nat.and_sub_one_eq_zero_iff_isPowerOfTwo hpos).mpr hpow))
      obtain ⟨k, hk⟩ := hpow
      rw [hzero, floorPow2Loop, if_pos rfl, hk, Nat.log2_two_pow]
    · have hne : inp &&& (inp - 1#32) ≠ 0#32 := fun hzero =>
        hpow ((Nat.and_sub_one_eq_zero_iff_isPowerOfTwo hpos).mp
          (hnext.symm.trans (congrArg _ hzero)))
      rw [ih hne, hnext, log2_and_sub_one hpos hpow]

/-- The largest power of two that is not above `n`. -/
theorem isGreatest_two_pow_log2 (hn : n ≠ 0) :
    IsGreatest {q : ℕ | q.isPowerOfTwo ∧ q ≤ n} (2 ^ n.log2) := by
  refine ⟨⟨⟨n.log2, rfl⟩, Nat.log2_self_le hn⟩, ?_⟩
  rintro q ⟨⟨k, rfl⟩, hle⟩
  exact Nat.pow_le_pow_right (by decide) ((Nat.le_log2 hn).mpr hle)

theorem floorPow2_eq (hinp : inp ≠ 0#32) :
    floorPow2 inp = if inp.toNat < 2 ^ 31 then ((2 ^ inp.toNat.log2 : ℕ) : ℤ) else -2 ^ 31 := by
  have hpos : inp.toNat ≠ 0 := Nat.ne_of_gt (toNat_pos hinp)
  have hloop := toNat_floorPow2Loop hinp inp
  rw [floorPow2]
  split
  · next hlt =>
    have hsmall : 2 ^ inp.toNat.log2 ≤ inp.toNat := Nat.log2_self_le hpos
    rw [BitVec.toInt_eq_toNat_of_lt (by omega), hloop]
  · next hge =>
    have hlog : inp.toNat.log2 = 31 := by
      refine Nat.le_antisymm (Nat.lt_succ_iff.mp ((Nat.log2_lt hpos).mpr inp.isLt)) ?_
      exact (Nat.le_log2 hpos).mpr (by omega)
    rw [hlog] at hloop
    rw [show floorPow2Loop inp inp = 0x80000000#32 from BitVec.eq_of_toNat_eq hloop]
    decide

/-! ## The rotation -/

theorem rol_eq (x : BitVec 32) (hshift : shift.toNat < 32) :
    rol x shift.toInt = if 0 < shift.toNat then some (x.rotateLeft shift.toNat) else none := by
  have hint : shift.toInt = shift.toNat := BitVec.toInt_eq_toNat_of_lt (by omega)
  have hsub : (32#64 - BitVec.ofInt 64 shift.toNat).toNat = 32 - shift.toNat := by
    rw [BitVec.ofInt_natCast, BitVec.toNat_sub, BitVec.toNat_ofNat, BitVec.toNat_ofNat]
    omega
  rw [rol, hint, shl, if_pos ⟨by omega, by omega⟩, shr, hsub, Int.toNat_natCast]
  split
  · next hpos =>
    rw [if_pos (by omega), BitVec.rotateLeft_def, Nat.mod_eq_of_lt hshift]
    rfl
  · next hzero =>
    rw [if_neg (by omega)]
    rfl

/-! ## The mask -/

/-- For every mean and shift the mask is stored without an undefined step just if the shift is not 0
and the mean is below `2^31`. -/
theorem isalRollingHashxMaskGen_iff {b : Build} (hb : b.fipsMode = false) (mean shift : BitVec 32)
    (hshift : shift.toNat < 32) :
    ∃ p, IsGreatest {q : ℕ | q.isPowerOfTwo ∧ q ≤ max mean.toNat 2} p ∧
      (isalRollingHashxMaskGen b mean shift true =
          some (.errNone, some ((BitVec.ofNat 32 (p - 1)).rotateLeft shift.toNat)) ↔
        0 < shift.toNat ∧ mean.toNat < 2 ^ 31) := by
  have hmax : max mean.toNat 2 ≠ 0 := by omega
  refine ⟨2 ^ (max mean.toNat 2).log2, isGreatest_two_pow_log2 hmax, ?_⟩
  have hmean : (if (mean.toNat : ℤ) ≤ 2 then 2 else (mean.toNat : ℤ)) = (max mean.toNat 2 : ℕ) := by
    split <;> omega
  have hinp : (BitVec.ofInt 32 (max mean.toNat 2 : ℕ)).toNat = max mean.toNat 2 := by
    rw [BitVec.ofInt_natCast, BitVec.toNat_ofNat]
    exact Nat.mod_eq_of_lt (by have := mean.isLt; omega)
  have hne : BitVec.ofInt 32 (max mean.toNat 2 : ℕ) ≠ 0#32 := fun hzero => hmax (by
    rw [← hinp, hzero]
    rfl)
  rw [isalRollingHashxMaskGen, if_neg (by rw [hb]; decide), if_neg (by decide), rollingHashxMaskGen,
    hmean, floorPow2_eq hne, hinp]
  by_cases hlt : mean.toNat < 2 ^ 31
  · have hpow : 2 ^ (max mean.toNat 2).log2 ≤ max mean.toNat 2 := Nat.log2_self_le hmax
    have hpos : 0 < 2 ^ (max mean.toNat 2).log2 := Nat.two_pow_pos _
    have hcast : ((2 ^ (max mean.toNat 2).log2 : ℕ) : ℤ) - 1 =
        (2 ^ (max mean.toNat 2).log2 - 1 : ℕ) := by
      omega
    rw [if_pos (by omega), hcast, toInt?, if_pos ⟨by omega, by omega⟩, Option.bind_eq_bind,
      Option.bind_some, rol_eq _ hshift, BitVec.ofInt_natCast]
    split
    · next h => exact iff_of_true rfl ⟨h, hlt⟩
    · next h => exact iff_of_false (by nofun) fun hand => h hand.1
  · rw [if_neg (by omega), toInt?, if_neg (by decide)]
    exact iff_of_false (by nofun) fun hand => hlt hand.2

/-- A mean of 4096 and a shift of 7. -/
theorem isalRollingHashxMaskGen_iff_seven :
    ∃ p, IsGreatest {q : ℕ | q.isPowerOfTwo ∧ q ≤ max 4096 2} p ∧
      isalRollingHashxMaskGen ⟨true, false⟩ 4096#32 7#32 true =
        some (.errNone, some ((BitVec.ofNat 32 (p - 1)).rotateLeft 7)) := by
  obtain ⟨p, hp, hiff⟩ := @isalRollingHashxMaskGen_iff ⟨true, false⟩ rfl 4096#32 7#32 (by decide)
  exact ⟨p, hp, hiff.mpr ⟨by decide, by decide⟩⟩

/-- With the shift 0, that of `chunking_with_mb_hash.c`, `rol` shifts by 32. From a mean of `2^31`
on the subtraction overflows. -/
theorem isalRollingHashxMaskGen_undefined :
    isalRollingHashxMaskGen ⟨true, false⟩ 4096#32 0#32 true = none ∧
      isalRollingHashxMaskGen ⟨true, false⟩ 0x80000000#32 1#32 true = none := by
  have hpow : floorPow2 0x80000000#32 = -2 ^ 31 := floorPow2_eq (by decide)
  have hrol : ∀ x, rol x (0#32).toInt = none := fun x => rol_eq x (by decide)
  constructor
  · rw [isalRollingHashxMaskGen, if_neg (by decide), if_neg (by decide), rollingHashxMaskGen]
    simp only [hrol, Option.bind_eq_bind, Option.bind_fun_none, Option.map_none]
  · rw [isalRollingHashxMaskGen, if_neg (by decide), if_neg (by decide), rollingHashxMaskGen,
      show BitVec.ofInt 32 (if ((0x80000000#32).toNat : ℤ) ≤ 2 then 2
        else ((0x80000000#32).toNat : ℤ)) = 0x80000000#32 from by decide, hpow]
    rfl

end Power

end IsalCrypto.RollingHash
