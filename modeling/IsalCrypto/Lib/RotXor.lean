import IsalCrypto.Lib.Sizes
import Mathlib.Data.BitVec
import Mathlib.Data.List.Basic

/-!
# Rotate-xor hashes

The hash of a word of symbols under a table `f` is the xor of the table values,
each rotated left by the number of symbols that follow it (`rotXor`). It is the
closed form of the recurrence "rotate by one, then xor in the next value"
(`rotXor_concat`), and it slides: removing the oldest symbol of a window costs one
xor with a value rotated by the window length (`rotXor_slide`).
-/

namespace IsalCrypto.Lib

variable {W : ℕ} {α : Type*}

/-! ## Rotations -/

theorem rotateLeft_xor (x y : BitVec W) (r : ℕ) :
    (x ^^^ y).rotateLeft r = x.rotateLeft r ^^^ y.rotateLeft r := by
  ext i hi
  simp only [BitVec.getElem_rotateLeft, BitVec.getElem_xor]
  split <;> rfl

theorem rotateLeft_zero_left (r : ℕ) : (0#W).rotateLeft r = 0#W := by
  ext i hi
  simp [BitVec.getElem_rotateLeft]

theorem rotateLeft_zero_right (x : BitVec W) : x.rotateLeft 0 = x := by
  ext i hi
  simp [BitVec.getElem_rotateLeft]

/-- Bit `i` of a rotated word, with one index for both sides of the wrap. -/
theorem getLsbD_rotateLeft_mod (x : BitVec W) (r i : ℕ) (hi : i < W) :
    (x.rotateLeft r).getLsbD i = x.getLsbD ((i + (W - r % W)) % W) := by
  have hr : r % W < W := Nat.mod_lt _ (by omega)
  rw [BitVec.getLsbD_rotateLeft]
  rcases Nat.lt_or_ge i (r % W) with h | h
  · have hidx : (i + (W - r % W)) % W = W - r % W + i := by
      rw [Nat.mod_eq_of_lt (by omega), Nat.add_comm]
    simp [h, hidx]
  · have hidx : (i + (W - r % W)) % W = i - r % W := by
      have hwrap : i + (W - r % W) = i - r % W + W := by omega
      rw [hwrap, Nat.add_mod_right, Nat.mod_eq_of_lt (by omega)]
    simp [Nat.not_lt.mpr h, hidx, hi]

theorem rotateLeft_rotateLeft (x : BitVec W) (m n : ℕ) :
    (x.rotateLeft m).rotateLeft n = x.rotateLeft (m + n) := by
  apply BitVec.eq_of_getLsbD_eq
  intro i hi
  have hm : m % W < W := Nat.mod_lt _ (by omega)
  have hn : n % W < W := Nat.mod_lt _ (by omega)
  rw [getLsbD_rotateLeft_mod _ _ _ hi, getLsbD_rotateLeft_mod _ _ _ hi,
    getLsbD_rotateLeft_mod _ _ _ (Nat.mod_lt _ (by omega)), Nat.mod_add_mod, Nat.add_mod m n W]
  congr 1
  rcases Nat.lt_or_ge (m % W + n % W) W with h | h
  · rw [Nat.mod_eq_of_lt h]
    have hsum : i + (W - n % W) + (W - m % W) = i + (W - (m % W + n % W)) + W := by omega
    rw [hsum, Nat.add_mod_right]
  · have hsub : (m % W + n % W) % W = m % W + n % W - W := by
      rw [Nat.mod_eq_sub_mod h, Nat.mod_eq_of_lt (by omega)]
    rw [hsub]
    congr 1
    omega

/-! ## The hash of a word -/

/-- The closed form: each symbol's table value, rotated by the number of symbols after it. -/
def rotXor (f : α → BitVec W) : List α → BitVec W
  | [] => 0#W
  | x :: xs => (f x).rotateLeft xs.length ^^^ rotXor f xs

@[simp] theorem rotXor_nil (f : α → BitVec W) : rotXor f [] = 0#W := rfl

theorem rotXor_append (f : α → BitVec W) (xs ys : List α) :
    rotXor f (xs ++ ys) = (rotXor f xs).rotateLeft ys.length ^^^ rotXor f ys := by
  induction xs with
  | nil => simp [rotateLeft_zero_left]
  | cons x xs ih =>
    simp only [List.cons_append, rotXor, ih, rotateLeft_xor, rotateLeft_rotateLeft,
      List.length_append, BitVec.xor_assoc]

/-- One step of the recurrence that computes the closed form. -/
theorem rotXor_concat (f : α → BitVec W) (xs : List α) (y : α) :
    rotXor f (xs ++ [y]) = (rotXor f xs).rotateLeft 1 ^^^ f y := by
  rw [rotXor_append]
  simp [rotXor, rotateLeft_zero_right]

/-- Sliding a window by one symbol: the outgoing symbol is cancelled by its table value rotated
by the window length. -/
theorem rotXor_slide (f : α → BitVec W) (x : α) (xs : List α) (y : α) :
    rotXor f (xs ++ [y]) =
      (rotXor f (x :: xs)).rotateLeft 1 ^^^ (f y ^^^ (f x).rotateLeft (xs.length + 1)) := by
  rw [rotXor_concat, rotXor, rotateLeft_xor, rotateLeft_rotateLeft]
  generalize (f x).rotateLeft (xs.length + 1) = a
  generalize (rotXor f xs).rotateLeft 1 = b
  generalize f y = c
  rw [BitVec.xor_comm a b, BitVec.xor_assoc, ← BitVec.xor_assoc a c a, BitVec.xor_comm a c,
    BitVec.xor_assoc c a a, BitVec.xor_self, BitVec.xor_zero]

end IsalCrypto.Lib
