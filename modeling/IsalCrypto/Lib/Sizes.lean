import Mathlib.Algebra.GroupWithZero.Nat
import Mathlib.Data.Fin.Basic

/-!
# Arrays of a fixed size

The sizes of the arrays whose entries are numbered by `Fin`, and a vector with one of its numbered
entries replaced.
-/

namespace IsalCrypto.Lib

instance neZero_two : NeZero 2 := ⟨Nat.succ_ne_zero 1⟩

instance neZero_four : NeZero 4 := ⟨Nat.succ_ne_zero 3⟩

instance neZero_five : NeZero 5 := ⟨Nat.succ_ne_zero 4⟩

instance neZero_eight : NeZero 8 := ⟨Nat.succ_ne_zero 7⟩

instance neZero_sixteen : NeZero 16 := ⟨Nat.succ_ne_zero 15⟩

instance neZero_thirtyTwo : NeZero 32 := ⟨Nat.succ_ne_zero 31⟩

instance neZero_fortyEight : NeZero 48 := ⟨Nat.succ_ne_zero 47⟩

/-- A nibble fits a dword. -/
theorem four_le_thirtyTwo : 4 ≤ 32 := by decide

/-- A nibble fits a quadword. -/
theorem four_le_sixtyFour : 4 ≤ 64 := by decide

/-- The vector with entry `i` replaced. -/
def setAt {α : Type*} {n : ℕ} (v : Vector α n) (i : Fin n) (x : α) : Vector α n := v.set i x

theorem get_eq_getElem {α : Type*} {n : ℕ} (v : Vector α n) (i : Fin n) : v.get i = v[i] := rfl

end IsalCrypto.Lib
