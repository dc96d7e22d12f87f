import IsalCrypto.Lib.Lanes
import Mathlib.Data.Fintype.Prod

/-!
# The least dword of vector registers

The AVX2 instructions that find the least of the dwords of two `ymm` registers, and take a multiple
of a power of two from all of them.
-/

namespace IsalCrypto.Lib

/-- A `ymm` register as eight dwords, the lowest first. -/
abbrev Ymm := Fin 8 → BitVec 32

/-- The `cmp` and `cmovb` of one dword of `vpminud`. -/
def minDword (a b : BitVec 32) : BitVec 32 := if a < b then a else b

def vpminud (x y : Ymm) : Ymm := fun i => minDword (x i) (y i)

def vpsubd (x y : Ymm) : Ymm := fun i => x i - y i

def vpand (x y : Ymm) : Ymm := fun i => x i &&& y i

/-- `vpalignr` by `4 * n` bytes: in each half, the dwords of `y` from `n` on, then those of `x`. -/
def vpalignr (x y : Ymm) (n : ℕ) : Ymm := fun i =>
  let base := 4 * (i.val / 4)
  if i.val % 4 + n < 4 then y (Fin.ofNat 8 (base + i.val % 4 + n))
  else x (Fin.ofNat 8 (base + (i.val % 4 + n - 4)))

/-- `vperm2i128 x, x, 1`: the halves change places. -/
def swapHalves (x : Ymm) : Ymm := fun i => x (i + 4)

/-- `vpshufd` with 0: the lowest dword of each half in all its places. -/
def vpshufd0 (x : Ymm) : Ymm := fun i => x (Fin.ofNat 8 (4 * (i.val / 4)))

/-- The lines from `vpminud` of the two registers to that of the swapped halves; `ymm3` is whatever
the register holds before. -/
def leastDwords (ymm3 x y : Ymm) : Ymm :=
  let ymm2 := vpminud x y
  let ymm3 := vpalignr ymm3 ymm2 2
  let ymm2 := vpminud ymm2 ymm3
  let ymm3 := vpalignr ymm3 ymm2 1
  let ymm2 := vpminud ymm2 ymm3
  let ymm3 := swapHalves ymm2
  vpminud ymm2 ymm3

/-- The constant with a mask in the lowest dword of each half. -/
def lowDwords (mask : BitVec 32) : Ymm := fun i => if i.val % 4 = 0 then mask else 0#32

section Least

variable {ι : Type*} {f : ι → BitVec 32} {l l' : List ι} {a b : BitVec 32}

theorem LeastWord.append (ha : LeastWord f l a) (hb : LeastWord f l' b) :
    LeastWord f (l ++ l') (minDword a b) := by
  obtain ⟨⟨i, hi, hia⟩, hlea⟩ := ha
  obtain ⟨⟨k, hk, hkb⟩, hleb⟩ := hb
  unfold minDword
  split
  · next hlt =>
    refine ⟨⟨i, List.mem_append_left _ hi, hia⟩, fun m hm => ?_⟩
    cases List.mem_append.mp hm with
    | inl hm => exact hlea m hm
    | inr hm => exact (Nat.le_of_lt hlt).trans (hleb m hm)
  · next hge =>
    refine ⟨⟨k, List.mem_append_right _ hk, hkb⟩, fun m hm => ?_⟩
    cases List.mem_append.mp hm with
    | inl hm => exact (Nat.not_lt.mp hge).trans (hlea m hm)
    | inr hm => exact hleb m hm

theorem LeastWord.unique (ha : LeastWord f l a) (hb : LeastWord f l b) : a = b := by
  obtain ⟨⟨i, hi, rfl⟩, hlea⟩ := ha
  obtain ⟨⟨k, hk, rfl⟩, hleb⟩ := hb
  exact BitVec.eq_of_toNat_eq (Nat.le_antisymm (hlea k hk) (hleb i hi))

theorem LeastWord.map {κ : Type*} {e : κ → ι} {l : List κ} (h : LeastWord (f ∘ e) l a) :
    LeastWord f (l.map e) a := by
  obtain ⟨⟨i, hi, hia⟩, hle⟩ := h
  refine ⟨⟨e i, List.mem_map_of_mem hi, hia⟩, fun k hk => ?_⟩
  obtain ⟨m, hm, rfl⟩ := List.mem_map.mp hk
  exact hle m hm

/-- The order of the entries does not matter. -/
theorem LeastWord.of_mem_iff (h : LeastWord f l a) (hmem : ∀ i, i ∈ l ↔ i ∈ l') :
    LeastWord f l' a := by
  obtain ⟨⟨i, hi, hia⟩, hle⟩ := h
  exact ⟨⟨i, (hmem i).mp hi, hia⟩, fun k hk => hle k ((hmem k).mpr hk)⟩

end Least

/-- The dwords of two registers. -/
def dwordsOf (x y : Ymm) (i : Fin 2 × Fin 8) : BitVec 32 := if i.1 = 0 then x i.2 else y i.2

/-- The places of these dwords. -/
def dwordPlaces : List (Fin 2 × Fin 8) :=
  (List.finRange 8).flatMap fun k => [(0, k), (1, k)]

/-- Both lowest dwords are the least of all sixteen, whatever the helper register held. -/
theorem leastWord_leastDwords (ymm3 x y : Ymm) :
    LeastWord (dwordsOf x y) dwordPlaces (leastDwords ymm3 x y 0) ∧
      LeastWord (dwordsOf x y) dwordPlaces (leastDwords ymm3 x y 4) := by
  have hpair : ∀ k, LeastWord (dwordsOf x y) [(0, k), (1, k)] (minDword (x k) (y k)) := fun k =>
    (leastWord_singleton (0, k)).append (leastWord_singleton (1, k))
  have hlow := ((hpair 0).append (hpair 2)).append ((hpair 1).append (hpair 3))
  have hhigh := ((hpair 4).append (hpair 6)).append ((hpair 5).append (hpair 7))
  exact ⟨(hlow.append hhigh).of_mem_iff (by decide), (hhigh.append hlow).of_mem_iff (by decide)⟩

/-- What the mask leaves of the lowest dwords, in all places. -/
theorem vpshufd0_vpand {x : Ymm} {a mask : BitVec 32} (h0 : x 0 = a) (h4 : x 4 = a) (i : Fin 8) :
    vpshufd0 (vpand x (lowDwords mask)) i = a &&& mask := by
  have hplace : Fin.ofNat 8 (4 * (i.val / 4)) = 0 ∨ Fin.ofNat 8 (4 * (i.val / 4)) = 4 := by
    revert i
    decide
  unfold vpshufd0 vpand lowDwords
  cases hplace with
  | inl h =>
    rw [h, h0]
    exact congrArg (a &&& ·) (if_pos rfl)
  | inr h =>
    rw [h, h4]
    exact congrArg (a &&& ·) (if_pos rfl)

/-- The least of the dwords of two registers depends neither on the place it is read from nor on
what the helper register held. -/
theorem leastDwords_four (ymm3 ymm3' x y : Ymm) :
    leastDwords ymm3 x y 4 = leastDwords ymm3' x y 0 :=
  (leastWord_leastDwords ymm3 x y).2.unique (leastWord_leastDwords ymm3' x y).1

end IsalCrypto.Lib
