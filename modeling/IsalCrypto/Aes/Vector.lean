import IsalCrypto.Lib.Blocks
import IsalCrypto.Lib.Window
import IsalCrypto.Memory

/-!
# Vector registers and memory

Memory is a function from addresses. A vector register loaded from it has the byte at the lowest
address lowest. Vectors are also seen as four 32-bit or two 64-bit elements, the first one lowest.
-/

namespace IsalCrypto.Aes

open IsalCrypto.Lib

/-! ## Loads and stores -/

/-- The vector at an address. -/
def ldQ (mem : ℕ → Byte) (a : ℕ) : BitVec 128 := ofBytes (window mem a 16)

/-- A vector is stored at an address. -/
def stQ (mem : ℕ → Byte) (a : ℕ) (v : BitVec 128) : ℕ → Byte := fun k =>
  if a ≤ k ∧ k < a + 16 then (toBytes v).getD (k - a) 0#8 else mem k

section Memory

variable {mem : ℕ → Byte} {a b n k : ℕ} {v : BitVec 128}

theorem stQ_of_not (h : ¬ (a ≤ k ∧ k < a + 16)) : stQ mem a v k = mem k := if_neg h

theorem window_stQ_self (mem : ℕ → Byte) (a : ℕ) (v : BitVec 128) :
    window (stQ mem a v) a 16 = toBytes v := by
  refine List.ext_getElem (by rw [length_window, length_toBytes]) fun k hk hk' => ?_
  rw [length_window] at hk
  rw [getElem_window, stQ, if_pos (by omega), Nat.add_sub_cancel_left, List.getD_eq_getElem?_getD,
    List.getElem?_eq_getElem hk', Option.getD_some]

theorem window_stQ_of_apart (h : b + n ≤ a ∨ a + 16 ≤ b) :
    window (stQ mem a v) b n = window mem b n :=
  window_congr fun k _ _ => stQ_of_not (by omega)

theorem ldQ_stQ_self (mem : ℕ → Byte) (a : ℕ) (v : BitVec 128) : ldQ (stQ mem a v) a = v := by
  rw [ldQ, window_stQ_self, ofBytes_toBytes]

theorem ldQ_stQ_of_apart (h : b + 16 ≤ a ∨ a + 16 ≤ b) : ldQ (stQ mem a v) b = ldQ mem b := by
  rw [ldQ, window_stQ_of_apart h, ldQ]

/-- A vector of a buffer is a block of its message. -/
theorem ldQ_eq_block {q : ℕ} (h : 16 * q + 16 ≤ n) :
    ldQ mem (a + 16 * q) = block (window mem a n) q := by
  obtain ⟨r, rfl⟩ : ∃ r, n = 16 * q + (16 + r) := ⟨n - 16 * q - 16, by omega⟩
  rw [ldQ, block, drop_window, window_add, List.take_left' (length_window ..)]

end Memory

/-! ## Bytes in memory -/

section Bytes

variable {mem : ℕ → Byte} {a n k : ℕ}

/-- The bytes of a short message as a block. -/
theorem byteAt_ofBytes_window (hn : n ≤ 16) :
    byteAt (ofBytes (window mem a n)) k = if k < n then mem (a + k) else 0#8 := by
  rw [byteAt_ofBytes (by rw [length_window]; exact hn), getD_window]

theorem byteAt_ldQ (hk : k < 16) : byteAt (ldQ mem a) k = mem (a + k) := by
  rw [ldQ, byteAt_ofBytes_window (Nat.le_refl 16), if_pos hk]

theorem stQ_apply (mem : ℕ → Byte) (a : ℕ) (v : BitVec 128) (k : ℕ) :
    stQ mem a v k = if a ≤ k ∧ k < a + 16 then byteAt v (k - a) else mem k := by
  rw [stQ]
  split
  · next hk => rw [getD_toBytes (by omega)]
  · rfl

end Bytes

/-! ## Elements -/

/-- A function on each 32-bit element. -/
def mapDwords (f : BitVec 32 → BitVec 32) (v : BitVec 128) : BitVec 128 :=
  f (v.extractLsb' 96 32) ++ f (v.extractLsb' 64 32) ++ f (v.extractLsb' 32 32) ++
    f (v.extractLsb' 0 32)

/-- A function on each pair of 32-bit elements. -/
def zipDwords (f : BitVec 32 → BitVec 32 → BitVec 32) (v w : BitVec 128) : BitVec 128 :=
  f (v.extractLsb' 96 32) (w.extractLsb' 96 32) ++ f (v.extractLsb' 64 32) (w.extractLsb' 64 32) ++
    f (v.extractLsb' 32 32) (w.extractLsb' 32 32) ++ f (v.extractLsb' 0 32) (w.extractLsb' 0 32)

/-- The low 64-bit element. -/
def lowQ (v : BitVec 128) : BitVec 64 := v.extractLsb' 0 64

/-- The high 64-bit element. -/
def highQ (v : BitVec 128) : BitVec 64 := v.extractLsb' 64 64

section Elements

variable {f : BitVec 32 → BitVec 32} {v w : BitVec 128} {i : ℕ}

theorem getLsbD_append_dwords (a b c d : BitVec 32) (hi : i < 128) :
    (a ++ b ++ c ++ d : BitVec 128).getLsbD i =
      (if i / 32 = 0 then d else if i / 32 = 1 then c else if i / 32 = 2 then b else a).getLsbD
        (i % 32) := by
  have h1 := BitVec.getLsbD_append (x := a ++ b ++ c) (y := d) (i := i)
  have h2 := BitVec.getLsbD_append (x := a ++ b) (y := c) (i := i - 32)
  have h3 := BitVec.getLsbD_append (x := a) (y := b) (i := i - 32 - 32)
  refine h1.trans ?_
  rw [h2, h3]
  split
  · rw [if_pos (by omega), show i % 32 = i by omega]
  split
  · rw [if_neg (by omega), if_pos (by omega), show i % 32 = i - 32 by omega]
  split
  · rw [if_neg (by omega), if_neg (by omega), if_pos (by omega), show i % 32 = i - 32 - 32 by omega]
  · rw [if_neg (by omega), if_neg (by omega), if_neg (by omega),
      show i % 32 = i - 32 - 32 - 32 by omega]

theorem getLsbD_mapDwords (f : BitVec 32 → BitVec 32) (v : BitVec 128) (hi : i < 128) :
    (mapDwords f v).getLsbD i = (f (v.extractLsb' (32 * (i / 32)) 32)).getLsbD (i % 32) := by
  rw [mapDwords, getLsbD_append_dwords _ _ _ _ hi]
  have hcases : i / 32 = 0 ∨ i / 32 = 1 ∨ i / 32 = 2 ∨ i / 32 = 3 := by omega
  obtain hq | hq | hq | hq := hcases <;> rw [hq] <;> rfl

theorem getLsbD_lowQ (hi : i < 64) : (lowQ v).getLsbD i = v.getLsbD i := by
  rw [lowQ, BitVec.getLsbD_extractLsb', decide_eq_true hi, Bool.true_and, Nat.zero_add]

theorem getLsbD_highQ (hi : i < 64) : (highQ v).getLsbD i = v.getLsbD (64 + i) := by
  rw [highQ, BitVec.getLsbD_extractLsb', decide_eq_true hi, Bool.true_and]

@[simp]
theorem lowQ_append (a b : BitVec 64) : lowQ (a ++ b) = b := by
  refine BitVec.eq_of_getLsbD_eq fun i hi => ?_
  rw [getLsbD_lowQ hi, BitVec.getLsbD_append, if_pos hi]

@[simp]
theorem highQ_append (a b : BitVec 64) : highQ (a ++ b) = a := by
  refine BitVec.eq_of_getLsbD_eq fun i hi => ?_
  rw [getLsbD_highQ hi, BitVec.getLsbD_append, if_neg (by omega), Nat.add_sub_cancel_left]

theorem append_highQ_lowQ (v : BitVec 128) : highQ v ++ lowQ v = v := by
  refine BitVec.eq_of_getLsbD_eq fun i hi => ?_
  rw [BitVec.getLsbD_append]
  split
  · next hlow => exact getLsbD_lowQ hlow
  · next hhigh => rw [getLsbD_highQ (by omega), show 64 + (i - 64) = i by omega]

end Elements

end IsalCrypto.Aes
