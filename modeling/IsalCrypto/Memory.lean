import IsalCrypto.Api
import Mathlib.Tactic.IntervalCases

/-!
# Memory

A `uint8_t` array inside a structure is a function from its indices. Words are stored as a
little-endian host does.
-/

namespace IsalCrypto

/-- `memcpy(dst + d, src, n)` on a fixed array. -/
def memcpyAt {size : ℕ} (dst : Fin size → Byte) (d : ℕ) (src : ℕ → Byte) (n : ℕ) :
    Fin size → Byte :=
  fun k => if d ≤ k ∧ k < d + n then src (k - d) else dst k

theorem memcpyAt_congr {size : ℕ} (dst : Fin size → Byte) (d : ℕ) {x y : ℕ → Byte} {n : ℕ}
    (h : ∀ k < n, x k = y k) : memcpyAt dst d x n = memcpyAt dst d y n := by
  funext k
  unfold memcpyAt
  split
  · next hk => exact h _ (by omega)
  · rfl

/-- The bytes of an array, and zeros behind it. -/
def arrayBytes {size : ℕ} (a : Fin size → Byte) (k : ℕ) : Byte :=
  if h : k < size then a ⟨k, h⟩ else 0#8

section

variable {size : ℕ} {dst : Fin size → Byte} {src : ℕ → Byte} {d n k : ℕ}

theorem arrayBytes_memcpyAt (h1 : d ≤ k) (h2 : k < d + n) (hk : k < size) :
    arrayBytes (memcpyAt dst d src n) k = src (k - d) := by
  rw [arrayBytes, dif_pos hk, memcpyAt, if_pos ⟨h1, h2⟩]

theorem arrayBytes_memcpyAt_lt (h : k < d) :
    arrayBytes (memcpyAt dst d src n) k = arrayBytes dst k := by
  unfold arrayBytes memcpyAt
  split
  · exact if_neg fun hd => absurd hd.1 (Nat.not_le.mpr h)
  · rfl

theorem arrayBytes_memcpyAt_ge (h : d + n ≤ k) :
    arrayBytes (memcpyAt dst d src n) k = arrayBytes dst k := by
  unfold arrayBytes memcpyAt
  split
  · exact if_neg fun hd => absurd hd.2 (Nat.not_lt.mpr h)
  · rfl

end

/-! ## Loads that need not see a store

Bytes are stored as a `uint64_t` and loaded as `uint32_t`. Where a compiler sees both accesses, the
rule on the types of objects lets it take the store not to change what is loaded. -/

/-- What the loads of words see of an array. `sees i` says whether the load of word `i` comes with
the bytes after the store, or with those before it. -/
def seenBytes (sees : ℕ → Bool) (before after : ℕ → Byte) (k : ℕ) : Byte :=
  if sees (k / 4) then after k else before k

theorem seenBytes_of_sees {sees : ℕ → Bool} {before after : ℕ → Byte} {k : ℕ}
    (h : before k ≠ after k → sees (k / 4) = true) : seenBytes sees before after k = after k := by
  rw [seenBytes]
  split
  · rfl
  · next hunseen => exact not_not.mp fun hne => hunseen (h hne)

/-- Only the loads of the words stored to have to see the store. -/
theorem seenBytes_memcpyAt {sees : ℕ → Bool} {size : ℕ} (a : Fin size → Byte) (d : ℕ)
    (src : ℕ → Byte) (n : ℕ) (h : ∀ k, d ≤ k → k < d + n → sees (k / 4) = true) :
    seenBytes sees (arrayBytes a) (arrayBytes (memcpyAt a d src n)) =
      arrayBytes (memcpyAt a d src n) := by
  funext k
  refine seenBytes_of_sees fun hne => ?_
  by_cases hlow : k < d
  · exact absurd (arrayBytes_memcpyAt_lt hlow).symm hne
  by_cases hhigh : d + n ≤ k
  · exact absurd (arrayBytes_memcpyAt_ge hhigh).symm hne
  exact h k (Nat.le_of_not_lt hlow) (Nat.lt_of_not_le hhigh)

/-! ## Words -/

/-- The `uint32_t` at `x + k`. -/
def load32 (x : ℕ → Byte) (k : ℕ) : BitVec 32 := x (k + 3) ++ x (k + 2) ++ x (k + 1) ++ x k

/-- The `uint64_t` at `x + k`. -/
def load64 (x : ℕ → Byte) (k : ℕ) : BitVec 64 := load32 x (k + 4) ++ load32 x k

/-- The eight bytes that `to_be64` stores. -/
def be64Bytes (v : BitVec 64) (k : ℕ) : Byte := (v >>> (8 * (7 - k))).setWidth 8

/-- `byteswap32`. -/
def byteswap32 (x : BitVec 32) : BitVec 32 :=
  (x <<< 24) ||| ((x &&& 0xff00#32) <<< 8) ||| ((x &&& 0xff0000#32) >>> 8) ||| (x >>> 24)

/-- `to_be32`. -/
def toBe32 (x : BitVec 32) : BitVec 32 := byteswap32 x

/-- A byte of a word cut out of a longer number. -/
theorem setWidth_ushiftRight_ofNat (v s : ℕ) (hs : s + 8 ≤ 64) :
    ((BitVec.ofNat 64 v) >>> s).setWidth 8 = BitVec.ofNat 8 (v >>> s) := by
  refine BitVec.eq_of_getLsbD_eq fun i hi => ?_
  simp only [BitVec.getLsbD_setWidth, BitVec.getLsbD_ushiftRight, BitVec.getLsbD_ofNat, hi,
    decide_true, Bool.true_and, Nat.testBit_shiftRight]
  rw [decide_eq_true (by omega), Bool.true_and]

theorem be64Bytes_ofNat (v : ℕ) {k : ℕ} (hk : k < 8) :
    be64Bytes (BitVec.ofNat 64 v) k = BitVec.ofNat 8 (v >>> (8 * (7 - k))) :=
  setWidth_ushiftRight_ofNat _ _ (by omega)

theorem getLsbD_append_bytes (a b c d : Byte) (i : ℕ) :
    (a ++ b ++ c ++ d : BitVec 32).getLsbD i =
      if i < 8 then d.getLsbD i else if i < 16 then c.getLsbD (i - 8)
      else if i < 24 then b.getLsbD (i - 16) else a.getLsbD (i - 24) := by
  have h1 := BitVec.getLsbD_append (x := a ++ b ++ c) (y := d) (i := i)
  have h2 := BitVec.getLsbD_append (x := a ++ b) (y := c) (i := i - 8)
  have h3 := BitVec.getLsbD_append (x := a) (y := b) (i := i - 8 - 8)
  refine h1.trans ?_
  rw [h2, h3]
  grind

theorem getLsbD_load32 {x : ℕ → Byte} {a i : ℕ} (hi : i < 32) :
    (load32 x a).getLsbD i = (x (a + i / 8)).getLsbD (i % 8) := by
  rw [load32, getLsbD_append_bytes]
  split
  · rw [show i / 8 = 0 by omega, show i % 8 = i by omega, Nat.add_zero]
  split
  · rw [show i / 8 = 1 by omega, show i % 8 = i - 8 by omega]
  split
  · rw [show i / 8 = 2 by omega, show i % 8 = i - 16 by omega]
  · rw [show i / 8 = 3 by omega, show i % 8 = i - 24 by omega]

theorem getLsbD_load64 {x : ℕ → Byte} {a i : ℕ} (hi : i < 64) :
    (load64 x a).getLsbD i = (x (a + i / 8)).getLsbD (i % 8) := by
  rw [load64, BitVec.getLsbD_append]
  split
  · next hlow => exact getLsbD_load32 hlow
  · next hhigh =>
    rw [getLsbD_load32 (by omega), show a + 4 + (i - 32) / 8 = a + i / 8 by omega,
      show (i - 32) % 8 = i % 8 by omega]

theorem toBe32_append (a b c d : Byte) : toBe32 (d ++ c ++ b ++ a) = a ++ b ++ c ++ d := by
  refine BitVec.eq_of_getLsbD_eq fun i hi => ?_
  rw [getLsbD_append_bytes, toBe32, byteswap32]
  simp only [BitVec.getLsbD_or, BitVec.getLsbD_shiftLeft, BitVec.getLsbD_ushiftRight,
    BitVec.getLsbD_and, getLsbD_append_bytes]
  interval_cases i <;> simp

end IsalCrypto
