import IsalCrypto.Lib.Window
import IsalCrypto.RollingHash.Hash2

/-!
# What the base scanner finds

`untilLoop_spec` says where `_rolling_hash2_run_until_base` stops for any sequence `H` of hash
values that follows its recurrence: after the first byte whose hash matches, or at `max_idx`.
`scanHash` is such a sequence in closed form.
-/

namespace IsalCrypto.RollingHash

open IsalCrypto.Lib

theorem rol1_eq_rotateLeft (h : BitVec 64) : rol1 h = h.rotateLeft 1 := by
  rw [BitVec.rotateLeft_def]
  rfl

theorem rotateRight_63_eq_rol1 (h : BitVec 64) : h.rotateRight 0x3f = rol1 h := by
  rw [BitVec.rotateRight_def, rol1, BitVec.or_comm]

/-- The hash after the `n` bytes of `b1` and `b2` from index `idx` on, started from `h`. -/
def scanHash (t1 t2 : Byte → BitVec 64) (b1 b2 : ℤ → Byte) (h : BitVec 64) (idx n : ℕ) :
    BitVec 64 :=
  h.rotateLeft n ^^^ rotXor (fun k => t1 (b1 k) ^^^ t2 (b2 k)) (window (fun k : ℕ => (k : ℤ)) idx n)

@[simp] theorem scanHash_zero (t1 t2 : Byte → BitVec 64) (b1 b2 : ℤ → Byte) (h : BitVec 64)
    (idx : ℕ) : scanHash t1 t2 b1 b2 h idx 0 = h := by
  simp [scanHash, window, rotateLeft_zero_right]

theorem scanHash_succ (t1 t2 : Byte → BitVec 64) (b1 b2 : ℤ → Byte) (h : BitVec 64) (idx n : ℕ) :
    scanHash t1 t2 b1 b2 h idx (n + 1) =
      rol1 (scanHash t1 t2 b1 b2 h idx n) ^^^
        (t1 (b1 (idx + n : ℕ)) ^^^ t2 (b2 (idx + n : ℕ))) := by
  rw [scanHash, window_succ_right, rotXor_concat, rol1_eq_rotateLeft, scanHash, rotateLeft_xor,
    rotateLeft_rotateLeft, BitVec.xor_assoc]

/-- The values of `H` follow the scanner's recurrence on the indices from `lo` to `hi`. -/
def Follows (t1 t2 : Byte → BitVec 64) (b1 b2 : ℤ → Byte) (H : ℕ → BitVec 64) (lo hi : ℕ) : Prop :=
  ∀ k, lo ≤ k → k < hi → H (k + 1) = rol1 (H k) ^^^ (t1 (b1 k) ^^^ t2 (b2 k))

/-- `scanHash` as a sequence over absolute indices. -/
theorem follows_scanHash (t1 t2 : Byte → BitVec 64) (b1 b2 : ℤ → Byte) (h : BitVec 64)
    (idx hi : ℕ) :
    Follows t1 t2 b1 b2 (fun k => scanHash t1 t2 b1 b2 h idx (k - idx)) idx hi := by
  intro k hk _
  simp only
  rw [show k + 1 - idx = (k - idx) + 1 by omega, scanHash_succ, show idx + (k - idx) = k by omega]

/-- A scan that ran from `lo` to `hi` without a match, or stopped after its first match `j`. -/
inductive Stops (H : ℕ → BitVec 64) (mask cmp : BitVec 64) (lo hi : ℕ) : ℤ × BitVec 64 → Prop
  | max : (∀ q, lo < q → q ≤ hi → H q &&& mask ≠ cmp) → Stops H mask cmp lo hi ((hi : ℤ), H hi)
  | hit (j : ℕ) : lo < j → j ≤ hi → H j &&& mask = cmp →
      (∀ q, lo < q → q < j → H q &&& mask ≠ cmp) → Stops H mask cmp lo hi ((j : ℤ) - 1, H j)

theorem untilLoop_spec {t1 t2 : Byte → BitVec 64} {b1 b2 : ℤ → Byte} {H : ℕ → BitVec 64}
    {mask cmp : BitVec 64} {hi : ℕ} (n : ℕ) :
    ∀ lo, lo + n = hi → Follows t1 t2 b1 b2 H lo hi →
      Stops H mask cmp lo hi (untilLoop t1 t2 b1 b2 mask cmp n lo (H lo)) := by
  induction n with
  | zero =>
    intro lo hlo _
    obtain rfl : lo = hi := by omega
    exact .max fun q h1 h2 => by omega
  | succ n ih =>
    intro lo hlo hf
    have hstep : rol1 (H lo) ^^^ (t1 (b1 lo) ^^^ t2 (b2 lo)) = H (lo + 1) :=
      (hf lo (Nat.le_refl _) (by omega)).symm
    simp only [untilLoop_succ, hstep]
    split
    · next hhit =>
      have h : Stops H mask cmp lo hi (((lo + 1 : ℕ) : ℤ) - 1, H (lo + 1)) :=
        .hit (lo + 1) (by omega) (by omega) hhit fun q h1 h2 => by omega
      simpa using h
    · next hmiss =>
      have hrec := ih (lo + 1) (by omega) fun k h1 h2 => hf k (by omega) h2
      rw [Nat.cast_add, Nat.cast_one] at hrec
      -- the byte at `lo` is one more that did not match
      have hext : ∀ q, lo < q → (lo + 1 < q → H q &&& mask ≠ cmp) → H q &&& mask ≠ cmp := by
        intro q hq hrest
        rcases Nat.lt_or_ge (lo + 1) q with h | h
        · exact hrest h
        · obtain rfl : q = lo + 1 := by omega
          exact hmiss
      revert hrec
      generalize untilLoop t1 t2 b1 b2 mask cmp n ((lo : ℤ) + 1) (H (lo + 1)) = r
      intro hrec
      cases hrec with
      | max hall => exact .max fun q h1 h2 => hext q h1 fun h => hall q h h2
      | hit j h1 h2 h3 h4 =>
        exact .hit j (by omega) h2 h3 fun q h5 h6 => hext q h5 fun h => h4 q h h6

/-- Where the base scanner stops: both of its branches compare with `trigger`. -/
theorem rollingHash2RunUntilBase_spec {t1 t2 : Byte → BitVec 64} {b1 b2 : ℤ → Byte}
    {H : ℕ → BitVec 64} (mask trigger : BitVec 64) {idx : BitVec 32} {hi : ℕ}
    (hidx : idx.toNat ≤ hi) (hhi : hi < 2 ^ 31) (hf : Follows t1 t2 b1 b2 H idx.toNat hi) :
    ∃ r : ℤ × BitVec 64, Stops H mask trigger idx.toNat hi r ∧
      rollingHash2RunUntilBase idx hi t1 t2 b1 b2 (H idx.toNat) mask trigger =
        (BitVec.ofInt 32 r.1, r.2) := by
  have hint : idx.toInt = (idx.toNat : ℤ) := BitVec.toInt_eq_toNat_of_lt (by omega)
  have hcount : ((hi : ℤ) - idx.toNat).toNat = hi - idx.toNat := by omega
  refine ⟨_, untilLoop_spec (hi - idx.toNat) idx.toNat (by omega) hf, ?_⟩
  rw [rollingHash2RunUntilBase_eq, hint, hcount]

end IsalCrypto.RollingHash
