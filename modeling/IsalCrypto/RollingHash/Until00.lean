import IsalCrypto.RollingHash.Scan

/-!
# The two-byte assembly scanner

`rolling_hash/rolling_hash2_until_00.asm`, one definition for each label of
`_rolling_hash2_run_until_00`. `pos` and `max` are the signed values of their registers; the
branches compare them signed, and neither leaves the range from `-2` to `2^31`.

The loop tests the hash after each of its two bytes. The odd last byte is hashed by
`.less_than_2` and stored past without a test, so a match on it is stored one too far:
`until00_eq_base_iff` says that this is the only difference from the base scanner.
-/

namespace IsalCrypto.RollingHash

open IsalCrypto.Lib

section Asm

variable (t1 t2 : Byte → BitVec 64) (b1 b2 : ℤ → Byte) (mask trigger : BitVec 64)

/-- `.ret_0`: store the position and return. -/
def until00Ret0 (pos : ℤ) (hash : BitVec 64) : BitVec 32 × BitVec 64 :=
  (BitVec.ofInt 32 pos, hash)

/-- `.ret_1`: step over the byte just hashed. -/
def until00Ret1 (pos : ℤ) (hash : BitVec 64) : BitVec 32 × BitVec 64 :=
  until00Ret0 (pos + 1) hash

/-- `.less_than_2`: at most one byte is left, and it falls through into `.ret_1`. -/
def until00LessThan2 (max pos : ℤ) (hash : BitVec 64) : BitVec 32 × BitVec 64 :=
  let max := max + 1
  if pos > max then until00Ret0 pos hash
  else
    let hash := hash.rotateRight 0x3f
    let z := t1 (b1 pos) ^^^ t2 (b2 pos)
    until00Ret1 pos (hash ^^^ z)

/-- `.loop2`. -/
def until00Loop2 (max pos : ℤ) (hash : BitVec 64) : BitVec 32 × BitVec 64 :=
  let hash := hash.rotateRight 0x3f
  let x := b1 pos
  let a := b1 (pos + 1)
  let y := b2 pos
  let h := b2 (pos + 1)
  let hash := hash ^^^ (t1 x ^^^ t2 y)
  if hash &&& mask = trigger then until00Ret0 pos hash
  else
    let hash := hash.rotateRight 0x3f
    let hash := hash ^^^ (t1 a ^^^ t2 h)
    if hash &&& mask = trigger then until00Ret1 pos hash
    else
      let pos := pos + 2
      if pos ≤ max then until00Loop2 max pos hash
      else until00LessThan2 t1 t2 b1 b2 max pos hash
termination_by (max - pos).toNat

end Asm

/-- `_rolling_hash2_run_until_00`. -/
def rollingHash2RunUntil00 (idx : BitVec 32) (maxIdx : ℤ) (t1 t2 : Byte → BitVec 64)
    (b1 b2 : ℤ → Byte) (hash mask trigger : BitVec 64) : BitVec 32 × BitVec 64 :=
  let pos : ℤ := idx.toNat
  let max := maxIdx - 2
  if pos > max then until00LessThan2 t1 t2 b1 b2 max pos hash
  else until00Loop2 t1 t2 b1 b2 mask trigger max pos hash

/-! ## Where it stops -/

/-- How the assembly stops after scanning from `lo` to `hi`. -/
inductive Stops00 (H : ℕ → BitVec 64) (mask trigger : BitVec 64) (lo hi : ℕ) :
    ℤ × BitVec 64 → Prop
  /-- An odd last byte is consumed whether it matches or not. -/
  | tail : (hi - lo) % 2 = 1 → (∀ q, lo < q → q < hi → H q &&& mask ≠ trigger) →
      Stops00 H mask trigger lo hi ((hi : ℤ), H hi)
  | max : (hi - lo) % 2 = 0 → (∀ q, lo < q → q ≤ hi → H q &&& mask ≠ trigger) →
      Stops00 H mask trigger lo hi ((hi : ℤ), H hi)
  | hit (j : ℕ) : lo < j → j ≤ hi → ((hi - lo) % 2 = 1 → j < hi) → H j &&& mask = trigger →
      (∀ q, lo < q → q < j → H q &&& mask ≠ trigger) →
      Stops00 H mask trigger lo hi ((j : ℤ) - 1, H j)

section Spec

variable {t1 t2 : Byte → BitVec 64} {b1 b2 : ℤ → Byte} {H : ℕ → BitVec 64}
  {mask trigger : BitVec 64}

theorem until00LessThan2_spec {lo hi : ℕ} (hlo : lo ≤ hi) (hle : hi < lo + 2)
    (hf : Follows t1 t2 b1 b2 H lo hi) :
    ∃ r : ℤ × BitVec 64, Stops00 H mask trigger lo hi r ∧
      until00LessThan2 t1 t2 b1 b2 ((hi : ℤ) - 2) lo (H lo) = (BitVec.ofInt 32 r.1, r.2) := by
  simp only [until00LessThan2, until00Ret1, until00Ret0, rotateRight_63_eq_rol1]
  split
  · next h =>
    obtain rfl : lo = hi := by omega
    exact ⟨_, .max (by omega) fun q h1 h2 => by omega, rfl⟩
  · next h =>
    obtain rfl : hi = lo + 1 := by omega
    refine ⟨_, .tail (by omega) fun q h1 h2 => by omega, ?_⟩
    rw [← hf lo (Nat.le_refl _) (by omega), Nat.cast_add, Nat.cast_one]

theorem until00Loop2_spec {hi : ℕ} (n : ℕ) :
    ∀ lo, lo + 2 ≤ hi → hi < lo + 2 * n → Follows t1 t2 b1 b2 H lo hi →
      ∃ r : ℤ × BitVec 64, Stops00 H mask trigger lo hi r ∧
        until00Loop2 t1 t2 b1 b2 mask trigger ((hi : ℤ) - 2) lo (H lo) =
          (BitVec.ofInt 32 r.1, r.2) := by
  induction n with
  | zero => intro lo h1 h2; omega
  | succ n ih =>
    intro lo hlo hn hf
    have h0 : rol1 (H lo) ^^^ (t1 (b1 lo) ^^^ t2 (b2 lo)) = H (lo + 1) :=
      (hf lo (Nat.le_refl _) (by omega)).symm
    have h1 : rol1 (H (lo + 1)) ^^^ (t1 (b1 ((lo : ℤ) + 1)) ^^^ t2 (b2 ((lo : ℤ) + 1))) =
        H (lo + 2) := by
      simpa using (hf (lo + 1) (by omega) (by omega)).symm
    rw [until00Loop2]
    simp only [until00Ret1, until00Ret0, rotateRight_63_eq_rol1, h0, h1]
    split
    · next hit1 =>
      refine ⟨_, .hit (lo + 1) (by omega) (by omega) (by omega) hit1 fun q _ _ => by omega, ?_⟩
      simp
    · next miss1 =>
      split
      · next hit2 =>
        refine ⟨_, .hit (lo + 2) (by omega) (by omega) (by omega) hit2 fun q h3 h4 => ?_, ?_⟩
        · obtain rfl : q = lo + 1 := by omega
          exact miss1
        · rw [show ((lo + 2 : ℕ) : ℤ) - 1 = (lo : ℤ) + 1 by omega]
      · next miss2 =>
        -- both bytes missed: what the rest does from `lo + 2` it does from `lo`
        have hext : ∀ q, lo < q → (lo + 2 < q → H q &&& mask ≠ trigger) →
            H q &&& mask ≠ trigger := by
          intro q hq hrest
          rcases Nat.lt_or_ge (lo + 2) q with h | h
          · exact hrest h
          · rcases (by omega : q = lo + 1 ∨ q = lo + 2) with rfl | rfl
            · exact miss1
            · exact miss2
        have hlift : ∀ r, Stops00 H mask trigger (lo + 2) hi r →
            Stops00 H mask trigger lo hi r := by
          intro r hr
          cases hr with
          | tail hp hall => exact .tail (by omega) fun q h3 h4 => hext q h3 fun h => hall q h h4
          | max hp hall => exact .max (by omega) fun q h3 h4 => hext q h3 fun h => hall q h h4
          | hit j h3 h4 h5 h6 h7 =>
            exact .hit j (by omega) h4 (fun hp => h5 (by omega)) h6
              fun q h8 h9 => hext q h8 fun h => h7 q h h9
        have hf' : Follows t1 t2 b1 b2 H (lo + 2) hi := fun k h3 h4 => hf k (by omega) h4
        have hcast : (lo : ℤ) + 2 = ((lo + 2 : ℕ) : ℤ) := by omega
        rw [hcast]
        split
        · next hmore =>
          obtain ⟨r, hr, he⟩ := ih (lo + 2) (by omega) (by omega) hf'
          exact ⟨r, hlift r hr, he⟩
        · next hdone =>
          obtain ⟨r, hr, he⟩ := until00LessThan2_spec (by omega) (by omega) hf'
          exact ⟨r, hlift r hr, he⟩

theorem rollingHash2RunUntil00_spec (mask trigger : BitVec 64) {idx : BitVec 32} {hi : ℕ}
    (hidx : idx.toNat ≤ hi) (hf : Follows t1 t2 b1 b2 H idx.toNat hi) :
    ∃ r : ℤ × BitVec 64, Stops00 H mask trigger idx.toNat hi r ∧
      rollingHash2RunUntil00 idx hi t1 t2 b1 b2 (H idx.toNat) mask trigger =
        (BitVec.ofInt 32 r.1, r.2) := by
  simp only [rollingHash2RunUntil00]
  split
  · next h => exact until00LessThan2_spec hidx (by omega) hf
  · next h => exact until00Loop2_spec hi idx.toNat (by omega) (by omega) hf

/-- The two ways of stopping store the same position exactly when the scan does not end on an odd
last byte that is its first match. -/
theorem stops00_eq_stops_iff {lo hi : ℕ} {r r' : ℤ × BitVec 64} (hlo : lo ≤ hi)
    (h0 : Stops00 H mask trigger lo hi r) (hb : Stops H mask trigger lo hi r') :
    r = r' ↔ ¬ ((hi - lo) % 2 = 1 ∧ H hi &&& mask = trigger ∧
      ∀ q, lo < q → q < hi → H q &&& mask ≠ trigger) := by
  cases h0 with
  | tail hp hall =>
    cases hb with
    | max hall' => simpa using fun _ hhit => absurd hhit (hall' hi (by omega) (Nat.le_refl _))
    | hit j h1 h2 h3 h4 =>
      have hj : j = hi := by
        by_contra hne
        exact hall j h1 (by omega) h3
      subst hj
      refine iff_of_false (fun he => ?_) fun hn => hn ⟨hp, h3, hall⟩
      have hfst := congrArg Prod.fst he
      simp only at hfst
      omega
  | max hp hall =>
    cases hb with
    | max _ => exact iff_of_true rfl fun h => by omega
    | hit j h1 h2 h3 _ => exact absurd h3 (hall j h1 h2)
  | hit j h1 h2 hodd h3 h4 =>
    have hgood : ¬ ((hi - lo) % 2 = 1 ∧ H hi &&& mask = trigger ∧
        ∀ q, lo < q → q < hi → H q &&& mask ≠ trigger) :=
      fun h => h.2.2 j h1 (hodd h.1) h3
    cases hb with
    | max hall => exact absurd h3 (hall j h1 h2)
    | hit i h5 h6 h7 h8 =>
      have hij : i = j := by
        rcases Nat.lt_trichotomy i j with h | h | h
        · exact absurd h7 (h4 i h5 h)
        · exact h
        · exact absurd h3 (h8 j h1 h)
      subst hij
      exact iff_of_true rfl hgood

end Spec

/-- The scan from `idx` covers an odd number of bytes and the last of them is the first whose hash
matches. -/
def OddLastByteHits (t1 t2 : Byte → BitVec 64) (b1 b2 : ℤ → Byte) (h mask trigger : BitVec 64)
    (idx maxIdx : ℕ) : Prop :=
  (maxIdx - idx) % 2 = 1 ∧ scanHash t1 t2 b1 b2 h idx (maxIdx - idx) &&& mask = trigger ∧
    ∀ n, 0 < n → n < maxIdx - idx → scanHash t1 t2 b1 b2 h idx n &&& mask ≠ trigger

theorem ofInt_inj_of_lt {a b : ℤ} (ha : 0 ≤ a) (ha' : a < 2 ^ 32) (hb : 0 ≤ b) (hb' : b < 2 ^ 32) :
    BitVec.ofInt 32 a = BitVec.ofInt 32 b ↔ a = b := by
  refine ⟨fun h => ?_, fun h => by rw [h]⟩
  have hnat := congrArg BitVec.toNat h
  rw [BitVec.toNat_ofInt, BitVec.toNat_ofInt] at hnat
  omega

/-- The assembly scanner stores the same index and returns the same hash as the base scanner
exactly when no match on an odd last byte ends the scan. -/
theorem until00_eq_base_iff (idx maxIdx : ℕ) (hidx : idx ≤ maxIdx) (hmax : maxIdx < 2 ^ 31)
    (t1 t2 : Byte → BitVec 64) (b1 b2 : ℤ → Byte) (h mask trigger : BitVec 64) :
    rollingHash2RunUntil00 (BitVec.ofNat 32 idx) maxIdx t1 t2 b1 b2 h mask trigger =
        rollingHash2RunUntilBase (BitVec.ofNat 32 idx) maxIdx t1 t2 b1 b2 h mask trigger ↔
      ¬ OddLastByteHits t1 t2 b1 b2 h mask trigger idx maxIdx := by
  have hnat : (BitVec.ofNat 32 idx).toNat = idx := by
    rw [BitVec.toNat_ofNat]
    omega
  let H : ℕ → BitVec 64 := fun k => scanHash t1 t2 b1 b2 h idx (k - idx)
  have hstart : H (BitVec.ofNat 32 idx).toNat = h := by simp [H, hnat]
  have hf : Follows t1 t2 b1 b2 H (BitVec.ofNat 32 idx).toNat maxIdx := by
    rw [hnat]
    exact follows_scanHash t1 t2 b1 b2 h idx maxIdx
  obtain ⟨r, hr, he⟩ := rollingHash2RunUntil00_spec mask trigger (by omega) hf
  obtain ⟨r', hr', he'⟩ := rollingHash2RunUntilBase_spec mask trigger (by omega) hmax hf
  rw [hstart] at he he'
  rw [hnat] at hr hr'
  have hodd : OddLastByteHits t1 t2 b1 b2 h mask trigger idx maxIdx ↔
      ((maxIdx - idx) % 2 = 1 ∧ H maxIdx &&& mask = trigger ∧
        ∀ q, idx < q → q < maxIdx → H q &&& mask ≠ trigger) := by
    refine and_congr_right fun _ => and_congr_right fun _ =>
      ⟨fun hall q h1 h2 => ?_, fun hall n h1 h2 => ?_⟩
    · exact hall (q - idx) (by omega) (by omega)
    · have := hall (idx + n) (by omega) (by omega)
      simpa [H] using this
  have hrange : 0 ≤ r.1 ∧ r.1 < 2 ^ 32 := by
    cases hr with
    | tail | max => simp only; omega
    | hit j h1 h2 => simp only; omega
  have hrange' : 0 ≤ r'.1 ∧ r'.1 < 2 ^ 32 := by
    cases hr' with
    | max => simp only; omega
    | hit j h1 h2 => simp only; omega
  rw [he, he', hodd, ← stops00_eq_stops_iff hidx hr hr', Prod.mk.injEq,
    ofInt_inj_of_lt hrange.1 hrange.2 hrange'.1 hrange'.2, Prod.ext_iff]

/-- Two bytes, hashed with the library's table from hash `0`, under a mask that always matches. -/
theorem until00_eq_base_iff_two :
    rollingHash2RunUntil00 (BitVec.ofNat 32 0) (2 : ℕ) rollingHash2Table1 rollingHash2Table1
        (fun _ => 0#8) (fun _ => 0#8) 0#64 0#64 0#64 =
      rollingHash2RunUntilBase (BitVec.ofNat 32 0) (2 : ℕ) rollingHash2Table1 rollingHash2Table1
        (fun _ => 0#8) (fun _ => 0#8) 0#64 0#64 0#64 :=
  (until00_eq_base_iff 0 2 (by decide) (by decide) _ _ _ _ _ _ _).mpr fun h => by
    have := h.1
    omega

/-- A one-byte scan under a mask and trigger of zero: the base scanner stores `0`, the assembly
stores `1`. -/
theorem until00_ne_base :
    rollingHash2RunUntil00 0#32 1 rollingHash2Table1 rollingHash2Table1 (fun _ => 0#8)
        (fun _ => 0#8) 0#64 0#64 0#64 ≠
      rollingHash2RunUntilBase 0#32 1 rollingHash2Table1 rollingHash2Table1 (fun _ => 0#8)
        (fun _ => 0#8) 0#64 0#64 0#64 := by
  decide

end IsalCrypto.RollingHash
