import IsalCrypto.RollingHash.Call
import IsalCrypto.RollingHash.Until00

/-!
# The assembly scanner with bit extraction

`rolling_hash/rolling_hash2_until_04.asm`. Its labels `.less_than_2`, `.ret_1` and `.ret_0` are
those of `_rolling_hash2_run_until_00`. It compares the bits of the hash and of the trigger that
the mask selects, so it stops where the scanner without bit extraction stops for the trigger
`trigger & mask` (`rollingHash2RunUntil04_eq`), while its caller compares with the whole trigger.
`rollingHash2Run_until04_eq_base_iff` says when a call of `_rolling_hash2_run` differs from one over
the base scanner.
-/

namespace IsalCrypto.RollingHash

/-- The positions of the set bits of a mask, in order. -/
def maskBits (mask : BitVec 64) : List ℕ := (List.range 64).filter fun i => mask.getLsbD i

/-- `pext dest, src, mask`. -/
def pext (src mask : BitVec 64) : BitVec 64 :=
  (BitVec.ofBoolListLE ((maskBits mask).map src.getLsbD)).setWidth 64

section Asm

variable (t1 t2 : Byte → BitVec 64) (b1 b2 : ℤ → Byte) (mask trigger : BitVec 64)

/-- `.loop2`. -/
def until04Loop2 (max pos : ℤ) (hash : BitVec 64) : BitVec 32 × BitVec 64 :=
  let hash := hash.rotateRight 0x3f
  let x := b1 pos
  let a := b1 (pos + 1)
  let y := b2 pos
  let h := b2 (pos + 1)
  let hash := hash ^^^ (t1 x ^^^ t2 y)
  if pext hash mask = trigger then until00Ret0 pos hash
  else
    let hash := hash.rotateRight 0x3f
    let hash := hash ^^^ (t1 a ^^^ t2 h)
    if pext hash mask = trigger then until00Ret1 pos hash
    else
      let pos := pos + 2
      if pos ≤ max then until04Loop2 max pos hash
      else until00LessThan2 t1 t2 b1 b2 max pos hash
termination_by (max - pos).toNat

end Asm

/-- `_rolling_hash2_run_until_04`. -/
def rollingHash2RunUntil04 (idx : BitVec 32) (maxIdx : ℤ) (t1 t2 : Byte → BitVec 64)
    (b1 b2 : ℤ → Byte) (hash mask trigger : BitVec 64) : BitVec 32 × BitVec 64 :=
  let pos : ℤ := idx.toNat
  let trigger := pext trigger mask
  let max := maxIdx - 2
  if pos > max then until00LessThan2 t1 t2 b1 b2 max pos hash
  else until04Loop2 t1 t2 b1 b2 mask trigger max pos hash

/-! ## Equal extracts -/

theorem length_maskBits_le (mask : BitVec 64) : (maskBits mask).length ≤ 64 := by
  have hle := List.length_filter_le (fun i => mask.getLsbD i) (List.range 64)
  rwa [List.length_range] at hle

/-- The extracted bit `j` is the source bit at the `j`-th position of the mask. -/
theorem getLsbD_pext (src mask : BitVec 64) {j : ℕ} (hj : j < (maskBits mask).length) :
    (pext src mask).getLsbD j = src.getLsbD ((maskBits mask)[j]) := by
  have hle := length_maskBits_le mask
  rw [pext, BitVec.getLsbD_setWidth, decide_eq_true (by omega), Bool.true_and,
    BitVec.getLsbD_ofBoolListLE, List.getD_eq_getElem?_getD, List.getElem?_map,
    List.getElem?_eq_getElem hj]
  rfl

/-- Extracts are equal when the masked values are. -/
theorem pext_eq_iff (a b mask : BitVec 64) :
    pext a mask = pext b mask ↔ a &&& mask = b &&& mask := by
  constructor
  · intro h
    refine BitVec.eq_of_getLsbD_eq fun i hi => ?_
    rw [BitVec.getLsbD_and, BitVec.getLsbD_and]
    cases hm : mask.getLsbD i with
    | false => rw [Bool.and_false, Bool.and_false]
    | true =>
      have hmem : i ∈ maskBits mask :=
        List.mem_filter.mpr ⟨List.mem_range.mpr hi, hm⟩
      obtain ⟨j, hj, rfl⟩ := List.getElem_of_mem hmem
      rw [← getLsbD_pext a mask hj, h, getLsbD_pext b mask hj]
  · intro h
    have hbits : (maskBits mask).map a.getLsbD = (maskBits mask).map b.getLsbD := by
      refine List.map_congr_left fun i hi => ?_
      have hm : mask.getLsbD i = true := (List.mem_filter.mp hi).2
      have hbit := congrArg (BitVec.getLsbD · i) h
      simpa only [BitVec.getLsbD_and, hm, Bool.and_true] using hbit
    rw [pext, pext, hbits]

section Equal

variable {t1 t2 : Byte → BitVec 64} {b1 b2 : ℤ → Byte}

theorem until04Loop2_eq (mask trigger : BitVec 64) (max : ℤ) (n : ℕ) :
    ∀ pos hash, (max - pos).toNat = n →
      until04Loop2 t1 t2 b1 b2 mask (pext trigger mask) max pos hash =
        until00Loop2 t1 t2 b1 b2 mask (trigger &&& mask) max pos hash := by
  induction n using Nat.strong_induction_on with
  | h n ih =>
    intro pos hash hn
    rw [until04Loop2, until00Loop2]
    simp only [pext_eq_iff]
    split
    · rfl
    split
    · rfl
    split
    · exact ih (max - (pos + 2)).toNat (by omega) _ _ rfl
    · rfl

/-- It is the scanner without bit extraction, for the part of the trigger under the mask. -/
theorem rollingHash2RunUntil04_eq (idx : BitVec 32) (maxIdx : ℤ) (hash mask trigger : BitVec 64) :
    rollingHash2RunUntil04 idx maxIdx t1 t2 b1 b2 hash mask trigger =
      rollingHash2RunUntil00 idx maxIdx t1 t2 b1 b2 hash mask (trigger &&& mask) := by
  rw [rollingHash2RunUntil04, rollingHash2RunUntil00]
  split
  · rfl
  · exact until04Loop2_eq mask trigger _ _ _ _ rfl

end Equal

section Stop

variable {H : ℕ → BitVec 64} {mask trigger : BitVec 64} {lo hi : ℕ} {r : ℤ × BitVec 64}

/-- Where the base scanner stops when the last byte is its first match. -/
theorem Stops.eq_of_first (hs : Stops H mask trigger lo hi r) (hlt : lo < hi)
    (hhit : H hi &&& mask = trigger)
    (hmiss : ∀ q, lo < q → q < hi → H q &&& mask ≠ trigger) : r = ((hi : ℤ) - 1, H hi) := by
  cases hs with
  | max hall => exact absurd hhit (hall hi hlt (Nat.le_refl _))
  | hit j h1 h2 h3 _ =>
    rcases Nat.lt_or_ge j hi with h | h
    · exact absurd h3 (hmiss j h1 h)
    · rw [Nat.le_antisymm h2 h]

/-- Where the assembly stops when it does not test the first match. -/
theorem Stops00.eq_of_first (hs : Stops00 H mask trigger lo hi r) (hodd : (hi - lo) % 2 = 1)
    (hmiss : ∀ q, lo < q → q < hi → H q &&& mask ≠ trigger) : r = ((hi : ℤ), H hi) := by
  cases hs with
  | tail => rfl
  | max => rfl
  | hit j h1 _ h3 h4 _ => exact absurd h4 (hmiss j h1 (h3 hodd))

end Stop

/-! ## A call of `_rolling_hash2_run` -/

/-- A call differs from one over the base scanner. For a trigger under the mask, the first match is
on the last byte of an odd number. For any other, the part of it under the mask is matched at a byte
that is tested. -/
def Until04Differs (st : RhState2) (buffer : ℤ → Byte) (len : ℕ) (mask trigger : BitVec 64) :
    Prop :=
  Scans st buffer len mask trigger ∧
    if trigger &&& mask = trigger then
      (len - st.w.toNat) % 2 = 1 ∧ bufferHash st buffer len &&& mask = trigger ∧
        ∀ q, st.w.toNat < q → q < len → bufferHash st buffer q &&& mask ≠ trigger
    else
      ∃ q, st.w.toNat < q ∧ q ≤ len ∧ ((len - st.w.toNat) % 2 = 1 → q < len) ∧
        bufferHash st buffer q &&& mask = trigger &&& mask

/-- A call over the bit-extracting scanner is the call over the base scanner exactly when none of
the two things in `Until04Differs` happens. -/
theorem rollingHash2Run_until04_eq_base_iff (st : RhState2) (buffer : ℤ → Byte)
    (len mask trigger : BitVec 32) (hlen : len.toNat < 2 ^ 31) :
    rollingHash2Run rollingHash2RunUntil04 st buffer len mask trigger =
        rollingHash2Run rollingHash2RunUntilBase st buffer len mask trigger ↔
      ¬ Until04Differs st buffer len.toNat (mask.setWidth 64) (trigger.setWidth 64) := by
  rw [rollingHash2Run_eq_iff, Until04Differs]
  generalize mask.setWidth 64 = mask
  generalize trigger.setWidth 64 = trigger
  rw [not_and]
  refine forall_congr' fun hs => ?_
  have hint : len.toInt = (len.toNat : ℤ) := BitVec.toInt_eq_toNat_of_lt (by omega)
  have hf := follows_bufferHash st buffer len.toNat
  obtain ⟨r, hr, he⟩ := rollingHash2RunUntil00_spec mask (trigger &&& mask) hs.1 hf
  obtain ⟨r', hr', he'⟩ := rollingHash2RunUntilBase_spec mask trigger hs.1 hlen hf
  rw [hint, rollingHash2RunUntil04_eq, he, he']
  split
  · next hunder =>
    rw [hunder] at hr
    refine ⟨fun heq hodd => ?_, fun hgood => ?_⟩
    · obtain rfl := hr.eq_of_first hodd.1 hodd.2.2
      obtain rfl := hr'.eq_of_first (by omega) hodd.2.1 hodd.2.2
      refine absurd heq (scanResult_ne_of_offset Iff.rfl fun hoff => ?_)
      rw [ofInt_inj_of_lt (by omega) (by omega) (by omega) (by omega)] at hoff
      omega
    · rw [(stops00_eq_stops_iff hs.1 hr hr').mpr hgood]
  · next hbits =>
    -- a masked value has no bit outside the mask, so the base scanner and the caller never match
    have hnone : ∀ x : BitVec 64, x &&& mask ≠ trigger := by
      rintro x rfl
      exact hbits (by rw [BitVec.and_assoc, BitVec.and_self])
    cases hr' with
    | hit j _ _ hhit => exact absurd hhit (hnone _)
    | max _ =>
      cases hr with
      | tail hp hall =>
        refine iff_of_true rfl ?_
        rintro ⟨q, h1, _, h3, h4⟩
        exact hall q h1 (h3 hp) h4
      | max hp hall =>
        refine iff_of_true rfl ?_
        rintro ⟨q, h1, h2, _, h4⟩
        exact hall q h1 h2 h4
      | hit j h1 h2 h3 h4 _ =>
        refine iff_of_false (scanResult_ne_of_offset ?_ fun hoff => ?_) fun h =>
          h ⟨j, h1, h2, h3, h4⟩
        · exact iff_of_false (hnone _) (hnone _)
        · rw [ofInt_inj_of_lt (by omega) (by omega) (by omega) (by omega)] at hoff
          omega

/-- A state with a window of one byte, whose hash is zero. -/
def RhState2.oneByte : RhState2 :=
  ⟨fun _ => 0#8, rollingHash2Table1, fun b => (rollingHash2Table1 b).rotateLeft 1, 0#64, 1#32⟩

/-- A window of one byte and four bytes behind it, which the scanners take two at a time. -/
theorem rollingHash2Run_until04_eq_base_iff_five :
    rollingHash2Run rollingHash2RunUntil04 .oneByte
      (fun i => BitVec.ofInt 8 i) 5#32 0xff#32 0x2a#32 =
      rollingHash2Run rollingHash2RunUntilBase .oneByte (fun i => BitVec.ofInt 8 i) 5#32 0xff#32
        0x2a#32 := by
  refine (rollingHash2Run_until04_eq_base_iff .oneByte (fun i => BitVec.ofInt 8 i) 5#32 0xff#32
    0x2a#32 (by decide)).mpr ?_
  rintro ⟨-, hdiffers⟩
  rw [if_pos (by decide)] at hdiffers
  exact absurd hdiffers.1 (by decide)

/-- Under a mask of zero the extracts of any two values are equal. -/
theorem until04Loop2_zero_mask (t1 t2 : Byte → BitVec 64) (b1 b2 : ℤ → Byte)
    (trigger hash : BitVec 64) (max pos : ℤ) :
    until04Loop2 t1 t2 b1 b2 0#64 (pext trigger 0#64) max pos hash =
      (BitVec.ofInt 32 pos, hash.rotateRight 0x3f ^^^ (t1 (b1 pos) ^^^ t2 (b2 pos))) := by
  rw [until04Loop2]
  simp only
  rw [if_pos ((pext_eq_iff _ _ _).mpr (by rw [BitVec.and_zero, BitVec.and_zero])), until00Ret0]

/-- Three bytes under a mask of zero and a trigger of one: no hash matches, and the call over the
bit-extracting scanner ends after the first byte without a hit. -/
theorem rollingHash2Run_until04_stops_early :
    let run (runUntil : RunUntil) :=
      rollingHash2Run runUntil .oneByte (fun _ => 0#8) 3#32 0#32 1#32
    (run rollingHash2RunUntil04).offset = 1#32 ∧ (run rollingHash2RunUntil04).ret = .max ∧
      (run rollingHash2RunUntilBase).offset = 3#32 ∧ (run rollingHash2RunUntilBase).ret = .max := by
  intro run
  have hscan : run rollingHash2RunUntil04 = rollingHash2Run (fun _ _ t1 t2 b1 b2 h _ _ =>
      (1#32, h.rotateRight 0x3f ^^^ (t1 (b1 1) ^^^ t2 (b2 1)))) .oneByte (fun _ => 0#8) 3#32 0#32
      1#32 := by
    refine (rollingHash2Run_eq_iff _ _).mpr fun _ => congrArg _ ?_
    rw [rollingHash2RunUntil04]
    exact (if_neg (by decide)).trans (until04Loop2_zero_mask ..)
  rw [hscan]
  refine ⟨?_, ?_, ?_, ?_⟩ <;> decide +kernel

end IsalCrypto.RollingHash
