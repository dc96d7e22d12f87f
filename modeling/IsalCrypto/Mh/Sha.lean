import IsalCrypto.Lib.MerkleDamgard
import IsalCrypto.Memory

/-!
# The second hash of a multi-hash

`mh_sha1/sha1_for_mh_sha1.c` and `mh_sha256/sha256_for_mh_sha256.c`: the whole blocks of a buffer,
then its last bytes and the padding from a copy of two blocks. The length at its end is stored as a
`uint64_t` and loaded as `uint32_t`; `sees` says which of these loads see it.

* `shaForMh_absorb`: the function compresses the blocks of `shaStream`.
* `shaForMh_eq`: when the loads see the length, it is the Merkle-Damgård hash of its input.
-/

namespace IsalCrypto.Mh

open IsalCrypto.Lib

variable {D : Type*} (single : (ℕ → Byte) → D → D)

/-- The loop over the whole blocks: what is left of the input, its length, and the digest. -/
def shaLoop (input : ℕ → Byte) (i : ℕ) (digest : D) : (ℕ → Byte) × ℕ × D :=
  if i ≥ 64 then shaLoop (fun k => input (64 + k)) (i - 64) (single input digest)
  else (input, i, digest)
termination_by i

/-- The copy of the last bytes with the bit and the zeros behind them, and where the padding
ends. -/
def shaCopy (buf : Fin 128 → Byte) (input : ℕ → Byte) (i : ℕ) : (Fin 128 → Byte) × ℕ :=
  let buf := memcpyAt buf 0 input i
  let buf := memcpyAt buf i (fun _ => 0x80#8) 1
  let i := i + 1
  let buf := memcpyAt buf i (fun _ => 0#8) (2 * 64 - 8 - i)
  (buf, if i > 64 - 8 then 2 * 64 else 64)

/-- The copy with the length at the end of the padding. -/
def shaPad (buf : Fin 128 → Byte) (input : ℕ → Byte) (i : ℕ) (len : BitVec 32) :
    (Fin 128 → Byte) × ℕ :=
  let p := shaCopy buf input i
  (memcpyAt p.1 (p.2 - 8) (be64Bytes (len.setWidth 64 * 8#64)) 8, p.2)

/-- What the block function loads from the copy. -/
def shaSeen (sees : ℕ → Bool) (buf : Fin 128 → Byte) (input : ℕ → Byte) (i : ℕ) (len : BitVec 32) :
    ℕ → Byte :=
  seenBytes sees (arrayBytes (shaCopy buf input i).1) (arrayBytes (shaPad buf input i len).1)

/-- `_sha1_for_mh_sha1`, `sha256_for_mh_sha256`; `buf` is what the stack holds in their array. -/
def shaForMh (sees : ℕ → Bool) (h : D) (buf : Fin 128 → Byte) (input : ℕ → Byte) (len : BitVec 32) :
    D :=
  let r := shaLoop single input len.toNat h
  let p := shaPad buf r.1 r.2.1 len
  let seen := shaSeen sees buf r.1 r.2.1 len
  let digest := single seen r.2.2
  if p.2 = 2 * 64 then single (fun k => seen (64 + k)) digest else digest

/-! ## The blocks -/

variable {single} {f : D → List Byte → D}

/-- One call of the block function is one compression. -/
def Compresses (single : (ℕ → Byte) → D → D) (f : D → List Byte → D) : Prop :=
  ∀ x d, single x d = f d (window x 0 64)

theorem shaLoop_eq (h : Compresses single f) (input : ℕ → Byte) (i : ℕ) (digest : D) :
    shaLoop single input i digest =
      (fun k => input (64 * (i / 64) + k), i % 64, absorb f 64 input (i / 64) 0 digest) := by
  induction i using Nat.strong_induction_on generalizing input digest with
  | _ i ih =>
    rw [shaLoop]
    split
    · next hi =>
      obtain ⟨j, rfl⟩ := Nat.exists_eq_add_of_le hi
      rw [Nat.add_sub_cancel_left, ih j (by omega), show (64 + j) / 64 = j / 64 + 1 by omega,
        Nat.add_mod_left, absorb, h input, absorb_shift]
      refine Prod.ext ?_ rfl
      funext k
      change input (64 + (64 * (j / 64) + k)) = input (64 * (j / 64 + 1) + k)
      congr 1
      omega
    · next hi =>
      rw [Nat.div_eq_of_lt (by omega), Nat.mod_eq_of_lt (by omega)]
      simp [absorb_zero]

/-! ## The padding -/

theorem len_times_eight (len : BitVec 32) :
    len.setWidth 64 * 8#64 = BitVec.ofNat 64 (8 * len.toNat) := by
  apply BitVec.eq_of_toNat_eq
  have hlt := len.isLt
  rw [BitVec.toNat_mul, BitVec.toNat_setWidth, BitVec.toNat_ofNat, BitVec.toNat_ofNat]
  omega

theorem shaPad_end (buf : Fin 128 → Byte) (input : ℕ → Byte) (len : BitVec 32) :
    (shaPad buf input (len.toNat % 64) len).2 =
      len.toNat % 64 + 1 + mdZeros 64 8 len.toNat + 8 := by
  have hr := Nat.mod_lt len.toNat (show 0 < 64 by decide)
  rw [mdZeros_eq (by decide), shaPad, shaCopy]
  dsimp only
  split <;> split <;> omega

/-- The last bytes, and the padding behind them. -/
theorem shaPad_bytes (buf : Fin 128 → Byte) (input : ℕ → Byte) (len : BitVec 32) {k : ℕ}
    (hk : k < (shaPad buf input (len.toNat % 64) len).2) :
    arrayBytes (shaPad buf input (len.toNat % 64) len).1 k =
      if k < len.toNat % 64 then input k
      else stream (mdPadding 64 8 len.toNat) (k - len.toNat % 64) := by
  have hend := shaPad_end buf input len
  have hr := Nat.mod_lt len.toNat (show 0 < 64 by decide)
  have hle : (shaPad buf input (len.toNat % 64) len).2 ≤ 128 := by
    rw [shaPad, shaCopy]
    dsimp only
    split <;> omega
  rw [hend] at hk hle
  have hi : (if len.toNat % 64 + 1 > 64 - 8 then 2 * 64 else 64) =
      len.toNat % 64 + 1 + mdZeros 64 8 len.toNat + 8 := hend
  simp only [shaPad, shaCopy, hi, len_times_eight]
  generalize hz : mdZeros 64 8 len.toNat = z at *
  generalize hrr : len.toNat % 64 = r at *
  have hpad := @stream_mdPadding 64 8 len.toNat (k - r)
  rw [hz] at hpad
  rcases Nat.lt_or_ge k (r + 1 + z) with hlast | hlast
  · rw [arrayBytes_memcpyAt_lt (by omega)]
    rcases lt_trichotomy k r with h | rfl | h
    · rw [if_pos h, arrayBytes_memcpyAt_lt (by omega), arrayBytes_memcpyAt_lt h,
        arrayBytes_memcpyAt (Nat.zero_le _) (by omega) (by omega), Nat.sub_zero]
    · rw [if_neg (Nat.lt_irrefl k), hpad (by omega), if_pos (Nat.sub_self k),
        arrayBytes_memcpyAt_lt (by omega),
        arrayBytes_memcpyAt (Nat.le_refl k) (by omega) (by omega)]
    · rw [if_neg (by omega), hpad (by omega), if_neg (by omega), if_pos (by omega),
        arrayBytes_memcpyAt (by omega) (by omega) (by omega)]
  · rw [if_neg (by omega), hpad (by omega), if_neg (by omega), if_neg (by omega),
      arrayBytes_memcpyAt (by omega) (by omega) (by omega), be64Bytes_ofNat _ (by omega)]
    congr 3
    omega

/-- The copy holds the padded message from its last whole block on. -/
theorem shaPad_stream (buf : Fin 128 → Byte) (input : ℕ → Byte) (len : BitVec 32) {k : ℕ}
    (hk : k < (shaPad buf (fun k => input (64 * (len.toNat / 64) + k)) (len.toNat % 64) len).2) :
    stream (window input 0 len.toNat ++ mdPadding 64 8 len.toNat) (64 * (len.toNat / 64) + k) =
      arrayBytes (shaPad buf (fun k => input (64 * (len.toNat / 64) + k)) (len.toNat % 64) len).1
        k := by
  have hdiv := Nat.div_add_mod len.toNat 64
  rw [shaPad_bytes _ _ _ hk]
  split
  · next hr =>
    rw [stream_append_left _ (by rw [length_window]; omega), stream_window (by omega), Nat.zero_add]
  · next hr =>
    have hsplit : 64 * (len.toNat / 64) + k =
        (window input 0 len.toNat).length + (k - len.toNat % 64) := by
      rw [length_window]
      omega
    rw [hsplit, stream_append_right]

/-! ## What is hashed -/

/-- The bytes that the block function loads: the whole blocks of the input, then those of the
copy. -/
def shaStream (sees : ℕ → Bool) (buf : Fin 128 → Byte) (input : ℕ → Byte) (len : BitVec 32)
    (k : ℕ) :
    Byte :=
  let q := 64 * (len.toNat / 64)
  if k < q then input k
  else shaSeen sees buf (fun j => input (q + j)) (len.toNat % 64) len (k - q)

section Stream

variable {sees : ℕ → Bool} {buf : Fin 128 → Byte} {input : ℕ → Byte} {len : BitVec 32}

theorem shaPad_end_cases (buf : Fin 128 → Byte) (input : ℕ → Byte) (i : ℕ) (len : BitVec 32) :
    (shaPad buf input i len).2 = 64 ∨ (shaPad buf input i len).2 = 128 := by
  rw [shaPad, shaCopy]
  dsimp only
  split
  · exact .inr rfl
  · exact .inl rfl

/-- The second hash of a multi-hash compresses the blocks of what is loaded. -/
theorem shaForMh_absorb (h : Compresses single f) (sees : ℕ → Bool) (iv : D) (buf : Fin 128 → Byte)
    (input : ℕ → Byte) (len : BitVec 32) :
    shaForMh single sees iv buf input len =
      absorb f 64 (shaStream sees buf input len) (mdBlocks 64 8 len.toNat) 0 iv := by
  have hdiv := Nat.div_add_mod len.toNat 64
  have hmul := mdBlocks_mul 64 8 len.toNat (by decide)
  have hend := shaPad_end buf (fun k => input (64 * (len.toNat / 64) + k)) len
  have hends := shaPad_end_cases buf (fun k => input (64 * (len.toNat / 64) + k))
    (len.toNat % 64) len
  -- the whole blocks of the input
  have hhead : absorb f 64 input (len.toNat / 64) 0 iv =
      absorb f 64 (shaStream sees buf input len) (len.toNat / 64) 0 iv := by
    refine absorb_congr _ _ fun k hk => ?_
    rw [Nat.zero_add, shaStream]
    exact (if_pos hk).symm
  -- the blocks of the copy
  have hblock : ∀ t d, single (fun k => shaSeen sees buf
      (fun k => input (64 * (len.toNat / 64) + k)) (len.toNat % 64) len (t + k)) d =
      f d (window (shaStream sees buf input len) (64 * (len.toNat / 64) + t) 64) := by
    intro t d
    rw [h]
    refine congrArg (f d) (window_eq_window fun k _ => ?_)
    rw [shaStream, if_neg (by omega), Nat.zero_add, Nat.add_assoc, Nat.add_sub_cancel_left]
  have hfirst := hblock 0
  simp only [Nat.zero_add, Nat.add_zero] at hfirst
  rw [shaForMh, shaLoop_eq h]
  dsimp only
  rw [hfirst, hhead]
  rcases hends with hp | hp
  · rw [if_neg (by omega), show mdBlocks 64 8 len.toNat = len.toNat / 64 + 1 by omega, absorb_add,
      absorb_one, Nat.zero_add]
  · rw [if_pos (by omega), hblock 64,
      show mdBlocks 64 8 len.toNat = len.toNat / 64 + 1 + 1 by omega, absorb_add, absorb_add,
      absorb_one, absorb_one, Nat.zero_add, Nat.zero_add, Nat.mul_succ]

/-- A load that finds the length, or a byte that its store does not change. -/
theorem shaStream_eq {k : ℕ} (hk : k < 64 * mdBlocks 64 8 len.toNat)
    (hsees : 64 * mdBlocks 64 8 len.toNat ≤ k + 8 →
      sees ((k - 64 * (len.toNat / 64)) / 4) = true) :
    shaStream sees buf input len k =
      stream (window input 0 len.toNat ++ mdPadding 64 8 len.toNat) k := by
  have hdiv := Nat.div_add_mod len.toNat 64
  have hmul := mdBlocks_mul 64 8 len.toNat (by decide)
  have hend := shaPad_end buf (fun k => input (64 * (len.toNat / 64) + k)) len
  rw [shaStream]
  split
  · next hlow =>
    rw [stream_append_left _ (by rw [length_window]; omega), stream_window (by omega), Nat.zero_add]
  · next hhigh =>
    obtain ⟨j, rfl⟩ := Nat.exists_eq_add_of_le (Nat.le_of_not_lt hhigh)
    rw [Nat.add_sub_cancel_left] at hsees ⊢
    rw [shaPad_stream buf input len (by omega), shaSeen]
    refine seenBytes_of_sees fun hne => hsees ?_
    by_contra hbefore
    refine hne (arrayBytes_memcpyAt_lt ?_).symm
    change j < (shaPad buf (fun j => input (64 * (len.toNat / 64) + j)) (len.toNat % 64) len).2 - 8
    omega

/-- The second hash of a multi-hash, when the loads see the length: the Merkle-Damgård hash of its
input. -/
theorem shaForMh_eq (h : Compresses single f) (hsees : ∀ i, sees i = true) (iv : D)
    (buf : Fin 128 → Byte) (input : ℕ → Byte) (len : BitVec 32) :
    shaForMh single sees iv buf input len = mdHash f 64 8 iv (window input 0 len.toNat) := by
  rw [shaForMh_absorb h, mdHash, length_window]
  refine absorb_congr _ _ fun k hk => ?_
  rw [Nat.zero_add]
  exact shaStream_eq hk fun _ => hsees _

/-- The bytes that the block function loads, in order: a block function that records them. -/
def shaBytes (sees : ℕ → Bool) (buf : Fin 128 → Byte) (input : ℕ → Byte) (len : BitVec 32) :
    List Byte :=
  shaForMh (fun x seen => seen ++ window x 0 64) sees [] buf input len

theorem shaBytes_eq (sees : ℕ → Bool) (buf : Fin 128 → Byte) (input : ℕ → Byte) (len : BitVec 32) :
    shaBytes sees buf input len =
      window (shaStream sees buf input len) 0 (64 * mdBlocks 64 8 len.toNat) := by
  have habsorb := @shaForMh_absorb _ (fun x seen => seen ++ window x 0 64)
    (fun seen b => seen ++ b) (fun _ _ => rfl) sees [] buf input len
  rw [absorb_append, List.nil_append] at habsorb
  exact habsorb

/-- The digest is that of the bytes loaded. -/
theorem shaForMh_eq_bytes (h : Compresses single f) (sees : ℕ → Bool) (iv : D)
    (buf : Fin 128 → Byte) (input : ℕ → Byte) (len : BitVec 32) :
    shaForMh single sees iv buf input len =
      absorb f 64 (stream (shaBytes sees buf input len)) (mdBlocks 64 8 len.toNat) 0 iv := by
  rw [shaForMh_absorb h, shaBytes_eq]
  refine absorb_congr _ _ fun k hk => ?_
  rw [stream_window (by omega), Nat.zero_add, Nat.zero_add]

/-- Only the bytes of the input are loaded. -/
theorem shaBytes_congr {y : ℕ → Byte} (h : ∀ k < len.toNat, input k = y k) :
    shaBytes sees buf input len = shaBytes sees buf y len := by
  rw [shaBytes_eq, shaBytes_eq]
  refine window_congr fun k _ hk => ?_
  have hdiv := Nat.div_add_mod len.toNat 64
  rw [shaStream, shaStream]
  split
  · exact h k (by omega)
  · rw [shaSeen, shaSeen, shaPad, shaPad, shaCopy, shaCopy,
      memcpyAt_congr buf 0 fun j hj => h (64 * (len.toNat / 64) + j) (by omega)]

/-! ## The second hash of 512 bytes -/

/-- A load that misses the length finds a zero. -/
theorem shaStream_512_unseen {j : ℕ} (h0 : 0 < j) (hj : j < 64) (hunseen : sees (j / 4) = false) :
    shaStream sees buf input 512#32 (512 + j) = 0#8 := by
  have hq : 64 * ((512#32).toNat / 64) = 512 := rfl
  rw [shaStream, hq, if_neg (by omega), Nat.add_sub_cancel_left, shaSeen, seenBytes, hunseen,
    if_neg Bool.false_ne_true]
  have hr : (512#32).toNat % 64 = 0 := rfl
  rw [hr, shaCopy]
  change arrayBytes (memcpyAt _ 1 (fun _ => 0#8) 119) j = 0#8
  exact arrayBytes_memcpyAt h0 (by omega) (by omega)

theorem stream_padded_512 (input : ℕ → Byte) (j : ℕ) :
    stream (window input 0 512 ++ mdPadding 64 8 512) (512 + j) =
      stream (mdPadding 64 8 512) j := by
  have hright := stream_append_right (window input 0 512) (mdPadding 64 8 512) j
  rwa [length_window] at hright

/-- When it misses the length, the block of the padding is loaded with zeros behind its first
byte. -/
theorem shaBytes_512_unseen (buf : Fin 128 → Byte) (input : ℕ → Byte) :
    shaBytes (fun _ => false) buf input 512#32 =
      window input 0 512 ++ (0x80#8 :: List.replicate 63 0#8) := by
  have hblocks : 64 * mdBlocks 64 8 (512#32).toNat = 512 + 64 := by decide
  rw [shaBytes_eq, hblocks, window_add]
  refine congrArg₂ _ (window_congr fun k _ hk => ?_) (List.ext_getElem (length_window ..) ?_)
  · exact if_pos (show k < 512 by omega)
  · intro k hk _
    rw [length_window] at hk
    rw [getElem_window, Nat.zero_add]
    rcases Nat.eq_zero_or_pos k with rfl | hpos
    · rfl
    · obtain ⟨j, rfl⟩ : ∃ j, k = j + 1 := ⟨k - 1, by omega⟩
      rw [shaStream_512_unseen hpos hk rfl, List.getElem_cons_succ, List.getElem_replicate]

/-- For the 512 bytes of sixteen SHA-256 states, the padded bytes are loaded just when the load of
the last word of the copy sees the length: the word before it is zero anyway. -/
theorem shaBytes_512_iff (sees : ℕ → Bool) (buf : Fin 128 → Byte) (input : ℕ → Byte) :
    shaBytes sees buf input 512#32 = window input 0 512 ++ mdPadding 64 8 512 ↔ sees 15 = true := by
  have hblocks : 64 * mdBlocks 64 8 (512#32).toNat = 576 := by decide
  rw [shaBytes_eq, hblocks]
  constructor
  · intro heq
    by_contra hunseen
    -- byte 62 of the copy is the only one of the length that is not zero
    have hbyte : shaStream sees buf input 512#32 (512 + 62) =
        stream (window input 0 512 ++ mdPadding 64 8 512) (512 + 62) := by
      rw [← heq, stream_window (by decide), Nat.zero_add]
    rw [shaStream_512_unseen (by decide) (by decide) (Bool.eq_false_iff.mpr hunseen),
      stream_padded_512] at hbyte
    exact absurd hbyte (by decide)
  · intro hseen
    have hlength : (window input 0 512 ++ mdPadding 64 8 512).length = 576 := by
      rw [List.length_append, length_window]
      rfl
    rw [← window_stream (window input 0 512 ++ mdPadding 64 8 512), hlength]
    refine window_congr fun k _ hk => ?_
    rcases Nat.lt_or_ge k 568 with hlow | hend
    · exact shaStream_eq (by omega) fun hend => absurd hend (by omega)
    cases hload : sees ((k - 512) / 4) with
    | true => exact shaStream_eq (by omega) fun _ => hload
    | false =>
      obtain ⟨j, rfl⟩ := Nat.exists_eq_add_of_le (show 512 ≤ k by omega)
      rw [Nat.add_sub_cancel_left] at hload
      have hj : j < 60 := by
        by_contra hge
        rw [show j / 4 = 15 by omega, hseen] at hload
        exact Bool.noConfusion hload
      rw [shaStream_512_unseen (by omega) (by omega) hload, stream_padded_512]
      have hlow : 56 ≤ j := by omega
      interval_cases j <;> rfl

end Stream

end IsalCrypto.Mh
