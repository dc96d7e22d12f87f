import IsalCrypto.MhSha1.BlockBase

/-!
# Multi-hash SHA-1

`mh_sha1.c` over the base functions, and `mh_sha1_ref`.

* `mhSha1Base_session`: what a run of updates hashes, and that it is the padded message exactly
  below `2 ^ 32` bytes.
* `mhSha1Base_four_gib`: four gibibytes of zeros are hashed with the length field of no bytes.
-/

namespace IsalCrypto.MhSha1

open IsalCrypto.Lib IsalCrypto.Mh

/-- `isal_mh_sha1_ctx`; the block function works on the interim digests and the frame buffer. -/
abbrev MhSha1Ctx := MhCtx (SegsDigests 5 × Frame) Sha1.Digest

/-- `_sha1_for_mh_sha1` on the interim digests. -/
def sha1OfDigests (buf : Fin 128 → Byte) (d : SegsDigests 5 × Frame) : Sha1.Digest :=
  sha1ForMhSha1 buf (segsBytes d.1) 320#32

/-- `_mh_sha1_init`. -/
def mhSha1Init (ctx : Option MhSha1Ctx) : MhCtxError × Option MhSha1Ctx :=
  initFunction (Vector.replicate 5 0#32) (initSegs mhSha1H, clearedFrame) ctx

/-- `_mh_sha1_update_base`. -/
def mhSha1UpdateBase (ctx : Option MhSha1Ctx) (buffer : ℕ → Byte) (len : BitVec 32) :
    MhCtxError × Option MhSha1Ctx :=
  updateFunction mhSha1BlockBase ctx buffer len

/-- `_mh_sha1_finalize_base`. -/
def mhSha1FinalizeBase (buf : Fin 128 → Byte) (ctx : Option MhSha1Ctx) (digestNull : Bool) :
    MhCtxError × Option MhSha1Ctx × Option Sha1.Digest :=
  finalizeFunction mhSha1BlockBase (sha1OfDigests buf) ctx digestNull

/-- `_mh_sha1_init`, updates and `_mh_sha1_finalize_base`. -/
def mhSha1SessionBase (buf : Fin 128 → Byte) (ctx : MhSha1Ctx) (pieces : List Piece) :
    List MhCtxError × Option Sha1.Digest :=
  session mhSha1BlockBase (sha1OfDigests buf) (Vector.replicate 5 0#32)
    (initSegs mhSha1H, clearedFrame) ctx pieces

/-- `mh_sha1_ref`, where the loads of its block function see the length its tail has stored. -/
def mhSha1Ref (buf : Fin 128 → Byte) (stack : Fin 2048 → Byte) (buffer : ℕ → Byte)
    (len : BitVec 32) : Sha1.Digest :=
  refFunction mhSha1BlockRef (fun d => sha1ForMhSha1Ref buf (segsBytes d) 320#32) (fun _ => true)
    (initSegs mhSha1H) stack buffer len

/-- Multi-hash SHA-1 over a padded message. -/
def multiHashSha1 (padded : List Byte) : Sha1.Digest :=
  multiHash Sha1.compress Sha1.initial Sha1.hash padded

/-- A session is the calls of the three functions, one after the other. -/
example (buf : Fin 128 → Byte) (ctx : MhSha1Ctx) (p : Piece) :
    (mhSha1SessionBase buf ctx [p]).2 =
      (mhSha1FinalizeBase buf (mhSha1UpdateBase (mhSha1Init (some ctx)).2 p.buffer p.len).2
        false).2.2 := rfl

theorem sha1OfSegs_eq (buf : Fin 128 → Byte) (d : SegsDigests 5) :
    sha1ForMhSha1 buf (segsBytes d) 320#32 = Sha1.hash (interleave (segDigest d)) := by
  rw [sha1ForMhSha1_eq, ← window_segsBytes]
  rfl

/-- The digest of a run: the multi-hash over the message hashed. -/
theorem mhSha1SessionBase_eq (buf : Fin 128 → Byte) (ctx : MhSha1Ctx) {pieces : List Piece}
    (hlen : (message pieces).length < 2 ^ 64) :
    mhSha1SessionBase buf ctx pieces =
      (List.replicate (pieces.length + 2) .errorNone,
        some (multiHashSha1 (hashedMessage (message pieces)))) := by
  exact session_digest mhSha1BlockBase_absorbs (sha1OfDigests buf) _
    (show segDigest (initSegs mhSha1H) = _ from segDigest_initSegs mhSha1H)
    (fun e => Sha1.hash (interleave e)) (fun d => sha1OfSegs_eq buf d.1) ctx hlen

/-- The reference function is the multi-hash of its buffer. -/
theorem mhSha1Ref_eq (buf : Fin 128 → Byte) (stack : Fin 2048 → Byte) (buffer : ℕ → Byte)
    (len : BitVec 32) :
    mhSha1Ref buf stack buffer len =
      multiHashSha1 (paddedMessage (window buffer 0 len.toNat)) := by
  exact refFunction_eq mhSha1BlockRef_absorbs seesLength_all _ (segDigest_initSegs mhSha1H)
    (fun e => Sha1.hash (interleave e)) (sha1OfSegs_eq buf) stack buffer len

/-- For every way of cutting a message: the digest is the multi-hash over the bytes that the block
function was given, these are the padded message exactly if it has less than `2 ^ 32` bytes, and
then the digest is the specified one and the reference function's. -/
theorem mhSha1Base_session (buf : Fin 128 → Byte) (ctx : MhSha1Ctx) (pieces : List Piece)
    (hlen : (message pieces).length < 2 ^ 61) :
    ∃ digest,
      mhSha1SessionBase buf ctx pieces =
        (List.replicate (pieces.length + 2) .errorNone, some digest) ∧
      digest = multiHashSha1 (hashedBytes pieces) ∧
      (hashedBytes pieces = paddedMessage (message pieces) ↔ (message pieces).length < 2 ^ 32) ∧
      ((message pieces).length < 2 ^ 32 →
        digest = multiHashSha1 (paddedMessage (message pieces)) ∧
        ∀ stack, digest = mhSha1Ref buf stack (stream (message pieces))
          (BitVec.ofNat 32 (message pieces).length)) := by
  have hbytes := @hashedBytes_eq pieces (by omega)
  refine ⟨_, mhSha1SessionBase_eq buf ctx (by omega), by rw [hbytes], ?_, fun hlt => ?_⟩
  · rw [hbytes]
    exact hashedMessage_eq_iff hlen
  · rw [(hashedMessage_eq_iff hlen).mpr hlt]
    refine ⟨rfl, fun stack => ?_⟩
    rw [mhSha1Ref_eq, BitVec.toNat_ofNat, Nat.mod_eq_of_lt hlt, window_stream]

/-- Three pieces that fill a block, of which one is empty. -/
theorem mhSha1Base_session_three_pieces :
    ∃ digest,
      mhSha1SessionBase (fun _ => 0#8)
          ⟨Vector.replicate 5 0#32, 0#64, fun _ => 0#8, (initSegs mhSha1H, clearedFrame)⟩
          [⟨fun _ => 0x61#8, 3#32⟩, ⟨fun _ => 0#8, 0#32⟩, ⟨fun _ => 0x62#8, 1021#32⟩] =
        (List.replicate 5 .errorNone, some digest) ∧
      digest = multiHashSha1 (paddedMessage (message
        [⟨fun _ => 0x61#8, 3#32⟩, ⟨fun _ => 0#8, 0#32⟩, ⟨fun _ => 0x62#8, 1021#32⟩])) := by
  have hlen : (message [⟨fun _ => 0x61#8, 3#32⟩, ⟨fun _ => 0#8, 0#32⟩,
      ⟨fun _ => 0x62#8, 1021#32⟩]).length = 1024 := by
    simp [message]
  obtain ⟨digest, hrun, -, -, hspec⟩ := mhSha1Base_session (fun _ => 0#8)
    ⟨Vector.replicate 5 0#32, 0#64, fun _ => 0#8, (initSegs mhSha1H, clearedFrame)⟩
    [⟨fun _ => 0x61#8, 3#32⟩, ⟨fun _ => 0#8, 0#32⟩, ⟨fun _ => 0x62#8, 1021#32⟩]
    (by rw [hlen]; decide)
  exact ⟨digest, hrun, (hspec (by rw [hlen]; decide)).1⟩

/-- Two updates of 2 GiB of zeros: what is hashed is not the padded message. -/
theorem mhSha1Base_four_gib :
    (message [⟨fun _ => 0#8, 2147483648#32⟩, ⟨fun _ => 0#8, 2147483648#32⟩]).length = 2 ^ 32 ∧
      mhSha1SessionBase (fun _ => 0#8)
          ⟨Vector.replicate 5 0#32, 0#64, fun _ => 0#8, (initSegs mhSha1H, clearedFrame)⟩
          [⟨fun _ => 0#8, 2147483648#32⟩, ⟨fun _ => 0#8, 2147483648#32⟩] =
        (List.replicate 4 .errorNone, some (multiHashSha1 (hashedBytes
          [⟨fun _ => 0#8, 2147483648#32⟩, ⟨fun _ => 0#8, 2147483648#32⟩]))) ∧
      hashedBytes [⟨fun _ => 0#8, 2147483648#32⟩, ⟨fun _ => 0#8, 2147483648#32⟩] ≠
        paddedMessage (message [⟨fun _ => 0#8, 2147483648#32⟩, ⟨fun _ => 0#8, 2147483648#32⟩]) := by
  have hlen : (message [⟨fun _ => 0#8, 2147483648#32⟩, ⟨fun _ => 0#8, 2147483648#32⟩]).length =
      2 ^ 32 := by
    rw [message, List.flatMap_cons, List.flatMap_cons, List.flatMap_nil, List.append_nil,
      List.length_append, length_window]
    rfl
  have hbytes := @hashedBytes_eq [⟨fun _ => 0#8, 2147483648#32⟩, ⟨fun _ => 0#8, 2147483648#32⟩]
    (by rw [hlen]; decide)
  refine ⟨hlen, ?_, ?_⟩
  · rw [mhSha1SessionBase_eq _ _ (by rw [hlen]; decide), hbytes]
    rfl
  · rw [hbytes, ne_eq, hashedMessage_eq_iff (by rw [hlen]; decide), hlen]
    decide

end IsalCrypto.MhSha1
