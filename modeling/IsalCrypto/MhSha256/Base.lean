import IsalCrypto.MhSha256.BlockBase

/-!
# Multi-hash SHA-256

`mh_sha256.c` over the base functions, and `mh_sha256_ref`. `sees` says which loads of the second
hash see the length that was stored before them.

* `mhSha256Base_session`: what a run of updates hashes. It is the padded message exactly below
  `2 ^ 32` bytes, and the padded states exactly when the last word of their padding is seen.
* `mhSha256Base_empty`: the digest of the empty message, when it is not.
* `mhSha256Base_four_gib`: four gibibytes of zeros are hashed with the length field of no bytes.
-/

namespace IsalCrypto.MhSha256

open IsalCrypto.Lib IsalCrypto.Mh

/-- `isal_mh_sha256_ctx`; the block function works on the interim digests and the frame buffer. -/
abbrev MhSha256Ctx := MhCtx (SegsDigests 8 × Frame) Sha256.Digest

/-- `sha256_for_mh_sha256` on the interim digests; `w` is what the stack holds where
`sha256_single_for_mh_sha256` puts its schedule. -/
def sha256OfDigests (sees : ℕ → Bool) (buf : Fin 128 → Byte) (w : Vector (BitVec 32) 16)
    (d : SegsDigests 8 × Frame) : Sha256.Digest :=
  sha256ForMhSha256 sees buf w (segsBytes d.1) 512#32

/-- `_mh_sha256_init`. -/
def mhSha256Init (ctx : Option MhSha256Ctx) : MhCtxError × Option MhSha256Ctx :=
  initFunction (Vector.replicate 8 0#32) (initSegs mhSha256H, clearedFrame) ctx

/-- `_mh_sha256_update_base`. -/
def mhSha256UpdateBase (ctx : Option MhSha256Ctx) (buffer : ℕ → Byte) (len : BitVec 32) :
    MhCtxError × Option MhSha256Ctx :=
  updateFunction mhSha256BlockBase ctx buffer len

/-- `_mh_sha256_finalize_base`. -/
def mhSha256FinalizeBase (sees : ℕ → Bool) (buf : Fin 128 → Byte) (w : Vector (BitVec 32) 16)
    (ctx : Option MhSha256Ctx) (digestNull : Bool) :
    MhCtxError × Option MhSha256Ctx × Option Sha256.Digest :=
  finalizeFunction mhSha256BlockBase (sha256OfDigests sees buf w) ctx digestNull

/-- `_mh_sha256_init`, updates and `_mh_sha256_finalize_base`. -/
def mhSha256SessionBase (sees : ℕ → Bool) (buf : Fin 128 → Byte) (w : Vector (BitVec 32) 16)
    (ctx : MhSha256Ctx) (pieces : List Piece) : List MhCtxError × Option Sha256.Digest :=
  session mhSha256BlockBase (sha256OfDigests sees buf w) (Vector.replicate 8 0#32)
    (initSegs mhSha256H, clearedFrame) ctx pieces

/-- `mh_sha256_ref`. The length is stored and loaded in one file twice: by its tail, with `tailSees`
for the loads of the block function, and in the second hash. -/
def mhSha256Ref (tailSees sees : ℕ → Bool) (buf : Fin 128 → Byte) (w : Vector (BitVec 32) 16)
    (stack : Fin 2048 → Byte) (buffer : ℕ → Byte) (len : BitVec 32) : Sha256.Digest :=
  refFunction (mhSha256BlockRef w) (fun d => sha256ForMhSha256Ref sees buf w (segsBytes d) 512#32)
    tailSees (initSegs mhSha256H) stack buffer len

/-- Multi-hash SHA-256 over a padded message. -/
def multiHashSha256 (padded : List Byte) : Sha256.Digest :=
  multiHash Sha256.compress Sha256.initial Sha256.hash padded

/-- A session is the calls of the three functions, one after the other. -/
example (sees : ℕ → Bool) (buf : Fin 128 → Byte) (w : Vector (BitVec 32) 16) (ctx : MhSha256Ctx)
    (p : Piece) :
    (mhSha256SessionBase sees buf w ctx [p]).2 =
      (mhSha256FinalizeBase sees buf w
        (mhSha256UpdateBase (mhSha256Init (some ctx)).2 p.buffer p.len).2 false).2.2 := rfl

/-! ## The two hashes -/

/-- The sixteen states after the blocks of a padded message. -/
def segmentStates (padded : List Byte) : List Byte :=
  interleave (absorbBlocks (compressSegments Sha256.compress) (fun _ => Sha256.initial) padded)

/-- The bytes that the second hash loads for these states. -/
def rehashedBytes (sees : ℕ → Bool) (buf : Fin 128 → Byte) (states : List Byte) : List Byte :=
  shaBytes sees buf (stream states) 512#32

/-- SHA-256 of nine blocks, padded already. -/
def hashBlocks (padded : List Byte) : Sha256.Digest :=
  absorb Sha256.compress 64 (stream padded) 9 0 Sha256.initial

theorem length_segmentStates (padded : List Byte) : (segmentStates padded).length = 512 := by
  rw [segmentStates, interleave, List.length_map, List.length_range]

theorem rehashedBytes_iff (sees : ℕ → Bool) (buf : Fin 128 → Byte) {states : List Byte}
    (hlen : states.length = 512) :
    rehashedBytes sees buf states = states ++ mdPadding 64 8 states.length ↔ sees 15 = true := by
  have hstates := window_stream states
  rw [hlen] at hstates ⊢
  rw [rehashedBytes, ← shaBytes_512_iff sees buf (stream states), hstates]

theorem hashBlocks_padded {m : List Byte} (hlen : m.length = 512) :
    hashBlocks (m ++ mdPadding 64 8 m.length) = Sha256.hash m := by
  rw [Sha256.hash, mdHash, hlen]
  rfl

theorem sha256OfSegs_eq (sees : ℕ → Bool) (buf : Fin 128 → Byte) (w : Vector (BitVec 32) 16)
    (d : SegsDigests 8) :
    sha256ForMhSha256 sees buf w (segsBytes d) 512#32 =
      hashBlocks (rehashedBytes sees buf (interleave (segDigest d))) := by
  have hbytes : shaBytes sees buf (segsBytes d) 512#32 =
      rehashedBytes sees buf (interleave (segDigest d)) := by
    refine shaBytes_congr fun k hk => ?_
    rw [← window_segsBytes, stream_window (show k < 64 * 8 from hk), Nat.zero_add]
  rw [sha256ForMhSha256_eq, hbytes]
  rfl

/-- The digest of a run: the multi-hash over the message hashed. -/
theorem mhSha256SessionBase_eq (sees : ℕ → Bool) (buf : Fin 128 → Byte) (w : Vector (BitVec 32) 16)
    (ctx : MhSha256Ctx) {pieces : List Piece} (hlen : (message pieces).length < 2 ^ 64) :
    mhSha256SessionBase sees buf w ctx pieces =
      (List.replicate (pieces.length + 2) .errorNone,
        some
          (hashBlocks (rehashedBytes sees buf (segmentStates (hashedMessage (message pieces)))))) :=
  session_digest mhSha256BlockBase_absorbs (sha256OfDigests sees buf w) _
    (show segDigest (initSegs mhSha256H) = _ from segDigest_initSegs mhSha256H)
    (fun e => hashBlocks (rehashedBytes sees buf (interleave e)))
    (fun d => sha256OfSegs_eq sees buf w d.1) ctx hlen

/-- The multi-hash of a padded message, when the second hash sees its length. -/
theorem hashBlocks_rehashed (sees : ℕ → Bool) (hsees : sees 15 = true) (buf : Fin 128 → Byte)
    (padded : List Byte) :
    hashBlocks (rehashedBytes sees buf (segmentStates padded)) = multiHashSha256 padded := by
  have hlen := length_segmentStates padded
  rw [(rehashedBytes_iff sees buf hlen).mpr hsees, hashBlocks_padded hlen]
  rfl

/-- The reference function is the multi-hash of its buffer, when its loads see the two lengths. -/
theorem mhSha256Ref_eq {tailSees sees : ℕ → Bool} (htail : SeesLength tailSees)
    (hsees : sees 15 = true) (buf : Fin 128 → Byte) (w : Vector (BitVec 32) 16)
    (stack : Fin 2048 → Byte) (buffer : ℕ → Byte) (len : BitVec 32) :
    mhSha256Ref tailSees sees buf w stack buffer len =
      multiHashSha256 (paddedMessage (window buffer 0 len.toNat)) := by
  have hrun := refFunction_eq (mhSha256BlockRef_absorbs w) htail _ (segDigest_initSegs mhSha256H)
    (fun e => hashBlocks (rehashedBytes sees buf (interleave e))) (sha256OfSegs_eq sees buf w) stack
    buffer len
  exact hrun.trans (hashBlocks_rehashed sees hsees buf _)

/-- For every way of cutting a message: the digest is that of the bytes that the two hashes were
given. They are the padded message and the padded states exactly if the message has less than
`2 ^ 32` bytes and the load of the last word of the padding sees the length; then the digest is the
specified one, and that of the reference function where its loads see the lengths. -/
theorem mhSha256Base_session (sees : ℕ → Bool) (buf : Fin 128 → Byte) (w : Vector (BitVec 32) 16)
    (ctx : MhSha256Ctx) (pieces : List Piece) (hlen : (message pieces).length < 2 ^ 61) :
    let states := segmentStates (hashedBytes pieces)
    ∃ digest,
      mhSha256SessionBase sees buf w ctx pieces =
        (List.replicate (pieces.length + 2) .errorNone, some digest) ∧
      digest = hashBlocks (rehashedBytes sees buf states) ∧
      (hashedBytes pieces = paddedMessage (message pieces) ∧
          rehashedBytes sees buf states = states ++ mdPadding 64 8 states.length ↔
        (message pieces).length < 2 ^ 32 ∧ sees 15 = true) ∧
      ((message pieces).length < 2 ^ 32 → sees 15 = true →
        digest = multiHashSha256 (paddedMessage (message pieces)) ∧
        ∀ stack tailSees refSees, SeesLength tailSees → refSees 15 = true →
          digest = mhSha256Ref tailSees refSees buf w stack (stream (message pieces))
            (BitVec.ofNat 32 (message pieces).length)) := by
  intro states
  have hbytes : hashedBytes pieces = hashedMessage (message pieces) := hashedBytes_eq (by omega)
  have hstates : states = segmentStates (hashedMessage (message pieces)) :=
    congrArg segmentStates hbytes
  refine ⟨_, mhSha256SessionBase_eq sees buf w ctx (by omega), by rw [hstates], ?_,
    fun hlt hsees => ?_⟩
  · rw [hbytes]
    exact and_congr (hashedMessage_eq_iff hlen)
      (rehashedBytes_iff sees buf (length_segmentStates _))
  · rw [(hashedMessage_eq_iff hlen).mpr hlt, hashBlocks_rehashed sees hsees]
    refine ⟨rfl, fun stack tailSees refSees htail hrefSees => ?_⟩
    rw [mhSha256Ref_eq htail hrefSees, BitVec.toNat_ofNat, Nat.mod_eq_of_lt hlt, window_stream]

/-- Three pieces that fill a block, of which one is empty; the loads see the length. -/
theorem mhSha256Base_session_three_pieces :
    ∃ digest,
      mhSha256SessionBase (fun _ => true) (fun _ => 0#8) (Vector.replicate 16 0#32)
          ⟨Vector.replicate 8 0#32, 0#64, fun _ => 0#8, (initSegs mhSha256H, clearedFrame)⟩
          [⟨fun _ => 0x61#8, 3#32⟩, ⟨fun _ => 0#8, 0#32⟩, ⟨fun _ => 0x62#8, 1021#32⟩] =
        (List.replicate 5 .errorNone, some digest) ∧
      digest = multiHashSha256 (paddedMessage (message
        [⟨fun _ => 0x61#8, 3#32⟩, ⟨fun _ => 0#8, 0#32⟩, ⟨fun _ => 0x62#8, 1021#32⟩])) := by
  have hlen : (message [⟨fun _ => 0x61#8, 3#32⟩, ⟨fun _ => 0#8, 0#32⟩,
      ⟨fun _ => 0x62#8, 1021#32⟩]).length = 1024 := by
    simp [message]
  obtain ⟨digest, hrun, -, -, hspec⟩ := mhSha256Base_session (fun _ => true) (fun _ => 0#8)
    (Vector.replicate 16 0#32)
    ⟨Vector.replicate 8 0#32, 0#64, fun _ => 0#8, (initSegs mhSha256H, clearedFrame)⟩
    [⟨fun _ => 0x61#8, 3#32⟩, ⟨fun _ => 0#8, 0#32⟩, ⟨fun _ => 0x62#8, 1021#32⟩]
    (by rw [hlen]; decide)
  exact ⟨digest, hrun, (hspec (by rw [hlen]; decide) rfl).1⟩

/-! ## The empty message -/

/-- The state of a segment after the empty message: the first segment has its bit. -/
def emptyState (s : Fin 16) : Sha256.Digest :=
  if s = 0 then
    #v[0xe3b0c442#32, 0x98fc1c14#32, 0x9afbf4c8#32, 0x996fb924#32, 0x27ae41e4#32, 0x649b934c#32,
      0xa495991b#32, 0x7852b855#32]
  else
    #v[0xda5698be#32, 0x17b9b469#32, 0x62335799#32, 0x779fbeca#32, 0x8ce5d491#32, 0xc0d26243#32,
      0xbafef9ea#32, 0x1837a9d8#32]

/-- The bytes of word `i` of the sixteen states. -/
def emptyRow (i : ℕ) : List Byte :=
  (List.range 64).map fun j =>
    ((emptyState (Fin.ofNat 16 (j / 4))).toList.getD i 0#32 >>> (8 * (j % 4))).setWidth 8

theorem getD_cons_zeros (b : Byte) (m n : ℕ) :
    (b :: List.replicate m 0#8).getD n 0#8 = if n = 0 then b else 0#8 := by
  cases n with
  | zero => rfl
  | succ n =>
    rw [List.getD_cons_succ, if_neg (Nat.succ_ne_zero n)]
    rcases Nat.lt_or_ge n m with h | h
    · rw [List.getD_replicate _ h]
    · rw [List.getD_eq_default _ _ (by rwa [List.length_replicate])]

theorem segment_empty (s : Fin 16) :
    Mh.segment s (paddedMessage []) = (if s = 0 then 0x80#8 else 0#8) :: List.replicate 63 0#8 := by
  have hpadded : paddedMessage [] = 0x80#8 :: List.replicate 1023 0#8 := by decide +kernel
  rw [hpadded, Mh.segment]
  simp only [getD_cons_zeros]
  revert s
  decide +kernel

theorem compress_empty (s : Fin 16) :
    Sha256.compress Sha256.initial ((if s = 0 then 0x80#8 else 0#8) :: List.replicate 63 0#8) =
      emptyState s := by
  by_cases hs : s = 0
  · rw [emptyState, if_pos hs, if_pos hs]
    decide +kernel
  · rw [emptyState, if_neg hs, if_neg hs]
    decide +kernel

theorem segmentStates_empty :
    segmentStates (paddedMessage []) = ((List.range 8).map emptyRow).flatten := by
  have hlen : (paddedMessage []).length = 1024 := by decide +kernel
  have hblock := window_stream (paddedMessage [])
  have hstate : absorbBlocks (compressSegments Sha256.compress) (fun _ => Sha256.initial)
      (paddedMessage []) = emptyState := by
    rw [absorbBlocks, hlen]
    rw [hlen] at hblock
    change compressSegments Sha256.compress _ (window (stream (paddedMessage [])) 0 1024) = _
    funext s
    rw [hblock, compressSegments, segment_empty, compress_empty]
  rw [segmentStates, hstate]
  decide +kernel

/-- SHA-256 of the states before the last block. -/
def emptyHash : Sha256.Digest :=
  #v[0xaef9a6d9#32, 0x23d2ce48#32, 0x2160c762#32, 0xb5404ef9#32, 0xe8222101#32, 0xa9d6e41b#32,
    0x101f8e0d#32, 0x70fe0bc3#32]

theorem foldl_emptyRow :
    ((List.range 8).map emptyRow).foldl Sha256.compress Sha256.initial = emptyHash := by
  decide +kernel

theorem hashBlocks_empty {last : List Byte} (hlast : last.length = 64) :
    hashBlocks (segmentStates (paddedMessage []) ++ last) = Sha256.compress emptyHash last := by
  have hflatten : segmentStates (paddedMessage []) ++ last =
      ((List.range 8).map emptyRow ++ [last]).flatten := by
    rw [segmentStates_empty, List.flatten_append, List.flatten_singleton]
  have hlen : ∀ b ∈ (List.range 8).map emptyRow ++ [last], b.length = 64 := by
    intro b hb
    rcases List.mem_append.mp hb with h | h
    · obtain ⟨i, -, rfl⟩ := List.mem_map.mp h
      exact (List.length_map _).trans List.length_range
    · exact (congrArg List.length (List.mem_singleton.mp h)).trans hlast
  have habsorb := absorb_flatten (f := Sha256.compress) _ hlen Sha256.initial
  rw [List.foldl_append, foldl_emptyRow] at habsorb
  rw [hashBlocks, hflatten]
  exact habsorb

/-- The empty message, with a length that the loads of the second hash miss: the digest is not the
multi-hash of the padded message. -/
theorem mhSha256Base_empty :
    ∃ digest,
      mhSha256SessionBase (fun _ => false) (fun _ => 0#8) (Vector.replicate 16 0#32)
          ⟨Vector.replicate 8 0#32, 0#64, fun _ => 0#8, (initSegs mhSha256H, clearedFrame)⟩ [] =
        ([.errorNone, .errorNone], some digest) ∧
      digest = #v[0x0097853b#32, 0xc13563dd#32, 0xf4e179ed#32, 0x1716ebda#32, 0x247ea747#32,
        0xfab7f86f#32, 0xb4eda613#32, 0x7050a0e1#32] ∧
      multiHashSha256 (paddedMessage (message [])) = #v[0x7ec5da16#32, 0xca2ac87a#32, 0x3d69f3a4#32,
        0x13e2882d#32, 0x45b25f8f#32, 0xf1627540#32, 0x6b7d1bf5#32, 0x57a61348#32] ∧
      digest ≠ multiHashSha256 (paddedMessage (message [])) := by
  have hlen := length_segmentStates (paddedMessage [])
  have hmissed : hashBlocks (rehashedBytes (fun _ => false) (fun _ => 0#8)
      (segmentStates (paddedMessage []))) = #v[0x0097853b#32, 0xc13563dd#32, 0xf4e179ed#32,
        0x1716ebda#32, 0x247ea747#32, 0xfab7f86f#32, 0xb4eda613#32, 0x7050a0e1#32] := by
    have hstates := window_stream (segmentStates (paddedMessage []))
    rw [hlen] at hstates
    rw [rehashedBytes, shaBytes_512_unseen, hstates, hashBlocks_empty rfl]
    decide +kernel
  have hspec : multiHashSha256 (paddedMessage []) = #v[0x7ec5da16#32, 0xca2ac87a#32, 0x3d69f3a4#32,
      0x13e2882d#32, 0x45b25f8f#32, 0xf1627540#32, 0x6b7d1bf5#32, 0x57a61348#32] := by
    have hbytes := (rehashedBytes_iff (fun _ => true) (fun _ => 0#8) hlen).mpr rfl
    rw [← hashBlocks_rehashed (fun _ => true) rfl (fun _ => 0#8), hbytes, hlen,
      hashBlocks_empty rfl]
    decide +kernel
  refine ⟨_, mhSha256SessionBase_eq _ _ _ _ (by decide), hmissed, hspec, fun heq => ?_⟩
  exact absurd (hmissed.symm.trans (heq.trans hspec)) (by decide)

/-- Two updates of 2 GiB of zeros: what is hashed is not the padded message, whatever the loads
see. -/
theorem mhSha256Base_four_gib (sees : ℕ → Bool) :
    (message [⟨fun _ => 0#8, 2147483648#32⟩, ⟨fun _ => 0#8, 2147483648#32⟩]).length = 2 ^ 32 ∧
      mhSha256SessionBase sees (fun _ => 0#8) (Vector.replicate 16 0#32)
          ⟨Vector.replicate 8 0#32, 0#64, fun _ => 0#8, (initSegs mhSha256H, clearedFrame)⟩
          [⟨fun _ => 0#8, 2147483648#32⟩, ⟨fun _ => 0#8, 2147483648#32⟩] =
        (List.replicate 4 .errorNone, some (hashBlocks (rehashedBytes sees (fun _ => 0#8)
          (segmentStates (hashedBytes
            [⟨fun _ => 0#8, 2147483648#32⟩, ⟨fun _ => 0#8, 2147483648#32⟩]))))) ∧
      hashedBytes [⟨fun _ => 0#8, 2147483648#32⟩, ⟨fun _ => 0#8, 2147483648#32⟩] ≠
        paddedMessage (message [⟨fun _ => 0#8, 2147483648#32⟩, ⟨fun _ => 0#8, 2147483648#32⟩]) := by
  have hlen : (message [⟨fun _ => 0#8, 2147483648#32⟩, ⟨fun _ => 0#8, 2147483648#32⟩]).length =
      2 ^ 32 := by
    rw [message, List.flatMap_cons, List.flatMap_cons, List.flatMap_nil, List.append_nil,
      List.length_append, length_window]
    rfl
  have hbytes := @hashedBytes_eq [⟨fun _ => 0#8, 2147483648#32⟩, ⟨fun _ => 0#8, 2147483648#32⟩]
    (by rw [hlen]; decide)
  refine ⟨hlen, ?_, ?_⟩
  · rw [mhSha256SessionBase_eq _ _ _ _ (by rw [hlen]; decide), hbytes]
    rfl
  · rw [hbytes, ne_eq, hashedMessage_eq_iff (by rw [hlen]; decide), hlen]
    decide

end IsalCrypto.MhSha256
