import IsalCrypto.MhSha1.Base

/-!
# Multi-hash SHA-1 and MurmurHash3 in one pass

`mh_sha1_murmur3_x64_128/`: the context layer of multi-hash SHA-1 over a block function that does
both hashes, and a `finalize` that takes the last MurmurHash blocks and the tail from the partial
block before the padding overwrites it (`mhSha1Murmur3_session`).
-/

namespace IsalCrypto.MhSha1

open IsalCrypto.Lib IsalCrypto.Mh

/-! ## MurmurHash3 -/

/-- `uint32_t digests[4]` as the two `uint64_t` that the code reads it as. -/
abbrev MurmurHash := BitVec 64 × BitVec 64

/-- `(x << shift) | (x >> (64 - shift))`. -/
def rotate64 (x : BitVec 64) (shift : ℕ) : BitVec 64 := (x <<< shift) ||| (x >>> (64 - shift))

def blockmix64 (data conA conB : BitVec 64) (shift : ℕ) : BitVec 64 :=
  rotate64 (data * conA) shift * conB

def hashmix64 (hashA hashB data add : BitVec 64) (shift : ℕ) : BitVec 64 :=
  (rotate64 (hashA ^^^ data) shift + hashB) * 5#64 + add

/-- `MUR_CON1`. -/
def murCon1 : BitVec 64 := 0x87c37b91114253d5#64

/-- `MUR_CON2`. -/
def murCon2 : BitVec 64 := 0x4cf5ad432745937f#64

/-- The body of the loop of `_murmur3_x64_128_block` on its two words. -/
def murmurMix (hash : MurmurHash) (data1 data2 : BitVec 64) : MurmurHash :=
  let data1 := blockmix64 data1 murCon1 murCon2 31
  let data2 := blockmix64 data2 murCon2 murCon1 33
  let hash0 := hashmix64 hash.1 hash.2 data1 0x52dce729#64 27
  (hash0, hashmix64 hash.2 hash0 data2 0x38495ab5#64 31)

/-- Round `i` of that loop. The index of a word is computed in 32 bits. -/
def murmurRound (input : ℕ → Byte) (hash : MurmurHash) (i : ℕ) : MurmurHash :=
  let q := BitVec.ofNat 32 i * 2#32
  murmurMix hash (load64 input (8 * q.toNat)) (load64 input (8 * (q + 1#32).toNat))

/-- `_murmur3_x64_128_block`. -/
def murmur3X64128Block (input : ℕ → Byte) (numBlocks : BitVec 32) (hash : MurmurHash) :
    MurmurHash :=
  (List.range numBlocks.toNat).foldl (murmurRound input) hash

/-- The final mixing of one word. -/
def murmurFinal (h : BitVec 64) : BitVec 64 :=
  let h := h ^^^ (h >>> 33)
  let h := h * 0xff51afd7ed558ccd#64
  let h := h ^^^ (h >>> 33)
  let h := h * 0xc4ceb9fe1a85ec53#64
  h ^^^ (h >>> 33)

/-- `_murmur3_x64_128_tail`. -/
def murmur3X64128Tail (tail : ℕ → Byte) (totalLen : BitVec 32) (hash : MurmurHash) : MurmurHash :=
  let tailLen := (totalLen % 16#32).toNat
  let hashB := fun k => if k < tailLen then tail k else 0#8
  let data1 := blockmix64 (load64 hashB 0) murCon1 murCon2 31
  let data2 := blockmix64 (load64 hashB 8) murCon2 murCon1 33
  let hash0 := hash.1 ^^^ (totalLen.setWidth 64 ^^^ data1)
  let hash1 := hash.2 ^^^ (totalLen.setWidth 64 ^^^ data2)
  let hash0 := hash0 + hash1
  let hash1 := hash1 + hash0
  let hash0 := murmurFinal hash0
  let hash1 := murmurFinal hash1
  let hash0 := hash0 + hash1
  (hash0, hash1 + hash0)

/-- `murmur3_x64_128`. -/
def murmur3X64128 (buffer : ℕ → Byte) (len : BitVec 32) (seed : BitVec 64) : MurmurHash :=
  let hash := murmur3X64128Block buffer (len / 16#32) (seed, seed)
  murmur3X64128Tail (fun k => buffer (len.toNat - len.toNat % 16 + k)) len hash

/-! ## The stitched functions -/

/-- `isal_mh_sha1_murmur3_x64_128_ctx`; its MurmurHash digest is with the interim digests. -/
abbrev MhSha1Murmur3Ctx := MhCtx ((SegsDigests 5 × Frame) × MurmurHash) Sha1.Digest

/-- `_mh_sha1_murmur3_x64_128_block_base`. -/
def mhSha1Murmur3BlockBase (input : ℕ → Byte) (numBlocks : BitVec 32)
    (d : (SegsDigests 5 × Frame) × MurmurHash) : (SegsDigests 5 × Frame) × MurmurHash :=
  (mhSha1BlockBase input numBlocks d.1,
    murmur3X64128Block input (numBlocks * 1024#32 / 16#32) d.2)

/-- `_mh_sha1_murmur3_x64_128_init`. -/
def mhSha1Murmur3Init (seed : BitVec 64) (ctx : Option MhSha1Murmur3Ctx) :
    MhCtxError × Option MhSha1Murmur3Ctx :=
  initFunction (Vector.replicate 5 0#32) ((initSegs mhSha1H, clearedFrame), (seed, seed)) ctx

/-- `_mh_sha1_murmur3_x64_128_update_base`. -/
def mhSha1Murmur3UpdateBase (ctx : Option MhSha1Murmur3Ctx) (buffer : ℕ → Byte) (len : BitVec 32) :
    MhCtxError × Option MhSha1Murmur3Ctx :=
  updateFunction mhSha1Murmur3BlockBase ctx buffer len

/-- `_mh_sha1_murmur3_x64_128_finalize_base` on a context. -/
def finalizeMurmur3 (buf : Fin 128 → Byte) (ctx : MhSha1Murmur3Ctx) : MhSha1Murmur3Ctx :=
  let partialBlockLen := ctx.totalLength % 1024#64
  -- MurmurHash first, because the tail of `mh_sha1` changes the buffer
  let hash := murmur3X64128Block (arrayBytes ctx.partialBlockBuffer)
    ((partialBlockLen / 16#64).setWidth 32) ctx.interim.2
  let hash := murmur3X64128Tail
    (fun k => arrayBytes ctx.partialBlockBuffer
      ((partialBlockLen - partialBlockLen % 16#64).toNat + k)) (ctx.totalLength.setWidth 32) hash
  let t := tailFunction mhSha1BlockBase (sha1OfDigests buf) (fun _ => true) ctx.partialBlockBuffer
    (ctx.totalLength.setWidth 32) ctx.interim.1
  { ctx with partialBlockBuffer := t.1, interim := (t.2.1, hash), digest := t.2.2 }

/-- `_mh_sha1_murmur3_x64_128_finalize_base`: the context, and what it stores to the two digests of
the user that are not `NULL`. -/
def mhSha1Murmur3FinalizeBase (buf : Fin 128 → Byte) (ctx : Option MhSha1Murmur3Ctx)
    (mhSha1Null murmurNull : Bool) :
    MhCtxError × Option MhSha1Murmur3Ctx × Option Sha1.Digest × Option MurmurHash :=
  match ctx with
  | none => (.errorNull, none, none, none)
  | some ctx =>
    let ctx := finalizeMurmur3 buf ctx
    (.errorNone, some ctx, if mhSha1Null then none else some ctx.digest,
      if murmurNull then none else some ctx.interim.2)

/-- The initialisation of a context, the updates and the end: the code of every call, and the two
digests stored. -/
def mhSha1Murmur3Session (buf : Fin 128 → Byte) (seed : BitVec 64) (ctx : MhSha1Murmur3Ctx)
    (pieces : List Piece) : List MhCtxError × Option Sha1.Digest × Option MurmurHash :=
  let c := mhSha1Murmur3Init seed (some ctx)
  let u := updateCalls mhSha1Murmur3BlockBase ([c.1], c.2) pieces
  let q := mhSha1Murmur3FinalizeBase buf u.2 false false
  (u.1 ++ [q.1], q.2.2)

/-! ## MurmurHash blocks -/

/-- A block of 16 bytes. -/
def murmurBlock (hash : MurmurHash) (block : List Byte) : MurmurHash :=
  murmurMix hash (load64 (stream block) 0) (load64 (stream block) 8)

theorem load64_congr {x y : ℕ → Byte} {i j : ℕ} (h : ∀ k, k < 8 → x (i + k) = y (j + k)) :
    load64 x i = load64 y j := by
  have h0 := h 0 (by decide)
  rw [Nat.add_zero, Nat.add_zero] at h0
  simp only [load64, load32, Nat.add_assoc, Nat.reduceAdd]
  rw [h0, h 1 (by decide), h 2 (by decide), h 3 (by decide), h 4 (by decide), h 5 (by decide),
    h 6 (by decide), h 7 (by decide)]

theorem murmurRound_eq (input : ℕ → Byte) (hash : MurmurHash) {i : ℕ} (hi : i < 2 ^ 31) :
    murmurRound input hash i = murmurBlock hash (window input (16 * i) 16) := by
  have hq : (BitVec.ofNat 32 i * 2#32).toNat = 2 * i := by
    rw [BitVec.toNat_mul, BitVec.toNat_ofNat, BitVec.toNat_ofNat]
    omega
  have hq1 : (BitVec.ofNat 32 i * 2#32 + 1#32).toNat = 2 * i + 1 := by
    rw [BitVec.toNat_add, hq, BitVec.toNat_ofNat]
    omega
  have hfirst : load64 (stream (window input (16 * i) 16)) 0 = load64 input (8 * (2 * i)) := by
    refine load64_congr fun k hk => ?_
    rw [Nat.zero_add, stream_window (by omega)]
    exact congrArg input (by omega)
  have hsecond : load64 (stream (window input (16 * i) 16)) 8 = load64 input (8 * (2 * i + 1)) := by
    refine load64_congr fun k hk => ?_
    rw [stream_window (by omega)]
    exact congrArg input (by omega)
  rw [murmurBlock, hfirst, hsecond]
  unfold murmurRound
  dsimp only
  rw [hq, hq1]

theorem murmur3X64128Block_eq (input : ℕ → Byte) {n : BitVec 32} (hn : n.toNat < 2 ^ 31)
    (hash : MurmurHash) :
    murmur3X64128Block input n hash = absorb murmurBlock 16 input n.toNat 0 hash := by
  rw [absorb_eq_foldl, murmur3X64128Block]
  refine List.foldl_ext _ _ _ fun h i hi => ?_
  rw [murmurRound_eq input h (Nat.lt_trans (List.mem_range.mp hi) hn), Nat.zero_add]

/-- The tail reads `totalLen % 16` bytes. -/
theorem murmur3X64128Tail_congr {tail tail' : ℕ → Byte} {totalLen : BitVec 32} (hash : MurmurHash)
    (h : ∀ k, k < totalLen.toNat % 16 → tail k = tail' k) :
    murmur3X64128Tail tail totalLen hash = murmur3X64128Tail tail' totalLen hash := by
  have hlen : (totalLen % 16#32).toNat = totalLen.toNat % 16 := by
    rw [BitVec.toNat_umod]
    rfl
  have hbytes : (fun k => if k < (totalLen % 16#32).toNat then tail k else 0#8) =
      fun k => if k < (totalLen % 16#32).toNat then tail' k else 0#8 := by
    funext k
    split
    · next hk => exact h k (hlen ▸ hk)
    · rfl
  unfold murmur3X64128Tail
  dsimp only
  rw [hbytes]

/-- MurmurHash3 of a message whose length a `uint32_t` holds. -/
def murmurOf (x : ℕ → Byte) (len : BitVec 32) (seed : BitVec 64) : MurmurHash :=
  murmur3X64128Tail (fun k => x (16 * (len.toNat / 16) + k)) len
    (absorb murmurBlock 16 x (len.toNat / 16) 0 (seed, seed))

theorem murmur3X64128_eq (buffer : ℕ → Byte) (len : BitVec 32) (seed : BitVec 64) :
    murmur3X64128 buffer len seed = murmurOf buffer len seed := by
  have hlt := len.isLt
  have hdiv : (len / 16#32).toNat = len.toNat / 16 := by
    rw [BitVec.toNat_udiv]
    rfl
  rw [murmur3X64128, murmurOf, murmur3X64128Block_eq _ (by rw [hdiv]; omega), hdiv]
  refine murmur3X64128Tail_congr _ fun k _ => ?_
  exact congrArg buffer (by omega)

/-! ## Both hashes -/

/-- The states of the segments and the MurmurHash. -/
def stitchedState (d : (SegsDigests 5 × Frame) × MurmurHash) :
    (Fin 16 → Sha1.Digest) × MurmurHash :=
  (segDigest d.1.1, d.2)

/-- What a block of 1024 bytes does to both. -/
def stitchedBlock (e : (Fin 16 → Sha1.Digest) × MurmurHash) (block : List Byte) :
    (Fin 16 → Sha1.Digest) × MurmurHash :=
  (compressSegments Sha1.compress e.1 block, absorb murmurBlock 16 (stream block) 64 0 e.2)

theorem absorb_stitchedBlock (x : ℕ → Byte) (n : ℕ) (e : Fin 16 → Sha1.Digest) (h : MurmurHash) :
    absorb stitchedBlock 1024 x n 0 (e, h) =
      (absorb (compressSegments Sha1.compress) 1024 x n 0 e,
        absorb murmurBlock 16 x (64 * n) 0 h) :=
  (absorb_prod x n 0 e h).trans (congrArg (Prod.mk _) (absorb_nested x 64 n 0 h))

theorem mhSha1Murmur3BlockBase_absorbs :
    Absorbs mhSha1Murmur3BlockBase stitchedState stitchedBlock := by
  intro x n d hn
  have hblocks : (n * 1024#32 / 16#32).toNat = 64 * n.toNat := by
    have h16 : (16#32).toNat = 16 := rfl
    have h1024 : (1024#32).toNat = 1024 := rfl
    rw [BitVec.toNat_udiv, BitVec.toNat_mul, h16, h1024]
    omega
  have hsha := mhSha1BlockBase_absorbs x n d.1 hn
  have hmurmur := murmur3X64128Block_eq x (n := n * 1024#32 / 16#32) (by rw [hblocks]; omega) d.2
  rw [hblocks] at hmurmur
  rw [absorb_stitchedBlock]
  exact Prod.ext hsha hmurmur

/-- The MurmurHash of the message, from a context that has taken it. -/
theorem finalizeMurmur3_murmur (buf : Fin 128 → Byte) {ctx : MhSha1Murmur3Ctx} {m : List Byte}
    {seed : BitVec 64}
    (h : ctx.Holds stitchedState stitchedBlock (fun _ => mhSha1H, (seed, seed))
      (stream m) m.length) (hm : m.length < 2 ^ 32) :
    (finalizeMurmur3 buf ctx).interim.2 = murmurOf (stream m) (BitVec.ofNat 32 m.length) seed := by
  have hinterim := congrArg Prod.snd h.interim
  rw [absorb_stitchedBlock, stitchedState] at hinterim
  dsimp only at hinterim
  have hlen : (BitVec.ofNat 32 m.length).toNat = m.length := by
    rw [BitVec.toNat_ofNat, Nat.mod_eq_of_lt hm]
  have htotal : ctx.totalLength.setWidth 32 = BitVec.ofNat 32 m.length := by
    apply BitVec.eq_of_toNat_eq
    rw [BitVec.toNat_setWidth, h.total, BitVec.toNat_ofNat]
  have hrest : (ctx.totalLength % 1024#64).toNat = m.length % 1024 := by
    rw [BitVec.toNat_umod, h.total]
    rfl
  have h16 : (16#64).toNat = 16 := rfl
  have hblocks : ((ctx.totalLength % 1024#64 / 16#64).setWidth 32).toNat =
      m.length % 1024 / 16 := by
    rw [BitVec.toNat_setWidth, BitVec.toNat_udiv, hrest, h16]
    omega
  have htail : (ctx.totalLength % 1024#64 - ctx.totalLength % 1024#64 % 16#64).toNat =
      16 * (m.length % 1024 / 16) := by
    rw [BitVec.toNat_sub, BitVec.toNat_umod, hrest, h16]
    omega
  -- the blocks in the partial block go on from those of the whole blocks
  have hhash : murmur3X64128Block (arrayBytes ctx.partialBlockBuffer)
      ((ctx.totalLength % 1024#64 / 16#64).setWidth 32) ctx.interim.2 =
      absorb murmurBlock 16 (stream m) (m.length / 16) 0 (seed, seed) := by
    rw [murmur3X64128Block_eq _ (by rw [hblocks]; omega), hblocks, hinterim,
      show m.length / 16 = 64 * (m.length / 1024) + m.length % 1024 / 16 by omega, absorb_add]
    refine absorb_congr _ _ fun k hk => ?_
    rw [Nat.zero_add, Nat.zero_add, h.stored k (by omega)]
    exact congrArg (stream m) (by omega)
  unfold finalizeMurmur3
  dsimp only
  rw [hhash, htail, htotal, murmurOf, hlen]
  refine murmur3X64128Tail_congr _ fun k hk => ?_
  rw [hlen] at hk
  rw [h.stored _ (by omega)]
  exact congrArg (stream m) (by omega)

/-- The multi-hash of the message, from a context that has taken it. -/
theorem finalizeMurmur3_sha1 (buf : Fin 128 → Byte) {ctx : MhSha1Murmur3Ctx} {m : List Byte}
    {seed : BitVec 64}
    (h : ctx.Holds stitchedState stitchedBlock (fun _ => mhSha1H, (seed, seed))
      (stream m) m.length) :
    (finalizeMurmur3 buf ctx).digest = multiHashSha1 (hashedMessage m) := by
  have hinterim := congrArg Prod.fst h.interim
  rw [absorb_stitchedBlock] at hinterim
  have hsha : (⟨ctx.digest, ctx.totalLength, ctx.partialBlockBuffer, ctx.interim.1⟩ :
      MhSha1Ctx).Holds (fun d => segDigest d.1) (compressSegments Sha1.compress) (fun _ => mhSha1H)
      (stream m) m.length := ⟨h.total, hinterim, h.stored⟩
  have htail := hsha.tail mhSha1BlockBase_absorbs seesLength_all (sha1OfDigests buf)
    (show (ctx.totalLength.setWidth 32).toNat = _ by rw [BitVec.toNat_setWidth, h.total])
  rw [multiHashSha1, multiHash]
  refine Eq.trans ?_ (congrArg (fun e => Sha1.hash (interleave e)) htail)
  exact sha1OfSegs_eq buf _

/-- The stitched functions on a message of less than `2 ^ 32` bytes, cut in any way: the digest of
multi-hash SHA-1 on the same message cut in any other way, and the MurmurHash of the message. -/
theorem mhSha1Murmur3_session (buf buf' : Fin 128 → Byte) (seed : BitVec 64)
    (ctx : MhSha1Murmur3Ctx) (ctx' : MhSha1Ctx) (pieces pieces' : List Piece)
    (hlen : (message pieces).length < 2 ^ 32) (hsame : message pieces' = message pieces) :
    mhSha1Murmur3Session buf seed ctx pieces =
      (List.replicate (pieces.length + 2) .errorNone, (mhSha1SessionBase buf' ctx' pieces').2,
        some (murmur3X64128 (stream (message pieces)) (BitVec.ofNat 32 (message pieces).length)
          seed)) := by
  have hfirst : stitchedState ((initSegs mhSha1H, clearedFrame), (seed, seed)) =
      (fun _ => mhSha1H, (seed, seed)) := by
    rw [stitchedState, segDigest_initSegs]
  have hrun := MhCtx.holds_run mhSha1Murmur3BlockBase_absorbs (Vector.replicate 5 0#32) hfirst
    (show (message pieces).length < 2 ^ 64 by omega)
  rw [mhSha1SessionBase_eq buf' ctx' (by rw [hsame]; omega), hsame,
    ← finalizeMurmur3_sha1 buf hrun, murmur3X64128_eq, ← finalizeMurmur3_murmur buf hrun hlen]
  unfold mhSha1Murmur3Session mhSha1Murmur3Init initFunction
  dsimp only
  rw [updateCalls_eq, List.replicate_succ, List.replicate_succ']
  rfl

/-- 1503 bytes, cut inside the first block and after it. -/
theorem mhSha1Murmur3_session_two_cuts :
    mhSha1Murmur3Session (fun _ => 0#8) 7#64
        (MhCtx.init (Vector.replicate 5 0#32) ((initSegs mhSha1H, clearedFrame), (0#64, 0#64)))
        [⟨fun _ => 0x61#8, 3#32⟩, ⟨fun _ => 0x61#8, 1500#32⟩] =
      (List.replicate 4 .errorNone,
        (mhSha1SessionBase (fun _ => 0#8)
          (MhCtx.init (Vector.replicate 5 0#32) (initSegs mhSha1H, clearedFrame))
          [⟨fun _ => 0x61#8, 1024#32⟩, ⟨fun _ => 0x61#8, 479#32⟩]).2,
        some (murmur3X64128 (stream (List.replicate 1503 0x61#8)) 1503#32 7#64)) := by
  have hmessage : ∀ m n : BitVec 32, message [⟨fun _ => 0x61#8, m⟩, ⟨fun _ => 0x61#8, n⟩] =
      List.replicate (m.toNat + n.toNat) 0x61#8 := by
    intro m n
    simp [message, window]
  have hrun := mhSha1Murmur3_session (fun _ => 0#8) (fun _ => 0#8) 7#64
    (MhCtx.init (Vector.replicate 5 0#32) ((initSegs mhSha1H, clearedFrame), (0#64, 0#64)))
    (MhCtx.init (Vector.replicate 5 0#32) (initSegs mhSha1H, clearedFrame))
    [⟨fun _ => 0x61#8, 3#32⟩, ⟨fun _ => 0x61#8, 1500#32⟩]
    [⟨fun _ => 0x61#8, 1024#32⟩, ⟨fun _ => 0x61#8, 479#32⟩]
    (by rw [hmessage, List.length_replicate]; decide) (by rw [hmessage, hmessage]; rfl)
  rw [hmessage, List.length_replicate] at hrun
  exact hrun

end IsalCrypto.MhSha1
