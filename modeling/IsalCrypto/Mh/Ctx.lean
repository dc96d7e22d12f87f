import IsalCrypto.Lib.Window
import IsalCrypto.Memory

/-!
# The context layer of the multi-hashes

`mh_sha1/mh_sha1_update_base.c`, `mh_sha1/mh_sha1_finalize_base.c` and their copies for
`mh_sha256` and `mh_sha1_murmur3_x64_128`: the same text over the block function that a macro names.
The block function works on the interim digests and the frame buffer, one type `D` here.
-/

namespace IsalCrypto.Mh

open IsalCrypto.Lib

/-- `ISAL_MH_SHA1_CTX_ERROR_NONE`, `ISAL_MH_SHA1_CTX_ERROR_NULL` and their siblings. -/
inductive MhCtxError
  | errorNone
  | errorNull
deriving DecidableEq, Repr

/-- `isal_mh_sha1_ctx` and its siblings. -/
structure MhCtx (D R : Type*) where
  digest : R
  totalLength : BitVec 64
  partialBlockBuffer : Fin 2048 → Byte
  interim : D

section Update

variable {D R : Type*}

/-- An update on its way: the context, `input_data` and `len`. -/
structure Feed (D R : Type*) where
  ctx : MhCtx D R
  input : ℕ → Byte
  len : BitVec 32

variable (blockFunction : (ℕ → Byte) → BitVec 32 → D → D)

/-- The previous partial block is completed and processed. -/
def Feed.finishPartial (r : Feed D R) (partialBlockLen : BitVec 32) : Feed D R :=
  if partialBlockLen ≠ 0#32 then
    let fill := 1024#32 - partialBlockLen
    let buffer := memcpyAt r.ctx.partialBlockBuffer partialBlockLen.toNat r.input fill.toNat
    { ctx :=
        { r.ctx with
          interim := blockFunction (arrayBytes buffer) 1#32 r.ctx.interim
          partialBlockBuffer := memcpyAt buffer 0 (fun _ => 0#8) 1024 }
      input := fun k => r.input (fill.toNat + k)
      len := r.len - fill }
  else r

/-- The current blocks are processed. -/
def Feed.currentBlocks (r : Feed D R) : Feed D R :=
  let numBlocks := r.len / 1024#32
  if numBlocks > 0#32 then
    { ctx := { r.ctx with interim := blockFunction r.input numBlocks r.ctx.interim }
      input := fun k => r.input ((numBlocks * 1024#32).toNat + k)
      len := r.len - numBlocks * 1024#32 }
  else r

/-- The partial block is stored. -/
def Feed.storePartial (r : Feed D R) : MhCtx D R :=
  if r.len ≠ 0#32 then
    { r.ctx with
      partialBlockBuffer := memcpyAt r.ctx.partialBlockBuffer 0 r.input r.len.toNat }
  else r.ctx

/-- `MH_SHA1_UPDATE_FUNCTION` on a context. -/
def MhCtx.update (ctx : MhCtx D R) (buffer : ℕ → Byte) (len : BitVec 32) : MhCtx D R :=
  if len = 0#32 then ctx
  else
    let partialBlockLen := (ctx.totalLength % 1024#64).setWidth 32
    let ctx := { ctx with totalLength := ctx.totalLength + len.setWidth 64 }
    if len < 1024#32 - partialBlockLen then
      { ctx with
        partialBlockBuffer :=
          memcpyAt ctx.partialBlockBuffer partialBlockLen.toNat buffer len.toNat }
    else
      ((Feed.mk ctx buffer len).finishPartial blockFunction partialBlockLen
        |>.currentBlocks blockFunction).storePartial

/-- `MH_SHA1_UPDATE_FUNCTION`; `none` is `NULL`. -/
def updateFunction (ctx : Option (MhCtx D R)) (buffer : ℕ → Byte) (len : BitVec 32) :
    MhCtxError × Option (MhCtx D R) :=
  match ctx with
  | none => (.errorNull, none)
  | some ctx => (.errorNone, some (ctx.update blockFunction buffer len))

end Update

section Finalize

variable {D R : Type*} (blockFunction : (ℕ → Byte) → BitVec 32 → D → D) (shaFor : D → R)

/-- `MH_SHA1_TAIL_FUNCTION`: the padded buffer, the interim digests and the digest. `sees` is about
the loads of the block function from the buffer, after the store of the length. -/
def tailFunction (sees : ℕ → Bool) (partialBuffer : Fin 2048 → Byte) (totalLen : BitVec 32)
    (digests : D) : (Fin 2048 → Byte) × D × R :=
  let partialBufferLen := (totalLen % 1024#32).toNat
  let buffer := memcpyAt partialBuffer partialBufferLen (fun _ => 0x80#8) 1
  let partialBufferLen := partialBufferLen + 1
  let buffer := memcpyAt buffer partialBufferLen (fun _ => 0#8) (1024 - partialBufferLen)
  -- the first block, without the length, if the padding needs two
  let r :=
    if partialBufferLen > 1024 - 8 then
      (memcpyAt buffer 0 (fun _ => 0#8) 1024, blockFunction (arrayBytes buffer) 1#32 digests)
    else (buffer, digests)
  let lenInBit := be64Bytes (totalLen.setWidth 64 * 8#64)
  let buffer := memcpyAt r.1 (1024 - 8) lenInBit 8
  let digests := blockFunction (seenBytes sees (arrayBytes r.1) (arrayBytes buffer)) 1#32 r.2
  (buffer, digests, shaFor digests)

/-- `MH_SHA1_FINALIZE_FUNCTION` on a context. -/
def MhCtx.finalize (ctx : MhCtx D R) : MhCtx D R :=
  -- `total_len` is narrowed to the 32 bits of the tail's parameter; the block function is in
  -- another file, so its loads see the length
  let t := tailFunction blockFunction shaFor (fun _ => true) ctx.partialBlockBuffer
    (ctx.totalLength.setWidth 32) ctx.interim
  { ctx with partialBlockBuffer := t.1, interim := t.2.1, digest := t.2.2 }

/-- `MH_SHA1_FINALIZE_FUNCTION`: the context, and what it stores to the user's digest if that is
not `NULL`. -/
def finalizeFunction (ctx : Option (MhCtx D R)) (digestNull : Bool) :
    MhCtxError × Option (MhCtx D R) × Option R :=
  match ctx with
  | none => (.errorNull, none, none)
  | some ctx =>
    let ctx := ctx.finalize blockFunction shaFor
    (.errorNone, some ctx, if digestNull then none else some ctx.digest)

/-- `_mh_sha1_block_base` and its siblings: one block after the other. -/
def blockLoop (single : (ℕ → Byte) → D → D) : ℕ → (ℕ → Byte) → D → D
  | 0, _, d => d
  | n + 1, input, d => blockLoop single n (fun k => input (1024 + k)) (single input d)

end Finalize

/-! ## Runs -/

section Session

variable {D R : Type*}

/-- The context that `_mh_sha1_init` and its siblings leave: cleared, with the first digests. -/
def MhCtx.init (cleared : R) (first : D) : MhCtx D R := ⟨cleared, 0#64, fun _ => 0#8, first⟩

/-- `_mh_sha1_init` and its siblings. -/
def initFunction (cleared : R) (first : D) (ctx : Option (MhCtx D R)) :
    MhCtxError × Option (MhCtx D R) :=
  match ctx with
  | none => (.errorNull, none)
  | some _ => (.errorNone, some (MhCtx.init cleared first))

/-- The arguments of an update. -/
structure Piece where
  buffer : ℕ → Byte
  len : BitVec 32

/-- The message cut into the pieces. -/
def message (pieces : List Piece) : List Byte :=
  pieces.flatMap fun p => window p.buffer 0 p.len.toNat

variable (blockFunction : (ℕ → Byte) → BitVec 32 → D → D) (shaFor : D → R)

/-- One update after the other. -/
def MhCtx.updates (ctx : MhCtx D R) (pieces : List Piece) : MhCtx D R :=
  pieces.foldl (fun ctx p => ctx.update blockFunction p.buffer p.len) ctx

/-- The codes of the calls so far, and the context. -/
def updateCalls (r : List MhCtxError × Option (MhCtx D R)) (pieces : List Piece) :
    List MhCtxError × Option (MhCtx D R) :=
  pieces.foldl
    (fun r p =>
      let q := updateFunction blockFunction r.2 p.buffer p.len
      (r.1 ++ [q.1], q.2)) r

/-- The initialisation of a context, the updates and the end: the code of every call, and what is
stored to the user's digest. -/
def session (cleared : R) (first : D) (ctx : MhCtx D R) (pieces : List Piece) :
    List MhCtxError × Option R :=
  let c := initFunction cleared first (some ctx)
  let u := updateCalls blockFunction ([c.1], c.2) pieces
  let q := finalizeFunction blockFunction shaFor u.2 false
  (u.1 ++ [q.1], q.2.2)

theorem updateCalls_eq (codes : List MhCtxError) (ctx : MhCtx D R) (pieces : List Piece) :
    updateCalls blockFunction (codes, some ctx) pieces =
      (codes ++ List.replicate pieces.length .errorNone,
        some (ctx.updates blockFunction pieces)) := by
  induction pieces generalizing codes ctx with
  | nil => simp [updateCalls, MhCtx.updates]
  | cons p pieces ih =>
    change updateCalls blockFunction (codes ++ [.errorNone],
      some (ctx.update blockFunction p.buffer p.len)) pieces = _
    rw [ih, List.append_assoc]
    rfl

/-- No call fails. -/
theorem session_eq (cleared : R) (first : D) (ctx : MhCtx D R) (pieces : List Piece) :
    session blockFunction shaFor cleared first ctx pieces =
      (List.replicate (pieces.length + 2) .errorNone,
        some (((MhCtx.init cleared first).updates blockFunction pieces).finalize blockFunction
          shaFor).digest) := by
  unfold session initFunction
  dsimp only
  rw [updateCalls_eq, List.replicate_succ, List.replicate_succ']
  rfl

/-- `mh_sha1_ref` and its siblings: its variables are those of an update from a block boundary.
`stack` is what its partial block buffer holds at first. The block function is in the same file as
the tail; `sees` is about its loads from the padded buffer. -/
def refFunction (sees : ℕ → Bool) (first : D) (stack : Fin 2048 → Byte) (buffer : ℕ → Byte)
    (len : BitVec 32) : R :=
  let ctx : MhCtx D Unit := (Feed.currentBlocks blockFunction
    ⟨⟨(), len.setWidth 64, stack, first⟩, buffer, len⟩).storePartial
  (tailFunction blockFunction shaFor sees ctx.partialBlockBuffer len ctx.interim).2.2

end Session

end IsalCrypto.Mh
