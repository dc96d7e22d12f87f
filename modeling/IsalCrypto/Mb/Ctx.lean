import IsalCrypto.Lib.MerkleDamgard
import IsalCrypto.Mb.Scheduler

/-!
# The context layer

`sha256_mb/sha256_ctx_sse.c`, `sha256_mb/aarch64/sha256_ctx_ce.c` and their siblings: the same
functions over a block size, a padding field, an initial digest and a scheduler.

A context is its job and the fields around it; `ISAL_SHA256_JOB_TO_CTX` takes a job back to the
context it is the first field of, and `NULL` to `NULL`, so a job and its context have one name.
The `while` loops take a bound on their number of rounds and return `none` when it is reached.
-/

namespace IsalCrypto.Mb

open IsalCrypto.Lib

/-- The constants of a hash: `ISAL_SHA256_LOG2_BLOCK_SIZE`, `ISAL_SHA256_PADLENGTHFIELD_SIZE`,
`ISAL_SHA256_INITIAL_DIGEST` and their siblings. -/
structure HashParams (D : Type*) where
  log2BlockSize : ℕ
  padLengthFieldSize : ℕ
  initialDigest : D
  log2BlockSize_mem : log2BlockSize = 6 ∨ log2BlockSize = 7
  padLengthFieldSize_mem : padLengthFieldSize = 8 ∨ padLengthFieldSize = 16

/-- `ISAL_SHA256_BLOCK_SIZE`. -/
def HashParams.blockSize {D : Type*} (p : HashParams D) : ℕ := 2 ^ p.log2BlockSize

/-- `ISAL_HASH_CTX_ERROR`. -/
inductive HashCtxError
  | none
  | invalidFlags
  | alreadyProcessing
  | alreadyCompleted
deriving DecidableEq, Repr

/-- `ISAL_HASH_CTX_STS_IDLE`. -/
abbrev stsIdle : BitVec 32 := 0#32
/-- `ISAL_HASH_CTX_STS_PROCESSING`. -/
abbrev stsProcessing : BitVec 32 := 1#32
/-- `ISAL_HASH_CTX_STS_LAST`. -/
abbrev stsLast : BitVec 32 := 2#32
/-- `ISAL_HASH_CTX_STS_COMPLETE`. -/
abbrev stsComplete : BitVec 32 := 4#32

/-- `ISAL_HASH_UPDATE`. -/
abbrev hashUpdate : BitVec 32 := 0#32
/-- `ISAL_HASH_FIRST`. -/
abbrev hashFirst : BitVec 32 := 1#32
/-- `ISAL_HASH_LAST`. -/
abbrev hashLast : BitVec 32 := 2#32
/-- `ISAL_HASH_ENTIRE`. -/
abbrev hashEntire : BitVec 32 := 3#32

/-- `ISAL_SHA256_HASH_CTX` and its siblings. -/
structure HashCtx {D : Type*} (p : HashParams D) where
  job : Job D
  status : BitVec 32
  error : HashCtxError
  totalLength : BitVec 64
  incomingBuffer : ℕ → Byte
  incomingBufferLength : BitVec 32
  partialBlockBuffer : Fin (2 * p.blockSize) → Byte
  partialBlockBufferLength : BitVec 32

section Ctx

variable {D : Type*} {p : HashParams D}

/-- `isal_hash_ctx_init` has been applied to the context. -/
def HashCtx.Initialised (ctx : HashCtx p) : Prop :=
  ctx.error = .none ∧ ctx.status = stsComplete

/-- `hash_pad`: the padded buffer and the number of blocks to hash in it. -/
def hashPad (p : HashParams D) (padblock : Fin (2 * p.blockSize) → Byte) (totalLen : BitVec 64) :
    (Fin (2 * p.blockSize) → Byte) × BitVec 32 :=
  let blockMask := BitVec.ofNat 64 (p.blockSize - 1)
  let i := (totalLen &&& blockMask).setWidth 32
  let padblock := memcpyAt padblock i.toNat (fun _ => 0#8) p.blockSize
  let padblock := memcpyAt padblock i.toNat (fun _ => 0x80#8) 1
  let i := i + ((blockMask &&& (0#64 - (totalLen + BitVec.ofNat 64 (p.padLengthFieldSize + 1)))) +
    1#64 + BitVec.ofNat 64 p.padLengthFieldSize).setWidth 32
  let padblock :=
    if p.padLengthFieldSize = 16 then memcpyAt padblock (i.toNat - 16) (fun _ => 0#8) 8
    else padblock
  let padblock := memcpyAt padblock (i.toNat - 8) (be64Bytes (totalLen <<< 3)) 8
  (padblock, i >>> p.log2BlockSize)

/-- The part of `submit` after its three error checks that sets the context up: the digest and the
counters under `ISAL_HASH_FIRST`, the error, the user's buffer, the status and the byte counter. -/
def HashCtx.start (ctx : HashCtx p) (buffer : ℕ → Byte) (len flags : BitVec 32) : HashCtx p :=
  let ctx :=
    if flags &&& hashFirst ≠ 0#32 then
      { ctx with
        job := { ctx.job with resultDigest := p.initialDigest }
        totalLength := 0#64
        partialBlockBufferLength := 0#32 }
    else ctx
  { ctx with
    error := .none
    incomingBuffer := buffer
    incomingBufferLength := len
    status := if flags &&& hashLast ≠ 0#32 then stsProcessing ||| stsLast else stsProcessing
    totalLength := ctx.totalLength + len.setWidth 64 }

/-- How many bytes `submit` copies into the extra block. -/
def HashCtx.fillLen (ctx : HashCtx p) (len : BitVec 32) : BitVec 32 :=
  let copyLen := BitVec.ofNat 32 p.blockSize - ctx.partialBlockBufferLength
  if len < copyLen then len else copyLen

/-- The copy. -/
def HashCtx.fill (ctx : HashCtx p) (buffer : ℕ → Byte) (len : BitVec 32) : HashCtx p :=
  let copyLen := ctx.fillLen len
  if copyLen ≠ 0#32 then
    { ctx with
      partialBlockBuffer := memcpyAt ctx.partialBlockBuffer ctx.partialBlockBufferLength.toNat
        buffer copyLen.toNat
      partialBlockBufferLength := ctx.partialBlockBufferLength + copyLen
      incomingBuffer := fun k => buffer (copyLen.toNat + k)
      incomingBufferLength := len - copyLen }
  else ctx

/-- The part of `submit` that appends to the extra block, and whether that block is full and its
job is to be submitted. -/
def HashCtx.fillPartial (ctx : HashCtx p) (buffer : ℕ → Byte) (len : BitVec 32) :
    HashCtx p × Bool :=
  if ctx.partialBlockBufferLength ≠ 0#32 ∨ len.toNat < p.blockSize then
    let ctx := ctx.fill buffer len
    if ctx.partialBlockBufferLength.toNat ≥ p.blockSize then
      ({ ctx with
          partialBlockBufferLength := 0#32
          job := { ctx.job with buffer := .partialBlock 0, len := 1#64 } }, true)
    else (ctx, false)
  else (ctx, false)

/-- The bytes of the user's buffer behind its last whole block. -/
def HashCtx.copyLen (ctx : HashCtx p) : BitVec 32 :=
  ctx.incomingBufferLength &&& BitVec.ofNat 32 (p.blockSize - 1)

/-- `resubmit` copies them to the extra block. -/
def HashCtx.takeTail (ctx : HashCtx p) : HashCtx p :=
  if ctx.copyLen ≠ 0#32 then
    { ctx with
      partialBlockBuffer := memcpyAt ctx.partialBlockBuffer 0
        (fun k => ctx.incomingBuffer ((ctx.incomingBufferLength - ctx.copyLen).toNat + k))
        ctx.copyLen.toNat
      partialBlockBufferLength := ctx.copyLen }
  else ctx

/-- The part of a round of `resubmit` that begins hashing the user's buffer: its last bytes go to
the extra block, and if it holds whole blocks their job is to be submitted. -/
def HashCtx.takeIncoming (ctx : HashCtx p) : HashCtx p × Bool :=
  if ctx.partialBlockBufferLength = 0#32 ∧ ctx.incomingBufferLength ≠ 0#32 then
    let buffer := ctx.incomingBuffer
    let len := ctx.incomingBufferLength - ctx.copyLen
    let ctx := { ctx.takeTail with incomingBufferLength := 0#32 }
    let len := len >>> p.log2BlockSize
    if len ≠ 0#32 then
      ({ ctx with job := { ctx.job with buffer := .user buffer, len := len.setWidth 64 } }, true)
    else (ctx, false)
  else (ctx, false)

/-- The rest of a round: the last blocks, or back to the user for more input. -/
def HashCtx.takePartial (ctx : HashCtx p) : HashCtx p × Bool :=
  if ctx.status &&& stsLast ≠ 0#32 then
    let pad := hashPad p ctx.partialBlockBuffer ctx.totalLength
    ({ ctx with
        partialBlockBuffer := pad.1
        status := stsProcessing ||| stsComplete
        job := { ctx.job with buffer := .partialBlock 0, len := pad.2.setWidth 64 } }, true)
  else ({ ctx with status := stsIdle }, false)

/-- One round of the loop of `resubmit`: the context, and whether its job is to be submitted;
otherwise the context is returned to the user. -/
def HashCtx.resubmitRound (ctx : HashCtx p) : HashCtx p × Bool :=
  if ctx.status &&& stsComplete ≠ 0#32 then ({ ctx with status := stsComplete }, false)
  else
    let r := ctx.takeIncoming
    if r.2 then r else r.1.takePartial

/-- The byte `k` bytes behind a job's pointer. -/
def HashCtx.load (ctx : HashCtx p) : BufferPtr → ℕ → Byte
  | .user bytes, k => bytes k
  | .partialBlock offset, k => arrayBytes ctx.partialBlockBuffer (offset + k)

@[simp]
theorem load_user (ctx : HashCtx p) (bytes : ℕ → Byte) : ctx.load (.user bytes) = bytes := rfl

@[simp]
theorem load_partialBlock_zero (ctx : HashCtx p) :
    ctx.load (.partialBlock 0) = arrayBytes ctx.partialBlockBuffer := by
  funext k
  rw [HashCtx.load, Nat.zero_add]

end Ctx

/-- The scheduler of a manager and the contexts of its users. -/
structure Mem (S J : Type*) {D : Type*} (p : HashParams D) where
  mgr : S
  ctx : J → HashCtx p

section Mgr

variable {S J D : Type*} [DecidableEq J] {p : HashParams D}

def Mem.jobs (m : Mem S J p) (c : J) : Job D := (m.ctx c).job

/-- The kernels: blocks at a job's pointer go through the compression function. -/
def Mem.kernel (compress : D → List Byte → D) (m : Mem S J p) : Kernel J D :=
  fun c ptr n d => absorb compress p.blockSize ((m.ctx c).load ptr) n 0 d

def Mem.setCtx (m : Mem S J p) (c : J) (ctx : HashCtx p) : Mem S J p :=
  { m with ctx := Function.update m.ctx c ctx }

/-- What a scheduler call leaves of the manager and of the contexts. -/
def Mem.afterMb (m : Mem S J p) (r : S × (J → Job D) × Option J) : Mem S J p × Option J :=
  (⟨r.1, fun c => { m.ctx c with job := r.2.1 c }⟩, r.2.2)

variable (sch : Scheduler S J D) (compress : D → List Byte → D)

/-- `sha256_mb_mgr_submit` on the job of a context, and `ISAL_SHA256_JOB_TO_CTX` of what it
returns. -/
def Mem.mbSubmit (m : Mem S J p) (c : J) : Mem S J p × Option J :=
  m.afterMb (sch.submit (m.kernel compress) m.mgr m.jobs c)

def Mem.mbFlush (m : Mem S J p) : Mem S J p × Option J :=
  m.afterMb (sch.flush (m.kernel compress) m.mgr m.jobs)

/-- `ctx_mgr_resubmit`. -/
def ctxMgrResubmit : ℕ → Mem S J p → Option J → Option (Mem S J p × Option J)
  | _, m, none => some (m, none)
  | 0, _, some _ => none
  | fuel + 1, m, some c =>
    let r := (m.ctx c).resubmitRound
    let m := m.setCtx c r.1
    if r.2 then
      let q := m.mbSubmit sch compress c
      ctxMgrResubmit fuel q.1 q.2
    else some (m, some c)

/-- `ctx_mgr_submit`. -/
def ctxMgrSubmit (fuel : ℕ) (m : Mem S J p) (c : J) (buffer : ℕ → Byte) (len flags : BitVec 32) :
    Option (Mem S J p × Option J) :=
  let ctx := m.ctx c
  if flags &&& ~~~hashEntire ≠ 0#32 then
    some (m.setCtx c { ctx with error := .invalidFlags }, some c)
  else if ctx.status &&& stsProcessing ≠ 0#32 then
    some (m.setCtx c { ctx with error := .alreadyProcessing }, some c)
  else if ctx.status &&& stsComplete ≠ 0#32 ∧ flags &&& hashFirst = 0#32 then
    some (m.setCtx c { ctx with error := .alreadyCompleted }, some c)
  else
    let r := (ctx.start buffer len flags).fillPartial buffer len
    let m := m.setCtx c r.1
    if r.2 then
      let q := m.mbSubmit sch compress c
      ctxMgrResubmit sch compress fuel q.1 q.2
    else ctxMgrResubmit sch compress fuel m (some c)

/-- The loop of `ctx_mgr_flush`; the second bound is on its own rounds. -/
def flushLoop (fuel : ℕ) : ℕ → Mem S J p → Option (Mem S J p × Option J)
  | 0, _ => none
  | rounds + 1, m =>
    let q := m.mbFlush sch compress
    match q.2 with
    | none => some (q.1, none)
    | some c =>
      match ctxMgrResubmit sch compress fuel q.1 (some c) with
      | none => none
      | some (m, some c) => some (m, some c)
      | some (m, none) => flushLoop fuel rounds m

/-- `ctx_mgr_flush`. -/
def ctxMgrFlush (fuel : ℕ) (m : Mem S J p) : Option (Mem S J p × Option J) :=
  flushLoop sch compress fuel fuel m

end Mgr

end IsalCrypto.Mb
