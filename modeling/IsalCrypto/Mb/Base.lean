import IsalCrypto.Mb.Runs

/-!
# The C context manager

`sha256_mb/sha256_ctx_base.c` and its siblings with a big-endian length field: a context manager
without lanes, which hashes a buffer before its `submit` returns.

* `ctxMgrSubmitBase_rejected`, `ctxMgrSubmitBase_accepted`: what a submit does to a resting context.
-/

namespace IsalCrypto.Mb

open IsalCrypto.Lib

variable {D : Type*} {p : HashParams D}

section Model

variable (single : (ℕ → Byte) → D → D)

/-- `sha256_init`. -/
def HashCtx.init (ctx : HashCtx p) : HashCtx p :=
  { ctx with
    job := { ctx.job with resultDigest := p.initialDigest }
    totalLength := 0#64
    partialBlockBufferLength := 0#32
    error := .none
    status := stsProcessing }

/-- The context and the locals of `sha256_update`. -/
structure UpdateState (p : HashParams D) where
  ctx : HashCtx p
  buffer : ℕ → Byte
  remainLen : BitVec 32

/-- `sha256_single` on the digest of the context. -/
def HashCtx.hashSingle (ctx : HashCtx p) (data : ℕ → Byte) : HashCtx p :=
  { ctx with job := { ctx.job with resultDigest := single data ctx.job.resultDigest } }

/-- The copy into the extra block. -/
def UpdateState.fill (u : UpdateState p) : UpdateState p :=
  let copyLen := u.ctx.fillLen u.remainLen
  if copyLen ≠ 0#32 then
    { ctx := { u.ctx with
        partialBlockBuffer := memcpyAt u.ctx.partialBlockBuffer
          u.ctx.partialBlockBufferLength.toNat u.buffer copyLen.toNat
        partialBlockBufferLength := u.ctx.partialBlockBufferLength + copyLen }
      remainLen := u.remainLen - copyLen
      buffer := fun k => u.buffer (copyLen.toNat + k) }
  else u

/-- The part of `sha256_update` that appends to the extra block and hashes it once it is full. -/
def UpdateState.fillPartial (u : UpdateState p) : UpdateState p :=
  if u.ctx.partialBlockBufferLength ≠ 0#32 ∨ u.remainLen.toNat < p.blockSize then
    let u := u.fill
    if u.ctx.partialBlockBufferLength.toNat ≥ p.blockSize then
      let ctx := { u.ctx with partialBlockBufferLength := 0#32 }
      { u with ctx := ctx.hashSingle single (arrayBytes ctx.partialBlockBuffer) }
    else u
  else u

/-- The loop over the whole blocks of the user's buffer. -/
def UpdateState.hashBlocks (u : UpdateState p) : UpdateState p :=
  if _h : u.remainLen.toNat ≥ p.blockSize then
    hashBlocks
      { ctx := u.ctx.hashSingle single u.buffer
        buffer := fun k => u.buffer (p.blockSize + k)
        remainLen := u.remainLen - BitVec.ofNat 32 p.blockSize }
  else u
termination_by u.remainLen.toNat
decreasing_by
  have hpos := p.blockSize_pos
  have hmod : (BitVec.ofNat 32 p.blockSize).toNat = p.blockSize := by
    rw [BitVec.toNat_ofNat]
    rcases p.blockSize_mem with h | h <;> rw [h]
  rw [BitVec.toNat_sub_of_le (by rwa [BitVec.le_def, hmod]), hmod]
  omega

/-- The copy of the last bytes. -/
def UpdateState.takeTail (u : UpdateState p) : HashCtx p :=
  if u.remainLen.toNat > 0 then
    { u.ctx with
      partialBlockBuffer := memcpyAt u.ctx.partialBlockBuffer 0 u.buffer u.remainLen.toNat
      partialBlockBufferLength := u.remainLen }
  else u.ctx

/-- `sha256_update`. -/
def HashCtx.update (ctx : HashCtx p) (buffer : ℕ → Byte) (len : BitVec 32) : HashCtx p :=
  let ctx := { ctx with totalLength := ctx.totalLength + len.setWidth 64 }
  let u := UpdateState.fillPartial single ⟨ctx, buffer, len⟩
  let u := if u.ctx.partialBlockBufferLength = 0#32 then u.hashBlocks single else u
  { u.takeTail with status := stsIdle }

/-- The padded copy of the extra block that `sha256_final` hashes, and its length; `buf` is what
the stack holds in its array. -/
def HashCtx.finalPad (ctx : HashCtx p) (buf : Fin (2 * p.blockSize) → Byte) :
    (Fin (2 * p.blockSize) → Byte) × ℕ :=
  let i := ctx.partialBlockBufferLength.toNat
  let buf := memcpyAt buf 0 (arrayBytes ctx.partialBlockBuffer) i
  let buf := memcpyAt buf i (fun _ => 0x80#8) 1
  let i := i + 1
  let buf := memcpyAt buf i (fun _ => 0#8) (2 * p.blockSize - i)
  let i := if i > p.blockSize - p.padLengthFieldSize then 2 * p.blockSize else p.blockSize
  (memcpyAt buf (i - 8) (be64Bytes (ctx.totalLength * 8#64)) 8, i)

/-- `sha256_final`. -/
def HashCtx.final (ctx : HashCtx p) (buf : Fin (2 * p.blockSize) → Byte) : HashCtx p :=
  let pad := ctx.finalPad buf
  let ctx := ctx.hashSingle single (arrayBytes pad.1)
  let ctx :=
    if pad.2 = 2 * p.blockSize then
      ctx.hashSingle single (fun k => arrayBytes pad.1 (p.blockSize + k))
    else ctx
  { ctx with status := stsComplete }

/-- `_sha256_ctx_mgr_submit_base`; the context is also what it returns. -/
def ctxMgrSubmitBase (buf : Fin (2 * p.blockSize) → Byte) (ctx : HashCtx p) (buffer : ℕ → Byte)
    (len flags : BitVec 32) : HashCtx p :=
  if flags &&& ~~~hashEntire ≠ 0#32 then { ctx with error := .invalidFlags }
  else if ctx.status &&& stsProcessing ≠ 0#32 ∧ flags = hashEntire then
    { ctx with error := .alreadyProcessing }
  else if ctx.status &&& stsComplete ≠ 0#32 ∧ flags &&& hashFirst = 0#32 then
    { ctx with error := .alreadyCompleted }
  else
    let ctx := if flags = hashFirst then ctx.init.update single buffer len else ctx
    let ctx := if flags = hashUpdate then ctx.update single buffer len else ctx
    let ctx := if flags = hashLast then (ctx.update single buffer len).final single buf else ctx
    if flags = hashEntire then (ctx.init.update single buffer len).final single buf else ctx

end Model

/-! ## Updates -/

variable {single : (ℕ → Byte) → D → D} {compress : D → List Byte → D}

/-- One call of `sha256_single` is one compression. -/
def Singles (p : HashParams D) (single : (ℕ → Byte) → D → D) (compress : D → List Byte → D) :
    Prop :=
  ∀ x d, single x d = compress d (window x 0 p.blockSize)

/-- The context as `submit` of a lane manager would have it, with the locals of `sha256_update` in
the fields for the user's buffer. -/
def UpdateState.view (u : UpdateState p) : HashCtx p :=
  { u.ctx with
    incomingBuffer := u.buffer
    incomingBufferLength := u.remainLen
    error := .none
    status := stsProcessing }

/-- Only the data of a context say where in a message it is. -/
theorem HashCtx.Mid.of_data {ctx ctx' : HashCtx p} {m : List Byte} {k : ℕ} {d : D}
    (h : ctx.Mid compress m k d)
    (hlen : ctx'.partialBlockBufferLength = ctx.partialBlockBufferLength)
    (hbuf : ctx'.partialBlockBuffer = ctx.partialBlockBuffer)
    (hin : ∀ i, i < ctx.incomingBufferLength.toNat → ctx'.incomingBuffer i = ctx.incomingBuffer i)
    (hinlen : ctx'.incomingBufferLength = ctx.incomingBufferLength)
    (htotal : ctx'.totalLength = ctx.totalLength) : ctx'.Mid compress m k d := by
  constructor
  case length => rw [hlen, hinlen, h.length]
  case digest => exact h.digest
  case partialBytes => rw [hlen, hbuf]; exact h.partialBytes
  case incomingBytes =>
    intro i hi
    rw [hinlen] at hi
    rw [hin i hi, hlen, h.incomingBytes i hi]
  case partial_lt => rw [hlen]; exact h.partial_lt
  case partial_or => rw [hlen, hinlen]; exact h.partial_or
  case total => rw [htotal, h.total]

theorem view_fill (u : UpdateState p) :
    u.fill.view = u.view.fill u.buffer u.remainLen := by
  unfold UpdateState.fill HashCtx.fill
  dsimp only
  split
  · next h => rw [if_pos (show u.view.fillLen u.remainLen ≠ 0#32 from h)]; rfl
  · next h => rw [if_neg (show ¬ u.view.fillLen u.remainLen ≠ 0#32 from h)]

/-- The extra block after the first part of an update, hashed if it is full. -/
theorem fillPartial_mid (hsingle : Singles p single compress) {u : UpdateState p} {m : List Byte}
    {k : ℕ} (h : u.view.Started compress m k u.buffer u.remainLen) :
    ∃ k', (u.fillPartial single).view.Mid compress (m ++ window u.buffer 0 u.remainLen.toNat) k'
      (u.fillPartial single).ctx.job.resultDigest := by
  have hspec := fillPartial_spec h
  generalize m ++ window u.buffer 0 u.remainLen.toNat = m' at hspec ⊢
  have hfill := view_fill u
  unfold HashCtx.fillPartial at hspec
  unfold UpdateState.fillPartial
  by_cases hcond : u.ctx.partialBlockBufferLength ≠ 0#32 ∨ u.remainLen.toNat < p.blockSize
  · rw [if_pos hcond]
    rw [if_pos (show u.view.partialBlockBufferLength ≠ 0#32 ∨ _ from hcond)] at hspec
    dsimp only at hspec ⊢
    rw [← hfill] at hspec
    by_cases hfull : u.fill.ctx.partialBlockBufferLength.toNat ≥ p.blockSize
    · rw [if_pos hfull]
      rw [if_pos (show u.fill.view.partialBlockBufferLength.toNat ≥ _ from hfull)] at hspec
      obtain ⟨hone, k', hmid⟩ := hspec.submit rfl
      refine ⟨k', ?_⟩
      have hdigest : single (arrayBytes u.fill.ctx.partialBlockBuffer)
          u.fill.ctx.job.resultDigest = HashCtx.goal compress
            { u.fill.view with
              partialBlockBufferLength := 0#32
              job := { u.fill.view.job with buffer := .partialBlock 0, len := 1#64 } } := by
        rw [hsingle, HashCtx.goal, load_partialBlock_zero]
        rfl
      rw [← hdigest] at hmid
      exact hmid.of_data rfl rfl (fun _ _ => rfl) rfl rfl
    · rw [if_neg hfull]
      rw [if_neg (show ¬ u.fill.view.partialBlockBufferLength.toNat ≥ _ from hfull)] at hspec
      exact hspec.keep rfl
  · rw [if_neg hcond]
    rw [if_neg (show ¬ (u.view.partialBlockBufferLength ≠ 0#32 ∨ _) from hcond)] at hspec
    exact hspec.keep rfl

theorem toNat_blockSize (p : HashParams D) : (BitVec.ofNat 32 p.blockSize).toNat = p.blockSize := by
  rw [BitVec.toNat_ofNat]
  rcases p.blockSize_mem with h | h <;> rw [h]

/-- The loop hashes the whole blocks and leaves the bytes behind them. -/
theorem hashBlocks_eq (hsingle : Singles p single compress) (n : ℕ) :
    ∀ u : UpdateState p, u.remainLen.toNat / p.blockSize = n →
      (u.hashBlocks single).ctx = { u.ctx with
        job := { u.ctx.job with
          resultDigest := absorb compress p.blockSize u.buffer n 0 u.ctx.job.resultDigest } } ∧
      (∀ i, (u.hashBlocks single).buffer i = u.buffer (p.blockSize * n + i)) ∧
      (u.hashBlocks single).remainLen.toNat = u.remainLen.toNat % p.blockSize := by
  have hpos := p.blockSize_pos
  induction n with
  | zero =>
    intro u hn
    have hlt : u.remainLen.toNat < p.blockSize := by
      rcases Nat.div_eq_zero_iff.mp hn with h | h
      · omega
      · exact h
    rw [UpdateState.hashBlocks, dif_neg (Nat.not_le.mpr hlt), Nat.mod_eq_of_lt hlt]
    refine ⟨rfl, fun i => ?_, rfl⟩
    rw [Nat.mul_zero, Nat.zero_add]
  | succ n ih =>
    intro u hn
    have hge : u.remainLen.toNat ≥ p.blockSize := by
      by_contra h
      rw [Nat.div_eq_of_lt (Nat.not_le.mp h)] at hn
      omega
    have hsub : (u.remainLen - BitVec.ofNat 32 p.blockSize).toNat =
        u.remainLen.toNat - p.blockSize := by
      rw [BitVec.toNat_sub_of_le (by rwa [BitVec.le_def, toNat_blockSize]), toNat_blockSize]
    have hdiv : (u.remainLen.toNat - p.blockSize) / p.blockSize = n := by
      rw [Nat.div_eq_sub_div hpos hge] at hn
      exact Nat.succ.inj hn
    have habsorb : absorb compress p.blockSize u.buffer (n + 1) 0 u.ctx.job.resultDigest =
        absorb compress p.blockSize (fun k => u.buffer (p.blockSize + k)) n 0
          (single u.buffer u.ctx.job.resultDigest) := by
      rw [absorb, absorb_shift, hsingle, Nat.zero_add, Nat.add_zero]
    obtain ⟨hctx, hbuf, hlen⟩ := ih
      { ctx := u.ctx.hashSingle single u.buffer
        buffer := fun k => u.buffer (p.blockSize + k)
        remainLen := u.remainLen - BitVec.ofNat 32 p.blockSize } (by rw [hsub, hdiv])
    rw [UpdateState.hashBlocks, dif_pos hge]
    refine ⟨?_, fun i => ?_, ?_⟩
    · rw [hctx, habsorb]
      rfl
    · rw [hbuf, Nat.mul_succ]
      exact congrArg u.buffer (by omega)
    · rw [hlen, hsub, ← Nat.mod_eq_sub_mod hge]

/-- The whole blocks of the user's buffer are hashed and the bytes behind them kept. -/
theorem hashBlocks_takeTail_mid (hsingle : Singles p single compress) {u : UpdateState p}
    {m : List Byte} {k : ℕ} (h : u.view.Mid compress m k u.ctx.job.resultDigest)
    (hpart : u.ctx.partialBlockBufferLength = 0#32) :
    ({ (u.hashBlocks single).takeTail with incomingBufferLength := 0#32 } : HashCtx p).Mid compress
      m
      (k + u.remainLen.toNat / p.blockSize) (u.hashBlocks single).takeTail.job.resultDigest := by
  obtain ⟨hctx, hbuf, hlen⟩ := hashBlocks_eq hsingle _ u rfl
  have hmid := h.takeTail hpart u.ctx.job
  have hdigest : absorb compress p.blockSize u.buffer (u.remainLen.toNat / p.blockSize) 0
      u.ctx.job.resultDigest = p.chain compress m (k + u.remainLen.toNat / p.blockSize) := by
    have hdiv := Nat.div_add_mod u.remainLen.toNat p.blockSize
    rw [h.digest]
    refine HashParams.chain_add fun i hi => ?_
    have hin := h.incomingBytes i (show i < u.remainLen.toNat by omega)
    rwa [show u.view.partialBlockBufferLength = 0#32 from hpart, BitVec.toNat_zero,
      Nat.add_zero] at hin
  have hcopy : u.view.copyLen.toNat = u.remainLen.toNat % p.blockSize := u.view.toNat_copyLen
  generalize u.hashBlocks single = v at *
  have hmem : (fun i => u.buffer ((u.remainLen - u.view.copyLen).toNat + i)) = v.buffer := by
    funext i
    rw [hbuf, show (u.remainLen - u.view.copyLen).toNat = _ from u.view.toNat_wholeLen]
    rfl
  have hcopylen : u.view.copyLen = v.remainLen := BitVec.eq_of_toNat_eq (hcopy.trans hlen.symm)
  have htail : v.takeTail.partialBlockBuffer = u.view.takeTail.partialBlockBuffer ∧
      v.takeTail.partialBlockBufferLength = u.view.takeTail.partialBlockBufferLength ∧
      v.takeTail.totalLength = u.ctx.totalLength ∧
      v.takeTail.job.resultDigest = v.ctx.job.resultDigest := by
    unfold UpdateState.takeTail HashCtx.takeTail
    rw [hcopylen, hctx]
    by_cases hz : v.remainLen = 0#32
    · rw [if_neg (by rw [hz]; decide), if_neg (not_not.mpr hz)]
      exact ⟨rfl, rfl, rfl, rfl⟩
    · rw [if_pos (Nat.pos_of_ne_zero fun h => hz (BitVec.eq_of_toNat_eq h)), if_pos hz, ← hmem,
        hcopylen]
      exact ⟨rfl, rfl, rfl, rfl⟩
  obtain ⟨hbuffer, hlength, htotal, hjob⟩ := htail
  rw [hjob, hctx, hdigest]
  exact hmid.of_data hlength hbuffer (fun i hi => absurd hi (Nat.not_lt_zero i)) rfl
    (htotal.trans (takeTail_totalLength u.view).symm)

/-- The context with nothing of a user's buffer left: the C manager does not use these fields. -/
def HashCtx.rested (ctx : HashCtx p) : HashCtx p := { ctx with incomingBufferLength := 0#32 }

/-- What an update leaves: the context is idle and holds the longer message. -/
structure Updates (compress : D → List Byte → D) (ctx : HashCtx p) (m : List Byte)
    (r : HashCtx p) : Prop where
  error : r.error = ctx.error
  status : r.status = stsIdle
  mid : ∃ k, r.rested.Mid compress m k r.job.resultDigest

theorem fillPartial_error (u : UpdateState p) :
    (u.fillPartial single).ctx.error = u.ctx.error := by
  have hfill : u.fill.ctx.error = u.ctx.error := by
    unfold UpdateState.fill
    dsimp only
    split <;> rfl
  unfold UpdateState.fillPartial
  split
  · dsimp only
    split
    · exact hfill
    · exact hfill
  · rfl

theorem update_spec (hsingle : Singles p single compress) {ctx : HashCtx p} {buffer : ℕ → Byte}
    {len : BitVec 32} {m : List Byte} {k : ℕ}
    (h : (UpdateState.view ⟨{ ctx with totalLength := ctx.totalLength + len.setWidth 64 }, buffer,
      len⟩).Started compress m k buffer len) :
    Updates compress ctx (m ++ window buffer 0 len.toNat) (ctx.update single buffer len) := by
  obtain ⟨k', hmid⟩ := fillPartial_mid hsingle h
  have herr := @fillPartial_error D p single
    ⟨{ ctx with totalLength := ctx.totalLength + len.setWidth 64 }, buffer, len⟩
  unfold HashCtx.update
  dsimp only at hmid herr ⊢
  generalize UpdateState.fillPartial single ⟨_, buffer, len⟩ = u at *
  generalize m ++ window buffer 0 len.toNat = m' at *
  have htail : ∀ v : UpdateState p, v.takeTail.error = v.ctx.error := fun v => by
    unfold UpdateState.takeTail
    split <;> rfl
  by_cases hpart : u.ctx.partialBlockBufferLength = 0#32
  · rw [if_pos hpart]
    have hrest := hashBlocks_takeTail_mid hsingle hmid hpart
    refine ⟨?_, rfl, _, hrest.of_data rfl rfl (fun _ _ => rfl) rfl rfl⟩
    change (u.hashBlocks single).takeTail.error = _
    rw [htail, (hashBlocks_eq hsingle _ u rfl).1]
    exact herr
  · rw [if_neg hpart]
    -- the user's buffer went into the extra block
    have hzero : u.remainLen = 0#32 := hmid.partial_or.resolve_left hpart
    have hkeep : u.takeTail = u.ctx := if_neg (by rw [hzero]; decide)
    rw [hkeep]
    refine ⟨herr, rfl, k', hmid.of_data rfl rfl (fun i hi => ?_) hzero.symm rfl⟩
    rw [show u.view.incomingBufferLength = 0#32 from hzero] at hi
    exact absurd hi (Nat.not_lt_zero i)

/-! ## The last blocks -/

/-- `sha256_final` and `hash_pad` make the same blocks of the bytes left over. -/
theorem finalPad_eq {ctx : HashCtx p} (buf : Fin (2 * p.blockSize) → Byte) {len : ℕ}
    (htotal : ctx.totalLength = BitVec.ofNat 64 len)
    (hpart : ctx.partialBlockBufferLength.toNat = len % p.blockSize) :
    (ctx.finalPad buf).2 =
        p.blockSize * (hashPad p ctx.partialBlockBuffer ctx.totalLength).2.toNat ∧
      ∀ k, k < (ctx.finalPad buf).2 → arrayBytes (ctx.finalPad buf).1 k =
        arrayBytes (hashPad p ctx.partialBlockBuffer ctx.totalLength).1 k := by
  have hr := Nat.mod_lt len p.blockSize_pos
  have hB := p.blockSize_mem
  have hL := p.padLengthFieldSize_mem
  have hend : (if len % p.blockSize + 1 > p.blockSize - p.padLengthFieldSize then 2 * p.blockSize
      else p.blockSize) = len % p.blockSize + 1 + mdZeros p.blockSize p.padLengthFieldSize len +
        p.padLengthFieldSize := by
    rw [mdZeros_eq (by omega)]
    split <;> split <;> omega
  have hlen8 : ctx.totalLength * 8#64 = BitVec.ofNat 64 len <<< 3 := by
    rw [htotal]
    apply BitVec.eq_of_toNat_eq
    rw [BitVec.toNat_mul, BitVec.toNat_shiftLeft, Nat.shiftLeft_eq]
    rfl
  refine ⟨?_, fun k hk => ?_⟩
  · rw [htotal, hashPad_blocks, padEnd_blocks, ← hend, HashCtx.finalPad]
    dsimp only
    rw [hpart]
  · simp only [HashCtx.finalPad, hpart, hend] at hk
    simp only [HashCtx.finalPad, hpart, hend, hlen8]
    rw [htotal]
    simp only [hashPad, padEnd_eq, toNat_low]
    have hzeros := mdZeros_lt p.blockSize p.padLengthFieldSize len p.blockSize_pos
    have htwo : len % p.blockSize + 1 + mdZeros p.blockSize p.padLengthFieldSize len +
        p.padLengthFieldSize ≤ 2 * p.blockSize := by
      rw [← hend]
      split <;> omega
    generalize mdZeros p.blockSize p.padLengthFieldSize len = z at *
    generalize len % p.blockSize = r at *
    generalize p.padLengthFieldSize = L at *
    rcases Nat.lt_or_ge k (r + 1 + z + L - 8) with hlast | hlast
    · rw [arrayBytes_memcpyAt_lt hlast, arrayBytes_memcpyAt_lt hlast]
      -- the bytes before the length, without its high half
      have hhead : k < r + p.blockSize →
          arrayBytes (memcpyAt (memcpyAt (memcpyAt buf 0 (arrayBytes ctx.partialBlockBuffer) r) r
              (fun _ => 0x80#8) 1) (r + 1) (fun _ => 0#8) (2 * p.blockSize - (r + 1))) k =
            arrayBytes (memcpyAt (memcpyAt ctx.partialBlockBuffer r (fun _ => 0#8) p.blockSize) r
              (fun _ => 0x80#8) 1) k := by
        intro hkB
        rcases lt_trichotomy k r with h | rfl | h
        · rw [arrayBytes_memcpyAt_lt (by omega), arrayBytes_memcpyAt_lt h,
            arrayBytes_memcpyAt (Nat.zero_le k) (by omega) (by omega), Nat.sub_zero,
            arrayBytes_memcpyAt_lt h, arrayBytes_memcpyAt_lt h]
        · rw [arrayBytes_memcpyAt_lt (Nat.lt_succ_self k),
            arrayBytes_memcpyAt (Nat.le_refl k) (Nat.lt_succ_self k) (by omega),
            arrayBytes_memcpyAt (Nat.le_refl k) (Nat.lt_succ_self k) (by omega)]
        · rw [arrayBytes_memcpyAt h (by omega) (by omega), arrayBytes_memcpyAt_ge h,
            arrayBytes_memcpyAt (Nat.le_of_lt h) hkB (by omega)]
      split
      · next h16 =>
        rcases Nat.lt_or_ge k (r + 1 + z + L - 16) with hlow | hlow
        · rw [arrayBytes_memcpyAt_lt hlow, hhead (by omega)]
        · rw [arrayBytes_memcpyAt (by omega) (by omega) (by omega),
            arrayBytes_memcpyAt hlow (by omega) (by omega)]
      · next h8 => exact hhead (by omega)
    · rw [arrayBytes_memcpyAt hlast (by omega) (by omega),
        arrayBytes_memcpyAt hlast (by omega) (by omega)]

/-- `sha256_final` completes the hash. -/
theorem final_spec (hsingle : Singles p single compress) {ctx : HashCtx p} {m : List Byte} {k : ℕ}
    (buf : Fin (2 * p.blockSize) → Byte)
    (h : ctx.rested.Mid compress m k ctx.job.resultDigest) :
    (ctx.final single buf).error = ctx.error ∧ (ctx.final single buf).status = stsComplete ∧
      IsHash compress p m (ctx.final single buf).job.resultDigest := by
  have hlen : m.length % p.blockSize = ctx.partialBlockBufferLength.toNat := by
    have hlength := h.length
    have hlt := h.partial_lt
    rw [show ctx.rested.incomingBufferLength = 0#32 from rfl, BitVec.toNat_zero, Nat.add_zero]
      at hlength
    rw [hlength, Nat.mul_add_mod, Nat.mod_eq_of_lt hlt]
    rfl
  have hpad := h.pad rfl
  obtain ⟨hend, hbytes⟩ := @finalPad_eq D p ctx buf m.length h.total hlen.symm
  change IsHash compress p m (absorb compress p.blockSize
    (arrayBytes (hashPad p ctx.partialBlockBuffer ctx.totalLength).1)
    (hashPad p ctx.partialBlockBuffer ctx.totalLength).2.toNat 0 ctx.job.resultDigest) at hpad
  have hsize : (ctx.finalPad buf).2 = 2 * p.blockSize ∨ (ctx.finalPad buf).2 = p.blockSize := by
    unfold HashCtx.finalPad
    dsimp only
    split
    · exact .inl rfl
    · exact .inr rfl
  unfold HashCtx.final
  dsimp only
  generalize ctx.finalPad buf = pad at *
  generalize hashPad p ctx.partialBlockBuffer ctx.totalLength = pad' at *
  have hpos := p.blockSize_pos
  have hsame : absorb compress p.blockSize (arrayBytes pad'.1) pad'.2.toNat 0 ctx.job.resultDigest =
      absorb compress p.blockSize (arrayBytes pad.1) pad'.2.toNat 0 ctx.job.resultDigest :=
    absorb_congr _ _ fun k hk => by
      rw [Nat.zero_add, hbytes k (by rwa [hend])]
  rw [hsame] at hpad
  by_cases htwo : pad.2 = 2 * p.blockSize
  · have hblocks : pad'.2.toNat = 2 := by
      refine Nat.eq_of_mul_eq_mul_left hpos ?_
      rw [← hend, htwo, Nat.mul_comm]
    rw [if_pos htwo]
    refine ⟨rfl, rfl, ?_⟩
    rw [hblocks, absorb, absorb_one, Nat.zero_add, ← hsingle] at hpad
    simp only [HashCtx.hashSingle]
    rw [hsingle (fun k => arrayBytes pad.1 (p.blockSize + k)), window_shift,
      Nat.add_zero]
    exact hpad
  · have hblocks : pad'.2.toNat = 1 := by
      refine Nat.eq_of_mul_eq_mul_left hpos ?_
      rw [← hend, hsize.resolve_left htwo, Nat.mul_one]
    rw [if_neg htwo]
    refine ⟨rfl, rfl, ?_⟩
    rw [hblocks, absorb_one, ← hsingle] at hpad
    exact hpad

/-! ## Submits -/

/-- A rejected submit sets the error as the lane managers do. -/
theorem ctxMgrSubmitBase_rejected {ctx : HashCtx p} (hproc : ¬ ctx.Processing)
    (buf : Fin (2 * p.blockSize) → Byte) (buffer : ℕ → Byte) (len : BitVec 32)
    {flags : BitVec 32} (hrej : ¬ ctx.Accepts flags) :
    ctxMgrSubmitBase single buf ctx buffer len flags =
      { ctx with error := ctx.rejection flags } := by
  unfold ctxMgrSubmitBase HashCtx.rejection
  by_cases hflags : flags &&& ~~~hashEntire ≠ 0#32
  · rw [if_pos hflags, if_pos hflags]
  · rw [if_neg hflags, if_neg hflags, if_neg fun h => hproc h.1,
      if_neg (show ¬ ctx.status &&& stsProcessing ≠ 0#32 from hproc)]
    by_cases hcompl : ctx.status &&& stsComplete ≠ 0#32 ∧ flags &&& hashFirst = 0#32
    · rw [if_pos hcompl]
    · exact absurd ⟨not_not.mp hflags, not_not.mp hproc, hcompl⟩ hrej

/-- The flags that pass the first check. -/
theorem flags_cases {flags : BitVec 32} (h : flags &&& ~~~hashEntire = 0#32) :
    flags = hashUpdate ∨ flags = hashFirst ∨ flags = hashLast ∨ flags = hashEntire := by
  have hlow : flags = flags &&& hashEntire := by
    ext i hi
    have hbit := congrArg (·.getLsbD i) h
    simp only [BitVec.getLsbD_and, BitVec.getLsbD_not, BitVec.getLsbD_zero] at hbit
    simp only [BitVec.getElem_and]
    rw [← BitVec.getLsbD_eq_getElem, ← BitVec.getLsbD_eq_getElem]
    revert hbit
    cases flags.getLsbD i <;> cases (hashEntire).getLsbD i <;> simp [hi]
  have hlt : flags.toNat < 4 := by
    rw [hlow, BitVec.toNat_and]
    exact Nat.lt_of_le_of_lt Nat.and_le_right (by decide)
  have hcases : flags.toNat = 0 ∨ flags.toNat = 1 ∨ flags.toNat = 2 ∨ flags.toNat = 3 := by omega
  rcases hcases with h | h | h | h
  · exact .inl (BitVec.eq_of_toNat_eq h)
  · exact .inr (.inl (BitVec.eq_of_toNat_eq h))
  · exact .inr (.inr (.inl (BitVec.eq_of_toNat_eq h)))
  · exact .inr (.inr (.inr (BitVec.eq_of_toNat_eq h)))

/-- An accepted submit hashes the longer message; without `ISAL_HASH_FIRST` it leaves the error as
it was. -/
structure SubmitsBase (compress : D → List Byte → D) (ctx : HashCtx p) (flags : BitVec 32)
    (m : List Byte) (r : HashCtx p) : Prop where
  error : r.error = if flags &&& hashFirst ≠ 0#32 then .none else ctx.error
  status : r.status = if flags &&& hashLast ≠ 0#32 then stsComplete else stsIdle
  resting : r.rested.Resting compress (some m)

/-- What `submit` of a lane manager sets up is what `sha256_update` starts from. -/
theorem started_view {ctx : HashCtx p} {flags : BitVec 32} {m : List Byte} {k : ℕ}
    {buffer : ℕ → Byte} {len : BitVec 32}
    (h : (ctx.rested.start buffer len flags).Started compress m k buffer len) :
    let ctx := if flags &&& hashFirst ≠ 0#32 then ctx.init else ctx
    (UpdateState.view ⟨{ ctx with totalLength := ctx.totalLength + len.setWidth 64 }, buffer,
      len⟩).Started compress m k buffer len := by
  dsimp only
  by_cases hfirst : flags &&& hashFirst ≠ 0#32
  · simp only [HashCtx.start, if_pos hfirst] at h
    rw [if_pos hfirst]
    exact ⟨rfl, .inl rfl, h.length, h.digest, h.partialBytes, h.partial_lt, h.total, rfl, rfl⟩
  · simp only [HashCtx.start, if_neg hfirst] at h
    rw [if_neg hfirst]
    exact ⟨rfl, .inl rfl, h.length, h.digest, h.partialBytes, h.partial_lt, h.total, rfl, rfl⟩

/-- A context in the middle of a message is what `sha256_update` starts from. -/
theorem HashCtx.Mid.started {ctx : HashCtx p} {m : List Byte} {k : ℕ}
    (h : ctx.rested.Mid compress m k ctx.job.resultDigest) (buffer : ℕ → Byte) (len : BitVec 32) :
    (UpdateState.view ⟨{ ctx with totalLength := ctx.totalLength + len.setWidth 64 }, buffer,
      len⟩).Started compress m k buffer len := by
  have htotal : ctx.totalLength = BitVec.ofNat 64 m.length := h.total
  refine ⟨rfl, .inl rfl, h.length, h.digest, h.partialBytes, h.partial_lt, ?_, rfl, rfl⟩
  exact (congrArg (· + len.setWidth 64) htotal).trans (ofNat_add_setWidth m.length len)

/-- After `sha256_init` no bytes are hashed. -/
theorem init_mid (ctx : HashCtx p) :
    ctx.init.rested.Mid compress [] 0 ctx.init.job.resultDigest :=
  ⟨rfl, rfl, fun i hi => absurd hi (Nat.not_lt_zero i), fun i hi => absurd hi (Nat.not_lt_zero i),
    p.blockSize_pos, .inl rfl, rfl⟩

/-- Any pieces of a message, in an update each. -/
theorem updates_mid (hsingle : Singles p single compress) (pieces : List ((ℕ → Byte) × BitVec 32)) :
    ∀ {ctx : HashCtx p} {m : List Byte} {k : ℕ},
      ctx.rested.Mid compress m k ctx.job.resultDigest →
      ∃ k', (pieces.foldl (fun ctx a => ctx.update single a.1 a.2) ctx).rested.Mid compress
        (m ++ pieces.flatMap fun a => window a.1 0 a.2.toNat) k'
        (pieces.foldl (fun ctx a => ctx.update single a.1 a.2) ctx).job.resultDigest := by
  induction pieces with
  | nil =>
    intro ctx m k h
    exact ⟨k, by rwa [List.flatMap_nil, List.append_nil]⟩
  | cons a pieces ih =>
    intro ctx m k h
    obtain ⟨k', hmid⟩ := (update_spec hsingle (h.started a.1 a.2)).mid
    obtain ⟨k'', hmid'⟩ := ih hmid
    exact ⟨k'', by rwa [List.flatMap_cons, ← List.append_assoc]⟩

theorem Updates.resting {ctx : HashCtx p} {m : List Byte} {r : HashCtx p}
    (h : Updates compress ctx m r) : r.rested.Resting compress (some m) := by
  obtain ⟨k, hmid⟩ := h.mid
  exact .idle m k h.status rfl rfl hmid

theorem Updates.final (hsingle : Singles p single compress) {ctx : HashCtx p} {m : List Byte}
    {r : HashCtx p} (h : Updates compress ctx m r) (buf : Fin (2 * p.blockSize) → Byte) :
    (r.final single buf).error = ctx.error ∧ (r.final single buf).status = stsComplete ∧
      (r.final single buf).rested.Resting compress (some m) := by
  obtain ⟨k, hmid⟩ := h.mid
  obtain ⟨herr, hst, hhash⟩ := final_spec hsingle buf hmid
  refine ⟨herr.trans h.error, hst, .complete hst fun m' hm' => ?_⟩
  cases hm'
  exact hhash

theorem ctxMgrSubmitBase_accepted (hsingle : Singles p single compress) {ctx : HashCtx p}
    {msg : Option (List Byte)} (h : ctx.rested.Resting compress msg)
    (buf : Fin (2 * p.blockSize) → Byte) (buffer : ℕ → Byte) (len : BitVec 32)
    {flags : BitVec 32} (hacc : ctx.Accepts flags) :
    SubmitsBase compress ctx flags (acceptMessage msg buffer len flags)
      (ctxMgrSubmitBase single buf ctx buffer len flags) := by
  obtain ⟨m, k, hm, hstart⟩ := start_spec h buffer len hacc
  rw [hm]
  unfold ctxMgrSubmitBase
  rw [if_neg (not_not.mpr hacc.1), if_neg (fun h => h.1 hacc.2.1), if_neg hacc.2.2]
  have hupdate := update_spec hsingle (started_view hstart)
  rcases flags_cases hacc.1 with rfl | rfl | rfl | rfl
  · rw [if_neg (by decide), if_pos rfl, if_neg (by decide), if_neg (by decide)]
    rw [if_neg (by decide)] at hupdate
    exact ⟨hupdate.error, hupdate.status, hupdate.resting⟩
  · rw [if_pos rfl, if_neg (by decide), if_neg (by decide), if_neg (by decide)]
    rw [if_pos (by decide)] at hupdate
    exact ⟨hupdate.error, hupdate.status, hupdate.resting⟩
  · rw [if_neg (by decide), if_pos rfl, if_neg (by decide), if_neg (by decide)]
    rw [if_neg (by decide)] at hupdate
    obtain ⟨herr, hst, hrest⟩ := hupdate.final hsingle buf
    exact ⟨herr, hst, hrest⟩
  · rw [if_pos rfl]
    rw [if_pos (by decide)] at hupdate
    obtain ⟨herr, hst, hrest⟩ := hupdate.final hsingle buf
    exact ⟨herr, hst, hrest⟩

end IsalCrypto.Mb
