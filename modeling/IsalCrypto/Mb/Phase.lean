import IsalCrypto.Mb.Pad

/-!
# The phases of a context

What the fields of a context say about its message. `Busy` is a context inside the manager and
the digest its job is owed, `Resting` one in the hands of the user.

* `start_spec`, `fillPartial_spec`: an accepted submit sets up a resting context, and after it the
  context holds the longer message.
* `resubmitRound_spec`: a round of `resubmit` takes a busy context whose job is done to one with
  less left to do, or to a resting one.
-/

namespace IsalCrypto.Mb

open IsalCrypto.Lib

variable {D : Type*} {p : HashParams D}

/-- The hash of a whole message. -/
def HashParams.hash (p : HashParams D) (compress : D → List Byte → D) (m : List Byte) : D :=
  mdHash compress p.blockSize p.padLengthFieldSize p.initialDigest m

/-- The chaining value after the first `k` blocks of a message. -/
def HashParams.chain (p : HashParams D) (compress : D → List Byte → D) (m : List Byte) (k : ℕ) :
    D :=
  absorb compress p.blockSize (stream m) k 0 p.initialDigest

variable (compress : D → List Byte → D)

/-- In the middle of message `m`: `k` blocks of it are in the digest `d`, the bytes after them in
the extra block, the rest in the user's buffer. -/
structure HashCtx.Mid (ctx : HashCtx p) (m : List Byte) (k : ℕ) (d : D) : Prop where
  length : m.length = p.blockSize * k + ctx.partialBlockBufferLength.toNat +
    ctx.incomingBufferLength.toNat
  digest : d = p.chain compress m k
  partialBytes : ∀ i, i < ctx.partialBlockBufferLength.toNat →
    arrayBytes ctx.partialBlockBuffer i = stream m (p.blockSize * k + i)
  incomingBytes : ∀ i, i < ctx.incomingBufferLength.toNat → ctx.incomingBuffer i =
    stream m (p.blockSize * k + ctx.partialBlockBufferLength.toNat + i)
  partial_lt : ctx.partialBlockBufferLength.toNat < p.blockSize
  partial_or : ctx.partialBlockBufferLength = 0#32 ∨ ctx.incomingBufferLength = 0#32
  total : ctx.totalLength = BitVec.ofNat 64 m.length

/-- `d` is the hash of `m`, if the length of `m` fits the padding field. -/
def IsHash (p : HashParams D) (m : List Byte) (d : D) : Prop :=
  p.Fits m.length → d = p.hash compress m

/-- A context inside the manager, whose job is owed the digest `d`. -/
inductive HashCtx.Busy (maxBlocks : ℕ) (ctx : HashCtx p) (m : List Byte) (d : D) : Prop
  | mid (k : ℕ) : (ctx.status = stsProcessing ∨ ctx.status = stsProcessing ||| stsLast) →
      ctx.incomingBufferLength.toNat / p.blockSize ≤ maxBlocks → ctx.Mid compress m k d →
      Busy maxBlocks ctx m d
  | last : ctx.status = stsProcessing ||| stsComplete → IsHash compress p m d →
      Busy maxBlocks ctx m d

/-- A context in the hands of the user; `msg` is the message accepted for it, if any was. -/
inductive HashCtx.Resting (ctx : HashCtx p) (msg : Option (List Byte)) : Prop
  | complete : ctx.status = stsComplete →
      (∀ m, msg = some m → IsHash compress p m ctx.job.resultDigest) → Resting ctx msg
  | idle (m : List Byte) (k : ℕ) : ctx.status = stsIdle → msg = some m →
      ctx.incomingBufferLength = 0#32 → ctx.Mid compress m k ctx.job.resultDigest →
      Resting ctx msg

/-- How many more times at most the job of a busy context is submitted, and one. -/
def HashCtx.rank (ctx : HashCtx p) : ℕ :=
  if ctx.status &&& stsComplete ≠ 0#32 then 1
  else if ctx.incomingBufferLength ≠ 0#32 then 3
  else 2

/-- The digest the job of a context is owed when it is submitted. -/
def HashCtx.goal (ctx : HashCtx p) : D :=
  absorb compress p.blockSize (ctx.load ctx.job.buffer) ctx.job.len.toNat 0 ctx.job.resultDigest

variable {compress}

/-! ## Digests along a message -/

theorem HashParams.chain_append (m r : List Byte) {k : ℕ} (hk : p.blockSize * k ≤ m.length) :
    p.chain compress (m ++ r) k = p.chain compress m k :=
  absorb_congr k _ fun i hi => by
    rw [Nat.zero_add]
    exact stream_append_left r (Nat.lt_of_lt_of_le hi hk)

/-- The blocks of a buffer that holds the message from block `k` on continue the chain. -/
theorem HashParams.chain_add {m : List Byte} {k n : ℕ} {x : ℕ → Byte}
    (hx : ∀ i, i < p.blockSize * n → x i = stream m (p.blockSize * k + i)) :
    absorb compress p.blockSize x n 0 (p.chain compress m k) = p.chain compress m (k + n) := by
  rw [HashParams.chain, HashParams.chain, absorb_add, Nat.zero_add]
  exact absorb_congr n _ fun i hi => by rw [Nat.zero_add, hx i hi]

theorem mdBlocks_add (p : HashParams D) (k r : ℕ) :
    mdBlocks p.blockSize p.padLengthFieldSize (p.blockSize * k + r) =
      k + mdBlocks p.blockSize p.padLengthFieldSize r := by
  have hpos := p.blockSize_pos
  refine Nat.eq_of_mul_eq_mul_left hpos ?_
  rw [Nat.mul_add, mdBlocks_mul _ _ _ hpos, mdBlocks_mul _ _ _ hpos,
    ← mdZeros_mod _ _ (p.blockSize * k + r), ← mdZeros_mod _ _ r, Nat.mul_add_mod]
  omega

/-- The padded extra block completes the hash. -/
theorem HashCtx.Mid.pad {ctx : HashCtx p} {m : List Byte} {k : ℕ} {d : D}
    (h : ctx.Mid compress m k d) (hinc : ctx.incomingBufferLength = 0#32) :
    IsHash compress p m
      (absorb compress p.blockSize (arrayBytes (hashPad p ctx.partialBlockBuffer ctx.totalLength).1)
        (hashPad p ctx.partialBlockBuffer ctx.totalLength).2.toNat 0 d) := by
  intro hfits
  have hlen : m.length = p.blockSize * k + ctx.partialBlockBufferLength.toNat := by
    simpa [hinc] using h.length
  have hmod : m.length % p.blockSize = ctx.partialBlockBufferLength.toNat := by
    rw [hlen, Nat.mul_add_mod, Nat.mod_eq_of_lt h.partial_lt]
  have hchain :
      d = p.chain compress (m ++ mdPadding p.blockSize p.padLengthFieldSize m.length) k := by
    rw [h.digest, HashParams.chain_append m _ (by omega)]
  rw [h.total, hashPad_blocks, hmod, hchain, HashParams.chain_add]
  · rw [HashParams.hash, mdHash, HashParams.chain, hlen, mdBlocks_add]
  · intro i hi
    rw [hashPad_bytes _ hfits (by rwa [hmod]), hmod]
    split
    · next hlt =>
      rw [h.partialBytes i hlt, stream_append_left _ (by omega)]
    · next hge =>
      rw [show p.blockSize * k + i = m.length + (i - ctx.partialBlockBufferLength.toNat) by omega,
        stream_append_right]

/-! ## A round of `resubmit` -/

theorem HashCtx.toNat_copyLen (ctx : HashCtx p) :
    ctx.copyLen.toNat = ctx.incomingBufferLength.toNat % p.blockSize := by
  rw [HashCtx.copyLen, BitVec.toNat_and, BitVec.toNat_ofNat, Nat.mod_eq_of_lt, HashParams.blockSize,
    Nat.and_two_pow_sub_one_eq_mod]
  rcases p.blockSize_mem with h | h <;> omega

/-- The whole blocks of the user's buffer, in bytes. -/
theorem HashCtx.toNat_wholeLen (ctx : HashCtx p) :
    (ctx.incomingBufferLength - ctx.copyLen).toNat =
      p.blockSize * (ctx.incomingBufferLength.toNat / p.blockSize) := by
  have hle := Nat.mod_le ctx.incomingBufferLength.toNat p.blockSize
  have hdiv := Nat.div_add_mod ctx.incomingBufferLength.toNat p.blockSize
  rw [BitVec.toNat_sub_of_le (by rwa [BitVec.le_def, toNat_copyLen]), toNat_copyLen]
  omega

theorem HashCtx.toNat_wholeBlocks (ctx : HashCtx p) :
    ((ctx.incomingBufferLength - ctx.copyLen) >>> p.log2BlockSize).toNat =
      ctx.incomingBufferLength.toNat / p.blockSize := by
  rw [BitVec.toNat_ushiftRight, toNat_wholeLen, Nat.shiftRight_eq_div_pow]
  exact Nat.mul_div_cancel_left _ p.blockSize_pos

@[simp]
theorem takeTail_status (ctx : HashCtx p) : ctx.takeTail.status = ctx.status := by
  unfold HashCtx.takeTail
  split <;> rfl

@[simp]
theorem takeTail_error (ctx : HashCtx p) : ctx.takeTail.error = ctx.error := by
  unfold HashCtx.takeTail
  split <;> rfl

@[simp]
theorem takeTail_job (ctx : HashCtx p) : ctx.takeTail.job = ctx.job := by
  unfold HashCtx.takeTail
  split <;> rfl

@[simp]
theorem takeTail_totalLength (ctx : HashCtx p) : ctx.takeTail.totalLength = ctx.totalLength := by
  unfold HashCtx.takeTail
  split <;> rfl

theorem takeTail_length {ctx : HashCtx p} (hpart : ctx.partialBlockBufferLength = 0#32) :
    ctx.takeTail.partialBlockBufferLength.toNat =
      ctx.incomingBufferLength.toNat % p.blockSize := by
  unfold HashCtx.takeTail
  split
  · exact ctx.toNat_copyLen
  · next hz => rw [← ctx.toNat_copyLen, not_not.mp hz, hpart]

theorem takeTail_bytes {ctx : HashCtx p} {i : ℕ}
    (hi : i < ctx.incomingBufferLength.toNat % p.blockSize) :
    arrayBytes ctx.takeTail.partialBlockBuffer i =
      ctx.incomingBuffer (p.blockSize * (ctx.incomingBufferLength.toNat / p.blockSize) + i) := by
  have hmod := Nat.mod_lt ctx.incomingBufferLength.toNat p.blockSize_pos
  have hcopy := ctx.toNat_copyLen
  have hne : ctx.copyLen ≠ 0#32 := fun hz => by
    rw [hz, BitVec.toNat_zero] at hcopy
    omega
  rw [HashCtx.takeTail, if_pos hne]
  rw [arrayBytes_memcpyAt (Nat.zero_le i) (by omega) (by omega), HashCtx.toNat_wholeLen,
    Nat.sub_zero]

/-- Once the last bytes are taken, the whole blocks of the user's buffer are what is left before
the bytes of the extra block. -/
theorem HashCtx.Mid.takeTail {ctx : HashCtx p} {m : List Byte} {k : ℕ} {d : D}
    (h : ctx.Mid compress m k d) (hpart : ctx.partialBlockBufferLength = 0#32) (job : Job D) :
    ({ ctx.takeTail with incomingBufferLength := 0#32, job := job } : HashCtx p).Mid compress m
      (k + ctx.incomingBufferLength.toNat / p.blockSize)
      (p.chain compress m (k + ctx.incomingBufferLength.toNat / p.blockSize)) := by
  have hdiv := Nat.div_add_mod ctx.incomingBufferLength.toNat p.blockSize
  have hmod := Nat.mod_lt ctx.incomingBufferLength.toNat p.blockSize_pos
  have hmul : p.blockSize * (k + ctx.incomingBufferLength.toNat / p.blockSize) =
      p.blockSize * k + p.blockSize * (ctx.incomingBufferLength.toNat / p.blockSize) :=
    Nat.mul_add ..
  have hlen := h.length
  have hbytes := h.incomingBytes
  rw [hpart, BitVec.toNat_zero, Nat.add_zero] at hlen
  rw [hpart, BitVec.toNat_zero, Nat.add_zero] at hbytes
  constructor
  case length =>
    change m.length = _ + ctx.takeTail.partialBlockBufferLength.toNat + 0
    rw [takeTail_length hpart, hmul]
    omega
  case digest => rfl
  case partialBytes =>
    intro i hi
    change i < ctx.takeTail.partialBlockBufferLength.toNat at hi
    change arrayBytes ctx.takeTail.partialBlockBuffer i = _
    rw [takeTail_length hpart] at hi
    rw [takeTail_bytes hi, hbytes _ (by omega), hmul, Nat.add_assoc]
  case incomingBytes => exact fun i hi => absurd hi (Nat.not_lt_zero i)
  case partial_lt =>
    change ctx.takeTail.partialBlockBufferLength.toNat < _
    rwa [takeTail_length hpart]
  case partial_or => exact .inr rfl
  case total => exact (takeTail_totalLength ctx).trans h.total

/-- What `takeIncoming` leaves: the user's buffer is used up, and if its blocks are to be hashed
the job is set to them. -/
structure TakesIncoming (compress : D → List Byte → D) (ctx : HashCtx p) (m : List Byte) (k : ℕ)
    (r : HashCtx p × Bool) : Prop where
  status : r.1.status = ctx.status
  error : r.1.error = ctx.error
  incoming : r.1.incomingBufferLength = 0#32
  submit : r.2 = true → 0 < r.1.job.len.toNat ∧ ctx.incomingBufferLength ≠ 0#32 ∧
    r.1.job.len.toNat = ctx.incomingBufferLength.toNat / p.blockSize ∧
    r.1.Mid compress m (k + r.1.job.len.toNat) (r.1.goal compress)
  keep : r.2 = false → r.1.Mid compress m k r.1.job.resultDigest

theorem takeIncoming_spec {ctx : HashCtx p} {m : List Byte} {k : ℕ}
    (h : ctx.Mid compress m k ctx.job.resultDigest) :
    TakesIncoming compress ctx m k ctx.takeIncoming := by
  unfold HashCtx.takeIncoming
  split
  · next hcond =>
    have hmid := h.takeTail hcond.1
    have hdiv := Nat.div_add_mod ctx.incomingBufferLength.toNat p.blockSize
    have hlen : (((ctx.incomingBufferLength - ctx.copyLen) >>> p.log2BlockSize).setWidth 64).toNat =
        ctx.incomingBufferLength.toNat / p.blockSize := by
      rw [BitVec.toNat_setWidth, ctx.toNat_wholeBlocks, Nat.mod_eq_of_lt]
      exact Nat.lt_of_le_of_lt (Nat.div_le_self ..)
        (Nat.lt_of_lt_of_le ctx.incomingBufferLength.isLt (by decide))
    dsimp only
    split
    · next hn =>
      refine ⟨takeTail_status ctx, takeTail_error ctx, rfl, fun _ => ⟨?_, hcond.2, hlen, ?_⟩,
        fun hf => Bool.noConfusion hf⟩
      · change 0 < (BitVec.setWidth 64 _).toNat
        rw [hlen, ← ctx.toNat_wholeBlocks]
        exact Nat.pos_of_ne_zero fun hz => hn (BitVec.eq_of_toNat_eq hz)
      · -- the job reads its blocks straight from the user's buffer
        have hgoal : absorb compress p.blockSize ctx.incomingBuffer
            (ctx.incomingBufferLength.toNat / p.blockSize) 0 ctx.job.resultDigest =
            p.chain compress m (k + ctx.incomingBufferLength.toNat / p.blockSize) := by
          rw [h.digest]
          refine HashParams.chain_add fun i hi => ?_
          have := h.incomingBytes i (by omega)
          rwa [hcond.1, BitVec.toNat_zero, Nat.add_zero] at this
        rw [← hgoal] at hmid
        have hthis := hmid ⟨.user ctx.incomingBuffer,
          ((ctx.incomingBufferLength - ctx.copyLen) >>> p.log2BlockSize).setWidth 64,
          ctx.takeTail.job.resultDigest, ctx.takeTail.job.status⟩
        simp only [HashCtx.goal, load_user, takeTail_job]
        rw [hlen]
        simpa only [takeTail_job] using hthis
    · next hn =>
      refine ⟨takeTail_status ctx, takeTail_error ctx, rfl, fun hf => Bool.noConfusion hf,
        fun _ => ?_⟩
      have hzero : ctx.incomingBufferLength.toNat / p.blockSize = 0 := by
        rw [← ctx.toNat_wholeBlocks, not_not.mp hn, BitVec.toNat_zero]
      have hthis := hmid ctx.takeTail.job
      rw [hzero, Nat.add_zero, ← h.digest] at hthis
      simpa only [takeTail_job] using hthis
  · next hcond =>
    have hinc : ctx.incomingBufferLength = 0#32 := by
      rcases h.partial_or with hp | hi
      · by_contra hi
        exact hcond ⟨hp, hi⟩
      · exact hi
    exact ⟨rfl, rfl, hinc, fun hf => Bool.noConfusion hf, fun _ => h⟩

/-- What a round of `resubmit` achieves for a busy context whose job is done. -/
structure RoundDone (compress : D → List Byte → D) (maxBlocks : ℕ) (ctx : HashCtx p)
    (m : List Byte) (r : HashCtx p × Bool) : Prop where
  error : r.1.error = ctx.error
  submit : r.2 = true → r.1.Busy compress maxBlocks m (r.1.goal compress) ∧
    0 < r.1.job.len.toNat ∧ r.1.job.len.toNat ≤ maxBlocks ∧ r.1.rank < ctx.rank
  keep : r.2 = false → r.1.Resting compress (some m)

theorem rank_pos (ctx : HashCtx p) : 0 < ctx.rank := by
  unfold HashCtx.rank
  split
  · decide
  · split <;> decide

theorem rank_last {ctx : HashCtx p} (h : ctx.status = stsProcessing ||| stsComplete) :
    ctx.rank = 1 := by
  rw [HashCtx.rank, if_pos (by rw [h]; decide)]

/-- The last blocks of a message, or a context that waits for more input. -/
theorem takePartial_spec {maxBlocks : ℕ} (hmax : 2 ≤ maxBlocks) {ctx ctx0 : HashCtx p}
    {m : List Byte} {k : ℕ} (h : ctx.Mid compress m k ctx.job.resultDigest)
    (hinc : ctx.incomingBufferLength = 0#32) (herr : ctx.error = ctx0.error)
    (hrank : 2 ≤ ctx0.rank) : RoundDone compress maxBlocks ctx0 m ctx.takePartial := by
  unfold HashCtx.takePartial
  split
  · next hlast =>
    have hmod : m.length % p.blockSize = ctx.partialBlockBufferLength.toNat := by
      rw [h.length, hinc, BitVec.toNat_zero, Nat.add_zero, Nat.mul_add_mod,
        Nat.mod_eq_of_lt h.partial_lt]
    have hbounds := padBlocks_bounds p m.length
    rw [← hashPad_blocks p ctx.partialBlockBuffer, ← h.total] at hbounds
    have hlen : ((hashPad p ctx.partialBlockBuffer ctx.totalLength).2.setWidth 64).toNat =
        (hashPad p ctx.partialBlockBuffer ctx.totalLength).2.toNat := by
      rw [BitVec.toNat_setWidth, Nat.mod_eq_of_lt]
      exact Nat.lt_of_lt_of_le (BitVec.isLt _) (by decide)
    refine ⟨herr, fun _ => ⟨.last rfl ?_, ?_, ?_, ?_⟩, fun hf => Bool.noConfusion hf⟩
    · simp only [HashCtx.goal, load_partialBlock_zero, hlen]
      exact h.pad hinc
    · simp only [hlen]
      exact hbounds.1
    · simp only [hlen]
      exact Nat.le_trans hbounds.2 hmax
    · rw [rank_last rfl]
      exact hrank
  · next hlast =>
    refine ⟨herr, fun hf => Bool.noConfusion hf, fun _ => .idle m k rfl rfl hinc ?_⟩
    exact ⟨h.length, h.digest, h.partialBytes, h.incomingBytes, h.partial_lt, h.partial_or, h.total⟩

/-- A round of `resubmit` on a busy context whose job is done. -/
theorem resubmitRound_spec {maxBlocks : ℕ} (hmax : 2 ≤ maxBlocks) {ctx : HashCtx p}
    {m : List Byte} (h : ctx.Busy compress maxBlocks m ctx.job.resultDigest) :
    RoundDone compress maxBlocks ctx m ctx.resubmitRound := by
  unfold HashCtx.resubmitRound
  cases h with
  | last hst hhash =>
    rw [if_pos (by rw [hst]; decide)]
    exact ⟨rfl, fun hf => Bool.noConfusion hf, fun _ => .complete rfl fun m' hm' => by
      cases hm'
      exact hhash⟩
  | mid k hst hinc hmid =>
    have hno : ¬ ctx.status &&& stsComplete ≠ 0#32 := by
      rcases hst with hst | hst <;> rw [hst] <;> decide
    have htake := takeIncoming_spec hmid
    rw [if_neg hno]
    dsimp only
    split
    · next hsub =>
      obtain ⟨hlen, hne, hblocks, hmid'⟩ := htake.submit hsub
      refine ⟨htake.error, fun _ => ⟨?_, hlen, by rwa [hblocks], ?_⟩, fun hf => ?_⟩
      · refine .mid _ (by rwa [htake.status]) ?_ hmid'
        rw [htake.incoming, BitVec.toNat_zero, Nat.zero_div]
        exact Nat.zero_le _
      · rw [HashCtx.rank, HashCtx.rank, htake.status, if_neg hno, if_neg hno, if_pos hne,
          htake.incoming]
        decide
      · rw [hsub] at hf
        cases hf
    · next hsub =>
      have hrank : 2 ≤ ctx.rank := by
        rw [HashCtx.rank, if_neg hno]
        split <;> decide
      exact takePartial_spec hmax (htake.keep (Bool.eq_false_iff.mpr hsub)) htake.incoming
        htake.error hrank

/-! ## An accepted submit -/

/-- The message accepted for a context once `len` bytes of `buffer` have been. -/
def acceptMessage (msg : Option (List Byte)) (buffer : ℕ → Byte) (len flags : BitVec 32) :
    List Byte :=
  (if flags &&& hashFirst ≠ 0#32 then [] else msg.getD []) ++ window buffer 0 len.toNat

/-- The submit passes the three error checks. -/
def HashCtx.Accepts (ctx : HashCtx p) (flags : BitVec 32) : Prop :=
  flags &&& ~~~hashEntire = 0#32 ∧ ctx.status &&& stsProcessing = 0#32 ∧
    ¬ (ctx.status &&& stsComplete ≠ 0#32 ∧ flags &&& hashFirst = 0#32)

instance (ctx : HashCtx p) (flags : BitVec 32) : Decidable (ctx.Accepts flags) :=
  inferInstanceAs (Decidable (_ ∧ _ ∧ ¬ _))

/-- A context that `submit` has set up, before the extra block is filled: `m` is the message so far
without the new buffer. -/
structure HashCtx.Started (compress : D → List Byte → D) (ctx : HashCtx p) (m : List Byte) (k : ℕ)
    (buffer : ℕ → Byte) (len : BitVec 32) : Prop where
  error : ctx.error = .none
  status : ctx.status = stsProcessing ∨ ctx.status = stsProcessing ||| stsLast
  length : m.length = p.blockSize * k + ctx.partialBlockBufferLength.toNat
  digest : ctx.job.resultDigest = p.chain compress m k
  partialBytes : ∀ i, i < ctx.partialBlockBufferLength.toNat →
    arrayBytes ctx.partialBlockBuffer i = stream m (p.blockSize * k + i)
  partial_lt : ctx.partialBlockBufferLength.toNat < p.blockSize
  total : ctx.totalLength = BitVec.ofNat 64 (m.length + len.toNat)
  incomingBuffer : ctx.incomingBuffer = buffer
  incoming : ctx.incomingBufferLength = len

theorem ofNat_add_setWidth (n : ℕ) (len : BitVec 32) :
    BitVec.ofNat 64 n + len.setWidth 64 = BitVec.ofNat 64 (n + len.toNat) := by
  apply BitVec.eq_of_toNat_eq
  simp only [BitVec.toNat_add, BitVec.toNat_ofNat, BitVec.toNat_setWidth]
  omega

theorem start_spec {ctx : HashCtx p} {msg : Option (List Byte)} (h : ctx.Resting compress msg)
    (buffer : ℕ → Byte) (len : BitVec 32) {flags : BitVec 32} (hacc : ctx.Accepts flags) :
    ∃ m k, acceptMessage msg buffer len flags = m ++ window buffer 0 len.toNat ∧
      (ctx.start buffer len flags).Started compress m k buffer len := by
  have hstatus : ∀ ctx' : HashCtx p, (ctx'.start buffer len flags).status = stsProcessing ∨
      (ctx'.start buffer len flags).status = stsProcessing ||| stsLast := by
    intro ctx'
    unfold HashCtx.start
    by_cases hl : flags &&& hashLast ≠ 0#32
    · exact .inr (if_pos hl)
    · exact .inl (if_neg hl)
  by_cases hfirst : flags &&& hashFirst ≠ 0#32
  · refine ⟨[], 0, by rw [acceptMessage, if_pos hfirst], ?_⟩
    have hpos := p.blockSize_pos
    constructor
    case status => exact hstatus ctx
    case total =>
      simp only [HashCtx.start, if_pos hfirst]
      exact ofNat_add_setWidth 0 len
    all_goals simp only [HashCtx.start, if_pos hfirst, BitVec.toNat_zero]
    case digest => rfl
    case length => simp
    case partialBytes => exact fun i hi => absurd hi (Nat.not_lt_zero i)
    case partial_lt => exact hpos
  · cases h with
    | complete hst _ =>
      refine absurd ⟨?_, not_not.mp hfirst⟩ hacc.2.2
      rw [hst]
      decide
    | idle m k hst hmsg hinc hmid =>
      refine ⟨m, k, by rw [acceptMessage, if_neg hfirst, hmsg]; rfl, ?_⟩
      have hlen := hmid.length
      rw [hinc, BitVec.toNat_zero, Nat.add_zero] at hlen
      constructor
      case status => exact hstatus ctx
      all_goals simp only [HashCtx.start, if_neg hfirst]
      case length => exact hlen
      case digest => exact hmid.digest
      case partialBytes => exact hmid.partialBytes
      case partial_lt => exact hmid.partial_lt
      case total => rw [hmid.total, ofNat_add_setWidth]

theorem toNat_fillLen {ctx : HashCtx p} (h : ctx.partialBlockBufferLength.toNat < p.blockSize)
    (len : BitVec 32) : (ctx.fillLen len).toNat =
      min (p.blockSize - ctx.partialBlockBufferLength.toNat) len.toNat := by
  have hB := p.blockSize_mem
  have hsub : (BitVec.ofNat 32 p.blockSize - ctx.partialBlockBufferLength).toNat =
      p.blockSize - ctx.partialBlockBufferLength.toNat := by
    have hofNat : (BitVec.ofNat 32 p.blockSize).toNat = p.blockSize := by
      rw [BitVec.toNat_ofNat]
      rcases hB with h | h <;> rw [h]
    rw [BitVec.toNat_sub_of_le (by rw [BitVec.le_def, hofNat]; omega), hofNat]
  unfold HashCtx.fillLen
  dsimp only
  split
  · next hlt =>
    rw [BitVec.lt_def, hsub] at hlt
    omega
  · next hge =>
    rw [BitVec.lt_def, hsub] at hge
    rw [hsub]
    omega

/-- What the copy into the extra block leaves, with `c` bytes copied. -/
structure Fills (ctx : HashCtx p) (buffer : ℕ → Byte) (len : BitVec 32) (c : ℕ)
    (r : HashCtx p) : Prop where
  error : r.error = ctx.error
  status : r.status = ctx.status
  job : r.job = ctx.job
  total : r.totalLength = ctx.totalLength
  length : r.partialBlockBufferLength.toNat = ctx.partialBlockBufferLength.toNat + c
  incoming : r.incomingBufferLength.toNat = len.toNat - c
  old : ∀ i, i < ctx.partialBlockBufferLength.toNat →
    arrayBytes r.partialBlockBuffer i = arrayBytes ctx.partialBlockBuffer i
  new : ∀ i, i < c →
    arrayBytes r.partialBlockBuffer (ctx.partialBlockBufferLength.toNat + i) = buffer i
  rest : ∀ i, r.incomingBuffer i = buffer (c + i)

theorem fill_spec {ctx : HashCtx p} {m : List Byte} {k : ℕ} {buffer : ℕ → Byte} {len : BitVec 32}
    (h : ctx.Started compress m k buffer len) :
    Fills ctx buffer len (min (p.blockSize - ctx.partialBlockBufferLength.toNat) len.toNat)
      (ctx.fill buffer len) := by
  have hB := p.blockSize_mem
  have hlt := h.partial_lt
  have hfill := toNat_fillLen hlt len
  unfold HashCtx.fill
  dsimp only
  split
  · next hne =>
    rw [← hfill]
    refine ⟨rfl, rfl, rfl, rfl, ?_, ?_, fun i hi => ?_, fun i hi => ?_, fun i => rfl⟩
    · change (ctx.partialBlockBufferLength + ctx.fillLen len).toNat = _
      rw [BitVec.toNat_add, Nat.mod_eq_of_lt (by omega)]
    · change (len - ctx.fillLen len).toNat = _
      rw [BitVec.toNat_sub_of_le (by rw [BitVec.le_def]; omega)]
    · exact arrayBytes_memcpyAt_lt hi
    · refine (arrayBytes_memcpyAt (Nat.le_add_right _ _) (by omega) (by omega)).trans ?_
      rw [Nat.add_sub_cancel_left]
  · next hz =>
    rw [not_not.mp hz, BitVec.toNat_zero] at hfill
    rw [← hfill]
    refine ⟨rfl, rfl, rfl, rfl, rfl, ?_, fun i _ => rfl,
      fun i hi => absurd hi (Nat.not_lt_zero i), fun i => ?_⟩
    · rw [h.incoming, Nat.sub_zero]
    · rw [h.incomingBuffer, Nat.zero_add]

section Fill

variable {ctx ctx' : HashCtx p} {m : List Byte} {k c : ℕ} {buffer : ℕ → Byte} {len : BitVec 32}

theorem stream_append_window (m : List Byte) (buffer : ℕ → Byte) {n i : ℕ} (hi : i < n) :
    stream (m ++ window buffer 0 n) (m.length + i) = buffer i := by
  rw [stream_append_right, stream_window hi, Nat.zero_add]

theorem HashCtx.Started.total_append (h : ctx.Started compress m k buffer len) :
    ctx.totalLength = BitVec.ofNat 64 (m ++ window buffer 0 len.toNat).length := by
  rw [h.total, List.length_append, length_window]

theorem HashCtx.Started.digest_append (h : ctx.Started compress m k buffer len) :
    ctx.job.resultDigest = p.chain compress (m ++ window buffer 0 len.toNat) k := by
  have hlen := h.length
  rw [h.digest, HashParams.chain_append _ _ (by omega)]

/-- The extra block holds the longer message up to the byte copied last. -/
theorem Fills.partialBytes (hfill : Fills ctx buffer len c ctx')
    (h : ctx.Started compress m k buffer len) (hc : c ≤ len.toNat) {i : ℕ}
    (hi : i < ctx'.partialBlockBufferLength.toNat) :
    arrayBytes ctx'.partialBlockBuffer i =
      stream (m ++ window buffer 0 len.toNat) (p.blockSize * k + i) := by
  have hlen := h.length
  rw [hfill.length] at hi
  rcases Nat.lt_or_ge i ctx.partialBlockBufferLength.toNat with hold | hnew
  · rw [hfill.old i hold, h.partialBytes i hold, stream_append_left _ (by omega)]
  · obtain ⟨j, rfl⟩ := Nat.exists_eq_add_of_le hnew
    rw [hfill.new j (by omega), ← Nat.add_assoc, ← hlen, stream_append_window _ _ (by omega)]

/-- The extra block is full: it is the next block of the longer message. -/
theorem Fills.mid_full (hfill : Fills ctx buffer len c ctx')
    (h : ctx.Started compress m k buffer len) (hc : c ≤ len.toNat)
    (hfull : ctx'.partialBlockBufferLength.toNat = p.blockSize) :
    let r := { ctx' with
      partialBlockBufferLength := 0#32
      job := { ctx'.job with buffer := .partialBlock 0, len := 1#64 } }
    r.Mid compress (m ++ window buffer 0 len.toNat) (k + 1) (r.goal compress) := by
  intro r
  have hlen := h.length
  have hlength := hfill.length
  have hincoming := hfill.incoming
  have hmul : p.blockSize * (k + 1) = p.blockSize * k + p.blockSize := Nat.mul_succ ..
  constructor
  case length =>
    change _ = _ + 0 + ctx'.incomingBufferLength.toNat
    rw [List.length_append, length_window]
    omega
  case digest =>
    simp only [r, HashCtx.goal, load_partialBlock_zero, hfill.job, h.digest_append]
    exact HashParams.chain_add fun i hi => hfill.partialBytes h hc (by
      rw [BitVec.toNat_ofNat] at hi
      omega)
  case partialBytes => exact fun i hi => absurd hi (Nat.not_lt_zero i)
  case incomingBytes =>
    intro i hi
    change i < ctx'.incomingBufferLength.toNat at hi
    change ctx'.incomingBuffer i =
      stream (m ++ window buffer 0 len.toNat) (p.blockSize * (k + 1) + 0 + i)
    rw [hfill.rest, ← stream_append_window m buffer (show c + i < len.toNat by omega)]
    congr 1
    omega
  case partial_lt => exact p.blockSize_pos
  case partial_or => exact .inl rfl
  case total => exact hfill.total.trans h.total_append

/-- The extra block is not full: nothing is left in the user's buffer. -/
theorem Fills.mid_short (hfill : Fills ctx buffer len len.toNat ctx')
    (h : ctx.Started compress m k buffer len)
    (hshort : ctx'.partialBlockBufferLength.toNat < p.blockSize) :
    ctx'.Mid compress (m ++ window buffer 0 len.toNat) k ctx'.job.resultDigest := by
  have hlen := h.length
  have hlength := hfill.length
  have hincoming := hfill.incoming
  rw [Nat.sub_self] at hincoming
  constructor
  case length =>
    rw [List.length_append, length_window]
    omega
  case digest => rw [hfill.job, h.digest_append]
  case partialBytes => exact fun i hi => hfill.partialBytes h (Nat.le_refl _) hi
  case incomingBytes => exact fun i hi => absurd hi (by omega)
  case partial_lt => exact hshort
  case partial_or => exact .inr (BitVec.eq_of_toNat_eq hincoming)
  case total => exact hfill.total.trans h.total_append

/-- The extra block is empty and stays so: the new bytes are in the user's buffer. -/
theorem HashCtx.Started.mid (h : ctx.Started compress m k buffer len)
    (hpart : ctx.partialBlockBufferLength = 0#32) :
    ctx.Mid compress (m ++ window buffer 0 len.toNat) k ctx.job.resultDigest := by
  have hlen := h.length
  constructor
  case length => rw [List.length_append, length_window, h.incoming, hlen]
  case digest => exact h.digest_append
  case partialBytes =>
    intro i hi
    rw [hpart] at hi
    exact absurd hi (Nat.not_lt_zero i)
  case incomingBytes =>
    intro i hi
    rw [h.incoming] at hi
    rw [h.incomingBuffer, ← hlen, stream_append_window m buffer hi]
  case partial_lt => exact h.partial_lt
  case partial_or => exact .inl hpart
  case total => exact h.total_append

end Fill

/-- What `submit` achieves before the loop: the context holds the longer message. -/
structure Accepted (compress : D → List Byte → D) (ctx : HashCtx p) (m : List Byte)
    (len : BitVec 32) (r : HashCtx p × Bool) : Prop where
  error : r.1.error = ctx.error
  status : r.1.status = ctx.status
  incoming_le : r.1.incomingBufferLength.toNat ≤ len.toNat
  submit : r.2 = true → r.1.job.len = 1#64 ∧ ∃ k, r.1.Mid compress m k (r.1.goal compress)
  keep : r.2 = false → ∃ k, r.1.Mid compress m k r.1.job.resultDigest

theorem fillPartial_spec {ctx : HashCtx p} {m : List Byte} {k : ℕ} {buffer : ℕ → Byte}
    {len : BitVec 32} (h : ctx.Started compress m k buffer len) :
    Accepted compress ctx (m ++ window buffer 0 len.toNat) len (ctx.fillPartial buffer len) := by
  have hlt := h.partial_lt
  unfold HashCtx.fillPartial
  split
  · have hfill := fill_spec h
    generalize ctx.fill buffer len = ctx' at hfill
    have hlength := hfill.length
    have hincoming := hfill.incoming
    dsimp only
    split
    · next hfull =>
      exact ⟨hfill.error, hfill.status, by rw [hincoming]; omega,
        fun _ => ⟨rfl, k + 1, hfill.mid_full h (by omega) (by omega)⟩,
        fun hf => Bool.noConfusion hf⟩
    · next hshort =>
      rw [Nat.min_eq_right (by omega)] at hfill
      exact ⟨hfill.error, hfill.status, by rw [hincoming]; omega, fun hf => Bool.noConfusion hf,
        fun _ => ⟨k, hfill.mid_short h (Nat.not_le.mp hshort)⟩⟩
  · next hcond =>
    have hpart : ctx.partialBlockBufferLength = 0#32 := by
      by_contra hp
      exact hcond (.inl hp)
    exact ⟨rfl, rfl, by rw [h.incoming], fun hf => Bool.noConfusion hf, fun _ => ⟨k, h.mid hpart⟩⟩

end IsalCrypto.Mb
