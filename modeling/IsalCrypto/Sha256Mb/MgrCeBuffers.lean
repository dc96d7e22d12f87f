import IsalCrypto.Mb.Pad
import IsalCrypto.Sha256Mb.MgrCeRuns
import IsalCrypto.Sha256Mb.Params

/-!
# How far the C lane scheduler moves the buffers

The last loop of `sha256_mb_mgr_do_jobs` takes `len`, an `int` of sixteen times the blocks just
hashed, off every `lens[i]` and adds `len << 2` to every `job->buffer`. Here a buffer is its
address, so that the sign of the `int` counts.

* `doJobs_advances_iff`: for jobs of any length a context can submit, each call of `do_jobs` in a
  run moves the lanes by what the kernels hashed, without an overflow, exactly when a lane has less
  than 2^25 blocks left.
-/

namespace IsalCrypto.Sha256Mb

open IsalCrypto.Lib IsalCrypto.Mb Sha256MbJobMgr

/-- The largest number of blocks of a job: a context has a `uint32_t` length in bytes. -/
abbrev maxBlocksCtx : ℕ := 2 ^ 26 - 1

/-- The context layer keeps to it: a job that a round of `resubmit` submits is not empty and not
longer. -/
theorem resubmitRound_len (ctx : HashCtx sha256Params) (h : ctx.resubmitRound.2 = true) :
    0 < ctx.resubmitRound.1.job.len.toNat ∧ ctx.resubmitRound.1.job.len.toNat ≤ maxBlocksCtx := by
  have hmax : maxBlocksCtx = 2 ^ 26 - 1 := rfl
  have hround : ctx.resubmitRound =
      if ctx.takeIncoming.2 then ctx.takeIncoming else ctx.takeIncoming.1.takePartial := by
    rw [HashCtx.resubmitRound] at h ⊢
    split at h
    · cases h
    · next hne => rw [if_neg hne]
  rw [hround] at h ⊢
  split
  · next hin =>
    -- the whole blocks of the user's buffer
    simp only [HashCtx.takeIncoming] at hin ⊢
    split at hin
    · next hwhole =>
      rw [if_pos hwhole]
      split at hin
      · next hlen =>
        rw [if_pos hlen]
        have hpos : ((ctx.incomingBufferLength - ctx.copyLen) >>>
            sha256Params.log2BlockSize).toNat ≠ 0 := fun hz => hlen (BitVec.eq_of_toNat_eq hz)
        have hlt := (ctx.incomingBufferLength - ctx.copyLen).isLt
        have hval :
          ((ctx.incomingBufferLength - ctx.copyLen) >>> sha256Params.log2BlockSize).toNat =
            (ctx.incomingBufferLength - ctx.copyLen).toNat / 2 ^ 6 := by
          rw [BitVec.toNat_ushiftRight, Nat.shiftRight_eq_div_pow]
          rfl
        simp only [BitVec.toNat_setWidth]
        omega
      · cases hin
    · cases hin
  · next hin =>
    rw [if_neg hin] at h
    simp only [HashCtx.takePartial] at h ⊢
    split at h
    · next hlast =>
      -- the last one or two
      rw [if_pos hlast]
      have hblocks := hashPad_blocks sha256Params ctx.takeIncoming.1.partialBlockBuffer
        ctx.takeIncoming.1.totalLength.toNat
      have hbounds := padBlocks_bounds sha256Params ctx.takeIncoming.1.totalLength.toNat
      rw [BitVec.ofNat_toNat, BitVec.setWidth_eq] at hblocks
      simp only [BitVec.toNat_setWidth]
      omega
    · cases h

namespace Sha256MbJobMgr

variable {J D : Type*} [DecidableEq J]

/-- The `job->buffer` of every job after the last loop of `do_jobs`. -/
def doJobsBuffers (s : Sha256MbJobMgr J D) (buffer : J → BitVec 64) : J → BitVec 64 :=
  match s.doJobsLanes with
  | none => buffer
  | some (_, word) =>
    let len := word &&& ~~~15#32
    (s.jobsOf ((List.finRange 16).filter fun i => s.LaneIsNotFinished i)).foldl
      (fun buffer j => Function.update buffer j (buffer j + (len <<< 2).signExtend 64)) buffer

/-- A call of `do_jobs` moves every lane that is not finished by the `n` blocks that its kernel has
hashed, and `len << 2` is an `int`. -/
def Advances (s : Sha256MbJobMgr J D) (kern : Kernel J D) (jobs : J → Job D)
    (buffer : J → BitVec 64) : Prop :=
  ∀ lanes word, s.doJobsLanes = some (lanes, word) →
    let len := word &&& ~~~15#32
    let n := (len >>> 4).toNat
    len.toInt * 4 < 2 ^ 31 ∧ ∀ i j, s.LaneIsNotFinished i → s.jobInLane i = some j →
      ((s.doJobs kern jobs).2.1 j).resultDigest = kern j (jobs j).buffer n (jobs j).resultDigest ∧
      ((s.doJobs kern jobs).1.lens i).toNat + 16 * n = (s.lens i).toNat ∧
      s.doJobsBuffers buffer j = buffer j + BitVec.ofNat 64 (64 * n)

variable {s : Sha256MbJobMgr J D} {maxBlocks : ℕ}

omit [DecidableEq J] in
theorem doJobsLanes_of_empty (h : s.Lanes 3 maxBlocks) (hempty : ∀ i, s.jobInLane i = none) :
    s.doJobsLanes = none := by
  have hocc : s.occupied = ∅ := Finset.eq_empty_of_forall_notMem fun i hi => by
    obtain ⟨j, hj⟩ := mem_occupied.mp hi
    rw [hempty i] at hj
    cases hj
  have hzero : s.numLanesInuse = 0#32 := by
    refine BitVec.eq_of_toNat_eq ?_
    rw [h.inuse, hocc, Finset.card_empty, BitVec.toNat_zero]
  rw [doJobsLanes, if_pos hzero]

/-- The address of a job in a lane that is not finished. -/
theorem doJobsBuffers_apply (h : s.Lanes 3 maxBlocks) {lanes : List (Fin 16)} {word : BitVec 32}
    (hsome : s.doJobsLanes = some (lanes, word)) (buffer : J → BitVec 64) {i : Fin 16} {j : J}
    (hi : s.LaneIsNotFinished i) (hj : s.jobInLane i = some j) :
    s.doJobsBuffers buffer j = buffer j + ((word &&& ~~~15#32) <<< 2).signExtend 64 := by
  have hmem : j ∈ s.jobsOf ((List.finRange 16).filter fun i => s.LaneIsNotFinished i) :=
    mem_jobsOf.mpr ⟨i, List.mem_filter.mpr ⟨List.mem_finRange i, decide_eq_true hi⟩, hj⟩
  rw [doJobsBuffers, hsome]
  exact (foldl_update (fun _ a => a + ((word &&& ~~~15#32) <<< 2).signExtend 64)
    (h.nodup_jobsOf ((List.nodup_finRange 16).filter _)) buffer j).trans (if_pos hmem)

/-- With no lane finished, one call is exact when some lane has less than 2^25 blocks left. -/
theorem advances_iff (h : s.Lanes 3 maxBlocks) (hmax : maxBlocks < 2 ^ 26)
    (hpos : ∀ i j, s.jobInLane i = some j → 0 < s.left i) (kern : Kernel J D) (jobs : J → Job D)
    (buffer : J → BitVec 64) : s.Advances kern jobs buffer ↔
      ((∃ i j, s.jobInLane i = some j) → ∃ i j, s.jobInLane i = some j ∧ s.left i < 2 ^ 25) := by
  by_cases hocc : ∃ i j, s.jobInLane i = some j
  · obtain ⟨i₀, j₀, hi₀⟩ := hocc
    obtain ⟨lanes, a, hnodup, hlanes, ha, hmin, hsome⟩ := doJobsLanes_eq h hpos hi₀
    have hrun : s.doJobs kern jobs = s.hashLanes kern jobs lanes (s.lens a) := by
      rw [doJobs_eq_match, hsome]
    have hr := hashLanes_spec h hmax hpos hnodup hlanes ha hmin kern jobs
    rw [← hrun] at hr
    obtain ⟨ja, hja⟩ := mem_occupied.mp ha
    have hleft : s.left a < 2 ^ 26 := Nat.lt_of_le_of_lt (h.left_le a ja hja) hmax
    have hlen := toNat_lenPart (s := s) a
    have hint : (s.lens a &&& ~~~15#32).toInt = 16 * s.left a := by
      rw [BitVec.toInt_eq_toNat_of_lt (by omega), hlen]
      rfl
    have hblocks : ((s.lens a &&& ~~~15#32) >>> 4).toNat = s.left a := by
      rw [BitVec.toNat_ushiftRight, hlen, Nat.shiftRight_eq_div_pow]
      exact Nat.mul_div_cancel_left _ (by decide)
    constructor
    · intro hadv _
      have hlt := (hadv lanes _ hsome).1
      rw [hint] at hlt
      exact ⟨a, ja, hja, by omega⟩
    · rintro hshort lanes' word hsome'
      obtain ⟨i, j, hi, hlt⟩ := hshort ⟨i₀, j₀, hi₀⟩
      have hle := hmin i (mem_occupied.mpr ⟨j, hi⟩)
      rw [hsome] at hsome'
      obtain ⟨rfl, rfl⟩ := Prod.mk.inj (Option.some.inj hsome')
      dsimp only
      rw [hint, hblocks]
      refine ⟨by omega, fun i j hi hj => ⟨hr.digest i j hj, hr.lens i j hj, ?_⟩⟩
      rw [doJobsBuffers_apply h hsome buffer hi hj]
      have hbytes : ((s.lens a &&& ~~~15#32) <<< 2).toNat = 64 * s.left a := by
        rw [BitVec.toNat_shiftLeft, hlen, Nat.shiftLeft_eq]
        omega
      have hsign : ((s.lens a &&& ~~~15#32) <<< 2).msb = false :=
        BitVec.msb_eq_false_iff_two_mul_lt.mpr (by omega)
      rw [BitVec.signExtend_eq_setWidth_of_msb_false hsign, ← hbytes, BitVec.ofNat_toNat]
  · refine iff_of_true (fun lanes word hsome => ?_) fun hi => absurd hi hocc
    rw [doJobsLanes_of_empty h fun i => ?_] at hsome
    · cases hsome
    · exact Option.eq_none_iff_forall_ne_some.mpr fun j hj => hocc ⟨i, j, hj⟩

end Sha256MbJobMgr

/-! ## Runs -/

variable {J D : Type*} [DecidableEq J]

/-- A job of any length that a context submits, while it is in no lane. -/
def MbCall.AllowedCtx (c : MbState J D) : MbCall J D → Prop
  | .submit j _ len _ =>
    (∀ i, c.mgr.jobInLane i ≠ some j) ∧ 0 < len.toNat ∧ len.toNat ≤ maxBlocksCtx
  | .flush => True

instance (c : MbState J D) (a : MbCall J D) : Decidable (a.AllowedCtx c) :=
  match a with
  | .submit j _ _ _ => inferInstanceAs (Decidable ((∀ i, c.mgr.jobInLane i ≠ some j) ∧ _ ∧ _))
  | .flush => .isTrue trivial

/-- The tables that a call gives to `do_jobs`, if it calls it. -/
def MbState.doJobsOn (c : MbState J D) (a : MbCall J D) : Option (Sha256MbJobMgr J (D × ℤ)) :=
  let f := c.fill a
  match a with
  | .submit j _ _ _ =>
    let r := (f.mgr.insertJob f.jobs j).freeLane f.jobs
    if r.2.2.isNone ∧ ¬ r.1.numLanesInuse < 3#32 then some r.1 else none
  | .flush =>
    let r := f.mgr.freeLane f.jobs
    if r.2.2.isNone then some r.1 else none

/-- What the scheduler keeps between calls, whatever the lengths of the jobs. -/
structure MbState.Usable (c : MbState J D) : Prop where
  lanes : c.mgr.Lanes 3 maxBlocksCtx
  room : ∃ i : Fin 16, i.val < 3 ∧ c.mgr.jobInLane i = none

variable {kern : Kernel J D} {c : MbState J D}

/-- The tables a call works on. -/
theorem MbState.Usable.entered (h : c.Usable) {a : MbCall J D} (ha : a.AllowedCtx c) :
    (c.entered a).Lanes 3 maxBlocksCtx := by
  cases a with
  | flush => exact h.lanes
  | submit j buffer len digest =>
    refine insertJob_lanes (by decide) h.lanes h.room ha.1 ?_
    rw [fill_self]
    exact ha.2.2

theorem MbState.Usable.step (h : c.Usable) {a : MbCall J D} (ha : a.AllowedCtx c) :
    (c.step kern a).Usable := by
  have hlanes := h.entered ha
  have hout : Outcome (countdown kern) (c.entered a) (c.fill a).jobs
      ((c.step kern a).mgr, (c.step kern a).jobs, (c.step kern a).returned) := by
    cases a with
    | flush => exact (flushCe_outcome (by decide) _ c.jobs h.lanes h.room).1
    | submit j buffer len digest =>
      refine (submitCe_outcome (by decide) (countdown kern) h.lanes h.room ha.1 ?_).2
      rw [fill_self]
      exact ha.2.2
  obtain ⟨hlanes', hroom⟩ := hout.lanes hlanes
  exact ⟨hlanes', hroom⟩

/-- `do_jobs` gets tables without a finished lane. -/
theorem MbState.Usable.doJobsOn (h : c.Usable) {a : MbCall J D} (ha : a.AllowedCtx c)
    {s : Sha256MbJobMgr J (D × ℤ)} (hs : c.doJobsOn a = some s) :
    s.Lanes 3 maxBlocksCtx ∧ ∀ i j, s.jobInLane i = some j → 0 < s.left i := by
  have hlanes := h.entered ha
  have hfree := freeLane_spec hlanes (c.fill a).jobs
  suffices hsuff : ((c.entered a).freeLane (c.fill a).jobs).2.2 = none ∧
      s = ((c.entered a).freeLane (c.fill a).jobs).1 by
    obtain ⟨hnone, rfl⟩ := hsuff
    rcases hfree with ⟨hpos, heq⟩ | ⟨i, j, _, _, heq⟩
    · rw [heq]
      exact ⟨hlanes, hpos⟩
    · rw [heq] at hnone
      cases hnone
  cases a with
  | flush =>
    simp only [MbState.doJobsOn, Option.ite_none_right_eq_some, Option.isNone_iff_eq_none] at hs
    exact ⟨hs.1, (Option.some.inj hs.2).symm⟩
  | submit j buffer len digest =>
    simp only [MbState.doJobsOn, Option.ite_none_right_eq_some, Option.isNone_iff_eq_none] at hs
    exact ⟨hs.1.1, (Option.some.inj hs.2).symm⟩

/-- In every run of submits and flushes of jobs of any length that a context can submit, a call of
`do_jobs` moves each lane that is not finished, its length and its buffer, by exactly the blocks
hashed in that call, without an overflow, if and only if it finds no lane in use or one that has
less than 2^25 blocks left. -/
theorem doJobs_advances_iff (kern : Kernel J D) (s : Sha256MbJobMgr J (D × ℤ))
    (jobs : J → Job (D × ℤ)) (calls : List (MbCall J D))
    (hcalls : Guarded (MbState.step kern) (fun c a => a.AllowedCtx c) (.initial s jobs) calls) :
    let c := run (MbState.step kern) (.initial s jobs) calls
    ∀ (a : MbCall J D) (t : Sha256MbJobMgr J (D × ℤ)), a.AllowedCtx c → c.doJobsOn a = some t →
      ∀ (kern : Kernel J (D × ℤ)) (jobs : J → Job (D × ℤ)) (buffer : J → BitVec 64),
        t.Advances kern jobs buffer ↔
          ((∃ i j, t.jobInLane i = some j) → ∃ i j, t.jobInLane i = some j ∧
            t.left i < 2 ^ 25) := by
  intro c a t ha ht kern' jobs' buffer
  have hinit : (MbState.initial s jobs : MbState J D).Usable :=
    ⟨initCe_lanes s, 0, by decide, initCe_table s 0⟩
  have h : c.Usable := run_invariant (fun _ _ hc ha => hc.step ha) hinit hcalls
  obtain ⟨hlanes, hpos⟩ := h.doJobsOn ha ht
  exact advances_iff hlanes (by decide) hpos kern' jobs' buffer

/-- Jobs of 5, 3 and 3 blocks: the third submit calls `do_jobs`. -/
theorem doJobs_advances_iff_three_jobs :
    let kern : Kernel ℕ ℕ := fun _ _ n d => d + n
    let start : MbState ℕ ℕ := .initial ⟨fun _ => (0, 0), fun _ => none,
      fun _ => 7#32, 0#64, fun _ => some 9, 4#32⟩ fun _ => ⟨.partialBlock 0, 0#64, (0, 0), .unknown⟩
    let calls : List (MbCall ℕ ℕ) := [.submit 0 (.partialBlock 0) 5#64 0,
      .submit 1 (.partialBlock 0) 3#64 0]
    ∃ t, (run (MbState.step kern) start calls).doJobsOn (.submit 2 (.partialBlock 0) 3#64 0) =
        some t ∧
      (t.Advances (countdown kern) (fun _ => ⟨.partialBlock 0, 0#64, (0, 0), .unknown⟩)
          (fun _ => 0#64) ↔
        ((∃ i j, t.jobInLane i = some j) → ∃ i j, t.jobInLane i = some j ∧ t.left i < 2 ^ 25)) := by
  intro kern start calls
  have hcalls : Guarded (MbState.step kern) (fun c a => a.AllowedCtx c) start calls := by
    decide +kernel
  have hnext : (MbCall.submit 2 (.partialBlock 0) 3#64 0).AllowedCtx
      (run (MbState.step kern) start calls) := by decide +kernel
  have hsome : ((run (MbState.step kern) start calls).doJobsOn
      (.submit 2 (.partialBlock 0) 3#64 0)).isSome := by decide +kernel
  obtain ⟨t, ht⟩ := Option.isSome_iff_exists.mp hsome
  exact ⟨t, ht, doJobs_advances_iff kern _ _ calls hcalls _ t hnext ht _ _ _⟩

/-- Jobs of 2^25 blocks and one more: the flush hashes 2^25 blocks of both, `len << 2` is 2^31, and
the buffer of the longer job moves back by 2^31 bytes. -/
theorem doJobs_two_gib :
    let kern : Kernel ℕ ℕ := fun _ _ n d => d + n
    let start : MbState ℕ ℕ := .initial ⟨fun _ => (0, 0), fun _ => none,
      fun _ => 7#32, 0#64, fun _ => some 9, 4#32⟩ fun _ => ⟨.partialBlock 0, 0#64, (0, 0), .unknown⟩
    let calls : List (MbCall ℕ ℕ) := [.submit 0 (.partialBlock 0) 0x2000000#64 0,
      .submit 1 (.partialBlock 0) 0x2000001#64 0]
    let on := (run (MbState.step kern) start calls).doJobsOn .flush
    on.map (fun t => t.doJobsLanes.map fun r => (r.2 &&& ~~~15#32).toInt * 4) =
      some (some (2 ^ 31)) ∧
      on.map (fun t => t.doJobsBuffers (fun _ => 0x100000000#64) 1) = some 0x80000000#64 := by
  decide +kernel

end IsalCrypto.Sha256Mb
