import IsalCrypto.Sha256Mb.MgrSseSpec

/-!
# Runs of the SSE lane scheduler

Every sequence of calls of `_sha256_mb_mgr_submit_sse` and `_sha256_mb_mgr_flush_sse`.

* `mgrSse_contract`: after every run each job in a lane has its length, data pointer and digest
  after the same number of its blocks, each job has been returned once with the digest of its own
  blocks, a flush returns `NULL` just when no lane has a job, and no submit runs `sha256_mb_x4_sse`
  with an empty lane.
-/

namespace IsalCrypto.Sha256Mb

open IsalCrypto.Lib IsalCrypto.Mb Sha256MbJobMgr

variable {J D : Type*} [DecidableEq J] {s : Sha256MbJobMgr J D} {kern : Kernel J D}
  {submitted : J → Job D}

/-- The manager and the number of blocks that a submit calls `sha256_mb_x4_sse` with. -/
def Sha256MbJobMgr.submitSseX4 (s : Sha256MbJobMgr J D) (jobs : J → Job D) (j : J) :
    Option (Sha256MbJobMgr J D × ℕ) :=
  let s := s.enterLane (Function.update jobs j { jobs j with status := .beingProcessed }) j
  let len2 := s.minLens &&& ~~~15#32
  if s.unusedLanes ≠ 0xF#64 ∨ len2 = 0#32 then none
  else
    some ({ s with lens := fun i => if i.val < 4 then s.lens i - len2 else s.lens i },
      (len2 >>> 4).toNat)

/-- A submit is this call of the kernel, after the job has entered and before one is completed. -/
theorem submitSse_eq_x4 (s : Sha256MbJobMgr J D) (jobs : J → Job D) (j : J) :
    s.submitSse kern jobs j =
      let jobs' := Function.update jobs j { jobs j with status := .beingProcessed }
      let t := s.enterLane jobs' j
      if t.unusedLanes ≠ 0xF#64 then (t, jobs', none)
      else ((s.submitSseX4 jobs j).elim t fun c => c.1.sha256MbX4Sse kern c.2).completeLane jobs'
        (laneOf t.minLens) := by
  dsimp only [submitSse, submitSseX4]
  split
  · rfl
  · next hfull =>
    simp only [hfull, false_or]
    split
    · rfl
    · rfl

/-- Once a job has entered, all lanes have a job or the kernel is not called. -/
theorem submitSseX4_jobInLane (hkern : kern.Lawful 64) (h : SseReady kern s submitted)
    {jobs : J → Job D} {j : J} (hj : ¬ SseInLane s j) (hmax : (jobs j).len.toNat ≤ maxBlocksSse)
    {call : Sha256MbJobMgr J D × ℕ} (hcall : s.submitSseX4 jobs j = some call) {i : Fin 16}
    (hi : i.val < 4) : call.1.jobInLane i ≠ none := by
  obtain ⟨htables, -⟩ := sse_enterLane hkern h hj hmax
  dsimp only [submitSseX4] at hcall
  split at hcall
  · cases hcall
  · next hfull =>
    have hunused := not_not.mp (not_or.mp hfull).1
    cases hcall
    exact (sse_full_iff htables).mp hunused i hi

variable [Inhabited D]

/-- What holds after every run: of each job in a lane some blocks are done, and its digest, data
pointer and length all say so; each job is handed back exactly once; and no submit that may follow
runs `sha256_mb_x4_sse` with an empty lane. -/
structure SseContract (kern : Kernel J D) (c : SchedState (Sha256MbJobMgr J D) J D) : Prop where
  lanes : ∀ i j, c.mgr.jobInLane i = some j → i.val < 4 ∧
    ∃ done, c.mgr.lanes.LaneHas kern 4 i j (c.submitted j) done
  once : c.ExactlyOnce schedulerSse kern SseInLane
  x4 : ∀ j buffer len digest,
    SchedCall.Allowed SseInLane maxBlocksSse c (.submit j buffer len digest) →
    ∀ call, c.mgr.submitSseX4 (c.fill kern (.submit j buffer len digest)).jobs j = some call →
      ∀ i : Fin 16, i.val < 4 → call.1.jobInLane i ≠ none

/-- Every run of submits and flushes meets the contract. -/
theorem mgrSse_contract (hkern : kern.Lawful 64) (s : Sha256MbJobMgr J D) (jobs : J → Job D)
    (calls : List (SchedCall J D))
    (hcalls : Guarded (SchedState.step schedulerSse kern)
      (fun c a => a.Allowed SseInLane maxBlocksSse c) (.initial schedulerSse s jobs) calls) :
    SseContract kern (Lib.run (SchedState.step schedulerSse kern) (.initial schedulerSse s jobs)
      calls) := by
  have hserves : (schedulerSse : Scheduler (Sha256MbJobMgr J D) J D).Serves kern maxBlocksSse
      SseInLane (SseReady kern) := schedulerSse_serves hkern
  have hgood := hserves.run s jobs hcalls
  generalize Lib.run (SchedState.step schedulerSse kern) (.initial schedulerSse s jobs) calls = c
    at hgood
  refine ⟨fun i j hi => ?_, ?_, fun j buffer len digest hallowed call hcall i hi => ?_⟩
  · exact ⟨mem_sseStack.mp (hgood.1.counted.usable i j hi), hgood.1.lane i j hi⟩
  · exact hserves.exactlyOnce hgood c.mgr.lanes.exists_finset_inLane
  · obtain ⟨hj, -, hmax⟩ := hallowed
    refine submitSseX4_jobInLane hkern hgood.1 hj ?_ hcall hi
    rwa [SchedState.fill_jobs]

/-- Five jobs of three, one, two, one and two blocks, then flushes: the fourth submit finds all
lanes taken, the last flush all lanes empty. -/
theorem mgrSse_contract_five_jobs :
    let kern : Kernel ℕ (List Byte) := blockKernel (fun _ _ => 0#8) fun block d => d ++ [block 0]
    let buffer : ℕ → BufferPtr := fun j => .user fun k => BitVec.ofNat 8 (16 * j + k / 64)
    let start : SchedState (Sha256MbJobMgr ℕ (List Byte)) ℕ (List Byte) :=
      .initial schedulerSse ⟨fun _ => [], fun _ => none, fun _ => 0#32, 0#64, fun _ => none, 0#32⟩
        fun _ => ⟨.partialBlock 0, 0#64, [], .unknown⟩
    let calls : List (SchedCall ℕ (List Byte)) := [.submit 0 (buffer 0) 3#64 [],
      .submit 1 (buffer 1) 1#64 [], .submit 2 (buffer 2) 2#64 [], .submit 3 (buffer 3) 1#64 [],
      .flush, .submit 4 (buffer 4) 2#64 [], .flush, .flush, .flush, .flush]
    (Lib.run (SchedState.step schedulerSse kern) start calls).ledger.drop 4 =
        [.given 1 [16#8], .given 3 [48#8], .taken 4 [64#8, 65#8], .given 2 [32#8, 33#8],
          .given 0 [0#8, 1#8, 2#8], .given 4 [64#8, 65#8]] ∧
      SseContract kern (Lib.run (SchedState.step schedulerSse kern) start calls) := by
  intro kern buffer start calls
  refine ⟨by decide +kernel, ?_⟩
  exact mgrSse_contract (blockKernel_lawful _ _) _ _ calls (by decide +kernel)

end IsalCrypto.Sha256Mb
