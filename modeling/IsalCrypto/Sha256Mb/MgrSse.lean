import IsalCrypto.Sha256Mb.Mgr
import Mathlib.Data.List.FinRange

/-!
# The SSE lane scheduler

`sha256_mb_mgr_init_sse.c`, `sha256_mb_mgr_submit_sse.asm` and `sha256_mb_mgr_flush_sse.asm`: four
lanes, whose digests and data pointers are copied into the manager. The kernels `sha256_mb_x4_sse`
and `sha256_opt_x1` are a parameter.
-/

namespace IsalCrypto.Sha256Mb

open IsalCrypto.Lib IsalCrypto.Mb

namespace Sha256MbJobMgr

variable {J D : Type*}

/-- `_sha256_mb_mgr_init_sse`; the default digest is the one of zeros. -/
def initSse [Inhabited D] (_ : Sha256MbJobMgr J D) : Sha256MbJobMgr J D where
  digest _ := default
  dataPtr _ := none
  lens _ := 0#32
  unusedLanes := 0xF3210#64
  jobInLane _ := none
  numLanesInuse := 0#32

/-- The least of the four words of `lens`, by three times `cmp` and `cmovb`. -/
def minLens (s : Sha256MbJobMgr J D) : BitVec 32 :=
  min32 (s.lens 3) (min32 (s.lens 2) (min32 (s.lens 1) (s.lens 0)))

/-- The lane number in a word of `lens`. -/
def laneOf (word : BitVec 32) : Fin 16 :=
  ⟨(word &&& 15#32).toNat, by
    rw [toNat_and_fifteen (by decide)]
    exact Nat.mod_lt _ (by decide)⟩

section Jobs

variable [DecidableEq J] (kern : Kernel J D)

/-- The digest of lane `i` after `n` blocks at its data pointer. -/
def hashLane (s : Sha256MbJobMgr J D) (n : ℕ) (i : Fin 16) : D :=
  match s.dataPtr i with
  | some (j, ptr) => kern j ptr n (s.digest i)
  | none => s.digest i

/-- `sha256_mb_x4_sse`. -/
def sha256MbX4Sse (s : Sha256MbJobMgr J D) (n : ℕ) : Sha256MbJobMgr J D :=
  { s with
    digest := fun i => if i.val < 4 then s.hashLane kern n i else s.digest i
    dataPtr := fun i => if i.val < 4 then (s.dataPtr i).map fun q => (q.1, q.2.add (64 * n))
      else s.dataPtr i }

/-- `sha256_opt_x1` on lane `idx`. -/
def sha256OptX1 (s : Sha256MbJobMgr J D) (n : ℕ) (idx : Fin 16) : Sha256MbJobMgr J D :=
  { s with digest := Function.update s.digest idx (s.hashLane kern n idx) }

/-- The part of both functions that hashes all lanes by the least length. -/
def hashAll (s : Sha256MbJobMgr J D) (len2 : BitVec 32) : Sha256MbJobMgr J D :=
  sha256MbX4Sse kern { s with lens := fun i => if i.val < 4 then s.lens i - len2 else s.lens i }
    (len2 >>> 4).toNat

/-- `len_is_0`: the job in lane `idx` is completed. -/
def completeLane (s : Sha256MbJobMgr J D) (jobs : J → Job D) (idx : Fin 16) :
    Sha256MbJobMgr J D × (J → Job D) × Option J :=
  match s.jobInLane idx with
  | none => (s.release idx, jobs, none)
  | some j =>
    (s.release idx, Function.update jobs j
      { jobs j with status := .completed, resultDigest := s.digest idx }, some j)

/-- The lane of a new job. -/
def enterLane (s : Sha256MbJobMgr J D) (jobs : J → Job D) (j : J) : Sha256MbJobMgr J D :=
  let lane := s.freeTop
  { s.put lane j (jobs j).len with
    digest := Function.update s.digest lane (jobs j).resultDigest
    dataPtr := Function.update s.dataPtr lane (some (j, (jobs j).buffer)) }

/-- `_sha256_mb_mgr_submit_sse`. -/
def submitSse (s : Sha256MbJobMgr J D) (jobs : J → Job D) (j : J) :
    Sha256MbJobMgr J D × (J → Job D) × Option J :=
  let jobs := Function.update jobs j { jobs j with status := .beingProcessed }
  let s := s.enterLane jobs j
  if s.unusedLanes ≠ 0xF#64 then (s, jobs, none)
  else
    let idx := laneOf s.minLens
    let len2 := s.minLens &&& ~~~15#32
    let s := if len2 = 0#32 then s else s.hashAll kern len2
    s.completeLane jobs idx

/-- The last lane with a job, or lane 0. -/
def lastJob (s : Sha256MbJobMgr J D) : Fin 16 :=
  let idx := if (s.jobInLane 1).isSome then 1 else 0
  let idx := if (s.jobInLane 2).isSome then 2 else idx
  if (s.jobInLane 3).isSome then 3 else idx

/-- `copy_lane_data`: the lanes without a job get a data pointer and a length above all others. -/
def copyLaneData (s : Sha256MbJobMgr J D) : Sha256MbJobMgr J D :=
  { s with
    dataPtr := fun i =>
      if i.val < 4 ∧ (s.jobInLane i).isNone then s.dataPtr s.lastJob else s.dataPtr i
    lens := fun i => if i.val < 4 ∧ (s.jobInLane i).isNone then 0xFFFFFFFF#32 else s.lens i }

/-- `_sha256_mb_mgr_flush_sse`. -/
def flushSse (s : Sha256MbJobMgr J D) (jobs : J → Job D) :
    Sha256MbJobMgr J D × (J → Job D) × Option J :=
  if s.numLanesInuse = 0#32 then (s, jobs, none)
  else
    let s := s.copyLaneData
    let idx := laneOf s.minLens
    let len2 := s.minLens &&& ~~~15#32
    let s :=
      if len2 = 0#32 then s
      else if 1#32 < s.numLanesInuse then s.hashAll kern len2
      else
        sha256OptX1 kern { s with lens := Function.update s.lens idx (BitVec.ofNat 32 idx) }
          (len2 >>> 4).toNat idx
    s.completeLane jobs idx

end Jobs

end Sha256MbJobMgr

/-- The scheduler of the SSE manager. -/
def schedulerSse {J D : Type*} [DecidableEq J] [Inhabited D] :
    Scheduler (Sha256MbJobMgr J D) J D where
  init := Sha256MbJobMgr.initSse
  submit := Sha256MbJobMgr.submitSse
  flush := Sha256MbJobMgr.flushSse

end IsalCrypto.Sha256Mb
