import IsalCrypto.Mb.Holding
import IsalCrypto.Mb.LaneMgr

/-!
# The SVE lane scheduler of SM3

`sm3_mb/aarch64/sm3_mb_mgr_sve.c`. Of the sixteen lanes as many are used as the vector length
admits, and `do_jobs` chooses between the vector kernel, groups of four and single jobs by how many
lanes have a job to do.

A kernel is a parameter. It is called with a number of blocks and with jobs, each of which it takes
that many blocks further, from the job's own buffer and into the job's own digest.
-/

namespace IsalCrypto.Sm3Mb

open IsalCrypto.Lib IsalCrypto.Mb

/-- `ISAL_SM3_MB_JOB_MGR`. -/
abbrev Sm3Mgr (J D : Type*) := LaneMgr 16 (BitVec 64) J D

section Tables

variable {J D : Type*} (s : Sm3Mgr J D)

/-- `LANE_IS_NOT_FINISHED`. -/
def LaneIsNotFinished (i : Fin 16) : Prop := s.lens i &&& ~~~15#32 ≠ 0#32 ∧ (s.jobInLane i).isSome

/-- `LANE_IS_FINISHED`. -/
def LaneIsFinished (i : Fin 16) : Prop := s.lens i &&& ~~~15#32 = 0#32 ∧ (s.jobInLane i).isSome

instance (i : Fin 16) : Decidable (LaneIsNotFinished s i) := inferInstanceAs (Decidable (_ ≠ _ ∧ _))

instance (i : Fin 16) : Decidable (LaneIsFinished s i) := inferInstanceAs (Decidable (_ = _ ∧ _))

/-- The `maxjobs` of a function, of what `sm3_mb_sve_max_lanes` reports. -/
def maxjobsSve (maxLanes : ℕ) : ℕ := min maxLanes 16

/-- `sm3_mb_mgr_init_sve`. -/
def initSve (maxLanes : ℕ) : Sm3Mgr J D :=
  let maxjobs := maxjobsSve maxLanes
  { s with
    unusedLanes := (List.range maxjobs).foldl
      (fun unused i => unused <<< 4 ||| BitVec.ofNat 64 (maxjobs - 1 - i)) 0xf#64
    numLanesInuse := 0#32
    lens := fun i => if i.val < maxjobs then BitVec.ofNat 32 i else 0xf#32
    jobInLane := fun _ => none }

/-- `sm3_mb_mgr_insert_job`. -/
def insertJob (jobs : J → Job D) (j : J) : Sm3Mgr J D :=
  let laneIdx : Fin 16 := lowNibble four_le_sixtyFour s.unusedLanes
  { s with
    lens :=
      Function.update s.lens laneIdx (((jobs j).len <<< 4 ||| BitVec.ofNat 64 laneIdx).setWidth 32)
    jobInLane := Function.update s.jobInLane laneIdx (some j)
    unusedLanes := s.unusedLanes >>> 4
    numLanesInuse := s.numLanesInuse + 1#32 }

/-- What `free_lane` does with a finished lane. -/
def release (i : Fin 16) : Sm3Mgr J D :=
  { s with
    unusedLanes := s.unusedLanes <<< 4 ||| BitVec.ofNat 64 i
    numLanesInuse := s.numLanesInuse - 1#32
    jobInLane := Function.update s.jobInLane i none }

/-- `sm3_mb_mgr_free_lane`. -/
def freeLane [DecidableEq J] (jobs : J → Job D) : Sm3Mgr J D × (J → Job D) × Option J :=
  match (List.finRange 16).find? fun i => LaneIsFinished s i with
  | none => (s, jobs, none)
  | some i =>
    match s.jobInLane i with
    | none => (s, jobs, none)
    | some j =>
      (release s i, Function.update jobs j { jobs j with status := .completed }, some j)

end Tables

/-! ## Kernels -/

/-- A call of an assembly kernel: `sm3_mb_sve`, `sm3_mb_asimd_x4` or `sm3_mb_asimd_x1`. -/
inductive KernelCall (J : Type*)
  | sve (blocks : BitVec 32) (jobVecs : List J)
  | asimdX4 (j₀ j₁ j₂ j₃ : J) (blocks : BitVec 32)
  | asimdX1 (j : J) (blocks : BitVec 32)
deriving DecidableEq

namespace KernelCall

variable {J D : Type*}

/-- The jobs that a kernel is given. -/
def jobs : KernelCall J → List J
  | sve _ jobVecs => jobVecs
  | asimdX4 j₀ j₁ j₂ j₃ _ => [j₀, j₁, j₂, j₃]
  | asimdX1 j _ => [j]

/-- The number of blocks that a kernel is told. -/
def blocks : KernelCall J → BitVec 32
  | sve blocks _ => blocks
  | asimdX4 _ _ _ _ blocks => blocks
  | asimdX1 _ blocks => blocks

/-- What a kernel does to its jobs. -/
def exec [DecidableEq J] (kern : Kernel J D) (table : J → Job D) (call : KernelCall J) :
    J → Job D :=
  call.jobs.foldl (fun table j => Function.update table j { table j with
    resultDigest := kern j (table j).buffer call.blocks.toNat (table j).resultDigest }) table

end KernelCall

/-! ## `do_jobs`, submit and flush -/

section Jobs

variable {J D : Type*} (maxLanes : ℕ)

/-- The groups of four, and the rest one by one. -/
def asimdCalls (blocks : BitVec 32) : List J → List (KernelCall J)
  | j₀ :: j₁ :: j₂ :: j₃ :: rest => .asimdX4 j₀ j₁ j₂ j₃ blocks :: asimdCalls blocks rest
  | l => l.map fun j => .asimdX1 j blocks

/-- The choice of the kernel: `maxjobs - 2` may be negative. -/
def kernelCalls (jobVecs : List J) (blocks : BitVec 32) : List (KernelCall J) :=
  if 4 ≤ jobVecs.length ∧ (maxjobsSve maxLanes : ℤ) - 2 ≤ jobVecs.length then [.sve blocks jobVecs]
  else asimdCalls blocks jobVecs

/-- The jobs of some lanes. -/
def jobsOf (s : Sm3Mgr J D) (lanes : List (Fin 16)) : List J := lanes.filterMap s.jobInLane

/-- The loop of `do_jobs` that finds the lanes to hash and their least word. -/
def gather (s : Sm3Mgr J D) : List (Fin 16) × BitVec 32 :=
  gatherLeast s.lens (LaneIsNotFinished s) s.numLanesInuse.toNat (List.finRange 16) [] 0#32

/-- The kernel calls of `do_jobs`; `len >> 4` is that of an `int`. -/
def doJobsCalls (s : Sm3Mgr J D) : List (KernelCall J) :=
  kernelCalls maxLanes (jobsOf s (gather s).1) (((gather s).2 &&& ~~~15#32).sshiftRight 4)

variable [DecidableEq J] (kern : Kernel J D)

/-- What the last loop of `do_jobs` does to a job. `len` and `len << 2` are an `int`, not negative
for jobs of less than 2^25 blocks. -/
def advanceJob (len : BitVec 32) (job : Job D) : Job D :=
  { job with
    len := job.len - len.signExtend 64
    buffer := job.buffer.add (len <<< 2).toNat }

/-- The last loop of `do_jobs`. -/
def advance (s : Sm3Mgr J D) (jobs : J → Job D) (len : BitVec 32) : Sm3Mgr J D × (J → Job D) :=
  ({ s with lens := fun i => if LaneIsNotFinished s i then s.lens i - len else s.lens i },
    (jobsOf s ((List.finRange 16).filter fun i => LaneIsNotFinished s i)).foldl
      (fun jobs j => Function.update jobs j (advanceJob len (jobs j))) jobs)

/-- `sm3_mb_mgr_do_jobs`; `none` is its -1. -/
def doJobs (s : Sm3Mgr J D) (jobs : J → Job D) : Sm3Mgr J D × (J → Job D) × Option (BitVec 32) :=
  if s.numLanesInuse = 0#32 then (s, jobs, none)
  else if (gather s).1 = [] then (s, jobs, none)
  else
    let laneIdx := (gather s).2 &&& 15#32
    let len := (gather s).2 &&& ~~~15#32
    let jobs := (doJobsCalls maxLanes s).foldl (KernelCall.exec kern) jobs
    let r := advance s jobs len
    (r.1, r.2, some laneIdx)

/-- `sm3_mb_mgr_submit_sve`. -/
def submitSve (s : Sm3Mgr J D) (jobs : J → Job D) (j : J) : Sm3Mgr J D × (J → Job D) × Option J :=
  let r := freeLane (insertJob s jobs j) jobs
  match r.2.2 with
  | some k => (r.1, r.2.1, some k)
  | none =>
    if r.1.numLanesInuse.toNat < maxjobsSve maxLanes then (r.1, r.2.1, none)
    else
      let r := doJobs maxLanes kern r.1 r.2.1
      freeLane r.1 r.2.1

/-- `sm3_mb_mgr_flush_sve`. -/
def flushSve (s : Sm3Mgr J D) (jobs : J → Job D) : Sm3Mgr J D × (J → Job D) × Option J :=
  let r := freeLane s jobs
  match r.2.2 with
  | some k => (r.1, r.2.1, some k)
  | none =>
    let r := doJobs maxLanes kern r.1 r.2.1
    freeLane r.1 r.2.1

end Jobs

/-- The scheduler of `sm3_mb_mgr_sve.c` on a machine that reports `maxLanes`. -/
def schedulerSve {J D : Type*} [DecidableEq J] (maxLanes : ℕ) : Scheduler (Sm3Mgr J D) J D where
  init s := initSve s maxLanes
  submit kern s jobs j := submitSve maxLanes kern s jobs j
  flush kern s jobs := flushSve maxLanes kern s jobs

end IsalCrypto.Sm3Mb
