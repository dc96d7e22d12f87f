import IsalCrypto.Lib.Lanes
import IsalCrypto.Mb.Scheduler
import Mathlib.Data.List.FinRange

/-!
# The SVE lane scheduler of MD5

`md5_mb/aarch64/md5_mb_mgr_aarch64_sve.c` and the job structures of `md5_mb.h`. The lanes are in
four groups of eight, each with its own stack of free lanes; how many of them a submit fills
depends on the vector length.

The assembly kernels `md5_mb_sve`, `md5_mb_asimd_x4` and `md5_mb_asimd_x1` are parameters, of which
`Md5Kernels.Lawful` says that they compress as many blocks of each job as they are told to.
-/

namespace IsalCrypto.Md5Mb

open IsalCrypto.Lib IsalCrypto.Mb

/-- `ISAL_MD5_JOB`; its buffer is an address. -/
structure Md5Job (D : Type*) where
  buffer : BitVec 64
  len : BitVec 32
  resultDigest : D
  status : JobSts

/-- `ISAL_MD5_MB_JOB_MGR`. -/
structure Md5MbJobMgr (J : Type*) where
  lens : Fin 32 → BitVec 32
  unusedLanes : Fin 4 → BitVec 64
  jobInLane : Fin 32 → Option J
  numLanesInuse : BitVec 32

/-! ## Kernels -/

section Kernels

variable {D : Type*}

/-- `n` compressions over the blocks from an address on. -/
def md5Blocks (compress : BitVec 64 → D → D) : BitVec 64 → ℕ → D → D
  | _, 0, d => d
  | p, n + 1, d => md5Blocks compress (p + 64#64) n (compress p d)

theorem md5Blocks_add (compress : BitVec 64 → D → D) (p : BitVec 64) (m n : ℕ) (d : D) :
    md5Blocks compress p (m + n) d =
      md5Blocks compress (p + BitVec.ofNat 64 (64 * m)) n (md5Blocks compress p m d) := by
  induction m generalizing p d with
  | zero =>
    rw [Nat.zero_add, Nat.mul_zero, BitVec.add_zero]
    rfl
  | succ m ih =>
    have hptr : p + 64#64 + BitVec.ofNat 64 (64 * m) = p + BitVec.ofNat 64 (64 * (m + 1)) := by
      rw [Nat.mul_succ, BitVec.ofNat_add, BitVec.add_assoc, BitVec.add_comm 64#64]
    rw [Nat.succ_add, md5Blocks, md5Blocks, ih, hptr]

/-- What the kernels do to the digest of one of their jobs, given its buffer and the `int` number
of blocks. -/
structure Md5Kernels (D : Type*) where
  md5MbSve : BitVec 64 → BitVec 32 → D → D
  md5MbAsimdX4 : BitVec 64 → BitVec 32 → D → D
  md5MbAsimdX1 : BitVec 64 → BitVec 32 → D → D

/-- Told a number of blocks, every kernel compresses that many. -/
structure Md5Kernels.Lawful (ker : Md5Kernels D) (compress : BitVec 64 → D → D) : Prop where
  sve : ∀ p n d, n.msb = false → ker.md5MbSve p n d = md5Blocks compress p n.toNat d
  asimdX4 : ∀ p n d, n.msb = false → ker.md5MbAsimdX4 p n d = md5Blocks compress p n.toNat d
  asimdX1 : ∀ p n d, n.msb = false → ker.md5MbAsimdX1 p n d = md5Blocks compress p n.toNat d

end Kernels

namespace Md5MbJobMgr

variable {J D : Type*}

/-- `LANE_IS_NOT_FINISHED`. -/
def LaneIsNotFinished (s : Md5MbJobMgr J) (i : Fin 32) : Prop :=
  s.lens i &&& ~~~255#32 ≠ 0#32 ∧ (s.jobInLane i).isSome

/-- `LANE_IS_FINISHED`. -/
def LaneIsFinished (s : Md5MbJobMgr J) (i : Fin 32) : Prop :=
  s.lens i &&& ~~~255#32 = 0#32 ∧ (s.jobInLane i).isSome

/-- `LANE_IS_FREE`. -/
def LaneIsFree (s : Md5MbJobMgr J) (i : Fin 32) : Prop :=
  s.lens i &&& ~~~255#32 = 0#32 ∧ (s.jobInLane i).isNone

instance (s : Md5MbJobMgr J) (i : Fin 32) : Decidable (s.LaneIsNotFinished i) :=
  inferInstanceAs (Decidable (_ ≠ _ ∧ _))

instance (s : Md5MbJobMgr J) (i : Fin 32) : Decidable (s.LaneIsFinished i) :=
  inferInstanceAs (Decidable (_ = _ ∧ _))

instance (s : Md5MbJobMgr J) (i : Fin 32) : Decidable (s.LaneIsFree i) :=
  inferInstanceAs (Decidable (_ = _ ∧ _))

/-- `md5_mb_mgr_init_sve`. -/
def initSve : Md5MbJobMgr J where
  lens j := BitVec.ofNat 32 j
  unusedLanes
    | 0 => 0x0706050403020100#64
    | 1 => 0x0f0e0d0c0b0a0908#64
    | 2 => 0x1716151413121110#64
    | 3 => 0x1f1e1d1c1b1a1918#64
  jobInLane _ := none
  numLanesInuse := 0#32

/-- The group of a lane, `i / 8`. -/
def group (i : Fin 32) : Fin 4 := ⟨i / 8, Nat.div_lt_of_lt_mul i.isLt⟩

/-! ## `insert_job` -/

/-- The group of the first free lane, and 0 if no lane is free. -/
def freeGroup (s : Md5MbJobMgr J) : Fin 4 :=
  match (List.finRange 32).find? fun i => s.LaneIsFree i with
  | some i => group i
  | none => 0

/-- `unused_lanes[grp] & 0xff`. -/
def topByte (s : Md5MbJobMgr J) (grp : Fin 4) : BitVec 64 := s.unusedLanes grp &&& 255#64

/-- The assertion of `insert_job`. -/
def InsertJobAssert (s : Md5MbJobMgr J) : Prop := (s.topByte s.freeGroup).toNat < 32

/-- The lane that the next job takes, when the assertion holds. -/
def freeTop (s : Md5MbJobMgr J) : Fin 32 := Fin.ofNat 32 (s.topByte s.freeGroup).toNat

/-- A job takes lane `i`, which is on top of the stack of the group `grp`. -/
def put (s : Md5MbJobMgr J) (grp : Fin 4) (i : Fin 32) (j : J) (len : BitVec 32) :
    Md5MbJobMgr J where
  lens := Function.update s.lens i (len <<< 8 ||| BitVec.ofNat 32 i)
  jobInLane := Function.update s.jobInLane i (some j)
  unusedLanes := Function.update s.unusedLanes grp (s.unusedLanes grp >>> 8)
  numLanesInuse := s.numLanesInuse + 1#32

/-- `md5_mb_mgr_insert_job`. -/
def insertJob (s : Md5MbJobMgr J) (jobs : J → Md5Job D) (j : J) : Md5MbJobMgr J :=
  s.put s.freeGroup s.freeTop j (jobs j).len

/-- Lane `i` goes back to the stack of its group. -/
def release (s : Md5MbJobMgr J) (i : Fin 32) : Md5MbJobMgr J :=
  { s with
    unusedLanes := Function.update s.unusedLanes (group i)
      (s.unusedLanes (group i) <<< 8 ||| BitVec.ofNat 64 i)
    numLanesInuse := s.numLanesInuse - 1#32
    jobInLane := Function.update s.jobInLane i none }

/-- The jobs of some lanes. -/
def jobsOf (s : Md5MbJobMgr J) (lanes : List (Fin 32)) : List J := lanes.filterMap s.jobInLane

/-! ## `do_jobs`, `free_lane`, submit and flush -/

section Jobs

variable [DecidableEq J] (ker : Md5Kernels D) (maxLanes : ℕ)

/-- A kernel on a list of jobs. -/
def hashJobs (kern : BitVec 64 → BitVec 32 → D → D) (blocks : BitVec 32) (l : List J)
    (jobs : J → Md5Job D) : J → Md5Job D :=
  l.foldl (fun jobs j => Function.update jobs j
    { jobs j with resultDigest := kern (jobs j).buffer blocks (jobs j).resultDigest }) jobs

/-- Four jobs at a time, and the rest one by one. -/
def hashAsimd (blocks : BitVec 32) : List J → (J → Md5Job D) → J → Md5Job D
  | j₀ :: j₁ :: j₂ :: j₃ :: rest, jobs =>
    hashAsimd blocks rest (hashJobs ker.md5MbAsimdX4 blocks [j₀, j₁, j₂, j₃] jobs)
  | l, jobs => hashJobs ker.md5MbAsimdX1 blocks l jobs

/-- The choice of the kernel in `do_jobs`: `maxjobs / 2 - 2` may be negative. -/
def hashLanes (lanes : List J) (blocks : BitVec 32) (jobs : J → Md5Job D) : J → Md5Job D :=
  let maxjobs := min maxLanes 32
  if 4 ≤ lanes.length ∧ ((maxjobs / 2 : ℕ) : ℤ) - 2 ≤ lanes.length then
    hashJobs ker.md5MbSve blocks lanes jobs
  else hashAsimd ker blocks lanes jobs

/-- What the last loop of `do_jobs` does to a job; `blocks << 6` is an `int`. -/
def advanceJob (blocks : BitVec 32) (job : Md5Job D) : Md5Job D :=
  { job with
    len := job.len - blocks <<< 6
    buffer := job.buffer + (blocks <<< 6).signExtend 64 }

/-- The last loop of `do_jobs`. -/
def advance (s : Md5MbJobMgr J) (jobs : J → Md5Job D) (len blocks : BitVec 32) :
    Md5MbJobMgr J × (J → Md5Job D) :=
  ({ s with lens := fun i => if s.LaneIsNotFinished i then s.lens i - len else s.lens i },
    (s.jobsOf ((List.finRange 32).filter fun i => s.LaneIsNotFinished i)).foldl
      (fun jobs j => Function.update jobs j (advanceJob blocks (jobs j))) jobs)

/-- `md5_mb_mgr_do_jobs`; `none` is its -1. The least word is found in an `unsigned` comparison and
kept in an `int`, so that `len >> 8` keeps its sign. -/
def doJobs (s : Md5MbJobMgr J) (jobs : J → Md5Job D) :
    Md5MbJobMgr J × (J → Md5Job D) × Option (BitVec 32) :=
  if s.numLanesInuse = 0#32 then (s, jobs, none)
  else
    let q := gatherLeast s.lens s.LaneIsNotFinished s.numLanesInuse.toNat (List.finRange 32) [] 0#32
    if q.1 = [] then (s, jobs, none)
    else
      let laneIdx := q.2 &&& 255#32
      let len := q.2 &&& ~~~255#32
      let blocks := len.sshiftRight 8
      let jobs := hashLanes ker maxLanes (s.jobsOf q.1) blocks jobs
      let r := s.advance jobs len blocks
      (r.1, r.2, some laneIdx)

/-- `md5_mb_mgr_free_lane`. -/
def freeLane (s : Md5MbJobMgr J) (jobs : J → Md5Job D) :
    Md5MbJobMgr J × (J → Md5Job D) × Option J :=
  match (List.finRange 32).find? fun i => s.LaneIsFinished i with
  | none => (s, jobs, none)
  | some i =>
    match s.jobInLane i with
    | none => (s, jobs, none)
    | some j =>
      (s.release i, Function.update jobs j { jobs j with status := .completed }, some j)

/-- `md5_mb_mgr_submit_sve`; `maxLanes` is what `md5_mb_sve_max_lanes` reports. -/
def submitSve (s : Md5MbJobMgr J) (jobs : J → Md5Job D) (j : J) :
    Md5MbJobMgr J × (J → Md5Job D) × Option J :=
  let maxjobs := min maxLanes 32
  let r := (s.insertJob jobs j).freeLane jobs
  match r.2.2 with
  | some k => (r.1, r.2.1, some k)
  | none =>
    if r.1.numLanesInuse.toNat < maxjobs then (r.1, r.2.1, none)
    else
      let r := r.1.doJobs ker maxLanes r.2.1
      r.1.freeLane r.2.1

/-- The assertions of a submit: that of `insert_job`, and that `do_jobs`, if it is called, does not
return -1. -/
def SubmitAsserts (s : Md5MbJobMgr J) (jobs : J → Md5Job D) (j : J) : Prop :=
  s.InsertJobAssert ∧
    let r := (s.insertJob jobs j).freeLane jobs
    r.2.2 = none → ¬ r.1.numLanesInuse.toNat < min maxLanes 32 →
      (r.1.doJobs ker maxLanes r.2.1).2.2 ≠ none

/-- `md5_mb_mgr_flush_sve`. -/
def flushSve (s : Md5MbJobMgr J) (jobs : J → Md5Job D) :
    Md5MbJobMgr J × (J → Md5Job D) × Option J :=
  let r := s.freeLane jobs
  match r.2.2 with
  | some k => (r.1, r.2.1, some k)
  | none =>
    let r := r.1.doJobs ker maxLanes r.2.1
    r.1.freeLane r.2.1

end Jobs

end Md5MbJobMgr

end IsalCrypto.Md5Mb
