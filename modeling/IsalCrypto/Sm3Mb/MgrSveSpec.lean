import IsalCrypto.Mb.Gather
import IsalCrypto.Sm3Mb.MgrSve

/-!
# What the SVE lane scheduler of SM3 does

The free lanes are the low nibbles of `unused_lanes`, as many as the counter leaves of `maxjobs`;
what is above them does not count, so that with sixteen lanes the sentinel may be shifted out.

* `doJobs_calls`: `do_jobs` gives every job that is not finished to one kernel call.
* `doJobs_spec`: it takes every job in a lane as far as the shortest of them.
-/

namespace IsalCrypto.Sm3Mb

open IsalCrypto.Lib IsalCrypto.Mb

variable {J D : Type*} {s : Sm3Mgr J D} {maxLanes : ℕ}

/-- The largest number of blocks for which `len << 2` in `do_jobs` is not negative. -/
abbrev maxBlocksSve : ℕ := 2 ^ 25 - 1

/-! ## The tables -/

/-- The lanes below `maxjobs`. -/
def sveLanes (maxLanes : ℕ) : Finset (Fin 16) :=
  Finset.univ.filter fun i => i.val < maxjobsSve maxLanes

theorem mem_sveLanes {i : Fin 16} : i ∈ sveLanes maxLanes ↔ i.val < maxjobsSve maxLanes := by
  rw [sveLanes, Finset.mem_filter]
  exact and_iff_right (Finset.mem_univ i)

theorem card_sveLanes : (sveLanes maxLanes).card = maxjobsSve maxLanes := by
  rw [sveLanes, Fin.card_filter_val_lt, maxjobsSve]
  exact Nat.min_eq_right (Nat.min_le_right ..)

/-- The lanes below `maxjobs` as nibbles of a word, without regard to what is above them. -/
def sveStack (maxLanes : ℕ) : FreeStack 16 (BitVec 64) :=
  { nibbleWord with
    lanes := sveLanes maxLanes
    holds_push := fun h hnodup _ => nibbleWord.holds_push h hnodup fun k _ => Finset.mem_univ k }

/-- The blocks left to do in a lane: `lens[i] >> 4`. -/
abbrev blocksLeft (s : Sm3Mgr J D) (i : Fin 16) : ℕ := s.left 4 i

/-- The words and the jobs of the lanes. -/
abbrev laneTable (s : Sm3Mgr J D) : LaneTable 16 J := ⟨s.lens, s.jobInLane⟩

theorem laneIsFinished_iff (i : Fin 16) :
    LaneIsFinished s i ↔ blocksLeft s i = 0 ∧ ∃ j, s.jobInLane i = some j :=
  (laneTable s).finished_iff 4 i

theorem laneIsNotFinished_iff (i : Fin 16) :
    LaneIsNotFinished s i ↔ 0 < blocksLeft s i ∧ ∃ j, s.jobInLane i = some j :=
  (laneTable s).notFinished_iff 4 i

/-! ### A job takes a lane, and leaves it -/

/-- The lane that the next job takes. -/
abbrev topLane (s : Sm3Mgr J D) : Fin 16 := lowNibble four_le_sixtyFour s.unusedLanes

theorem jobInLane_insertJob {jobs : J → Job D} {j j' : J} {k : Fin 16} :
    (insertJob s jobs j).jobInLane k = some j' ↔
      k = topLane s ∧ j' = j ∨ k ≠ topLane s ∧ s.jobInLane k = some j' := by
  rw [insertJob]
  rcases eq_or_ne k (topLane s) with rfl | hne
  · simp [eq_comm]
  · simp [hne]

theorem blocksLeft_insertJob_self {jobs : J → Job D} {j : J} (hlen : (jobs j).len.toNat < 2 ^ 28) :
    blocksLeft (insertJob s jobs j) (topLane s) = (jobs j).len.toNat := by
  have hlane := (topLane s).isLt
  rw [blocksLeft, LaneMgr.left, insertJob]
  dsimp only
  rw [Function.update_self, toNat_setWidth_shiftLeft_or hlen]
  change (16 * (jobs j).len.toNat + topLane s) / 16 = (jobs j).len.toNat
  rw [Nat.mul_add_div (by decide), Nat.div_eq_of_lt hlane, Nat.add_zero]

theorem blocksLeft_insertJob_of_ne {jobs : J → Job D} {j : J} {k : Fin 16} (hne : k ≠ topLane s) :
    blocksLeft (insertJob s jobs j) k = blocksLeft s k := by
  rw [blocksLeft, LaneMgr.left, insertJob]
  dsimp only
  rw [Function.update_of_ne hne]
  rfl

theorem counted_insertJob (h : s.Counted (sveStack maxLanes))
    (hroom : ∃ i ∈ sveLanes maxLanes, s.jobInLane i = none) {j : J} (hj : ¬ s.InLane j)
    (jobs : J → Job D) : (insertJob s jobs j).Counted (sveStack maxLanes) := by
  have henter := @LaneMgr.Counted.enter _ _ _ _ _ _ 4 _ (by decide) h hroom hj jobs
  exact henter.congr rfl rfl rfl

theorem jobInLane_release {i k : Fin 16} {j : J} :
    (release s i).jobInLane k = some j ↔ k ≠ i ∧ s.jobInLane k = some j :=
  LaneMgr.jobInLane_release rfl

/-- `free_lane` hands back a finished job, or finds that there is none. -/
theorem freeLane_spec [DecidableEq J] (s : Sm3Mgr J D) (jobs : J → Job D) :
    ((∀ i j, s.jobInLane i = some j → 0 < blocksLeft s i) ∧ freeLane s jobs = (s, jobs, none)) ∨
      ∃ i j, s.jobInLane i = some j ∧ blocksLeft s i = 0 ∧ freeLane s jobs =
        (release s i, Function.update jobs j { jobs j with status := .completed }, some j) := by
  rcases (laneTable s).find_finished (k := 4) fun i _ _ => List.mem_finRange i with
    ⟨hpos, hfind⟩ | ⟨i, j, hi, hz, hfind⟩
  · have hnone : ((List.finRange 16).find? fun i => LaneIsFinished s i) = none := hfind
    exact .inl ⟨hpos, by rw [freeLane, hnone]⟩
  · have hsome : ((List.finRange 16).find? fun i => LaneIsFinished s i) = some i := hfind
    have hi' : s.jobInLane i = some j := hi
    refine .inr ⟨i, j, hi, hz, ?_⟩
    rw [freeLane, hsome]
    dsimp only
    rw [hi']

/-! ## Kernel calls -/

section Calls

variable {l : List J} {blocks : BitVec 32}

/-- However the jobs are split, each of them is in one call, and all calls are told the same number
of blocks. -/
theorem asimdCalls_jobs (l : List J) (blocks : BitVec 32) :
    (asimdCalls blocks l).flatMap KernelCall.jobs = l ∧
      ∀ call ∈ asimdCalls blocks l, call.blocks = blocks := by
  fun_induction asimdCalls blocks l with
  | case1 j₀ j₁ j₂ j₃ rest ih =>
    obtain ⟨hjobs, hblocks⟩ := ih
    refine ⟨by rw [List.flatMap_cons, hjobs]; rfl, fun call hcall => ?_⟩
    cases List.mem_cons.mp hcall with
    | inl heq => rw [heq]; rfl
    | inr hrest => exact hblocks call hrest
  | case2 l _ =>
    refine ⟨?_, fun call hcall => ?_⟩
    · rw [List.flatMap_map]
      exact List.flatMap_singleton' l
    · obtain ⟨j, _, rfl⟩ := List.mem_map.mp hcall
      rfl

theorem kernelCalls_jobs (maxLanes : ℕ) (l : List J) (blocks : BitVec 32) :
    (kernelCalls maxLanes l blocks).flatMap KernelCall.jobs = l ∧
      ∀ call ∈ kernelCalls maxLanes l blocks, call.blocks = blocks := by
  unfold kernelCalls
  split
  · refine ⟨by rw [List.flatMap_singleton]; rfl, fun call hcall => ?_⟩
    rw [List.mem_singleton.mp hcall]
    rfl
  · exact asimdCalls_jobs l blocks

/-- A job after `n` more blocks. -/
def hashed (kern : Kernel J D) (n : ℕ) (j : J) (job : Job D) : Job D :=
  { job with resultDigest := kern j job.buffer n job.resultDigest }

variable [DecidableEq J] {kern : Kernel J D}

/-- Calls that are told the same number of blocks take their jobs further one after the other. -/
theorem exec_calls_eq {calls : List (KernelCall J)} (hblocks : ∀ call ∈ calls, call.blocks = blocks)
    (jobs : J → Job D) : calls.foldl (KernelCall.exec kern) jobs =
      (calls.flatMap KernelCall.jobs).foldl (fun jobs j => Function.update jobs j
        (hashed kern blocks.toNat j (jobs j))) jobs := by
  induction calls generalizing jobs with
  | nil => rfl
  | cons call calls ih =>
    rw [List.foldl_cons, List.flatMap_cons, List.foldl_append,
      ih fun call' h => hblocks call' (List.mem_cons_of_mem _ h), KernelCall.exec,
      hblocks call List.mem_cons_self]
    rfl

end Calls

/-! ## `do_jobs` -/

section DoJobs

/-- The loop gathers every lane that is not finished. -/
theorem gather_spec (h : s.Counted (sveStack maxLanes)) :
    (gather s).1 = (laneTable s).unfinished 4 ∧ ((laneTable s).unfinished 4 = [] ∨
      LeastWord s.lens ((laneTable s).unfinished 4) (gather s).2) :=
  @LaneTable.gather_spec _ _ (laneTable s) 4 _ (LaneTable.length_unfinished_le.trans h.inuse.ge)

/-- The kernel calls of `do_jobs` are given every job that is not finished, and each of them once;
all are told the same number of blocks, that of a job with the fewest left. -/
structure GivesOnce (maxLanes : ℕ) (s : Sm3Mgr J D) : Prop where
  nodup : ((doJobsCalls maxLanes s).flatMap KernelCall.jobs).Nodup
  mem : ∀ j, j ∈ (doJobsCalls maxLanes s).flatMap KernelCall.jobs ↔
    ∃ i, LaneIsNotFinished s i ∧ s.jobInLane i = some j
  blocks : ∀ call ∈ doJobsCalls maxLanes s,
    (∃ i, LaneIsNotFinished s i ∧ blocksLeft s i = call.blocks.toNat) ∧
    ∀ i, LaneIsNotFinished s i → call.blocks.toNat ≤ blocksLeft s i

/-- The `int` arithmetic on the word of a lane with at most `maxBlocksSve` blocks. -/
theorem blocks_of_le {a : Fin 16} (hle : blocksLeft s a ≤ maxBlocksSve) :
    ((s.lens a &&& ~~~15#32).sshiftRight 4).toNat = blocksLeft s a ∧
      ((s.lens a &&& ~~~15#32) <<< 2).toNat = 64 * blocksLeft s a := by
  have hlen : (s.lens a &&& ~~~15#32).toNat = 16 * blocksLeft s a :=
    toNat_and_not_fifteen (s.lens a)
  have hlt : blocksLeft s a < 2 ^ 25 := Nat.lt_of_le_of_lt hle (by decide)
  have hmsb : (s.lens a &&& ~~~15#32).msb = false := by
    rw [BitVec.msb_eq_false_iff_two_mul_lt, hlen]
    omega
  constructor
  · rw [BitVec.sshiftRight_eq_of_msb_false hmsb, BitVec.toNat_ushiftRight, hlen,
      Nat.shiftRight_eq_div_pow]
    exact Nat.mul_div_cancel_left _ (by decide)
  · rw [BitVec.toNat_shiftLeft, hlen, Nat.shiftLeft_eq]
    omega

theorem doJobsCalls_jobs (maxLanes : ℕ) (s : Sm3Mgr J D) :
    (doJobsCalls maxLanes s).flatMap KernelCall.jobs = jobsOf s (gather s).1 ∧
      ∀ call ∈ doJobsCalls maxLanes s, call.blocks = ((gather s).2 &&& ~~~15#32).sshiftRight 4 :=
  kernelCalls_jobs ..

theorem doJobs_calls (h : s.Counted (sveStack maxLanes))
    (hle : ∀ i j, s.jobInLane i = some j → blocksLeft s i ≤ maxBlocksSve) :
    GivesOnce maxLanes s := by
  obtain ⟨hlanes, hmin⟩ := gather_spec h
  obtain ⟨hjobs, hblocks⟩ := doJobsCalls_jobs maxLanes s
  constructor
  case nodup =>
    rw [hjobs, hlanes]
    exact LaneTable.nodup_jobs (t := laneTable s) h.inj LaneTable.nodup_unfinished
  case mem =>
    intro j
    rw [hjobs, hlanes]
    refine (LaneTable.mem_jobs (t := laneTable s)).trans
      (exists_congr fun i => and_congr_left fun _ => ?_)
    exact LaneTable.mem_unfinished.trans (laneIsNotFinished_iff i).symm
  case blocks =>
    intro call hcall
    rw [hblocks call hcall]
    cases hmin with
    | inl hnil =>
      -- without a lane to hash there are no calls
      rw [doJobsCalls, hlanes, hnil, kernelCalls, if_neg (by simp [jobsOf])] at hcall
      cases hcall
    | inr hleast =>
      obtain ⟨⟨a, ha, hword⟩, hbelow⟩ := hleast
      obtain ⟨hpos, j, hj⟩ := LaneTable.mem_unfinished.mp ha
      rw [hword, (blocks_of_le (hle a j hj)).1]
      rw [hword] at hbelow
      refine ⟨⟨a, (laneIsNotFinished_iff a).mpr ⟨hpos, j, hj⟩, rfl⟩, fun i hi => ?_⟩
      exact Nat.div_le_div_right
        (hbelow i (LaneTable.mem_unfinished.mpr ((laneIsNotFinished_iff i).mp hi)))

/-- What `do_jobs` does: the jobs in lanes are taken `n` blocks further. -/
structure Hashed (kern : Kernel J D) (s : Sm3Mgr J D) (jobs : J → Job D) (n : ℕ)
    (r : Sm3Mgr J D × (J → Job D) × Option (BitVec 32)) : Prop where
  table : r.1.jobInLane = s.jobInLane
  unusedLanes : r.1.unusedLanes = s.unusedLanes
  numLanesInuse : r.1.numLanesInuse = s.numLanesInuse
  left : ∀ i j, s.jobInLane i = some j → blocksLeft r.1 i + n = blocksLeft s i
  digest : ∀ i j, s.jobInLane i = some j →
    (r.2.1 j).resultDigest = kern j (jobs j).buffer n (jobs j).resultDigest
  buffer : ∀ i j, s.jobInLane i = some j → (r.2.1 j).buffer = (jobs j).buffer.add (64 * n)
  frame : ∀ j, (∀ i, s.jobInLane i ≠ some j) → r.2.1 j = jobs j

theorem Hashed.lowered {kern : Kernel J D} {jobs : J → Job D} {n : ℕ}
    {r : Sm3Mgr J D × (J → Job D) × Option (BitVec 32)} (hr : Hashed kern s jobs n r) :
    LaneTable.Lowered 4 (laneTable s) (laneTable r.1) n := ⟨hr.table, hr.left⟩

variable [DecidableEq J]

/-- With no lane finished, `do_jobs` takes every job in a lane as far as the shortest of them. -/
theorem doJobs_spec (kern : Kernel J D) (jobs : J → Job D) (h : s.Counted (sveStack maxLanes))
    (hle : ∀ i j, s.jobInLane i = some j → blocksLeft s i ≤ maxBlocksSve)
    (hpos : ∀ i j, s.jobInLane i = some j → 0 < blocksLeft s i) (hsome : ∃ j, s.InLane j) :
    ∃ a j, s.jobInLane a = some j ∧
      (∀ i j, s.jobInLane i = some j → blocksLeft s a ≤ blocksLeft s i) ∧
      Hashed kern s jobs (blocksLeft s a) (doJobs maxLanes kern s jobs) := by
  obtain ⟨j₀, i₀, hi₀⟩ := hsome
  obtain ⟨a, ja, hja, hmin, hgather, hnil⟩ := LaneTable.gather_shortest (t := laneTable s) (k := 4)
    (LaneTable.length_unfinished_le.trans h.inuse.ge) hpos ⟨i₀, j₀, hi₀⟩
  have hword : gather s = ((laneTable s).unfinished 4, s.lens a) := hgather
  obtain ⟨hblocks, hbytes⟩ := blocks_of_le (hle a ja hja)
  have hinuse : s.numLanesInuse ≠ 0#32 := fun hz =>
    h.inuse_eq_zero_iff.mp (by rw [hz]; rfl) j₀ ⟨i₀, hi₀⟩
  have hne : (gather s).1 ≠ [] := by
    rw [hword]
    exact hnil
  have hnodup : (jobsOf s ((laneTable s).unfinished 4)).Nodup :=
    LaneTable.nodup_jobs (t := laneTable s) h.inj LaneTable.nodup_unfinished
  have hmem : ∀ j, j ∈ jobsOf s ((laneTable s).unfinished 4) ↔
      ∃ i, s.jobInLane i = some j := fun j =>
    LaneTable.mem_jobs_of_mem (t := laneTable s) fun i => LaneTable.mem_unfinished_of_pos hpos
  -- the calls and the last loop, job by job
  have hcalls : (doJobsCalls maxLanes s).foldl (KernelCall.exec kern) jobs =
      (jobsOf s ((laneTable s).unfinished 4)).foldl (fun jobs j => Function.update jobs j
        (hashed kern (blocksLeft s a) j (jobs j))) jobs := by
    obtain ⟨hflat, hsame⟩ := doJobsCalls_jobs maxLanes s
    rw [exec_calls_eq hsame, hflat, hword, hblocks]
  have hjob : ∀ j, (doJobs maxLanes kern s jobs).2.1 j =
      if ∃ i, s.jobInLane i = some j then
        advanceJob (s.lens a &&& ~~~15#32) (hashed kern (blocksLeft s a) j (jobs j))
          else jobs j := fun j => by
    rw [doJobs, if_neg hinuse, if_neg hne, hcalls, hword]
    refine (foldl_update_twice (hashed kern (blocksLeft s a))
      (fun _ => advanceJob (s.lens a &&& ~~~15#32))
      hnodup hnodup (fun _ => Iff.rfl) jobs j).trans ?_
    exact if_congr (hmem j) rfl rfl
  have hmgr : (doJobs maxLanes kern s jobs).1 =
      { s with lens := fun i => if LaneIsNotFinished s i then s.lens i - (s.lens a &&& ~~~15#32)
          else s.lens i } := by
    rw [doJobs, if_neg hinuse, if_neg hne, hword]
    rfl
  refine ⟨a, ja, hja, hmin, ?_⟩
  constructor
  case table => rw [hmgr]
  case unusedLanes => rw [hmgr]
  case numLanesInuse => rw [hmgr]
  case left =>
    intro i j hi
    have hnf := (laneIsNotFinished_iff i).mpr ⟨hpos i j hi, j, hi⟩
    have hlens : (doJobs maxLanes kern s jobs).1.lens i = s.lens i - (s.lens a &&& ~~~15#32) := by
      rw [hmgr]
      exact if_pos hnf
    exact @LaneTable.left_sub _ _ (laneTable s) 4 (laneTable _) _ _ (hmin i j hi) hlens
  case digest =>
    intro i j hi
    rw [hjob, if_pos ⟨i, hi⟩]
    rfl
  case buffer =>
    intro i j hi
    rw [hjob, if_pos ⟨i, hi⟩, ← hbytes]
    rfl
  case frame =>
    intro j hj
    rw [hjob, if_neg (not_exists.mpr hj)]

end DoJobs

end IsalCrypto.Sm3Mb
