import IsalCrypto.Mb.Gather
import IsalCrypto.Sha256Mb.MgrCe
import Mathlib.Tactic.FinCases

/-!
# What the C lane scheduler does

`CeRep` says which jobs a manager holds and what digest it owes each of them: that of the blocks
left in its lane. `doJobs` takes all of them the same number of blocks further, which finishes at
least one; `freeLane` hands one back.

`schedulerCe_correct` is the contract that the context layer is verified against.
-/

namespace IsalCrypto.Sha256Mb

open IsalCrypto.Lib IsalCrypto.Mb

namespace Sha256MbJobMgr

variable {J D : Type*} {s : Sha256MbJobMgr J D} {maxBlocks : ℕ}

/-! ## Finished lanes -/

theorem toNat_lenPart (i : Fin 16) : (s.lens i &&& ~~~15#32).toNat = 16 * s.left i :=
  toNat_and_not_fifteen (s.lens i)

/-- The words and the jobs of the lanes. -/
abbrev laneTable (s : Sha256MbJobMgr J D) : LaneTable 16 J := ⟨s.lens, s.jobInLane⟩

theorem laneIsFinished_iff (i : Fin 16) :
    s.LaneIsFinished i ↔ s.left i = 0 ∧ ∃ j, s.jobInLane i = some j := s.laneTable.finished_iff 4 i

theorem laneIsNotFinished_iff (i : Fin 16) :
    s.LaneIsNotFinished i ↔ 0 < s.left i ∧ ∃ j, s.jobInLane i = some j :=
  s.laneTable.notFinished_iff 4 i

/-! ## `do_jobs` -/

theorem gather_eq (is : List (Fin 16)) : ∀ (lanes : List (Fin 16)) (len : BitVec 32),
    s.gather is lanes len =
      gatherLeast s.lens s.LaneIsNotFinished s.numLanesInuse.toNat is lanes len := by
  induction is with
  | nil => exact fun _ _ => rfl
  | cons i is ih =>
    intro lanes len
    rw [gather, gatherLeast, ih, ih]
    rfl

/-- With room for all of them, the loop of `do_jobs` gathers every lane that is not finished. -/
theorem gather_spec (hcap : (s.laneTable.unfinished 4).length ≤ s.numLanesInuse.toNat) :
    (s.gather (List.finRange 16) [] 0#32).1 = s.laneTable.unfinished 4 ∧
      (s.laneTable.unfinished 4 = [] ∨
        s.MinWord (s.laneTable.unfinished 4) (s.gather (List.finRange 16) [] 0#32).2) := by
  rw [gather_eq]
  exact LaneTable.gather_spec hcap

/-- The lanes whose jobs `do_jobs` gives to a kernel, and their least word. -/
def doJobsLanes (s : Sha256MbJobMgr J D) : Option (List (Fin 16) × BitVec 32) :=
  if s.numLanesInuse = 0#32 then none
  else if s.numLanesInuse = 3#32 then
    some ([0, 1, 2], min32 (min32 (s.lens 0) (s.lens 1)) (s.lens 2))
  else
    match s.gather (List.finRange 16) [] 0#32 with
    | ([], _) => none
    | ([i₀, i₁, i₂], word) => some ([i₀, i₁, i₂], word)
    | ([i₀, i₁], word) => some ([i₀, i₁], word)
    | (i₀ :: _, word) => some ([i₀], word)

theorem doJobs_eq_match [DecidableEq J] (s : Sha256MbJobMgr J D) (kern : Kernel J D)
    (jobs : J → Job D) : s.doJobs kern jobs =
      match s.doJobsLanes with
      | none => (s, jobs, none)
      | some (lanes, word) => s.hashLanes kern jobs lanes word := by
  unfold doJobs doJobsLanes
  split
  · rfl
  split
  · rfl
  · generalize s.gather (List.finRange 16) [] 0#32 = q
    obtain ⟨lanes, word⟩ := q
    match lanes with
    | [] => rfl
    | [_] => rfl
    | [_, _] => rfl
    | [_, _, _] => rfl
    | _ :: _ :: _ :: _ :: _ => rfl

/-- With no lane finished, `do_jobs` takes every lane in use, up to the length of the shortest. -/
theorem doJobsLanes_eq (h : s.Lanes 3 maxBlocks)
    (hpos : ∀ i j, s.jobInLane i = some j → 0 < s.left i) {i₀ : Fin 16} {j₀ : J}
    (hocc : s.jobInLane i₀ = some j₀) :
    ∃ lanes a, lanes.Nodup ∧ (∀ i, i ∈ lanes ↔ i ∈ s.occupied) ∧ a ∈ s.occupied ∧
      (∀ i ∈ s.occupied, s.left a ≤ s.left i) ∧ s.doJobsLanes = some (lanes, s.lens a) := by
  -- it is enough to know the lanes and that the word is their least
  suffices hsuff : ∃ lanes word, lanes.Nodup ∧ (∀ i, i ∈ lanes ↔ i ∈ s.occupied) ∧
      s.MinWord lanes word ∧ s.doJobsLanes = some (lanes, word) by
    obtain ⟨lanes, word, hnodup, hmem, ⟨⟨a, ha, rfl⟩, hle⟩, heq⟩ := hsuff
    exact ⟨lanes, a, hnodup, hmem, (hmem a).mp ha,
      fun i hi => Nat.div_le_div_right (hle i ((hmem i).mpr hi)), heq⟩
  have hmem₀ : i₀ ∈ s.occupied := mem_occupied.mpr ⟨j₀, hocc⟩
  have hcard : 0 < s.occupied.card := Finset.card_pos.mpr ⟨i₀, hmem₀⟩
  have hne : s.numLanesInuse ≠ 0#32 := fun hz => by
    rw [← h.inuse, hz] at hcard
    exact absurd hcard (by decide)
  unfold doJobsLanes
  rw [if_neg hne]
  split
  · next hthree =>
    have hall : s.occupied = usable 3 := by
      refine Finset.eq_of_subset_of_card_le h.occupied_subset ?_
      rw [card_usable (by decide), ← h.inuse, hthree]
      decide
    refine ⟨[0, 1, 2], _, by decide, fun i => ?_, ?_, rfl⟩
    · rw [hall, usable, Finset.mem_filter]
      revert i
      decide
    · exact ((minWord_singleton 0).concat 1).concat 2
  · next hthree =>
    have hlanes : ∀ i, i ∈ s.laneTable.unfinished 4 ↔ i ∈ s.occupied := fun i =>
      (LaneTable.mem_unfinished_of_pos hpos).trans mem_occupied.symm
    have hnodup : (s.laneTable.unfinished 4).Nodup := LaneTable.nodup_unfinished
    have hlength : (s.laneTable.unfinished 4).length = s.numLanesInuse.toNat := by
      rw [← List.toFinset_card_of_nodup hnodup, h.inuse]
      congr 1
      ext i
      rw [List.mem_toFinset, hlanes]
    obtain ⟨hgather, hmin⟩ := gather_spec hlength.le
    rw [← hgather] at hlanes hnodup hlength hmin
    generalize s.gather (List.finRange 16) [] 0#32 = q at hgather hmin hlanes hnodup hlength
    obtain ⟨lanes, word⟩ := q
    have hin : i₀ ∈ lanes := (hlanes i₀).mpr hmem₀
    have hle := h.card_le (by decide)
    rw [← h.inuse] at hle
    have hmin := hmin.resolve_left (List.ne_nil_of_mem hin)
    rcases lanes with _ | ⟨i₁, _ | ⟨i₂, _ | ⟨i₃, rest⟩⟩⟩
    · exact absurd hin List.not_mem_nil
    · exact ⟨_, _, hnodup, hlanes, hmin, rfl⟩
    · exact ⟨_, _, hnodup, hlanes, hmin, rfl⟩
    · refine absurd (BitVec.eq_of_toNat_eq ?_) hthree
      rw [BitVec.toNat_ofNat]
      simp only [List.length_cons] at hlength
      omega

theorem mem_jobsOf {lanes : List (Fin 16)} {j : J} :
    j ∈ s.jobsOf lanes ↔ ∃ i ∈ lanes, s.jobInLane i = some j :=
  List.mem_filterMap

theorem Lanes.nodup_jobsOf {N : ℕ} (h : s.Lanes N maxBlocks) {lanes : List (Fin 16)}
    (hnodup : lanes.Nodup) : (s.jobsOf lanes).Nodup :=
  hnodup.filterMap fun i i' j hi hi' => h.inj i i' j hi hi'

/-- What `do_jobs` does: the jobs in lanes are taken `n` blocks further. -/
structure Hashed [DecidableEq J] (kern : Kernel J D) (s : Sha256MbJobMgr J D) (jobs : J → Job D)
    (n : ℕ) (r : Sha256MbJobMgr J D × (J → Job D) × Option (BitVec 32)) : Prop where
  table : r.1.jobInLane = s.jobInLane
  unusedLanes : r.1.unusedLanes = s.unusedLanes
  numLanesInuse : r.1.numLanesInuse = s.numLanesInuse
  lens : ∀ i j, s.jobInLane i = some j → (r.1.lens i).toNat + 16 * n = (s.lens i).toNat
  digest : ∀ i j, s.jobInLane i = some j →
    (r.2.1 j).resultDigest = kern j (jobs j).buffer n (jobs j).resultDigest
  buffer : ∀ i j, s.jobInLane i = some j → (r.2.1 j).buffer = (jobs j).buffer.add (64 * n)
  frame : ∀ j, (∀ i, s.jobInLane i ≠ some j) → r.2.1 j = jobs j
  ret : r.2.2 ≠ none

theorem hashLanes_spec [DecidableEq J] (h : s.Lanes 3 maxBlocks) (hmax : maxBlocks < 2 ^ 26)
    (hpos : ∀ i j, s.jobInLane i = some j → 0 < s.left i) {lanes : List (Fin 16)} {a : Fin 16}
    (hnodup : lanes.Nodup) (hlanes : ∀ i, i ∈ lanes ↔ i ∈ s.occupied) (ha : a ∈ s.occupied)
    (hmin : ∀ i ∈ s.occupied, s.left a ≤ s.left i) (kern : Kernel J D) (jobs : J → Job D) :
    Hashed kern s jobs (s.left a) (s.hashLanes kern jobs lanes (s.lens a)) := by
  have hleft : s.left a ≤ maxBlocks := by
    obtain ⟨j, hj⟩ := mem_occupied.mp ha
    exact h.left_le a j hj
  have hlen := toNat_lenPart (s := s) a
  have hblocks : ((s.lens a &&& ~~~15#32) >>> 4).toNat = s.left a := by
    rw [BitVec.toNat_ushiftRight, hlen, Nat.shiftRight_eq_div_pow]
    exact Nat.mul_div_cancel_left _ (by decide)
  have hbytes : ((s.lens a &&& ~~~15#32) <<< 2).toNat = 64 * s.left a := by
    rw [BitVec.toNat_shiftLeft, hlen, Nat.shiftLeft_eq]
    omega
  -- every job is in one of the hashed lanes, and none of them is finished
  have hmem : ∀ j, j ∈ s.jobsOf lanes ↔ ∃ i, s.jobInLane i = some j := fun j => by
    rw [mem_jobsOf]
    exact ⟨fun ⟨i, _, hi⟩ => ⟨i, hi⟩,
      fun ⟨i, hi⟩ => ⟨i, (hlanes i).mpr (mem_occupied.mpr ⟨j, hi⟩), hi⟩⟩
  have hmem' : ∀ j, j ∈ s.jobsOf (s.laneTable.unfinished 4) ↔ j ∈ s.jobsOf lanes := fun j =>
    (LaneTable.mem_jobs_of_mem (t := s.laneTable) fun i => LaneTable.mem_unfinished_of_pos
      hpos).trans
      (hmem j).symm
  have hnodup' : (s.jobsOf (s.laneTable.unfinished 4)).Nodup :=
    h.nodup_jobsOf LaneTable.nodup_unfinished
  have hjob : ∀ j, (s.hashLanes kern jobs lanes (s.lens a)).2.1 j =
      if ∃ i, s.jobInLane i = some j then
        advanceJob (s.lens a &&& ~~~15#32) { jobs j with
          resultDigest := kern j (jobs j).buffer (s.left a) (jobs j).resultDigest }
      else jobs j := fun j => by
    simp only [hashLanes, hblocks]
    refine (foldl_update_twice (fun j (job : Job D) =>
      { job with resultDigest := kern j job.buffer (s.left a) job.resultDigest })
      (fun _ => advanceJob (s.lens a &&& ~~~15#32))
        (h.nodup_jobsOf hnodup) hnodup' hmem' jobs j).trans ?_
    exact if_congr (hmem j) rfl rfl
  constructor
  case table => rfl
  case unusedLanes => rfl
  case numLanesInuse => rfl
  case lens =>
    intro i j hi
    have hnf := (laneIsNotFinished_iff i).mpr ⟨hpos i j hi, j, hi⟩
    have hlens : (s.hashLanes kern jobs lanes (s.lens a)).1.lens i =
        s.lens i - (s.lens a &&& ~~~15#32) := if_pos hnf
    rw [hlens]
    exact LaneTable.toNat_lens_sub (t := s.laneTable) (k := 4) (hmin i (mem_occupied.mpr ⟨j, hi⟩))
  case digest =>
    intro i j hi
    rw [hjob, if_pos ⟨i, hi⟩]
    rfl
  case buffer =>
    intro i j hi
    rw [hjob, if_pos ⟨i, hi⟩, ← hbytes]
    rfl
  case frame =>
    intro j hj
    rw [hjob, if_neg (not_exists.mpr hj)]
  case ret => nofun

theorem Hashed.left [DecidableEq J] {kern : Kernel J D} {jobs : J → Job D} {n : ℕ}
    {r : Sha256MbJobMgr J D × (J → Job D) × Option (BitVec 32)} (hr : Hashed kern s jobs n r)
    {i : Fin 16} {j : J} (hi : s.jobInLane i = some j) : r.1.left i + n = s.left i := by
  have hlens := hr.lens i j hi
  rw [Sha256MbJobMgr.left, Sha256MbJobMgr.left]
  omega

theorem Hashed.lowered [DecidableEq J] {kern : Kernel J D} {jobs : J → Job D} {n : ℕ}
    {r : Sha256MbJobMgr J D × (J → Job D) × Option (BitVec 32)} (hr : Hashed kern s jobs n r) :
    LaneTable.Lowered 4 s.laneTable r.1.laneTable n := ⟨hr.table, fun _ _ hi => hr.left hi⟩

theorem Hashed.lanes [DecidableEq J] {kern : Kernel J D} {jobs : J → Job D} {n : ℕ}
    {r : Sha256MbJobMgr J D × (J → Job D) × Option (BitVec 32)} (hr : Hashed kern s jobs n r)
    {N : ℕ} (h : s.Lanes N maxBlocks) : r.1.Lanes N maxBlocks := by
  refine h.lower hr.table hr.unusedLanes hr.numLanesInuse fun i j hi => ?_
  have hlens := hr.lens i j hi
  have hleft := hr.left hi
  omega

/-! ## `free_lane` -/

/-- `free_lane` hands back a finished job, or finds that there is none. -/
theorem freeLane_spec [DecidableEq J] (h : s.Lanes 3 maxBlocks) (jobs : J → Job D) :
    ((∀ i j, s.jobInLane i = some j → 0 < s.left i) ∧ s.freeLane jobs = (s, jobs, none)) ∨
      ∃ i j, s.jobInLane i = some j ∧ s.left i = 0 ∧ s.freeLane jobs =
        (s.release i, Function.update jobs j { jobs j with status := .completed }, some j) := by
  have hmem : ∀ i : Fin 16, i.val < 3 → i ∈ ([0, 1, 2] : List (Fin 16)) := by decide
  rcases s.laneTable.find_finished (k := 4) fun i j hi => hmem i (h.lt i j hi) with
    ⟨hpos, hfind⟩ | ⟨i, j, hi, hz, hfind⟩
  · have hnone : (([0, 1, 2] : List (Fin 16)).find? fun i => s.LaneIsFinished i) = none := hfind
    exact .inl ⟨hpos, by rw [freeLane, hnone]⟩
  · have hsome : (([0, 1, 2] : List (Fin 16)).find? fun i => s.LaneIsFinished i) = some i := hfind
    have hi' : s.jobInLane i = some j := hi
    refine .inr ⟨i, j, hi, hz, ?_⟩
    rw [freeLane, hsome]
    dsimp only
    rw [hi']

end Sha256MbJobMgr

/-! ## The contract -/

section Contract

open Sha256MbJobMgr

variable {J D : Type*} [DecidableEq J]

/-- The largest number of blocks for which `len << 2` in `do_jobs` is not negative. -/
abbrev maxBlocksCe : ℕ := 2 ^ 25 - 1

/-- Inside a call: the tables agree, the jobs in lanes are `held`, and each is owed the digest of
the blocks left in its lane. -/
structure CeCore (kern : Kernel J D) (s : Sha256MbJobMgr J D) (jobs : J → Job D) (held : Finset J)
    (goal : J → D) : Prop where
  lanes : s.Lanes 3 maxBlocksCe
  held : ∀ j, j ∈ held ↔ ∃ i, s.jobInLane i = some j
  owed : ∀ i j, s.jobInLane i = some j →
    kern j (jobs j).buffer (s.left i) (jobs j).resultDigest = goal j

/-- Between calls a lane is free. -/
structure CeRep (kern : Kernel J D) (s : Sha256MbJobMgr J D) (jobs : J → Job D) (held : Finset J)
    (goal : J → D) : Prop extends CeCore kern s jobs held goal where
  room : ∃ i : Fin 16, i.val < 3 ∧ s.jobInLane i = none

variable {kern : Kernel J D} {s : Sha256MbJobMgr J D} {jobs : J → Job D} {held : Finset J}
  {goal : J → D} {maxBlocks : ℕ}

omit [DecidableEq J] in
theorem CeCore.congr {kern' : Kernel J D} {jobs' : J → Job D} {goal' : J → D}
    (heq : ∀ j ∈ held, kern j = kern' j ∧ jobs j = jobs' j ∧ goal j = goal' j)
    (h : CeCore kern s jobs held goal) : CeCore kern' s jobs' held goal' := by
  refine ⟨h.lanes, h.held, fun i j hi => ?_⟩
  obtain ⟨hkern, hjob, hgoal⟩ := heq j ((h.held j).mpr ⟨i, hi⟩)
  rw [← hkern, ← hjob, ← hgoal]
  exact h.owed i j hi

/-- A finished job is handed back with the digest it is owed. -/
theorem CeCore.release (hkern : kern.Lawful 64) (h : CeCore kern s jobs held goal) {i : Fin 16}
    {j : J} (hi : s.jobInLane i = some j) (hz : s.left i = 0) :
    Returns (CeRep kern) jobs held goal
      (s.release i, Function.update jobs j { jobs j with status := .completed }, some j) := by
  have hj : j ∈ held := (h.held j).mpr ⟨i, hi⟩
  have hdigest : (jobs j).resultDigest = goal j := by
    rw [← h.owed i j hi, hz, hkern.zero]
  refine ⟨fun k hk => Function.update_of_ne (ne_of_mem_of_not_mem hj hk).symm .., hj, ?_, ?_⟩
  · simpa only [Function.update_self] using hdigest
  · refine ⟨⟨h.lanes.release (by decide) hi, fun k => ?_, fun k j' hk => ?_⟩,
      room_release h.lanes hi⟩
    · rw [Finset.mem_erase, h.held, h.lanes.exists_jobInLane_release hi]
    · obtain ⟨hne, hk'⟩ := jobInLane_release.mp hk
      have hne' : j' ≠ j := by
        rintro rfl
        exact hne (h.lanes.inj _ _ _ hk' hi)
      dsimp only
      rw [Function.update_of_ne hne', left_release]
      exact h.owed k j' hk'

/-- Taking every job the same number of blocks further changes nothing about what it is owed. -/
theorem CeCore.hashed (hkern : kern.Lawful 64) (h : CeCore kern s jobs held goal) {n : ℕ}
    {r : Sha256MbJobMgr J D × (J → Job D) × Option (BitVec 32)} (hr : Hashed kern s jobs n r) :
    CeCore kern r.1 r.2.1 held goal := by
  refine ⟨hr.lanes h.lanes, fun j => by rw [h.held, hr.table], fun i j hi => ?_⟩
  rw [hr.table] at hi
  rw [hr.buffer i j hi, hr.digest i j hi, ← hkern.add, Nat.add_comm n, hr.left hi]
  exact h.owed i j hi

/-- What is left of the tables `s` and the jobs when a call ends: a job that was finished before is
handed back; or nothing is, and a lane is free; or all jobs are taken to the end of a shortest one,
and that one is handed back. -/
inductive Outcome (kern : Kernel J D) (s : Sha256MbJobMgr J D) (jobs : J → Job D) :
    Sha256MbJobMgr J D × (J → Job D) × Option J → Prop
  | finished (i : Fin 16) (j : J) : s.jobInLane i = some j → s.left i = 0 →
      Outcome kern s jobs
        (s.release i, Function.update jobs j { jobs j with status := .completed }, some j)
  | waits : (∀ i j, s.jobInLane i = some j → 0 < s.left i) →
      (∃ i : Fin 16, i.val < 3 ∧ s.jobInLane i = none) → Outcome kern s jobs (s, jobs, none)
  | hashed (i : Fin 16) (j : J) (r : Sha256MbJobMgr J D × (J → Job D) × Option (BitVec 32)) :
      (∀ i' j', s.jobInLane i' = some j' → 0 < s.left i' ∧ s.left i ≤ s.left i') →
      Hashed kern s jobs (s.left i) r → s.jobInLane i = some j → Outcome kern s jobs
        (r.1.release i, Function.update r.2.1 j { r.2.1 j with status := .completed }, some j)

theorem Outcome.returns (hkern : kern.Lawful 64) (h : CeCore kern s jobs held goal)
    {r : Sha256MbJobMgr J D × (J → Job D) × Option J} (hr : Outcome kern s jobs r) :
    Returns (CeRep kern) jobs held goal r := by
  cases hr with
  | finished i j hi hz => exact h.release hkern hi hz
  | waits _ hroom => exact ⟨fun _ _ => rfl, h, hroom⟩
  | hashed i j r hmin hr hi =>
    have hcore := h.hashed hkern hr
    have hleft := hr.left hi
    have hi' : r.1.jobInLane i = some j := by rwa [hr.table]
    have hret := hcore.release hkern hi' (by omega)
    refine ⟨fun k hk => ?_, hret.2⟩
    rw [hret.1 k hk]
    exact hr.frame k fun i' hi' => hk ((h.held k).mpr ⟨i', hi'⟩)

/-- `do_jobs` and `free_lane` with no lane finished before. -/
theorem doJobs_freeLane (hmax : maxBlocks < 2 ^ 26) (kern : Kernel J D) (jobs : J → Job D)
    (h : s.Lanes 3 maxBlocks) (hpos : ∀ i j, s.jobInLane i = some j → 0 < s.left i) {i₀ : Fin 16}
    {j₀ : J} (hocc : s.jobInLane i₀ = some j₀) : (s.doJobs kern jobs).2.2 ≠ none ∧
      Outcome kern s jobs ((s.doJobs kern jobs).1.freeLane (s.doJobs kern jobs).2.1) ∧
      ((s.doJobs kern jobs).1.freeLane (s.doJobs kern jobs).2.1).2.2 ≠ none := by
  obtain ⟨lanes, a, hnodup, hlanes, ha, hmin, hsome⟩ := doJobsLanes_eq h hpos hocc
  have heq : s.doJobs kern jobs = s.hashLanes kern jobs lanes (s.lens a) := by
    rw [doJobs_eq_match, hsome]
  have hr := hashLanes_spec h hmax hpos hnodup hlanes ha hmin kern jobs
  rw [← heq] at hr
  generalize s.doJobs kern jobs = r at hr
  refine ⟨hr.ret, ?_⟩
  obtain ⟨ja, hja⟩ := mem_occupied.mp ha
  rcases freeLane_spec (hr.lanes h) r.2.1 with ⟨hall, -⟩ | ⟨i, j, hi, hz, hfree⟩
  · exact absurd hall (hr.lowered.not_pos hja)
  · obtain ⟨hi, heq⟩ := hr.lowered.left_eq hi hz
    have heqa : s.left i = s.left a := heq
    rw [hfree]
    rw [← heqa] at hr
    refine ⟨.hashed i j r (fun i' j' hi' => ⟨hpos i' j' hi', ?_⟩) hr hi, nofun⟩
    exact heqa.le.trans (hmin i' (mem_occupied.mpr ⟨j', hi'⟩))

/-! ### Submit and flush -/

section Tables

omit [DecidableEq J] in
/-- A job takes the lane on top of the free list. -/
theorem insertJob_lanes (hmax : maxBlocks < 2 ^ 26) (h : s.Lanes 3 maxBlocks)
    (hroom : ∃ i : Fin 16, i.val < 3 ∧ s.jobInLane i = none) {j : J}
    (hj : ∀ i, s.jobInLane i ≠ some j) (hlen : (jobs j).len.toNat ≤ maxBlocks) :
    (s.insertJob jobs j).Lanes 3 maxBlocks :=
  h.put (by decide) (Nat.lt_trans hmax (by decide)) hroom hj hlen

omit [DecidableEq J] in
theorem insertJob_left (hmax : maxBlocks < 2 ^ 26) {j : J} (hj : ∀ i, s.jobInLane i ≠ some j)
    (hlen : (jobs j).len.toNat ≤ maxBlocks) {i : Fin 16} {k : J}
    (hi : (s.insertJob jobs j).jobInLane i = some k) :
    k = j ∧ (s.insertJob jobs j).left i = (jobs j).len.toNat ∨
      k ≠ j ∧ s.jobInLane i = some k ∧ (s.insertJob jobs j).left i = s.left i := by
  have hlen28 : (jobs j).len.toNat < 2 ^ 28 :=
    Nat.lt_of_le_of_lt hlen (Nat.lt_trans hmax (by decide))
  rw [Sha256MbJobMgr.insertJob] at hi ⊢
  rcases jobInLane_put.mp hi with ⟨rfl, hk⟩ | ⟨hne, hi'⟩
  · exact .inl ⟨hk.symm, left_put_self hlen28⟩
  · exact .inr ⟨fun he => hj i (he ▸ hi'), hi', left_put_of_ne hne⟩

/-- A submit ends in one of the three ways for the tables with the new job, and its assertions
hold. -/
theorem submitCe_outcome (hmax : maxBlocks < 2 ^ 26) (kern : Kernel J D) (h : s.Lanes 3 maxBlocks)
    (hroom : ∃ i : Fin 16, i.val < 3 ∧ s.jobInLane i = none) {j : J}
    (hj : ∀ i, s.jobInLane i ≠ some j) (hlen : (jobs j).len.toNat ≤ maxBlocks) :
    s.SubmitAsserts kern jobs j ∧
      Outcome kern (s.insertJob jobs j) jobs (s.submitCe kern jobs j) := by
  have hlanes := insertJob_lanes hmax h hroom hj hlen
  obtain ⟨i₀, hi₀, hnone₀⟩ := hroom
  have htop := h.freeTop_free hi₀ hnone₀
  have hin : (s.insertJob jobs j).jobInLane s.freeTop = some j := Function.update_self ..
  unfold SubmitAsserts submitCe
  rcases freeLane_spec hlanes jobs with ⟨hpos, hfree⟩ | ⟨i, k, hi, hz, hfree⟩
  · rw [hfree]
    obtain ⟨hret, hout, -⟩ := doJobs_freeLane hmax kern jobs hlanes hpos hin
    refine ⟨⟨htop.1, fun _ _ => hret⟩, ?_⟩
    dsimp only
    split
    · next hlt => exact .waits hpos ((hlanes.room_iff (by decide)).mp hlt)
    · exact hout
  · rw [hfree]
    exact ⟨⟨htop.1, nofun⟩, .finished i k hi hz⟩

/-- A flush ends in one of the three ways; it waits only with all lanes empty. -/
theorem flushCe_outcome (hmax : maxBlocks < 2 ^ 26) (kern : Kernel J D) (jobs : J → Job D)
    (h : s.Lanes 3 maxBlocks) (hroom : ∃ i : Fin 16, i.val < 3 ∧ s.jobInLane i = none) :
    Outcome kern s jobs (s.flushCe kern jobs) ∧
      ((s.flushCe kern jobs).2.2 = none → s.occupied = ∅) := by
  unfold flushCe
  rcases freeLane_spec h jobs with ⟨hpos, hfree⟩ | ⟨i, k, hi, hz, hfree⟩
  · rw [hfree]
    dsimp only
    rcases s.occupied.eq_empty_or_nonempty with hempty | ⟨i, hi⟩
    · have hzero : s.numLanesInuse = 0#32 := by
        refine BitVec.eq_of_toNat_eq ?_
        rw [h.inuse, hempty, Finset.card_empty, BitVec.toNat_zero]
      have hdo : s.doJobs kern jobs = (s, jobs, none) := by
        rw [doJobs, if_pos hzero]
      rw [hdo, hfree]
      exact ⟨.waits hpos hroom, fun _ => hempty⟩
    · obtain ⟨j, hj⟩ := mem_occupied.mp hi
      obtain ⟨-, hout, hret⟩ := doJobs_freeLane hmax kern jobs h hpos hj
      exact ⟨hout, fun hnone => absurd hnone hret⟩
  · rw [hfree]
    exact ⟨.finished i k hi hz, nofun⟩

/-- What every outcome preserves of the tables. -/
theorem Outcome.lanes (h : s.Lanes 3 maxBlocks)
    {r : Sha256MbJobMgr J D × (J → Job D) × Option J} (hr : Outcome kern s jobs r) :
    r.1.Lanes 3 maxBlocks ∧ ∃ i : Fin 16, i.val < 3 ∧ r.1.jobInLane i = none := by
  cases hr with
  | finished i j hi _ => exact ⟨h.release (by decide) hi, room_release h hi⟩
  | waits _ hroom => exact ⟨h, hroom⟩
  | hashed i j r _ hr hi =>
    have hlanes := hr.lanes h
    rw [← hr.table] at hi
    exact ⟨hlanes.release (by decide) hi, room_release hlanes hi⟩

end Tables

omit [DecidableEq J] in
theorem CeCore.not_mem_lane (h : CeCore kern s jobs held goal) {j : J} (hj : j ∉ held)
    (i : Fin 16) :
    s.jobInLane i ≠ some j :=
  fun hi => hj ((h.held j).mpr ⟨i, hi⟩)

theorem CeRep.insertJob (h : CeRep kern s jobs held goal) {j : J} (hj : j ∉ held)
    (hlen : (jobs j).len.toNat ≤ maxBlocksCe) :
    CeCore kern (s.insertJob jobs j) jobs (insert j held)
      (Function.update goal j ((jobs j).goal kern j)) := by
  have hjlane := h.not_mem_lane hj
  obtain ⟨i₀, hi₀, hnone₀⟩ := h.room
  obtain ⟨_, htop⟩ := h.lanes.freeTop_free hi₀ hnone₀
  refine ⟨insertJob_lanes (by decide) h.lanes h.room hjlane hlen, fun k => ?_, fun i k hi => ?_⟩
  · rw [Finset.mem_insert, h.held]
    exact (exists_jobInLane_put htop).symm
  · rcases insertJob_left (by decide) hjlane hlen hi with ⟨rfl, hleft⟩ | ⟨hk, hi, hleft⟩
    · rw [Function.update_self, hleft, Job.goal]
    · rw [Function.update_of_ne hk, hleft]
      exact h.owed i k hi

/-! ### `init` -/

theorem invalidLanesCe : (List.finRange 16).drop 3 =
    [3, 4, 5, 6, 7, 8, 9, 10, 11, 12, 13, 14, 15] := by decide

omit [DecidableEq J] in
theorem initCe_unusedLanes (s : Sha256MbJobMgr J D) : s.initCe.unusedLanes = 0xF210#64 := by
  rw [initCe, invalidLanesCe]
  simp only [List.foldl_cons, List.foldl_nil]
  decide

omit [DecidableEq J] in
theorem initCe_table (s : Sha256MbJobMgr J D) (i : Fin 16) : s.initCe.jobInLane i = none := by
  rw [initCe, invalidLanesCe]
  simp only [List.foldl_cons, List.foldl_nil]
  fin_cases i <;> simp

omit [DecidableEq J] in
theorem initCe_numLanesInuse (s : Sha256MbJobMgr J D) : s.initCe.numLanesInuse = 0#32 := by
  rw [initCe, invalidLanesCe]
  rfl

omit [DecidableEq J] in
theorem initCe_lanes (s : Sha256MbJobMgr J D) : s.initCe.Lanes 3 maxBlocks where
  free := ⟨[0, 1, 2], by rw [initCe_unusedLanes]; decide, by decide, fun i => by
    simp only [initCe_table, and_true]
    revert i
    decide⟩
  inuse := by
    have hocc : s.initCe.occupied = ∅ := by
      ext i
      simp [initCe_table]
    rw [hocc, initCe_numLanesInuse]
    rfl
  lt i j hi := by simp [initCe_table] at hi
  lane i j hi := by simp [initCe_table] at hi
  left_le i j hi := by simp [initCe_table] at hi
  inj i i' j hi := by simp [initCe_table] at hi

theorem schedulerCe_correct :
    (schedulerCe : Scheduler (Sha256MbJobMgr J D) J D).Correct 64 maxBlocksCe CeRep where
  init kern s jobs goal := by
    refine ⟨⟨initCe_lanes s, fun j => ?_, fun i j hi => ?_⟩, 0, by decide, initCe_table s 0⟩
    · simp [schedulerCe, initCe_table]
    · simp [schedulerCe, initCe_table] at hi
  congr heq h := ⟨h.toCeCore.congr heq, h.room⟩
  submit j hkern h hj _ hlen :=
    (submitCe_outcome (by decide) _ h.lanes h.room (h.not_mem_lane hj) hlen).2.returns hkern
      (h.insertJob hj hlen)
  flush hkern h := by
    obtain ⟨hout, hnone⟩ := flushCe_outcome (by decide) _ _ h.lanes h.room
    refine ⟨hout.returns hkern h.toCeCore, fun hret => ?_⟩
    refine Finset.eq_empty_iff_forall_notMem.mpr fun j hj => ?_
    obtain ⟨i, hi⟩ := (h.held j).mp hj
    exact Finset.notMem_empty i (hnone hret ▸ mem_occupied.mpr ⟨j, hi⟩)

end Contract

end IsalCrypto.Sha256Mb
