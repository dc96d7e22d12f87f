import IsalCrypto.Sm3Mb.MgrSveSpec

/-!
# Runs of the SVE lane scheduler of SM3

* `schedulerSve_correct`: the scheduler meets `Scheduler.Correct`, whatever the vector length.
* `mgrSve_contract`: what holds after every run.
-/

namespace IsalCrypto.Sm3Mb

open IsalCrypto.Lib IsalCrypto.Mb

variable {J D : Type*} {s : Sm3Mgr J D} {maxLanes : ℕ} {kern : Kernel J D} {jobs : J → Job D}
  {held : Finset J} {goal : J → D}

/-! ## What the scheduler owes -/

/-- Inside a call: the tables agree, the jobs in lanes are `held`, and each is owed the digest of
the blocks left in its lane. -/
structure SveCore (maxLanes : ℕ) (kern : Kernel J D) (s : Sm3Mgr J D) (jobs : J → Job D)
    (held : Finset J) (goal : J → D) : Prop where
  counted : s.Counted (sveStack maxLanes)
  left_le : ∀ i j, s.jobInLane i = some j → blocksLeft s i ≤ maxBlocksSve
  held : ∀ j, j ∈ held ↔ s.InLane j
  owed : ∀ i j, s.jobInLane i = some j →
    kern j (jobs j).buffer (blocksLeft s i) (jobs j).resultDigest = goal j

/-- Between calls a lane is free. -/
structure SveRep (maxLanes : ℕ) (kern : Kernel J D) (s : Sm3Mgr J D) (jobs : J → Job D)
    (held : Finset J) (goal : J → D) : Prop extends SveCore maxLanes kern s jobs held goal where
  room : ∃ i ∈ sveLanes maxLanes, s.jobInLane i = none

theorem SveCore.congr {kern' : Kernel J D} {jobs' : J → Job D} {goal' : J → D}
    (heq : ∀ j ∈ held, kern j = kern' j ∧ jobs j = jobs' j ∧ goal j = goal' j)
    (h : SveCore maxLanes kern s jobs held goal) : SveCore maxLanes kern' s jobs' held goal' := by
  refine ⟨h.counted, h.left_le, h.held, fun i j hi => ?_⟩
  obtain ⟨hkern, hjob, hgoal⟩ := heq j ((h.held j).mpr ⟨i, hi⟩)
  rw [← hkern, ← hjob, ← hgoal]
  exact h.owed i j hi

variable [DecidableEq J]

/-- A finished job is handed back with the digest it is owed. -/
theorem SveCore.released (hkern : kern.Lawful 64) (h : SveCore maxLanes kern s jobs held goal)
    {i : Fin 16} {j : J} (hi : s.jobInLane i = some j) (hz : blocksLeft s i = 0) :
    Returns (SveRep maxLanes kern) jobs held goal
      (release s i, Function.update jobs j { jobs j with status := .completed }, some j) := by
  have hj : j ∈ held := (h.held j).mpr ⟨i, hi⟩
  have hdigest : (jobs j).resultDigest = goal j := by
    rw [← h.owed i j hi, hz, hkern.zero]
  have hne : ∀ {k j'}, (release s i).jobInLane k = some j' → j' ≠ j ∧ s.jobInLane k = some j' := by
    intro k j' hk
    obtain ⟨hki, hk⟩ := jobInLane_release.mp hk
    exact ⟨fun he => hki (h.counted.inj _ _ _ (he ▸ hk) hi), hk⟩
  refine ⟨fun k hk => Function.update_of_ne (ne_of_mem_of_not_mem hj hk).symm .., hj, ?_, ?_⟩
  · simpa only [Function.update_self] using hdigest
  · refine ⟨⟨h.counted.release hi rfl rfl rfl, fun k j' hk => h.left_le k j' (hne hk).2,
      fun j' => ?_, fun k j' hk => ?_⟩, i, h.counted.usable i j hi, Function.update_self ..⟩
    · rw [Finset.mem_erase, h.held]
      constructor
      · rintro ⟨hj', k, hk⟩
        refine ⟨k, jobInLane_release.mpr ⟨fun he => hj' ?_, hk⟩⟩
        rw [he, hi] at hk
        exact (Option.some.inj hk).symm
      · rintro ⟨k, hk⟩
        exact ⟨(hne hk).1, k, (hne hk).2⟩
    · dsimp only
      rw [Function.update_of_ne (hne hk).1]
      exact h.owed k j' (hne hk).2

omit [DecidableEq J] in
/-- Taking every job the same number of blocks further changes nothing about what it is owed. -/
theorem SveCore.hashed (hkern : kern.Lawful 64) (h : SveCore maxLanes kern s jobs held goal) {n : ℕ}
    {r : Sm3Mgr J D × (J → Job D) × Option (BitVec 32)} (hr : Hashed kern s jobs n r) :
    SveCore maxLanes kern r.1 r.2.1 held goal := by
  refine ⟨h.counted.congr hr.table hr.unusedLanes hr.numLanesInuse, fun i j hi => ?_, fun j => ?_,
    fun i j hi => ?_⟩
  · rw [hr.table] at hi
    have hleft := hr.left i j hi
    exact (Nat.le_add_right ..).trans (hleft.le.trans (h.left_le i j hi))
  · rw [h.held, LaneMgr.InLane, LaneMgr.InLane, hr.table]
  · rw [hr.table] at hi
    rw [hr.buffer i j hi, hr.digest i j hi, ← hkern.add, Nat.add_comm n, hr.left i j hi]
    exact h.owed i j hi

/-- The tables with a new job, which is owed the digest of all of its blocks. -/
theorem SveRep.inserted (h : SveRep maxLanes kern s jobs held goal) {j : J}
    (hj : j ∉ held) (hlen : (jobs j).len.toNat ≤ maxBlocksSve) :
    SveCore maxLanes kern (insertJob s jobs j) jobs (insert j held)
      (Function.update goal j ((jobs j).goal kern j)) := by
  have hout : ¬ s.InLane j := fun hin => hj ((h.held j).mpr hin)
  have hlt : (jobs j).len.toNat < 2 ^ 28 := hlen.trans_lt (by decide)
  obtain ⟨-, htop⟩ := h.counted.top_free h.room
  have htop : s.jobInLane (topLane s) = none := htop
  refine ⟨counted_insertJob h.counted h.room hout jobs, fun i k hi => ?_, fun k => ?_,
    fun i k hi => ?_⟩
  · rcases jobInLane_insertJob.mp hi with ⟨rfl, -⟩ | ⟨hne, hi⟩
    · rwa [blocksLeft_insertJob_self hlt]
    · rw [blocksLeft_insertJob_of_ne hne]
      exact h.left_le i k hi
  · rw [Finset.mem_insert, h.held]
    constructor
    · rintro (rfl | ⟨i, hi⟩)
      · exact ⟨topLane s, jobInLane_insertJob.mpr (.inl ⟨rfl, rfl⟩)⟩
      · refine ⟨i, jobInLane_insertJob.mpr (.inr ⟨fun he => ?_, hi⟩)⟩
        rw [he, htop] at hi
        cases hi
    · rintro ⟨i, hi⟩
      rcases jobInLane_insertJob.mp hi with ⟨-, rfl⟩ | ⟨-, hi⟩
      · exact .inl rfl
      · exact .inr ⟨i, hi⟩
  · rcases jobInLane_insertJob.mp hi with ⟨rfl, rfl⟩ | ⟨hne, hi⟩
    · rw [blocksLeft_insertJob_self hlt, Function.update_self]
      rfl
    · have hk : k ≠ j := fun he => hout ⟨i, he ▸ hi⟩
      rw [blocksLeft_insertJob_of_ne hne, Function.update_of_ne hk]
      exact h.owed i k hi

/-! ## Calls -/

/-- `do_jobs` and `free_lane` with no lane finished before. -/
theorem doJobs_freeLane (hkern : kern.Lawful 64) (h : SveCore maxLanes kern s jobs held goal)
    (hpos : ∀ i j, s.jobInLane i = some j → 0 < blocksLeft s i) (hsome : ∃ j, s.InLane j) :
    Returns (SveRep maxLanes kern) jobs held goal
        (freeLane (doJobs maxLanes kern s jobs).1 (doJobs maxLanes kern s jobs).2.1) ∧
      (freeLane (doJobs maxLanes kern s jobs).1 (doJobs maxLanes kern s jobs).2.1).2.2 ≠ none := by
  obtain ⟨a, ja, hja, -, hr⟩ := doJobs_spec kern jobs h.counted h.left_le hpos hsome
  generalize doJobs maxLanes kern s jobs = r at hr
  have hcore := h.hashed hkern hr
  rcases freeLane_spec r.1 r.2.1 with ⟨hall, -⟩ | ⟨i, j, hi, hz, hfree⟩
  · exact absurd hall (hr.lowered.not_pos hja)
  · rw [hfree]
    obtain ⟨hframe, hret⟩ := hcore.released hkern hi hz
    refine ⟨⟨fun k hk => ?_, hret⟩, nofun⟩
    rw [hframe k hk]
    exact hr.frame k fun i' hi' => hk ((h.held k).mpr ⟨i', hi'⟩)

theorem submitSve_returns (hkern : kern.Lawful 64)
    (h : SveRep maxLanes kern s jobs held goal) {j : J} (hj : j ∉ held)
    (hlen : (jobs j).len.toNat ≤ maxBlocksSve) :
    Returns (SveRep maxLanes kern) jobs (insert j held)
      (Function.update goal j ((jobs j).goal kern j)) (submitSve maxLanes kern s jobs j) := by
  have hcore := h.inserted hj hlen
  have hfull := hcore.counted.inuse_eq_iff
  have hcard : (sveStack maxLanes).lanes.card = maxjobsSve maxLanes := card_sveLanes
  have hsub := Finset.card_le_card hcore.counted.occupied_subset
  rw [hcard, ← hcore.counted.inuse] at hsub
  rw [hcard] at hfull
  unfold submitSve
  rcases freeLane_spec (insertJob s jobs j) jobs with ⟨hpos, hfree⟩ | ⟨i, k, hi, hz, hfree⟩
  · rw [hfree]
    dsimp only
    split
    · next hwait =>
      refine ⟨fun _ _ => rfl, hcore, ?_⟩
      by_contra hno
      exact hwait.ne (hfull.mpr fun i hi hnone => hno ⟨i, hi, hnone⟩)
    · exact (doJobs_freeLane hkern hcore hpos ⟨j, (hcore.held j).mp (Finset.mem_insert_self ..)⟩).1
  · rw [hfree]
    exact hcore.released hkern hi hz

theorem flushSve_returns (hkern : kern.Lawful 64) (h : SveRep maxLanes kern s jobs held goal) :
    Returns (SveRep maxLanes kern) jobs held goal (flushSve maxLanes kern s jobs) ∧
      ((flushSve maxLanes kern s jobs).2.2 = none → held = ∅) := by
  unfold flushSve
  rcases freeLane_spec s jobs with ⟨hpos, hfree⟩ | ⟨i, k, hi, hz, hfree⟩
  · rw [hfree]
    dsimp only
    rcases held.eq_empty_or_nonempty with hempty | ⟨j, hj⟩
    · have hzero : s.numLanesInuse = 0#32 := by
        refine BitVec.eq_of_toNat_eq (h.counted.inuse_eq_zero_iff.mpr fun j hin => ?_)
        rw [← h.held, hempty] at hin
        exact Finset.notMem_empty j hin
      have hdo : doJobs maxLanes kern s jobs = (s, jobs, none) := if_pos hzero
      rw [hdo, hfree]
      exact ⟨⟨fun _ _ => rfl, h⟩, fun _ => hempty⟩
    · obtain ⟨hret, hne⟩ := doJobs_freeLane hkern h.toSveCore hpos ⟨j, (h.held j).mp hj⟩
      exact ⟨hret, fun hnone => absurd hnone hne⟩
  · rw [hfree]
    exact ⟨h.toSveCore.released hkern hi hz, nofun⟩

/-! ## Runs -/

/-- The loop of `init_sve` leaves lane 0 on top of the others; the sentinel is above them or shifted
out. -/
theorem init_unusedLanes : ∀ n : Fin 17,
    ((List.range n).foldl (fun (unused : BitVec 64) i => unused <<< 4 ||| BitVec.ofNat 64
      (n - 1 - i))
      0xf#64).toNat % 16 ^ n.val = nibbles ((List.finRange 16).take n) := by
  decide

omit [DecidableEq J] in
theorem initSve_counted (s : Sm3Mgr J D) : (initSve s maxLanes).Counted (sveStack maxLanes) where
  free := by
    have hlt : maxjobsSve maxLanes < 17 := Nat.lt_succ_of_le (Nat.min_le_right ..)
    have hlen : ((List.finRange 16).take (maxjobsSve maxLanes)).length = maxjobsSve maxLanes := by
      rw [List.length_take, List.length_finRange]
      exact Nat.min_eq_left (Nat.le_of_lt_succ hlt)
    refine ⟨(List.finRange 16).take (maxjobsSve maxLanes), ?_, (List.nodup_finRange 16).sublist
      (List.take_sublist ..), fun i => ?_⟩
    · change (initSve s maxLanes).unusedLanes.toNat % 16 ^ _ = nibbles _
      rw [hlen]
      exact init_unusedLanes ⟨maxjobsSve maxLanes, hlt⟩
    · refine Iff.trans ?_ (and_iff_left rfl).symm
      change _ ↔ i ∈ sveLanes maxLanes
      rw [mem_sveLanes, List.mem_take_iff_getElem]
      constructor
      · rintro ⟨k, hk, rfl⟩
        rw [List.getElem_finRange]
        exact (Nat.lt_min.mp hk).1
      · intro hi
        exact ⟨i, Nat.lt_min.mpr ⟨hi, by rw [List.length_finRange]; exact i.isLt⟩, by simp⟩
  inuse := by
    have hocc : (initSve s maxLanes).occupied = ∅ := by
      ext i
      simp [initSve]
    rw [hocc]
    rfl
  usable := nofun
  inj := nofun

/-- The scheduler meets its contract for every vector length. -/
theorem schedulerSve_correct (hmax : 0 < maxLanes) :
    (schedulerSve maxLanes : Scheduler (Sm3Mgr J D) J D).Correct 64 maxBlocksSve
      (SveRep maxLanes) where
  init _ s _ _ := by
    have hzero : (0 : Fin 16) ∈ sveLanes maxLanes :=
      mem_sveLanes.mpr (Nat.lt_min.mpr ⟨hmax, by decide⟩)
    refine ⟨⟨initSve_counted s, nofun, fun j => ?_, nofun⟩, 0, hzero, rfl⟩
    exact iff_of_false (Finset.notMem_empty j) nofun
  congr heq h := ⟨h.toSveCore.congr heq, h.room⟩
  submit _ hkern h hj _ hlen := submitSve_returns hkern h hj hlen
  flush hkern h := flushSve_returns hkern h

/-- Job `j` is in a lane. -/
abbrev SveInLane (s : Sm3Mgr J D) (j : J) : Prop := s.InLane j

/-- The tables that the kernels of a call are chosen for: those before it, with the submitted job in
its lane. -/
def entered (kern : Kernel J D) (c : SchedState (Sm3Mgr J D) J D) (a : SchedCall J D) :
    Sm3Mgr J D :=
  match a with
  | .submit j _ _ _ => insertJob c.mgr (c.fill kern a).jobs j
  | .flush => c.mgr

/-- What holds after every run. The low nibbles of `unused_lanes`, as many as `num_lanes_inuse`
leaves of `maxjobs`, are the free lanes below `maxjobs`, each once, and no other lane has a job; the
kernels of the next call are given every job that is not finished once; and each job is handed back
exactly once, with its own blocks compressed. -/
structure SveContract (maxLanes : ℕ) (kern : Kernel J D) (c : SchedState (Sm3Mgr J D) J D) :
    Prop where
  nodup : (lowNibbles c.mgr.unusedLanes (maxjobsSve maxLanes - c.mgr.numLanesInuse.toNat)).Nodup
  mem : ∀ b, b ∈ lowNibbles c.mgr.unusedLanes (maxjobsSve maxLanes - c.mgr.numLanesInuse.toNat) ↔
    ∃ i : Fin 16, (i : ℕ) = b ∧ i.val < maxjobsSve maxLanes ∧ c.mgr.jobInLane i = none
  usable : ∀ i j, c.mgr.jobInLane i = some j → i.val < maxjobsSve maxLanes
  inuse : c.mgr.numLanesInuse.toNat = c.mgr.occupied.card ∧
    c.mgr.occupied.card < maxjobsSve maxLanes
  kernels : ∀ a : SchedCall J D, a.Allowed SveInLane maxBlocksSve c →
    GivesOnce maxLanes (entered kern c a)
  once : c.ExactlyOnce (schedulerSve maxLanes) kern SveInLane

/-- Every run of submits and flushes meets the contract. -/
theorem mgrSve_contract (hkern : kern.Lawful 64) (hmax : 0 < maxLanes) (s : Sm3Mgr J D)
    (jobs : J → Job D) (calls : List (SchedCall J D))
    (hcalls : Guarded (SchedState.step (schedulerSve maxLanes) kern)
      (fun c a => a.Allowed SveInLane maxBlocksSve c)
        (.initial (schedulerSve maxLanes) s jobs) calls) :
    SveContract maxLanes kern (Lib.run (SchedState.step (schedulerSve maxLanes) kern)
      (.initial (schedulerSve maxLanes) s jobs) calls) := by
  have hcorrect : (schedulerSve maxLanes : Scheduler (Sm3Mgr J D) J D).Correct 64 maxBlocksSve
      (SveRep maxLanes) := schedulerSve_correct hmax
  have hin : @HeldInLanes _ J D (SveRep maxLanes) SveInLane := fun _ _ _ _ _ h => h.held
  have hrun := hcorrect.run hin hkern s jobs hcalls
  generalize Lib.run (SchedState.step (schedulerSve maxLanes) kern)
    (.initial (schedulerSve maxLanes) s jobs) calls = c at hrun
  obtain ⟨held, hrep⟩ := hrun.held
  have hcounted := hrep.counted
  obtain ⟨free, hholds, hnodup, hmem, hcount⟩ := hcounted.exists_stack
  have hcard : (sveStack maxLanes).lanes.card = maxjobsSve maxLanes := card_sveLanes
  rw [hcard] at hcount
  have hlen : maxjobsSve maxLanes - c.mgr.numLanesInuse.toNat = free.length := by
    rw [← hcount, Nat.add_sub_cancel_left]
  have hlow : lowNibbles c.mgr.unusedLanes free.length = free.map Fin.val :=
    lowNibbles_nibbles hholds
  constructor
  case nodup =>
    rw [hlen, hlow]
    exact hnodup.map Fin.val_injective
  case mem =>
    intro b
    rw [hlen, hlow, List.mem_map]
    have hfree : ∀ i, i ∈ free ↔ i.val < maxjobsSve maxLanes ∧ c.mgr.jobInLane i = none := fun i =>
      (hmem i).trans (and_congr_left fun _ => mem_sveLanes)
    constructor
    · rintro ⟨i, hi, rfl⟩
      exact ⟨i, rfl, (hfree i).mp hi⟩
    · rintro ⟨i, rfl, hi⟩
      exact ⟨i, (hfree i).mpr hi, rfl⟩
  case usable => exact fun i j hi => mem_sveLanes.mp (hcounted.usable i j hi)
  case inuse =>
    obtain ⟨i, hi, hnone⟩ := hrep.room
    have hpos := List.length_pos_of_mem ((hmem i).mpr ⟨hi, hnone⟩)
    rw [hcounted.inuse] at hcount
    exact ⟨hcounted.inuse, by omega⟩
  case kernels =>
    intro a ha
    cases a with
    | flush => exact doJobs_calls hcounted hrep.left_le
    | submit j buffer len digest =>
      obtain ⟨hj, -, hlen⟩ := ha
      have hjob := @SchedState.fill_jobs _ _ _ _ kern c j buffer len digest
      rw [← hin _ _ _ _ _ hrep] at hj
      have hrep' : SveRep maxLanes kern c.mgr (c.fill kern (.submit j buffer len digest)).jobs held
          fun k => (c.submitted k).goal kern k :=
        ⟨hrep.toSveCore.congr fun k hk =>
          ⟨rfl, (Function.update_of_ne (ne_of_mem_of_not_mem hk hj) ..).symm, rfl⟩, hrep.room⟩
      have hcore := hrep'.inserted hj (by rwa [hjob])
      exact doJobs_calls hcore.counted hcore.left_le
  case once => exact hcorrect.exactlyOnce hin hkern hrun

/-- Seventeen jobs on a machine with sixteen lanes, and a flush: with all lanes taken the vector
kernel is called, the sentinel is gone, and the lane of a job that is handed back is taken again. -/
theorem mgrSve_contract_sixteen_lanes :
    let kern : Kernel ℕ (List Byte) := blockKernel (fun _ _ => 0#8) fun block d => d ++ [block 0]
    let buffer : ℕ → BufferPtr := fun j => .user fun k => BitVec.ofNat 8 (4 * j + k / 64)
    let start : SchedState (Sm3Mgr ℕ (List Byte)) ℕ (List Byte) := .initial (schedulerSve 16)
      ⟨fun _ => [], fun _ => none, fun _ => 0#32, 0#64, fun _ => none, 0#32⟩
      fun _ => ⟨.partialBlock 0, 0#64, [], .unknown⟩
    let calls : List (SchedCall ℕ (List Byte)) :=
      ((List.range 17).map fun j => .submit j (buffer j) (BitVec.ofNat 64 (3 - j % 3)) []) ++
        [.flush]
    (Lib.run (SchedState.step (schedulerSve 16) kern) start calls).ledger.drop 16 =
        [.given 2 [8#8], .taken 16 [64#8, 65#8], .given 5 [20#8], .given 8 [32#8]] ∧
      lowNibbles (Lib.run (SchedState.step (schedulerSve 16) kern) start calls).mgr.unusedLanes 2 =
        [8, 5] ∧
      SveContract 16 kern (Lib.run (SchedState.step (schedulerSve 16) kern) start calls) := by
  intro kern buffer start calls
  refine ⟨by decide +kernel, by decide +kernel, ?_⟩
  exact mgrSve_contract (blockKernel_lawful _ _) (by decide) _ _ calls (by decide +kernel)

end IsalCrypto.Sm3Mb
