import IsalCrypto.Md5Mb.MgrSveRuns

/-!
# The lane allocator of the SVE scheduler of MD5

Which lanes the manager takes depends on the calls and on the vector length, not on what the kernels
do to the jobs.

* `Allocated.step`: a call keeps the tables in order, with fewer lanes taken than the vector length
  admits.
* `mgrSve_allocates`: after every run the low bytes of each `unused_lanes[grp]` are the free lanes
  of the group, and the next job gets one of them.
-/

namespace IsalCrypto.Md5Mb

open IsalCrypto.Lib IsalCrypto.Mb Md5MbJobMgr

variable {J D : Type*}

/-! ## Stacks of bytes -/

/-- The low bytes of a word, the lowest first. -/
def lowBytes (x : BitVec 64) (n : ℕ) : List ℕ := (List.range n).map fun k => x.toNat / 256 ^ k % 256

theorem lowBytes_byteStack {x : BitVec 64} {l : List (Fin 32)} (h : x.toNat = byteStack l) :
    lowBytes x l.length = l.map Fin.val := by
  rw [lowBytes, h]
  clear h
  induction l with
  | nil => rfl
  | cons i l ih =>
    have hi := i.isLt
    have hfirst : byteStack (i :: l) / 256 ^ 0 % 256 = i := by
      rw [byteStack, pow_zero]
      omega
    have hrest : ∀ k, byteStack (i :: l) / 256 ^ (k + 1) % 256 = byteStack l / 256 ^ k % 256 :=
      fun k => by
      rw [byteStack, Nat.pow_succ', ← Nat.div_div_eq_div_mul,
        show (256 * byteStack l + (i : ℕ)) / 256 = byteStack l by omega]
    rw [List.length_cons, List.range_succ_eq_map, List.map_cons, List.map_map, hfirst,
      List.map_cons, ← ih]
    exact congrArg _ (List.map_congr_left fun k _ => hrest k)

/-! ## Tables without the kernels -/

namespace Md5MbJobMgr

section Tables

variable {s : Md5MbJobMgr J}

/-- The lanes of a group that have a job. -/
def occupiedIn (s : Md5MbJobMgr J) (g : Fin 4) : Finset (Fin 32) :=
  s.occupied.filter fun i => group i = g

/-- A stack with the free lanes of a group has as many as are not occupied. -/
theorem length_free {g : Fin 4} {free : List (Fin 32)} (hnodup : free.Nodup)
    (hmem : ∀ i, i ∈ free ↔ group i = g ∧ s.jobInLane i = none) :
    free.length = 8 - (s.occupiedIn g).card := by
  have hunion : free.toFinset ∪ s.occupiedIn g = Finset.univ.filter fun i => group i = g := by
    ext i
    rw [Finset.mem_union, List.mem_toFinset, hmem, occupiedIn, Finset.mem_filter, Finset.mem_filter,
      ← notMem_occupied]
    have hem := Decidable.em (i ∈ s.occupied)
    have huniv := Finset.mem_univ i
    tauto
  have hdisj : Disjoint free.toFinset (s.occupiedIn g) := by
    rw [Finset.disjoint_left]
    intro i hi hocc
    exact notMem_occupied.mpr ((hmem i).mp (List.mem_toFinset.mp hi)).2
      (Finset.mem_filter.mp hocc).1
  have hcard := congrArg Finset.card hunion
  rw [Finset.card_union_of_disjoint hdisj, List.toFinset_card_of_nodup hnodup, card_group] at hcard
  omega

/-- Group `g` has its free lanes, each once, in the low bytes of its stack. -/
structure GroupStack (s : Md5MbJobMgr J) (g : Fin 4) : Prop where
  nodup : (lowBytes (s.unusedLanes g) (8 - (s.occupiedIn g).card)).Nodup
  mem : ∀ b, b ∈ lowBytes (s.unusedLanes g) (8 - (s.occupiedIn g).card) ↔
    ∃ i : Fin 32, (i : ℕ) = b ∧ group i = g ∧ s.jobInLane i = none

theorem Lanes.groupStack (h : s.Lanes) (g : Fin 4) : s.GroupStack g := by
  obtain ⟨free, hstack, hnodup, hmem⟩ := h.free g
  have hlow := lowBytes_byteStack hstack
  rw [length_free hnodup hmem] at hlow
  constructor
  case nodup => rw [hlow]; exact hnodup.map Fin.val_injective
  case mem =>
    intro b
    rw [hlow, List.mem_map]
    constructor
    · rintro ⟨i, hi, rfl⟩
      exact ⟨i, rfl, (hmem i).mp hi⟩
    · rintro ⟨i, rfl, hi⟩
      exact ⟨i, (hmem i).mpr hi, rfl⟩

end Tables

section Kernels

variable [DecidableEq J] {ker ker' : Md5Kernels D} {s : Md5MbJobMgr J} {maxLanes : ℕ}
  {jobs jobs' : J → Md5Job D}

theorem freeLane_fst : (s.freeLane jobs).1 = (s.freeLane jobs').1 := by
  rw [freeLane, freeLane]
  cases (List.finRange 32).find? fun i => s.LaneIsFinished i with
  | none => rfl
  | some i =>
    dsimp only
    cases s.jobInLane i with
    | none => rfl
    | some j => rfl

theorem doJobs_fst : (s.doJobs ker maxLanes jobs).1 = (s.doJobs ker' maxLanes jobs).1 := by
  rw [doJobs, doJobs]
  split
  · rfl
  · dsimp only
    split
    · rfl
    · rfl

theorem submitSve_fst (j : J) :
    (s.submitSve ker maxLanes jobs j).1 = (s.submitSve ker' maxLanes jobs j).1 := by
  rw [submitSve, submitSve]
  dsimp only
  generalize (s.insertJob jobs j).freeLane jobs = r
  cases r.2.2 with
  | some k => rfl
  | none =>
    dsimp only
    split
    · rfl
    · rw [@freeLane_fst _ _ _ _ (r.1.doJobs ker maxLanes r.2.1).2.1
        (r.1.doJobs ker' maxLanes r.2.1).2.1, @doJobs_fst _ _ _ ker ker']

theorem flushSve_fst : (s.flushSve ker maxLanes jobs).1 = (s.flushSve ker' maxLanes jobs).1 := by
  rw [flushSve, flushSve]
  dsimp only
  generalize s.freeLane jobs = r
  cases r.2.2 with
  | some k => rfl
  | none =>
    dsimp only
    rw [@freeLane_fst _ _ _ _ (r.1.doJobs ker maxLanes r.2.1).2.1
      (r.1.doJobs ker' maxLanes r.2.1).2.1, @doJobs_fst _ _ _ ker ker']

end Kernels

/-! ## One call -/

/-- The tables agree, fewer than `cap` lanes are taken, and every job in a lane has at most `2^22`
blocks left. -/
structure Allocated (cap : ℕ) (s : Md5MbJobMgr J) : Prop where
  lanes : s.Lanes
  inuse : s.occupied.card < cap
  short : ∀ i j, s.jobInLane i = some j → s.left i ≤ 2 ^ 22

section Call

variable [DecidableEq J] {ker : Md5Kernels D} {compress : BitVec 64 → D → D} {s : Md5MbJobMgr J}
  {jobs : J → Md5Job D} {cap maxLanes : ℕ} {r : Md5MbJobMgr J × (J → Md5Job D) × Option J}

omit [DecidableEq J] in
theorem card_release {i : Fin 32} {j : J} (hi : s.jobInLane i = some j) :
    (s.release i).occupied.card + 1 = s.occupied.card := by
  rw [occupied_release]
  exact Finset.card_erase_add_one (mem_occupied.mpr ⟨j, hi⟩)

/-- However a call ends, at most as many lanes are taken as when it began, and fewer than `cap`. -/
theorem Outcome.allocated (hr : Outcome compress cap s jobs r) (hcap : cap ≤ maxLanes)
    (hmax : maxLanes ≤ 32) (h : s.Lanes) (hcard : s.occupied.card ≤ maxLanes)
    (hshort : ∀ i j, s.jobInLane i = some j → s.left i ≤ 2 ^ 22) : Allocated maxLanes r.1 := by
  refine ⟨(hr.lanes (hcap.trans hmax) h).1, ?_, ?_⟩
  · cases hr with
    | finished i j hi hz =>
      have herase := card_release hi
      show (s.release i).occupied.card < maxLanes
      omega
    | waits _ hlt =>
      rw [h.inuse] at hlt
      exact hlt.trans_le hcap
    | hashed i j r _ hr hi =>
      have hocc : r.1.occupied = s.occupied := by rw [occupied, occupied, hr.table]
      rw [← hr.table] at hi
      have herase := card_release hi
      rw [hocc] at herase
      show (r.1.release i).occupied.card < maxLanes
      omega
  · intro k j' hk
    cases hr with
    | finished i j hi hz => exact hshort k j' (jobInLane_release.mp hk).2
    | waits _ hlt => exact hshort k j' hk
    | hashed i j r _ hr hi =>
      have hk' := (jobInLane_release.mp hk).2
      rw [hr.table] at hk'
      have hleft := hr.left k j' hk'
      have hbefore := hshort k j' hk'
      rw [left_release]
      omega

omit [DecidableEq J] in
/-- The tables with a new job. -/
theorem Allocated.insertJob (h : Allocated cap s) (hcap : cap ≤ 32) {j : J}
    (hj : ∀ i, s.jobInLane i ≠ some j) (hpos : (jobs j).len.toNat ≤ 2 ^ 22) :
    (s.insertJob jobs j).Lanes ∧ (s.insertJob jobs j).occupied.card ≤ cap ∧
      (∀ i j', (s.insertJob jobs j).jobInLane i = some j' → (s.insertJob jobs j).left i ≤ 2 ^ 22) ∧
      ∃ i ∈ (s.insertJob jobs j).occupied, (s.insertJob jobs j).left i < 2 ^ 23 := by
  have hroom : ∃ i, s.jobInLane i = none := h.lanes.room_iff.mp (by
    have hcard := h.inuse
    rw [h.lanes.inuse]
    omega)
  have hself : (s.insertJob jobs j).left s.freeTop ≤ 2 ^ 22 := by
    rw [Md5MbJobMgr.insertJob, left_put_self (by omega)]
    exact hpos
  refine ⟨h.lanes.insertJob hroom jobs hj, ?_, ?_, s.freeTop, ?_, by omega⟩
  · rw [Md5MbJobMgr.insertJob, occupied_put]
    exact (Finset.card_insert_le _ _).trans h.inuse
  · intro i j' hi
    rcases jobInLane_put.mp hi with ⟨rfl, rfl⟩ | ⟨hne, hi⟩
    · exact hself
    · rw [Md5MbJobMgr.insertJob, left_put_of_ne hne]
      exact h.short i j' hi
  · exact mem_occupied.mpr ⟨j, jobInLane_put.mpr (.inl ⟨rfl, rfl⟩)⟩

end Call

end Md5MbJobMgr

/-! ## Runs -/

section Runs

variable [DecidableEq J] {ker : Md5Kernels D} {c : MbState J D} {maxLanes : ℕ}

/-- A job of 1 to `2^22` blocks may be submitted while it is in no lane. -/
def MbCall.Short (c : MbState J D) : MbCall J D → Prop
  | .submit j _ len _ => (∀ i, c.mgr.jobInLane i ≠ some j) ∧ 0 < len.toNat ∧ len.toNat ≤ 2 ^ 22
  | .flush => True

instance (c : MbState J D) (a : MbCall J D) : Decidable (a.Short c) :=
  match a with
  | .submit j _ _ _ => inferInstanceAs (Decidable ((∀ i, c.mgr.jobInLane i ≠ some j) ∧ _ ∧ _))
  | .flush => .isTrue trivial

theorem Md5MbJobMgr.Allocated.step (ker : Md5Kernels D) (hmax : 0 < maxLanes)
    (hmax' : maxLanes ≤ 32) (hc : Allocated maxLanes c.mgr) {a : MbCall J D} (ha : a.Short c) :
    Allocated maxLanes (c.step ker maxLanes a).mgr := by
  -- the tables do not depend on the kernels, so that these may be taken for lawful ones
  have hker := plainKernels_lawful fun (_ : BitVec 64) (d : D) => d
  have hmin : min maxLanes 32 = maxLanes := Nat.min_eq_left hmax'
  cases a with
  | submit j buffer len digest =>
    obtain ⟨hj, -, hlen⟩ := ha
    let f := c.fill (.submit j buffer len digest)
    have hfill : (f.jobs j).len.toNat ≤ 2 ^ 22 := by
      show (Function.update c.jobs j _ j).len.toNat ≤ 2 ^ 22
      rw [Function.update_self]
      exact hlen
    obtain ⟨hlanes, hcard, hshort, hfits⟩ := hc.insertJob hmax' hj hfill
    have hroom : ∃ i, c.mgr.jobInLane i = none := hc.lanes.room_iff.mp (by
      have hinuse := hc.inuse
      rw [hc.lanes.inuse]
      omega)
    have hout := (submitSve_outcome hker maxLanes hc.lanes hroom hj (.inr (.inr hfits))).2
    rw [hmin] at hout
    have hplain := hout.allocated le_rfl hmax' hlanes hcard hshort
    rw [@submitSve_fst _ _ _ _ ker] at hplain
    exact hplain
  | flush =>
    have hfits : c.mgr.Fits 1 := by
      rcases Finset.eq_empty_or_nonempty c.mgr.occupied with hempty | ⟨i, hi⟩
      · refine .inr (.inl ?_)
        rw [hc.lanes.inuse, hempty]
        decide
      · obtain ⟨j, hj⟩ := mem_occupied.mp hi
        have hshort := hc.short i j hj
        exact .inr (.inr ⟨i, hi, by omega⟩)
    have hout := flushSve_outcome hker maxLanes c.jobs hc.lanes hfits
    have hplain := hout.allocated hmax hmax' hc.lanes hc.inuse.le hc.short
    rw [@flushSve_fst _ _ _ _ ker] at hplain
    exact hplain

/-- What holds of the tables between two calls: every group has its free lanes in its stack, the
next job gets a lane of the group that `insert_job` selects, which is free, and fewer than
`maxLanes` lanes are taken. -/
structure MbState.Allocates (maxLanes : ℕ) (c : MbState J D) : Prop where
  groups : ∀ g, c.mgr.GroupStack g
  selects : ∃ i, group i = c.mgr.freeGroup ∧ c.mgr.jobInLane i = none
  asserts : c.mgr.InsertJobAssert
  pops : group c.mgr.freeTop = c.mgr.freeGroup ∧ c.mgr.jobInLane c.mgr.freeTop = none
  counts : c.mgr.numLanesInuse.toNat = c.mgr.occupied.card
  inuse : c.mgr.occupied.card < maxLanes

omit [DecidableEq J] in
theorem Md5MbJobMgr.Allocated.allocates (hmax' : maxLanes ≤ 32) (hc : Allocated maxLanes c.mgr) :
    c.Allocates maxLanes := by
  have hroom : ∃ i, c.mgr.jobInLane i = none := hc.lanes.room_iff.mp (by
    have hinuse := hc.inuse
    rw [hc.lanes.inuse]
    omega)
  exact ⟨hc.lanes.groupStack, hc.lanes.freeGroup_free hroom, hc.lanes.insertJobAssert hroom,
    hc.lanes.freeTop_free hroom, hc.lanes.inuse, hc.inuse⟩

/-- After every run of calls from `md5_mb_mgr_init_sve`, with any kernels. -/
theorem mgrSve_allocates (ker : Md5Kernels D) (hmax : 0 < maxLanes) (hmax' : maxLanes ≤ 32)
    (jobs : J → Md5Job D) (calls : List (MbCall J D))
    (hcalls : Guarded (MbState.step ker maxLanes) MbCall.Short (.initial jobs) calls) :
    (run (MbState.step ker maxLanes) (.initial jobs) calls).Allocates maxLanes := by
  have hinitial : Allocated maxLanes (MbState.initial (D := D) jobs).mgr := by
    refine ⟨initSve_lanes, ?_, nofun⟩
    show (initSve : Md5MbJobMgr J).occupied.card < maxLanes
    rw [← initSve_lanes.inuse]
    exact hmax
  have hrun : Allocated maxLanes (run (MbState.step ker maxLanes) (.initial jobs) calls).mgr :=
    @run_invariant _ _ _ _ (fun c : MbState J D => Allocated maxLanes c.mgr)
      (fun _ _ hc ha => hc.step ker hmax hmax' ha) _ _ hinitial hcalls
  exact hrun.allocates hmax'

/-- Nine jobs on a machine with eleven lanes and a flush: the first group is full before the second
is used, and the lane of the shortest job is free again. -/
theorem mgrSve_allocates_nine_jobs :
    let compress : BitVec 64 → ℕ → ℕ := fun _ d => d + 1
    let start : MbState ℕ ℕ := .initial fun _ => ⟨0#64, 0#32, 0, .unknown⟩
    let calls : List (MbCall ℕ ℕ) :=
      (List.range 9).map (fun j => .submit j 0x1000#64 (BitVec.ofNat 32 (9 - j)) 0)
      ++ [.flush]
    (run (MbState.step (plainKernels compress) 11) start calls).mgr.freeTop = 8 ∧
      (run (MbState.step (plainKernels compress) 11) start calls).Allocates 11 := by
  intro compress start calls
  refine ⟨by decide +kernel, ?_⟩
  exact mgrSve_allocates (plainKernels compress) (by decide) (by decide) _ calls (by decide +kernel)

end Runs

end IsalCrypto.Md5Mb
