import IsalCrypto.Mb.Gather
import IsalCrypto.Md5Mb.MgrSve

/-!
# What the SVE lane scheduler does

`Lanes` says that the stacks, the job table, the counter and the lengths of a manager tell the same
story. `doJobs` takes all jobs the same number of blocks further, which finishes at least one;
`freeLane` hands one back.

* `submitSve_outcome`, `flushSve_outcome`: how a call ends.
-/

namespace IsalCrypto.Md5Mb

open IsalCrypto.Lib IsalCrypto.Mb

namespace Md5MbJobMgr

variable {J D : Type*} {s : Md5MbJobMgr J}

/-- The blocks left to do in lane `i`: `lens[i] >> 8`. -/
def left (s : Md5MbJobMgr J) (i : Fin 32) : ℕ := (s.lens i).toNat / 256

/-- The words and the jobs of the lanes. -/
abbrev laneTable (s : Md5MbJobMgr J) : LaneTable 32 J := ⟨s.lens, s.jobInLane⟩

/-- The lanes with a job. -/
def occupied (s : Md5MbJobMgr J) : Finset (Fin 32) :=
  Finset.univ.filter fun i => (s.jobInLane i).isSome

@[simp]
theorem mem_occupied {i : Fin 32} : i ∈ s.occupied ↔ ∃ j, s.jobInLane i = some j := by
  rw [occupied, Finset.mem_filter, Option.isSome_iff_exists]
  exact and_iff_right (Finset.mem_univ i)

theorem notMem_occupied {i : Fin 32} : i ∉ s.occupied ↔ s.jobInLane i = none := by
  rw [mem_occupied, not_exists, Option.eq_none_iff_forall_ne_some]

/-- The tables of a manager agree. -/
structure Lanes (s : Md5MbJobMgr J) : Prop where
  free : ∀ g, ∃ free : List (Fin 32), (s.unusedLanes g).toNat = byteStack free ∧ free.Nodup ∧
    ∀ i, i ∈ free ↔ group i = g ∧ s.jobInLane i = none
  inuse : s.numLanesInuse.toNat = s.occupied.card
  idle : ∀ i, s.jobInLane i = none → s.left i = 0
  inj : ∀ i i' j, s.jobInLane i = some j → s.jobInLane i' = some j → i = i'

/-! ## Finished and free lanes -/

theorem toNat_lenPart (i : Fin 32) : (s.lens i &&& ~~~255#32).toNat = 256 * s.left i :=
  toNat_and_not_byte (s.lens i)

theorem laneIsFinished_iff (i : Fin 32) :
    s.LaneIsFinished i ↔ s.left i = 0 ∧ ∃ j, s.jobInLane i = some j := s.laneTable.finished_iff 8 i

theorem laneIsNotFinished_iff (i : Fin 32) :
    s.LaneIsNotFinished i ↔ 0 < s.left i ∧ ∃ j, s.jobInLane i = some j :=
  s.laneTable.notFinished_iff 8 i

theorem Lanes.laneIsFree_iff (h : s.Lanes) (i : Fin 32) :
    s.LaneIsFree i ↔ s.jobInLane i = none := by
  have hlen : s.lens i &&& ~~~255#32 = 0#32 ↔ s.left i = 0 := s.laneTable.lenPart_eq_zero_iff 8 i
  rw [LaneIsFree, hlen, Option.isNone_iff_eq_none]
  exact and_iff_right_of_imp (h.idle i)

/-! ## The stacks -/

theorem card_group (g : Fin 4) : (Finset.univ.filter fun i => group i = g).card = 8 := by
  revert g
  decide

/-- The stack of a group has no more than its lanes. -/
theorem length_free_le {g : Fin 4} {free : List (Fin 32)} (hnodup : free.Nodup)
    (hmem : ∀ i ∈ free, group i = g) : free.length ≤ 8 := by
  have hsub : free.toFinset ⊆ Finset.univ.filter fun i => group i = g := fun i hi =>
    Finset.mem_filter.mpr ⟨Finset.mem_univ i, hmem i (List.mem_toFinset.mp hi)⟩
  rw [← List.toFinset_card_of_nodup hnodup, ← card_group g]
  exact Finset.card_le_card hsub

/-- The group that `insert_job` chooses has a free lane, if any group has. -/
theorem Lanes.freeGroup_free (h : s.Lanes) (hroom : ∃ i, s.jobInLane i = none) :
    ∃ i, group i = s.freeGroup ∧ s.jobInLane i = none := by
  obtain ⟨i₀, hnone⟩ := hroom
  unfold freeGroup
  cases hfind : (List.finRange 32).find? fun i => s.LaneIsFree i with
  | none =>
    have hno := List.find?_eq_none.mp hfind i₀ (List.mem_finRange i₀)
    exact absurd (decide_eq_true ((h.laneIsFree_iff i₀).mpr hnone)) hno
  | some i =>
    have hyes := List.find?_some hfind
    exact ⟨i, rfl, (h.laneIsFree_iff i).mp (of_decide_eq_true hyes)⟩

/-- If a lane is without a job, the stack that `insert_job` chooses has a top. -/
theorem Lanes.exists_free (h : s.Lanes) (hroom : ∃ i, s.jobInLane i = none) :
    ∃ free, (s.unusedLanes s.freeGroup).toNat = byteStack (s.freeTop :: free) ∧
      (s.freeTop :: free).Nodup ∧
      ∀ k, k ∈ s.freeTop :: free ↔ group k = s.freeGroup ∧ s.jobInLane k = none := by
  obtain ⟨i, hi⟩ := h.freeGroup_free hroom
  obtain ⟨free, hstack, hnodup, hmem⟩ := h.free s.freeGroup
  cases free with
  | nil => exact absurd ((hmem i).mpr hi) List.not_mem_nil
  | cons top free =>
    have htop : (s.topByte s.freeGroup).toNat = top := toNat_topByte (by decide) hstack
    obtain rfl : s.freeTop = top := by
      refine Fin.ext ?_
      rw [freeTop, htop]
      exact Nat.mod_eq_of_lt top.isLt
    exact ⟨free, hstack, hnodup, hmem⟩

theorem Lanes.insertJobAssert (h : s.Lanes) (hroom : ∃ i, s.jobInLane i = none) :
    s.InsertJobAssert := by
  obtain ⟨free, hstack, -, -⟩ := h.exists_free hroom
  rw [InsertJobAssert, topByte, toNat_topByte (by decide) hstack]
  exact s.freeTop.isLt

/-- The lane that the next job takes is free and in the group that was chosen. -/
theorem Lanes.freeTop_free (h : s.Lanes) (hroom : ∃ i, s.jobInLane i = none) :
    group s.freeTop = s.freeGroup ∧ s.jobInLane s.freeTop = none := by
  obtain ⟨free, _, _, hmem⟩ := h.exists_free hroom
  exact (hmem s.freeTop).mp List.mem_cons_self

/-- The counter tells whether a lane is without a job. -/
theorem Lanes.room_iff (h : s.Lanes) :
    s.numLanesInuse.toNat < 32 ↔ ∃ i, s.jobInLane i = none := by
  rw [h.inuse]
  have hcard := Finset.card_lt_iff_ne_univ s.occupied
  rw [Fintype.card_fin] at hcard
  rw [hcard, ne_eq, Finset.eq_univ_iff_forall, not_forall]
  exact exists_congr fun i => notMem_occupied

/-! ## A job takes a lane -/

section Put

variable {g : Fin 4} {i k : Fin 32} {j j' : J} {len : BitVec 32}

@[simp]
theorem lens_put : (s.put g i j len).lens =
    Function.update s.lens i (len <<< 8 ||| BitVec.ofNat 32 i) := rfl

@[simp]
theorem table_put : (s.put g i j len).jobInLane = Function.update s.jobInLane i (some j) := rfl

@[simp]
theorem unusedLanes_put : (s.put g i j len).unusedLanes =
    Function.update s.unusedLanes g (s.unusedLanes g >>> 8) := rfl

theorem jobInLane_put : (s.put g i j len).jobInLane k = some j' ↔
    k = i ∧ j = j' ∨ k ≠ i ∧ s.jobInLane k = some j' := by
  rw [table_put]
  rcases eq_or_ne k i with rfl | hne
  · simp
  · simp [hne]

theorem jobInLane_put_none :
    (s.put g i j len).jobInLane k = none ↔ k ≠ i ∧ s.jobInLane k = none := by
  rw [table_put]
  rcases eq_or_ne k i with rfl | hne
  · simp
  · simp [hne]

theorem left_put_of_ne (hne : k ≠ i) : (s.put g i j len).left k = s.left k := by
  rw [left, lens_put, Function.update_of_ne hne, left]

/-- The word of a lane has the blocks of its job, if there are less than 2^24. -/
theorem left_put_self (hlen : len.toNat < 2 ^ 24) : (s.put g i j len).left i = len.toNat := by
  have hi := i.isLt
  rw [left, lens_put, Function.update_self, toNat_shiftLeft_or_byte (by omega) (by omega)]
  omega

theorem occupied_put : (s.put g i j len).occupied = insert i s.occupied := by
  ext k
  rw [Finset.mem_insert, mem_occupied, mem_occupied]
  simp only [jobInLane_put]
  rcases eq_or_ne k i with rfl | hne
  · simp
  · simp [hne]

end Put

theorem Lanes.insertJob (h : s.Lanes) (hroom : ∃ i, s.jobInLane i = none) (jobs : J → Md5Job D)
    {j : J} (hj : ∀ i, s.jobInLane i ≠ some j) : (s.insertJob jobs j).Lanes := by
  obtain ⟨free, hstack, hnodup, hmem⟩ := h.exists_free hroom
  obtain ⟨hgroup, htop⟩ := h.freeTop_free hroom
  obtain ⟨hnotin, hnodup⟩ := List.nodup_cons.mp hnodup
  rw [Md5MbJobMgr.insertJob]
  constructor
  case free =>
    intro g
    simp only [jobInLane_put_none]
    rcases eq_or_ne g s.freeGroup with rfl | hg
    · refine ⟨free, ?_, hnodup, fun k => ?_⟩
      · rw [unusedLanes_put, Function.update_self]
        exact toNat_popByte (by decide) hstack
      · have hk := hmem k
        rw [List.mem_cons] at hk
        rcases eq_or_ne k s.freeTop with rfl | hne
        · simp [hnotin]
        · simpa [hne] using hk
    · obtain ⟨free', hstack', hnodup', hmem'⟩ := h.free g
      refine ⟨free', ?_, hnodup', fun k => ?_⟩
      · rw [unusedLanes_put, Function.update_of_ne hg]
        exact hstack'
      · rw [hmem']
        refine and_congr_right fun hk => (and_iff_right fun he => hg ?_).symm
        rw [← hk, he, hgroup]
  case inuse =>
    have hle := Finset.card_le_univ s.occupied
    rw [Fintype.card_fin] at hle
    rw [occupied_put, Finset.card_insert_of_notMem (notMem_occupied.mpr htop), ← h.inuse]
    rw [← h.inuse] at hle
    change (s.numLanesInuse + 1#32).toNat = _
    rw [BitVec.toNat_add, BitVec.toNat_ofNat, Nat.mod_eq_of_lt (by omega)]
  case idle =>
    intro k hk
    obtain ⟨hne, hk⟩ := jobInLane_put_none.mp hk
    rw [left_put_of_ne hne]
    exact h.idle k hk
  case inj =>
    intro k k' j' hk hk'
    rcases jobInLane_put.mp hk with ⟨rfl, rfl⟩ | ⟨hne, hk⟩
    · rcases jobInLane_put.mp hk' with ⟨rfl, -⟩ | ⟨-, hk'⟩
      · rfl
      · exact absurd hk' (hj k')
    · rcases jobInLane_put.mp hk' with ⟨-, rfl⟩ | ⟨-, hk'⟩
      · exact absurd hk (hj k)
      · exact h.inj k k' j' hk hk'

/-! ## A lane is released -/

@[simp]
theorem left_release {i k : Fin 32} : (s.release i).left k = s.left k := rfl

theorem jobInLane_release {i k : Fin 32} {j : J} :
    (s.release i).jobInLane k = some j ↔ k ≠ i ∧ s.jobInLane k = some j := by
  rw [release]
  rcases eq_or_ne k i with rfl | hne
  · simp
  · simp [hne]

theorem jobInLane_release_none {i k : Fin 32} :
    (s.release i).jobInLane k = none ↔ k = i ∨ s.jobInLane k = none := by
  rw [release]
  rcases eq_or_ne k i with rfl | hne
  · simp
  · simp [hne]

theorem occupied_release {i : Fin 32} : (s.release i).occupied = s.occupied.erase i := by
  ext k
  rw [Finset.mem_erase, mem_occupied, mem_occupied]
  simp only [jobInLane_release, exists_and_left]

theorem Lanes.release (h : s.Lanes) {i : Fin 32} {j : J} (hi : s.jobInLane i = some j)
    (hz : s.left i = 0) : (s.release i).Lanes := by
  have hocc : i ∈ s.occupied := mem_occupied.mpr ⟨j, hi⟩
  constructor
  case free =>
    intro g
    obtain ⟨free, hstack, hnodup, hmem⟩ := h.free g
    simp only [jobInLane_release_none]
    rcases eq_or_ne g (group i) with rfl | hg
    · have hnotin : i ∉ free := fun hin => by
        rw [((hmem i).mp hin).2] at hi
        cases hi
      have hnodup' := List.nodup_cons.mpr ⟨hnotin, hnodup⟩
      have hle : (i :: free).length ≤ 8 := length_free_le hnodup' fun k hk => by
        rcases List.mem_cons.mp hk with rfl | hk
        · rfl
        · exact ((hmem k).mp hk).1
      rw [List.length_cons] at hle
      refine ⟨i :: free, ?_, hnodup', fun k => ?_⟩
      · rw [Md5MbJobMgr.release]
        simp only [Function.update_self]
        exact toNat_pushByte (by decide) hstack (by omega) i
      · rw [List.mem_cons, hmem]
        rcases eq_or_ne k i with rfl | hne
        · simp
        · simp [hne]
    · refine ⟨free, ?_, hnodup, fun k => ?_⟩
      · rw [Md5MbJobMgr.release]
        simp only [Function.update_of_ne hg]
        exact hstack
      · rw [hmem]
        refine and_congr_right fun hk => (or_iff_right fun he => hg ?_).symm
        rw [← hk, he]
  case inuse =>
    have hpos : 0 < s.occupied.card := Finset.card_pos.mpr ⟨i, hocc⟩
    rw [occupied_release, Finset.card_erase_of_mem hocc]
    change (s.numLanesInuse - 1#32).toNat = _
    rw [BitVec.toNat_sub_of_le, h.inuse]
    · rfl
    · rw [BitVec.le_def, h.inuse]
      exact hpos
  case idle =>
    intro k hk
    rcases jobInLane_release_none.mp hk with rfl | hk
    · exact hz
    · exact h.idle k hk
  case inj =>
    exact fun k k' j' hk hk' =>
      h.inj k k' j' (jobInLane_release.mp hk).2 (jobInLane_release.mp hk').2

/-! ## `free_lane` -/

/-- `free_lane` hands back a finished job, or finds that there is none. -/
theorem freeLane_spec [DecidableEq J] (s : Md5MbJobMgr J) (jobs : J → Md5Job D) :
    ((∀ i j, s.jobInLane i = some j → 0 < s.left i) ∧ s.freeLane jobs = (s, jobs, none)) ∨
      ∃ i j, s.jobInLane i = some j ∧ s.left i = 0 ∧ s.freeLane jobs =
        (s.release i, Function.update jobs j { jobs j with status := .completed }, some j) := by
  rcases s.laneTable.find_finished (k := 8) fun i _ _ => List.mem_finRange i with
    ⟨hpos, hfind⟩ | ⟨i, j, hi, hz, hfind⟩
  · have hnone : ((List.finRange 32).find? fun i => s.LaneIsFinished i) = none := hfind
    exact .inl ⟨hpos, by rw [freeLane, hnone]⟩
  · have hsome : ((List.finRange 32).find? fun i => s.LaneIsFinished i) = some i := hfind
    have hi' : s.jobInLane i = some j := hi
    refine .inr ⟨i, j, hi, hz, ?_⟩
    rw [freeLane, hsome]
    dsimp only
    rw [hi']

/-! ## Kernels on the jobs of some lanes -/

section Kernels

variable [DecidableEq J] {ker : Md5Kernels D} {compress : BitVec 64 → D → D}

/-- A job after `n` more blocks. -/
def hashed (compress : BitVec 64 → D → D) (n : ℕ) (job : Md5Job D) : Md5Job D :=
  { job with resultDigest := md5Blocks compress job.buffer n job.resultDigest }

theorem hashJobs_eq {kern : BitVec 64 → BitVec 32 → D → D} {blocks : BitVec 32}
    (hkern : ∀ p d, kern p blocks d = md5Blocks compress p blocks.toNat d) (l : List J)
    (jobs : J → Md5Job D) : hashJobs kern blocks l jobs =
      l.foldl (fun jobs j => Function.update jobs j (hashed compress blocks.toNat (jobs j)))
        jobs := by
  unfold hashJobs hashed
  simp only [hkern]

theorem hashAsimd_eq (hker : ker.Lawful compress) {blocks : BitVec 32}
    (hblocks : blocks.msb = false) (l : List J) (jobs : J → Md5Job D) :
    hashAsimd ker blocks l jobs =
      l.foldl (fun jobs j => Function.update jobs j (hashed compress blocks.toNat (jobs j)))
        jobs := by
  fun_induction hashAsimd ker blocks l jobs with
  | case1 j₀ j₁ j₂ j₃ rest jobs ih =>
    rw [ih, hashJobs_eq fun p d => hker.asimdX4 p blocks d hblocks, ← List.foldl_append]
    rfl
  | case2 l jobs _ => exact hashJobs_eq (fun p d => hker.asimdX1 p blocks d hblocks) l jobs

/-- Whichever kernel is chosen, every job of the list gets its blocks. -/
theorem hashLanes_eq (hker : ker.Lawful compress) (maxLanes : ℕ) {blocks : BitVec 32}
    (hblocks : blocks.msb = false) (l : List J) (jobs : J → Md5Job D) :
    hashLanes ker maxLanes l blocks jobs =
      l.foldl (fun jobs j => Function.update jobs j (hashed compress blocks.toNat (jobs j)))
        jobs := by
  unfold hashLanes
  dsimp only
  split
  · exact hashJobs_eq (fun p d => hker.sve p blocks d hblocks) l jobs
  · exact hashAsimd_eq hker hblocks l jobs

end Kernels

/-! ## `do_jobs` -/

section DoJobs

variable [DecidableEq J] {ker : Md5Kernels D} {compress : BitVec 64 → D → D} {jobs : J → Md5Job D}

/-- What `do_jobs` does: the jobs in lanes are taken `n` blocks further. -/
structure Hashed (compress : BitVec 64 → D → D) (s : Md5MbJobMgr J) (jobs : J → Md5Job D) (n : ℕ)
    (r : Md5MbJobMgr J × (J → Md5Job D) × Option (BitVec 32)) : Prop where
  table : r.1.jobInLane = s.jobInLane
  unusedLanes : r.1.unusedLanes = s.unusedLanes
  numLanesInuse : r.1.numLanesInuse = s.numLanesInuse
  left : ∀ i j, s.jobInLane i = some j → r.1.left i + n = s.left i
  idle : ∀ i, s.jobInLane i = none → r.1.left i = s.left i
  digest : ∀ i j, s.jobInLane i = some j →
    (r.2.1 j).resultDigest = md5Blocks compress (jobs j).buffer n (jobs j).resultDigest
  buffer : ∀ i j, s.jobInLane i = some j →
    (r.2.1 j).buffer = (jobs j).buffer + BitVec.ofNat 64 (64 * n)
  frame : ∀ j, (∀ i, s.jobInLane i ≠ some j) → r.2.1 j = jobs j
  ret : r.2.2 ≠ none

omit [DecidableEq J] in
theorem Hashed.lowered {n : ℕ} {r : Md5MbJobMgr J × (J → Md5Job D) × Option (BitVec 32)}
    (hr : Hashed compress s jobs n r) : LaneTable.Lowered 8 s.laneTable r.1.laneTable n :=
  ⟨hr.table, hr.left⟩

omit [DecidableEq J] in
/-- The `int` arithmetic on a least word of less than 2^23 blocks. -/
theorem blocks_of_short {a : Fin 32} (hshort : s.left a < 2 ^ 23) :
    ((s.lens a &&& ~~~255#32).sshiftRight 8).toNat = s.left a ∧
      ((s.lens a &&& ~~~255#32).sshiftRight 8).msb = false ∧
      (((s.lens a &&& ~~~255#32).sshiftRight 8) <<< 6).signExtend 64 =
        BitVec.ofNat 64 (64 * s.left a) := by
  have hlen := toNat_lenPart (s := s) a
  have hmsb : (s.lens a &&& ~~~255#32).msb = false := by
    rw [BitVec.msb_eq_false_iff_two_mul_lt, hlen]
    omega
  have hshift : (s.lens a &&& ~~~255#32).sshiftRight 8 = BitVec.ofNat 32 (s.left a) := by
    refine BitVec.eq_of_toNat_eq ?_
    rw [BitVec.sshiftRight_eq_of_msb_false hmsb, BitVec.toNat_ushiftRight, hlen,
      Nat.shiftRight_eq_div_pow, BitVec.toNat_ofNat]
    omega
  have hnat : (BitVec.ofNat 32 (s.left a)).toNat = s.left a := by
    rw [BitVec.toNat_ofNat]
    omega
  have hbytes : (BitVec.ofNat 32 (s.left a) <<< 6).toNat = 64 * s.left a := by
    rw [BitVec.toNat_shiftLeft, hnat, Nat.shiftLeft_eq]
    omega
  have hbytesMsb : (BitVec.ofNat 32 (s.left a) <<< 6).msb = false := by
    rw [BitVec.msb_eq_false_iff_two_mul_lt, hbytes]
    omega
  rw [hshift]
  refine ⟨hnat, ?_, ?_⟩
  · rw [BitVec.msb_eq_false_iff_two_mul_lt, hnat]
    omega
  · refine BitVec.eq_of_toNat_eq ?_
    rw [BitVec.signExtend_eq_setWidth_of_msb_false hbytesMsb, BitVec.toNat_setWidth, hbytes,
      BitVec.toNat_ofNat]

/-- What is left of `do_jobs` once the least word is found, that of lane `a`. -/
theorem doJobs_eq (jobs : J → Md5Job D) (ker : Md5Kernels D) (maxLanes : ℕ) (h : s.Lanes)
    (hpos : ∀ i j, s.jobInLane i = some j → 0 < s.left i) (hsome : ∃ i j, s.jobInLane i = some j) :
    ∃ a j, s.jobInLane a = some j ∧ (∀ i j, s.jobInLane i = some j → s.left a ≤ s.left i) ∧
      s.doJobs ker maxLanes jobs =
        let len := s.lens a &&& ~~~255#32
        let blocks := len.sshiftRight 8
        let r :=
          s.advance (hashLanes ker maxLanes (s.jobsOf (s.laneTable.unfinished 8)) blocks jobs)
          len blocks
        (r.1, r.2, some (s.lens a &&& 255#32)) := by
  have hcap : (s.laneTable.unfinished 8).length ≤ s.numLanesInuse.toNat :=
    LaneTable.length_unfinished_le.trans h.inuse.ge
  have hne : s.numLanesInuse ≠ 0#32 := fun hz => by
    obtain ⟨i, j, hi⟩ := hsome
    have hcard : 0 < s.occupied.card := Finset.card_pos.mpr ⟨i, mem_occupied.mpr ⟨j, hi⟩⟩
    rw [← h.inuse, hz] at hcard
    exact absurd hcard (by decide)
  obtain ⟨a, j, ha, hmin, hgather, hnil⟩ := LaneTable.gather_shortest hcap hpos hsome
  have hq : gatherLeast s.lens s.LaneIsNotFinished s.numLanesInuse.toNat (List.finRange 32) []
      0#32 = (s.laneTable.unfinished 8, s.lens a) := hgather
  refine ⟨a, j, ha, hmin, ?_⟩
  unfold doJobs
  rw [if_neg hne, hq]
  exact if_neg hnil

/-- With no lane finished and a job of less than 2^23 blocks in some lane, `do_jobs` hashes every
job up to the length of the shortest. -/
theorem doJobs_spec (jobs : J → Md5Job D) (hker : ker.Lawful compress) (maxLanes : ℕ) (h : s.Lanes)
    (hpos : ∀ i j, s.jobInLane i = some j → 0 < s.left i)
    (hshort : ∃ i ∈ s.occupied, s.left i < 2 ^ 23) :
    ∃ a j, s.jobInLane a = some j ∧ (∀ i j, s.jobInLane i = some j → s.left a ≤ s.left i) ∧
      Hashed compress s jobs (s.left a) (s.doJobs ker maxLanes jobs) := by
  obtain ⟨i₀, hi₀, hlt⟩ := hshort
  obtain ⟨j₀, hj₀⟩ := mem_occupied.mp hi₀
  obtain ⟨a, ja, hja, hmin, heq⟩ := doJobs_eq jobs ker maxLanes h hpos ⟨i₀, j₀, hj₀⟩
  obtain ⟨htoNat, hmsb, hbytes⟩ := blocks_of_short ((hmin i₀ j₀ hj₀).trans_lt hlt)
  refine ⟨a, ja, hja, hmin, ?_⟩
  rw [heq]
  dsimp only
  have hnodup : (s.jobsOf (s.laneTable.unfinished 8)).Nodup :=
    LaneTable.nodup_jobs (t := s.laneTable) h.inj LaneTable.nodup_unfinished
  have hmem : ∀ j, j ∈ s.jobsOf (s.laneTable.unfinished 8) ↔ ∃ i, s.jobInLane i = some j := fun j =>
    LaneTable.mem_jobs_of_mem (t := s.laneTable) fun i => LaneTable.mem_unfinished_of_pos hpos
  generalize (s.lens a &&& ~~~255#32).sshiftRight 8 = blocks at htoNat hmsb hbytes
  have hjob :
    ∀ j, (s.advance (hashLanes ker maxLanes (s.jobsOf (s.laneTable.unfinished 8)) blocks jobs)
      (s.lens a &&& ~~~255#32) blocks).2 j =
      if ∃ i, s.jobInLane i = some j then advanceJob blocks (hashed compress (s.left a) (jobs j))
      else jobs j := fun j => by
    rw [hashLanes_eq hker maxLanes hmsb, htoNat]
    refine (foldl_update_twice (fun _ => hashed compress (s.left a))
      (fun _ => advanceJob blocks) hnodup
      hnodup (fun _ => Iff.rfl) jobs j).trans ?_
    exact if_congr (hmem j) rfl rfl
  constructor
  case table => rfl
  case unusedLanes => rfl
  case numLanesInuse => rfl
  case left =>
    intro i j hi
    have hnf := (laneIsNotFinished_iff i).mpr ⟨hpos i j hi, j, hi⟩
    have hlens :
      (s.advance (hashLanes ker maxLanes (s.jobsOf (s.laneTable.unfinished 8)) blocks jobs)
        (s.lens a &&& ~~~255#32) blocks).1.lens i = s.lens i - (s.lens a &&& ~~~255#32) :=
          if_pos hnf
    exact @LaneTable.left_sub _ _ s.laneTable 8 ⟨_, s.jobInLane⟩ _ _ (hmin i j hi) hlens
  case idle =>
    intro i hi
    have hnf : ¬ s.LaneIsNotFinished i := fun hnf => by
      obtain ⟨_, j, hj⟩ := (laneIsNotFinished_iff i).mp hnf
      rw [hi] at hj
      cases hj
    simp only [Md5MbJobMgr.left, advance, if_neg hnf]
  case digest =>
    intro i j hi
    dsimp only
    rw [hjob, if_pos ⟨i, hi⟩]
    rfl
  case buffer =>
    intro i j hi
    dsimp only
    rw [hjob, if_pos ⟨i, hi⟩, ← hbytes]
    rfl
  case frame =>
    intro j hj
    dsimp only
    rw [hjob, if_neg (not_exists.mpr hj)]
  case ret => nofun

omit [DecidableEq J] in
theorem Hashed.lanes {n : ℕ} {r : Md5MbJobMgr J × (J → Md5Job D) × Option (BitVec 32)}
    (hr : Hashed compress s jobs n r) (h : s.Lanes) : r.1.Lanes := by
  have hocc : r.1.occupied = s.occupied := by rw [occupied, occupied, hr.table]
  constructor
  case free => rw [hr.unusedLanes, hr.table]; exact h.free
  case inuse => rw [hr.numLanesInuse, hocc]; exact h.inuse
  case idle =>
    intro i hi
    rw [hr.table] at hi
    rw [hr.idle i hi]
    exact h.idle i hi
  case inj => rw [hr.table]; exact h.inj

end DoJobs

/-! ## How a call ends -/

section Outcome

variable [DecidableEq J] {ker : Md5Kernels D} {compress : BitVec 64 → D → D} {jobs : J → Md5Job D}

/-- What is left of the tables `s` and the jobs when a call ends: a job that was finished before is
handed back; or nothing is, and fewer than `cap` lanes are taken; or all jobs are taken to the end
of a shortest one, and that one is handed back. -/
inductive Outcome (compress : BitVec 64 → D → D) (cap : ℕ) (s : Md5MbJobMgr J)
    (jobs : J → Md5Job D) : Md5MbJobMgr J × (J → Md5Job D) × Option J → Prop
  | finished (i : Fin 32) (j : J) : s.jobInLane i = some j → s.left i = 0 →
      Outcome compress cap s jobs
        (s.release i, Function.update jobs j { jobs j with status := .completed }, some j)
  | waits : (∀ i j, s.jobInLane i = some j → 0 < s.left i) → s.numLanesInuse.toNat < cap →
      Outcome compress cap s jobs (s, jobs, none)
  | hashed (i : Fin 32) (j : J) (r : Md5MbJobMgr J × (J → Md5Job D) × Option (BitVec 32)) :
      (∀ i' j', s.jobInLane i' = some j' → 0 < s.left i' ∧ s.left i ≤ s.left i') →
      Hashed compress s jobs (s.left i) r → s.jobInLane i = some j → Outcome compress cap s jobs
        (r.1.release i, Function.update r.2.1 j { r.2.1 j with status := .completed }, some j)

/-- `do_jobs` and `free_lane` with no lane finished before. -/
theorem doJobs_freeLane (hker : ker.Lawful compress) (maxLanes cap : ℕ) (jobs : J → Md5Job D)
    (h : s.Lanes) (hpos : ∀ i j, s.jobInLane i = some j → 0 < s.left i)
    (hshort : ∃ i ∈ s.occupied, s.left i < 2 ^ 23) :
    (s.doJobs ker maxLanes jobs).2.2 ≠ none ∧
      Outcome compress cap s jobs
        ((s.doJobs ker maxLanes jobs).1.freeLane (s.doJobs ker maxLanes jobs).2.1) ∧
      ((s.doJobs ker maxLanes jobs).1.freeLane (s.doJobs ker maxLanes jobs).2.1).2.2 ≠ none := by
  obtain ⟨a, ja, hja, hmin, hr⟩ := doJobs_spec jobs hker maxLanes h hpos hshort
  generalize s.doJobs ker maxLanes jobs = r at hr
  refine ⟨hr.ret, ?_⟩
  rcases freeLane_spec r.1 r.2.1 with ⟨hall, -⟩ | ⟨i, j, hi, hz, hfree⟩
  · exact absurd hall (hr.lowered.not_pos hja)
  · obtain ⟨hi, heq⟩ := hr.lowered.left_eq hi hz
    have heqa : s.left i = s.left a := heq
    rw [hfree]
    rw [← heqa] at hr
    refine ⟨.hashed i j r (fun i' j' hi' => ⟨hpos i' j' hi', ?_⟩) hr hi, nofun⟩
    exact heqa.le.trans (hmin i' j' hi')

/-- The kernels can take the tables further: some lane has a job of less than 2^23 blocks, or the
kernels do not run, as a lane is finished or fewer than `full` lanes are taken. -/
def Fits (s : Md5MbJobMgr J) (full : ℕ) : Prop :=
  (∃ i, s.LaneIsFinished i) ∨ s.numLanesInuse.toNat < full ∨ ∃ i ∈ s.occupied, s.left i < 2 ^ 23

omit [DecidableEq J] in
theorem Fits.short {full : ℕ} (hfits : s.Fits full)
    (hpos : ∀ i j, s.jobInLane i = some j → 0 < s.left i) (hfull : ¬ s.numLanesInuse.toNat < full) :
    ∃ i ∈ s.occupied, s.left i < 2 ^ 23 := by
  rcases hfits with ⟨i, hfin⟩ | hlt | hshort
  · obtain ⟨hz, j, hi⟩ := (laneIsFinished_iff i).mp hfin
    exact absurd hz (hpos i j hi).ne'
  · exact absurd hlt hfull
  · exact hshort

/-- A submit ends in one of the three ways for the tables with the new job, and its assertions
hold. -/
theorem submitSve_outcome (hker : ker.Lawful compress) (maxLanes : ℕ) (h : s.Lanes)
    (hroom : ∃ i, s.jobInLane i = none) {j : J} (hj : ∀ i, s.jobInLane i ≠ some j)
    (hfits : (s.insertJob jobs j).Fits (min maxLanes 32)) :
    s.SubmitAsserts ker maxLanes jobs j ∧
      Outcome compress (min maxLanes 32) (s.insertJob jobs j) jobs
        (s.submitSve ker maxLanes jobs j) := by
  have hlanes := h.insertJob hroom jobs hj
  have hassert := h.insertJobAssert hroom
  unfold SubmitAsserts submitSve
  rcases freeLane_spec (s.insertJob jobs j) jobs with ⟨hpos, hfree⟩ | ⟨i, k, hi, hz, hfree⟩
  · rw [hfree]
    refine ⟨⟨hassert, fun _ hfull => ?_⟩, ?_⟩
    · exact (doJobs_freeLane hker maxLanes 0 jobs hlanes hpos (hfits.short hpos hfull)).1
    · dsimp only
      split
      · next hlt => exact .waits hpos hlt
      · next hfull =>
        exact (doJobs_freeLane hker maxLanes _ jobs hlanes hpos (hfits.short hpos hfull)).2.1
  · rw [hfree]
    exact ⟨⟨hassert, nofun⟩, .finished i k hi hz⟩

/-- A flush ends in one of the three ways; it waits only with all lanes empty. -/
theorem flushSve_outcome (hker : ker.Lawful compress) (maxLanes : ℕ) (jobs : J → Md5Job D)
    (h : s.Lanes) (hfits : s.Fits 1) :
    Outcome compress 1 s jobs (s.flushSve ker maxLanes jobs) := by
  unfold flushSve
  rcases freeLane_spec s jobs with ⟨hpos, hfree⟩ | ⟨i, k, hi, hz, hfree⟩
  · rw [hfree]
    dsimp only
    by_cases hzero : s.numLanesInuse.toNat < 1
    · have hnum : s.numLanesInuse = 0#32 := BitVec.eq_of_toNat_eq (Nat.lt_one_iff.mp hzero)
      have hdo : s.doJobs ker maxLanes jobs = (s, jobs, none) := if_pos hnum
      rw [hdo, hfree]
      exact .waits hpos hzero
    · exact (doJobs_freeLane hker maxLanes 1 jobs h hpos (hfits.short hpos hzero)).2.1
  · rw [hfree]
    exact .finished i k hi hz

variable {cap : ℕ} {r : Md5MbJobMgr J × (J → Md5Job D) × Option J}

/-- What every outcome preserves of the tables: they agree, and a lane is free. -/
theorem Outcome.lanes (hr : Outcome compress cap s jobs r) (hcap : cap ≤ 32) (h : s.Lanes) :
    r.1.Lanes ∧ ∃ i, r.1.jobInLane i = none := by
  cases hr with
  | finished i j hi hz => exact ⟨h.release hi hz, i, jobInLane_release_none.mpr (.inl rfl)⟩
  | waits _ hlt => exact ⟨h, h.room_iff.mp (hlt.trans_le hcap)⟩
  | hashed i j r _ hr hi =>
    have hleft := hr.left i j hi
    rw [← hr.table] at hi
    exact ⟨(hr.lanes h).release hi (by omega), i, jobInLane_release_none.mpr (.inl rfl)⟩

/-- Every job in a lane is owed the digest of its remaining blocks. -/
def Owed (compress : BitVec 64 → D → D) (goal : J → D) (s : Md5MbJobMgr J) (jobs : J → Md5Job D) :
    Prop :=
  ∀ i j, s.jobInLane i = some j →
    md5Blocks compress (jobs j).buffer (s.left i) (jobs j).resultDigest = goal j

omit [DecidableEq J] in
/-- Taking the jobs further changes nothing about what they are owed. -/
theorem Hashed.owed {goal : J → D} {n : ℕ}
    {r : Md5MbJobMgr J × (J → Md5Job D) × Option (BitVec 32)} (hr : Hashed compress s jobs n r)
    (ho : Owed compress goal s jobs) : Owed compress goal r.1 r.2.1 := by
  intro i j hi
  rw [hr.table] at hi
  rw [hr.buffer i j hi, hr.digest i j hi, ← md5Blocks_add, Nat.add_comm n, hr.left i j hi]
  exact ho i j hi

/-- A finished job is handed back with the digest it is owed, and the others stay owed theirs. -/
theorem Owed.release {goal : J → D} (ho : Owed compress goal s jobs) (h : s.Lanes) {i : Fin 32}
    {j : J} (hi : s.jobInLane i = some j) (hz : s.left i = 0) :
    (jobs j).resultDigest = goal j ∧ Owed compress goal (s.release i)
      (Function.update jobs j { jobs j with status := .completed }) := by
  have hdigest := ho i j hi
  rw [hz, md5Blocks] at hdigest
  refine ⟨hdigest, fun k j' hk => ?_⟩
  obtain ⟨hne, hk'⟩ := jobInLane_release.mp hk
  have hne' : j' ≠ j := by
    rintro rfl
    exact hne (h.inj _ _ _ hk' hi)
  rw [Function.update_of_ne hne', left_release]
  exact ho k j' hk'

/-- However a call ends, the job that it hands back has the digest it is owed. -/
theorem Outcome.owed {goal : J → D} (hr : Outcome compress cap s jobs r) (h : s.Lanes)
    (ho : Owed compress goal s jobs) :
    (∀ j, r.2.2 = some j → (r.2.1 j).resultDigest = goal j) ∧ Owed compress goal r.1 r.2.1 := by
  cases hr with
  | finished i j hi hz =>
    obtain ⟨hdigest, howed⟩ := ho.release h hi hz
    refine ⟨fun k hk => ?_, howed⟩
    obtain rfl := Option.some.inj hk
    simpa only [Function.update_self] using hdigest
  | waits _ _ => exact ⟨nofun, ho⟩
  | hashed i j r _ hr hi =>
    have hleft := hr.left i j hi
    rw [← hr.table] at hi
    obtain ⟨hdigest, howed⟩ := (hr.owed ho).release (hr.lanes h) hi (by omega)
    refine ⟨fun k hk => ?_, howed⟩
    obtain rfl := Option.some.inj hk
    simpa only [Function.update_self] using hdigest

end Outcome

end Md5MbJobMgr

end IsalCrypto.Md5Mb
