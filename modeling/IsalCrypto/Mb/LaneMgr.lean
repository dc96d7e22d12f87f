import IsalCrypto.Lib.Lanes
import IsalCrypto.Mb.Serving
import Mathlib.Data.Fintype.Fin

/-!
# Lane managers

The job managers of the x86 multi-buffer code: `ISAL_SHA1_MB_JOB_MGR`, `ISAL_MD5_MB_JOB_MGR` and
their siblings differ in the number of lanes, in how the free lanes are kept and in how a length and
a lane number share a word.

`Tables` is what holds between any two calls. It says of every job in a lane how many of its blocks
are done, and that its length, data pointer and digest all stand there.

* `Tables.enter`: a job takes the lane on top of the free lanes.
* `Tables.finish`: one job is handed back, and the others move on by the same number of blocks or
  stay.
-/

namespace IsalCrypto.Mb

open IsalCrypto.Lib

/-- A manager with `n` lanes. The digests of `args` are taken lane by lane; a data pointer comes
with the job whose memory it points into, and is `none` for `NULL`. -/
structure LaneMgr (n : ℕ) (W J D : Type*) where
  digest : Fin n → D
  dataPtr : Fin n → Option (J × BufferPtr)
  lens : Fin n → BitVec 32
  unusedLanes : W
  jobInLane : Fin n → Option J
  numLanesInuse : BitVec 32

/-- How the free lanes are kept: `Holds w l` says that the lanes `l` of `lanes` are free, the next
one to be taken first. -/
structure FreeStack (n : ℕ) (W : Type*) where
  lanes : Finset (Fin n)
  Holds : W → List (Fin n) → Prop
  top : W → Fin n
  pop : W → W
  push : W → Fin n → W
  top_eq : ∀ {w i l}, Holds w (i :: l) → top w = i
  holds_pop : ∀ {w i l}, Holds w (i :: l) → Holds (pop w) l
  holds_push : ∀ {w i l}, Holds w l → (i :: l).Nodup → (∀ k ∈ i :: l, k ∈ lanes) →
    Holds (push w i) (i :: l)

namespace LaneMgr

variable {n : ℕ} {W J D : Type*}

/-! ## Parts of the functions -/

section Parts

variable [DecidableEq J] (kern : Kernel J D)

/-- The status that a submit gives to its job. -/
def startJob (jobs : J → Job D) (j : J) : J → Job D :=
  Function.update jobs j { jobs j with status := .beingProcessed }

/-- A job enters a lane; `unused` are the free lanes without it. The low half of `len` is loaded
into a 64-bit register. -/
def enterLane (s : LaneMgr n W J D) (shift : ℕ) (lane : Fin n) (unused : W) (jobs : J → Job D)
    (j : J) : LaneMgr n W J D :=
  let len := ((jobs j).len.setWidth 32).setWidth 64
  { digest := Function.update s.digest lane (jobs j).resultDigest
    dataPtr := Function.update s.dataPtr lane (some (j, (jobs j).buffer))
    lens := Function.update s.lens lane ((len <<< shift ||| BitVec.ofNat 64 lane).setWidth 32)
    unusedLanes := unused
    jobInLane := Function.update s.jobInLane lane (some j)
    numLanesInuse := s.numLanesInuse + 1#32 }

/-- The digest of lane `i` after `m` blocks at its data pointer. -/
def hashLane (s : LaneMgr n W J D) (m : ℕ) (i : Fin n) : D :=
  match s.dataPtr i with
  | some (j, ptr) => kern j ptr m (s.digest i)
  | none => s.digest i

/-- A kernel on the lanes with `p`: `m` blocks of each, and its data pointer moves behind them. -/
def hashLanes (p : Fin n → Prop) [DecidablePred p] (s : LaneMgr n W J D) (m : ℕ) :
    LaneMgr n W J D :=
  { s with
    digest := fun i => if p i then s.hashLane kern m i else s.digest i
    dataPtr := fun i =>
      if p i then (s.dataPtr i).map fun q => (q.1, q.2.add (64 * m)) else s.dataPtr i }

/-- `len_is_0`: the job in lane `idx` is completed; `unused` are the free lanes with it. -/
def completeLane (s : LaneMgr n W J D) (jobs : J → Job D) (idx : Fin n) (unused : W) :
    LaneMgr n W J D × (J → Job D) × Option J :=
  let s' := { s with
    jobInLane := Function.update s.jobInLane idx none
    unusedLanes := unused
    numLanesInuse := s.numLanesInuse - 1#32 }
  match s.jobInLane idx with
  | none => (s', jobs, none)
  | some j => (s', Function.update jobs j
      { jobs j with status := .completed, resultDigest := s.digest idx }, some j)

/-- The last of the first `m` lanes with a job, or lane 0. -/
def lastJob [NeZero n] (m : ℕ) (s : LaneMgr n W J D) : Fin n :=
  (List.finRange n).foldl (fun idx i => if i.val < m ∧ (s.jobInLane i).isSome then i else idx) 0

/-- `copy_lane_data`: those of the first `m` lanes that are without a job get a data pointer and a
length above all others. -/
def copyLaneData [NeZero n] (m : ℕ) (s : LaneMgr n W J D) : LaneMgr n W J D :=
  { s with
    dataPtr := fun i =>
      if i.val < m ∧ (s.jobInLane i).isNone then s.dataPtr (s.lastJob m) else s.dataPtr i
    lens := fun i => if i.val < m ∧ (s.jobInLane i).isNone then 0xFFFFFFFF#32 else s.lens i }

end Parts

/-- Job `j` is in a lane. -/
def InLane (s : LaneMgr n W J D) (j : J) : Prop := ∃ i, s.jobInLane i = some j

instance [DecidableEq J] (s : LaneMgr n W J D) (j : J) : Decidable (s.InLane j) :=
  inferInstanceAs (Decidable (∃ i, s.jobInLane i = some j))

theorem exists_finset_inLane [DecidableEq J] (s : LaneMgr n W J D) :
    ∃ lanes : Finset J, ∀ j, j ∈ lanes ↔ s.InLane j := by
  refine ⟨Finset.univ.biUnion fun i => (s.jobInLane i).toFinset, fun j => ?_⟩
  simp [InLane]

/-! ## The tables -/

/-- The lanes with a job. -/
def occupied (s : LaneMgr n W J D) : Finset (Fin n) :=
  Finset.univ.filter fun i => (s.jobInLane i).isSome

/-- Of the job that lane `i` has for `j`, submitted as `job`, the first `done` blocks are done: the
digest is that of these blocks, the data pointer stands behind them, and the length counts the
others. -/
structure LaneHas (kern : Kernel J D) (shift : ℕ) (s : LaneMgr n W J D) (i : Fin n) (j : J)
    (job : Job D) (done : ℕ) : Prop where
  le : done ≤ job.len.toNat
  dataPtr : s.dataPtr i = some (j, job.buffer.add (64 * done))
  digest : s.digest i = kern j job.buffer done job.resultDigest
  lens : (s.lens i).toNat = 2 ^ shift * (job.len.toNat - done) + i

/-- The free lanes are those without a job, each once, and the counter counts the others. -/
structure Counted (st : FreeStack n W) (s : LaneMgr n W J D) : Prop where
  free : ∃ free, st.Holds s.unusedLanes free ∧ free.Nodup ∧
    ∀ i, i ∈ free ↔ i ∈ st.lanes ∧ s.jobInLane i = none
  inuse : s.numLanesInuse.toNat = s.occupied.card
  usable : ∀ i j, s.jobInLane i = some j → i ∈ st.lanes
  inj : ∀ i i' j, s.jobInLane i = some j → s.jobInLane i' = some j → i = i'

/-- The manager and the jobs as they were submitted tell the same story. -/
structure Tables (st : FreeStack n W) (kern : Kernel J D) (shift maxBlocks : ℕ)
    (s : LaneMgr n W J D) (submitted : J → Job D) : Prop where
  counted : s.Counted st
  len_le : ∀ i j, s.jobInLane i = some j → (submitted j).len.toNat ≤ maxBlocks
  lane : ∀ i j, s.jobInLane i = some j → ∃ done, s.LaneHas kern shift i j (submitted j) done

variable {s s' : LaneMgr n W J D} {st : FreeStack n W} {kern : Kernel J D}
  {shift maxBlocks : ℕ} {submitted : J → Job D} {i k idx : Fin n} {j j' : J} {job : Job D}

@[simp]
theorem mem_occupied : i ∈ s.occupied ↔ ∃ j, s.jobInLane i = some j := by
  rw [occupied, Finset.mem_filter, Option.isSome_iff_exists]
  exact and_iff_right (Finset.mem_univ i)

theorem notMem_occupied : i ∉ s.occupied ↔ s.jobInLane i = none := by
  rw [mem_occupied, not_exists, Option.eq_none_iff_forall_ne_some]

/-- Only the job table, the free lanes and the counter count. -/
theorem Counted.congr (h : s.Counted st) (htable : s'.jobInLane = s.jobInLane)
    (hunused : s'.unusedLanes = s.unusedLanes) (hinuse : s'.numLanesInuse = s.numLanesInuse) :
    s'.Counted st := by
  constructor
  case free => rw [hunused, htable]; exact h.free
  case inuse => rw [hinuse, occupied, htable]; exact h.inuse
  case usable => rw [htable]; exact h.usable
  case inj => rw [htable]; exact h.inj

/-! ### The counter and the free lanes -/

theorem Counted.occupied_subset (h : s.Counted st) : s.occupied ⊆ st.lanes := fun i hi => by
  obtain ⟨j, hj⟩ := mem_occupied.mp hi
  exact h.usable i j hj

/-- The counter tells whether a usable lane is without a job. -/
theorem Counted.inuse_eq_iff (h : s.Counted st) :
    s.numLanesInuse.toNat = st.lanes.card ↔ ∀ i ∈ st.lanes, s.jobInLane i ≠ none := by
  rw [h.inuse]
  constructor
  · intro hcard i hi
    rw [← Finset.eq_of_subset_of_card_le h.occupied_subset hcard.ge] at hi
    exact fun hnone => notMem_occupied.mpr hnone hi
  · intro hall
    refine congrArg Finset.card (Finset.Subset.antisymm h.occupied_subset fun i hi => ?_)
    by_contra hocc
    exact hall i hi (notMem_occupied.mp hocc)

theorem Counted.inuse_eq_zero_iff (h : s.Counted st) :
    s.numLanesInuse.toNat = 0 ↔ ∀ j, ¬ s.InLane j := by
  rw [h.inuse, Finset.card_eq_zero, Finset.eq_empty_iff_forall_notMem]
  refine ⟨fun hno j ⟨i, hi⟩ => hno i (mem_occupied.mpr ⟨j, hi⟩), fun hno i hi => ?_⟩
  obtain ⟨j, hj⟩ := mem_occupied.mp hi
  exact hno j ⟨i, hj⟩

/-- The counter tells how many lanes are free. -/
theorem Counted.exists_stack (h : s.Counted st) :
    ∃ free, st.Holds s.unusedLanes free ∧ free.Nodup ∧
      (∀ i, i ∈ free ↔ i ∈ st.lanes ∧ s.jobInLane i = none) ∧
      s.numLanesInuse.toNat + free.length = st.lanes.card := by
  obtain ⟨free, hholds, hnodup, hmem⟩ := h.free
  refine ⟨free, hholds, hnodup, hmem, ?_⟩
  have hfree : free.toFinset = st.lanes \ s.occupied := by
    ext i
    rw [List.mem_toFinset, hmem, Finset.mem_sdiff, notMem_occupied]
  rw [h.inuse, ← List.toFinset_card_of_nodup hnodup, hfree, Nat.add_comm]
  exact Finset.card_sdiff_add_card_eq_card h.occupied_subset

/-- If a usable lane is without a job, the one on top is. -/
theorem Counted.exists_free (h : s.Counted st) (hroom : ∃ i ∈ st.lanes, s.jobInLane i = none) :
    ∃ free, st.Holds s.unusedLanes (st.top s.unusedLanes :: free) ∧
      (st.top s.unusedLanes :: free).Nodup ∧
      ∀ k, k ∈ st.top s.unusedLanes :: free ↔ k ∈ st.lanes ∧ s.jobInLane k = none := by
  obtain ⟨i, hi⟩ := hroom
  obtain ⟨free, hholds, hnodup, hmem⟩ := h.free
  cases free with
  | nil => exact absurd ((hmem i).mpr hi) List.not_mem_nil
  | cons top free =>
    obtain rfl : st.top s.unusedLanes = top := st.top_eq hholds
    exact ⟨free, hholds, hnodup, hmem⟩

theorem Counted.top_free (h : s.Counted st) (hroom : ∃ i ∈ st.lanes, s.jobInLane i = none) :
    st.top s.unusedLanes ∈ st.lanes ∧ s.jobInLane (st.top s.unusedLanes) = none := by
  obtain ⟨free, _, _, hmem⟩ := h.exists_free hroom
  exact (hmem _).mp List.mem_cons_self

/-! ### A job takes a lane -/

/-- A length of `maxBlocks` and a lane number fit their word, below the word of an empty lane. -/
structure Fits (n shift maxBlocks : ℕ) : Prop where
  lanes : n ≤ 2 ^ shift
  word : 2 ^ shift * maxBlocks + n < 2 ^ 32

theorem toNat_word (hfit : Fits n shift maxBlocks) {len : BitVec 64} (hlen : len.toNat ≤ maxBlocks)
    (i : Fin n) :
    (((len.setWidth 32).setWidth 64 <<< shift ||| BitVec.ofNat 64 i).setWidth 32).toNat =
      2 ^ shift * len.toNat + i := by
  have hi := i.isLt
  have hword := hfit.word
  have hmul : 2 ^ shift * len.toNat ≤ 2 ^ shift * maxBlocks := Nat.mul_le_mul_left _ hlen
  have hone : len.toNat ≤ 2 ^ shift * len.toNat :=
    Nat.le_mul_of_pos_left _ (Nat.two_pow_pos shift)
  have hlow : ((len.setWidth 32).setWidth 64).toNat = len.toNat := by
    rw [BitVec.toNat_setWidth, BitVec.toNat_setWidth]
    omega
  have h64 : 2 ^ shift * ((len.setWidth 32).setWidth 64).toNat + i < 2 ^ 64 := by
    rw [hlow]
    omega
  rw [BitVec.toNat_setWidth, toNat_shiftLeft_or_lt (Nat.lt_of_lt_of_le hi hfit.lanes) h64, hlow,
    Nat.mod_eq_of_lt (by omega)]

theorem jobInLane_enterLane {unused : W} {jobs : J → Job D} :
    (s.enterLane shift i unused jobs j).jobInLane k = some j' ↔
      k = i ∧ j' = j ∨ k ≠ i ∧ s.jobInLane k = some j' := by
  rw [enterLane]
  rcases eq_or_ne k i with rfl | hne
  · simp [eq_comm]
  · simp [hne]

theorem inLane_enterLane {unused : W} {jobs : J → Job D} (hi : s.jobInLane i = none) :
    (s.enterLane shift i unused jobs j).InLane j' ↔ j' = j ∨ s.InLane j' := by
  unfold InLane
  simp only [jobInLane_enterLane]
  constructor
  · rintro ⟨k, ⟨_, rfl⟩ | ⟨_, hk⟩⟩
    · exact .inl rfl
    · exact .inr ⟨k, hk⟩
  · rintro (rfl | ⟨k, hk⟩)
    · exact ⟨i, .inl ⟨rfl, rfl⟩⟩
    · refine ⟨k, .inr ⟨fun he => ?_, hk⟩⟩
      rw [he, hi] at hk
      cases hk

theorem occupied_enterLane {unused : W} {jobs : J → Job D} :
    (s.enterLane shift i unused jobs j).occupied = insert i s.occupied := by
  ext k
  rw [Finset.mem_insert, mem_occupied, mem_occupied]
  simp only [jobInLane_enterLane]
  rcases eq_or_ne k i with rfl | hne
  · simp
  · simp [hne]

theorem Counted.enter (hn : n < 2 ^ 32) (h : s.Counted st)
    (hroom : ∃ i ∈ st.lanes, s.jobInLane i = none) (hj : ¬ s.InLane j) (jobs : J → Job D) :
    (s.enterLane shift (st.top s.unusedLanes) (st.pop s.unusedLanes) jobs j).Counted st := by
  obtain ⟨free, hholds, hnodup, hmem⟩ := h.exists_free hroom
  obtain ⟨htop, htopnone⟩ := h.top_free hroom
  obtain ⟨hnotin, hnodup⟩ := List.nodup_cons.mp hnodup
  have hocc : st.top s.unusedLanes ∉ s.occupied := notMem_occupied.mpr htopnone
  constructor
  case free =>
    refine ⟨free, st.holds_pop hholds, hnodup, fun k => ?_⟩
    have hk := hmem k
    rw [List.mem_cons] at hk
    change k ∈ free ↔ k ∈ st.lanes ∧ Function.update s.jobInLane (st.top s.unusedLanes) (some j) k =
      none
    rcases eq_or_ne k (st.top s.unusedLanes) with rfl | hne
    · simp [hnotin]
    · rw [Function.update_of_ne hne, ← hk]
      simp [hne]
  case inuse =>
    have hcard : s.occupied.card ≤ n := card_finset_fin_le s.occupied
    have hlt : s.occupied.card < n := by
      have := (Finset.card_lt_iff_ne_univ s.occupied).mpr fun he =>
        hocc (he ▸ Finset.mem_univ _)
      rwa [Fintype.card_fin] at this
    rw [occupied_enterLane, Finset.card_insert_of_notMem hocc]
    change (s.numLanesInuse + 1#32).toNat = _
    rw [BitVec.toNat_add, BitVec.toNat_ofNat, h.inuse, Nat.mod_eq_of_lt (by omega)]
  case usable =>
    intro k j' hk
    rcases jobInLane_enterLane.mp hk with ⟨rfl, _⟩ | ⟨_, hk⟩
    · exact htop
    · exact h.usable k j' hk
  case inj =>
    intro k k' j' hk hk'
    rcases jobInLane_enterLane.mp hk with ⟨rfl, rfl⟩ | ⟨hne, hold⟩
    · rcases jobInLane_enterLane.mp hk' with ⟨rfl, -⟩ | ⟨-, hold'⟩
      · rfl
      · exact absurd ⟨k', hold'⟩ hj
    · rcases jobInLane_enterLane.mp hk' with ⟨-, rfl⟩ | ⟨-, hold'⟩
      · exact absurd ⟨k, hold⟩ hj
      · exact h.inj k k' j' hold hold'

/-- The lane of a new job has nothing done. -/
theorem laneHas_enterLane (hfit : Fits n shift maxBlocks) (hkern : kern.Lawful 64) {unused : W}
    {jobs : J → Job D} (hbuffer : (jobs j).buffer = job.buffer) (hlen : (jobs j).len = job.len)
    (hdigest : (jobs j).resultDigest = job.resultDigest) (hmax : job.len.toNat ≤ maxBlocks) :
    (s.enterLane shift i unused jobs j).LaneHas kern shift i j job 0 := by
  refine ⟨Nat.zero_le _, ?_, ?_, ?_⟩
  · refine (Function.update_self ..).trans ?_
    rw [hbuffer, Nat.mul_zero, BufferPtr.add_zero]
  · refine (Function.update_self ..).trans ?_
    rw [hdigest, hkern.zero]
  · have hlens : (s.enterLane shift i unused jobs j).lens i =
        (((jobs j).len.setWidth 32).setWidth 64 <<< shift ||| BitVec.ofNat 64 i).setWidth 32 :=
      Function.update_self ..
    rw [hlens, hlen, toNat_word hfit hmax, Nat.sub_zero]

theorem LaneHas.enterLane_of_ne {done : ℕ} (h : s.LaneHas kern shift k j' job done) (hne : k ≠ i)
    {unused : W} {jobs : J → Job D} :
    (s.enterLane shift i unused jobs j).LaneHas kern shift k j' job done := by
  refine ⟨h.le, ?_, ?_, ?_⟩
  · exact (Function.update_of_ne hne ..).trans h.dataPtr
  · exact (Function.update_of_ne hne ..).trans h.digest
  · have hlens : (s.enterLane shift i unused jobs j).lens k = s.lens k :=
      Function.update_of_ne hne ..
    rw [hlens, h.lens]

/-- A job takes the lane on top of the free lanes. -/
theorem Tables.enter [DecidableEq J] (hfit : Fits n shift maxBlocks) (hkern : kern.Lawful 64)
    (h : s.Tables st kern shift maxBlocks submitted)
    (hroom : ∃ i ∈ st.lanes, s.jobInLane i = none) (hj : ¬ s.InLane j) {jobs : J → Job D}
    (hbuffer : (jobs j).buffer = job.buffer) (hlen : (jobs j).len = job.len)
    (hdigest : (jobs j).resultDigest = job.resultDigest) (hmax : job.len.toNat ≤ maxBlocks) :
    (s.enterLane shift (st.top s.unusedLanes) (st.pop s.unusedLanes) jobs j).Tables st kern shift
      maxBlocks (Function.update submitted j job) := by
  have hword := hfit.word
  refine ⟨h.counted.enter (by omega) hroom hj jobs, fun k j' hk => ?_, fun k j' hk => ?_⟩
  · rcases jobInLane_enterLane.mp hk with ⟨rfl, rfl⟩ | ⟨_, hold⟩
    · rwa [Function.update_self]
    · have hne : j' ≠ j := fun he => hj ⟨k, he ▸ hold⟩
      rw [Function.update_of_ne hne]
      exact h.len_le k j' hold
  · rcases jobInLane_enterLane.mp hk with ⟨rfl, rfl⟩ | ⟨hlane, hold⟩
    · rw [Function.update_self]
      exact ⟨0, laneHas_enterLane hfit hkern hbuffer hlen hdigest hmax⟩
    · have hne : j' ≠ j := fun he => hj ⟨k, he ▸ hold⟩
      rw [Function.update_of_ne hne]
      obtain ⟨done, hhas⟩ := h.lane k j' hold
      exact ⟨done, hhas.enterLane_of_ne hlane⟩

/-! ### The lanes move on -/

/-- The blocks left of lane `i`. -/
def left (s : LaneMgr n W J D) (shift : ℕ) (i : Fin n) : ℕ := (s.lens i).toNat / 2 ^ shift

/-- In lane `i` with the job `j`, `m` more blocks are done. -/
structure Moved (kern : Kernel J D) (shift : ℕ) (s s' : LaneMgr n W J D) (i : Fin n) (j : J)
    (m : ℕ) : Prop where
  dataPtr : ∀ ptr, s.dataPtr i = some (j, ptr) → s'.dataPtr i = some (j, ptr.add (64 * m))
  digest : ∀ ptr, s.dataPtr i = some (j, ptr) → s'.digest i = kern j ptr m (s.digest i)
  lens : (s'.lens i).toNat + 2 ^ shift * m = (s.lens i).toNat

theorem Moved.of_eq (hkern : kern.Lawful 64) (hptr : s'.dataPtr i = s.dataPtr i)
    (hdigest : s'.digest i = s.digest i) (hlens : s'.lens i = s.lens i) :
    Moved kern shift s s' i j 0 := by
  refine ⟨fun ptr hp => ?_, fun ptr _ => ?_, ?_⟩
  · rw [hptr, hp, Nat.mul_zero, BufferPtr.add_zero]
  · rw [hdigest, hkern.zero]
  · rw [hlens, Nat.mul_zero, Nat.add_zero]

theorem LaneHas.left_eq {done : ℕ} (hn : n ≤ 2 ^ shift) (h : s.LaneHas kern shift i j job done) :
    s.left shift i = job.len.toNat - done := by
  have hi := Nat.lt_of_lt_of_le i.isLt hn
  rw [left, h.lens, Nat.mul_add_div (Nat.two_pow_pos shift), Nat.div_eq_of_lt hi, Nat.add_zero]

theorem LaneHas.lane_eq {done : ℕ} (hn : n ≤ 2 ^ shift) (h : s.LaneHas kern shift i j job done) :
    (s.lens i).toNat % 2 ^ shift = i := by
  rw [h.lens, Nat.mul_add_mod, Nat.mod_eq_of_lt (Nat.lt_of_lt_of_le i.isLt hn)]

theorem LaneHas.moved {done m : ℕ} (hn : n ≤ 2 ^ shift) (hkern : kern.Lawful 64)
    (h : s.LaneHas kern shift i j job done) (hm : Moved kern shift s s' i j m) :
    s'.LaneHas kern shift i j job (done + m) := by
  have hlens := hm.lens
  rw [h.lens] at hlens
  have hi := Nat.lt_of_lt_of_le i.isLt hn
  have hle : m ≤ job.len.toNat - done := by
    have hmul : 2 ^ shift * m < 2 ^ shift * (job.len.toNat - done + 1) := by
      rw [Nat.mul_succ]
      omega
    exact Nat.le_of_lt_succ (Nat.lt_of_mul_lt_mul_left hmul)
  have hadd := h.le
  refine ⟨by omega, ?_, ?_, ?_⟩
  · rw [hm.dataPtr _ h.dataPtr, BufferPtr.add_add, Nat.mul_add]
  · rw [hm.digest _ h.dataPtr, h.digest, ← hkern.add]
  · have hsub : job.len.toNat - done = job.len.toNat - (done + m) + m := by omega
    rw [hsub, Nat.mul_add] at hlens
    omega

/-! ### A job is handed back -/

theorem occupied_release (htable : s'.jobInLane = Function.update s.jobInLane idx none) :
    s'.occupied = s.occupied.erase idx := by
  ext k
  rw [Finset.mem_erase, mem_occupied, mem_occupied, htable]
  rcases eq_or_ne k idx with rfl | hne
  · simp
  · simp [hne]

theorem jobInLane_release (htable : s'.jobInLane = Function.update s.jobInLane idx none) :
    s'.jobInLane k = some j ↔ k ≠ idx ∧ s.jobInLane k = some j := by
  rw [htable]
  rcases eq_or_ne k idx with rfl | hne
  · simp
  · simp [hne]

theorem Counted.release (h : s.Counted st) (hidx : s.jobInLane idx = some j)
    (htable : s'.jobInLane = Function.update s.jobInLane idx none)
    (hunused : s'.unusedLanes = st.push s.unusedLanes idx)
    (hinuse : s'.numLanesInuse = s.numLanesInuse - 1#32) : s'.Counted st := by
  obtain ⟨free, hholds, hnodup, hmem⟩ := h.free
  have hocc : idx ∈ s.occupied := mem_occupied.mpr ⟨j, hidx⟩
  have husable := h.usable idx j hidx
  have hnotin : idx ∉ free := fun hin => by
    rw [((hmem idx).mp hin).2] at hidx
    cases hidx
  have hnodup' : (idx :: free).Nodup := List.nodup_cons.mpr ⟨hnotin, hnodup⟩
  constructor
  case free =>
    refine ⟨idx :: free, ?_, hnodup', fun k => ?_⟩
    · rw [hunused]
      refine st.holds_push hholds hnodup' fun k hk => ?_
      rcases List.mem_cons.mp hk with rfl | hk
      · exact husable
      · exact ((hmem k).mp hk).1
    · rw [List.mem_cons, hmem, htable]
      rcases eq_or_ne k idx with rfl | hne
      · simpa using husable
      · simp [hne]
  case inuse =>
    have hpos : 0 < s.occupied.card := Finset.card_pos.mpr ⟨idx, hocc⟩
    rw [occupied_release htable, Finset.card_erase_of_mem hocc, hinuse, BitVec.toNat_sub_of_le,
      h.inuse]
    · rfl
    · rw [BitVec.le_def, h.inuse]
      exact hpos
  case usable => exact fun k j' hk => h.usable k j' ((jobInLane_release htable).mp hk).2
  case inj =>
    exact fun k k' j' hk hk' => h.inj k k' j' ((jobInLane_release htable).mp hk).2
      ((jobInLane_release htable).mp hk').2

/-- Between calls a lane is free. -/
structure Ready (st : FreeStack n W) (kern : Kernel J D) (shift maxBlocks : ℕ)
    (s : LaneMgr n W J D) (submitted : J → Job D) : Prop
    extends Tables st kern shift maxBlocks s submitted where
  room : ∃ i ∈ st.lanes, s.jobInLane i = none

/-- What the kernel does for other jobs does not count. -/
theorem Ready.kernel_congr {kern' : Kernel J D} (heq : ∀ j, s.InLane j → kern j = kern' j)
    (h : s.Ready st kern shift maxBlocks submitted) :
    s.Ready st kern' shift maxBlocks submitted := by
  refine ⟨⟨h.counted, h.len_le, fun i j hi => ?_⟩, h.room⟩
  obtain ⟨done, hlane⟩ := h.lane i j hi
  exact ⟨done, hlane.le, hlane.dataPtr, heq j ⟨i, hi⟩ ▸ hlane.digest, hlane.lens⟩

/-- A submit puts its job into the lane on top. -/
theorem Ready.enter [DecidableEq J] (hfit : Fits n shift maxBlocks) (hkern : kern.Lawful 64)
    (h : s.Ready st kern shift maxBlocks submitted) (hj : ¬ s.InLane j) {jobs : J → Job D}
    (hmax : (jobs j).len.toNat ≤ maxBlocks) :
    (s.enterLane shift (st.top s.unusedLanes) (st.pop s.unusedLanes) (startJob jobs j) j).Tables st
        kern shift maxBlocks (Function.update submitted j (jobs j)) ∧
      ∀ k, (s.enterLane shift (st.top s.unusedLanes) (st.pop s.unusedLanes)
        (startJob jobs j) j).InLane k ↔ k = j ∨ s.InLane k := by
  have hjob : startJob jobs j j = { jobs j with status := .beingProcessed } :=
    Function.update_self ..
  have hbuffer : (startJob jobs j j).buffer = (jobs j).buffer := by rw [hjob]
  have hlen : (startJob jobs j j).len = (jobs j).len := by rw [hjob]
  have hdigest : (startJob jobs j j).resultDigest = (jobs j).resultDigest := by rw [hjob]
  exact ⟨h.toTables.enter hfit hkern h.room hj hbuffer hlen hdigest hmax,
    fun k => inLane_enterLane (h.counted.top_free h.room).2⟩

/-- One job is handed back with the digest of the rest of its blocks, and every other job in a lane
moves on. -/
theorem Tables.finish (hn : n ≤ 2 ^ shift) (hkern : kern.Lawful 64)
    (h : s.Tables st kern shift maxBlocks submitted) (hidx : s.jobInLane idx = some j)
    (htable : s'.jobInLane = Function.update s.jobInLane idx none)
    (hunused : s'.unusedLanes = st.push s.unusedLanes idx)
    (hinuse : s'.numLanesInuse = s.numLanesInuse - 1#32)
    (hmoved : ∀ i k, i ≠ idx → s.jobInLane i = some k → ∃ m, Moved kern shift s s' i k m)
    {jobs' : J → Job D} (hdigest : ∀ ptr, s.dataPtr idx = some (j, ptr) →
      (jobs' j).resultDigest = kern j ptr (s.left shift idx) (s.digest idx)) :
    Answers kern InLane (Ready st kern shift maxBlocks) submitted s.InLane
      (s', jobs', some j) := by
  have hrel : ∀ {i k}, s'.jobInLane i = some k ↔ i ≠ idx ∧ s.jobInLane i = some k :=
    jobInLane_release htable
  have hroom : s'.jobInLane idx = none := by rw [htable, Function.update_self]
  refine ⟨⟨⟨h.counted.release hidx htable hunused hinuse, fun i k hk => ?_, fun i k hk => ?_⟩,
    idx, h.counted.usable idx j hidx, hroom⟩, ⟨idx, hidx⟩, ?_, fun k => ?_⟩
  · exact h.len_le i k (hrel.mp hk).2
  · obtain ⟨hne, hk⟩ := hrel.mp hk
    obtain ⟨done, hlane⟩ := h.lane i k hk
    obtain ⟨m, hm⟩ := hmoved i k hne hk
    exact ⟨done + m, hlane.moved hn hkern hm⟩
  · obtain ⟨done, hlane⟩ := h.lane idx j hidx
    have hsum : done + (submitted j).len.toNat - done = (submitted j).len.toNat :=
      Nat.add_sub_cancel_left ..
    have hle := hlane.le
    refine (hdigest _ hlane.dataPtr).trans ?_
    rw [hlane.digest, hlane.left_eq hn, ← hkern.add, Job.goal, Nat.add_sub_cancel' hle]
  · constructor
    · rintro ⟨i, hi⟩
      obtain ⟨hne, hi⟩ := hrel.mp hi
      exact ⟨fun he => hne (h.counted.inj i idx j (he ▸ hi) hidx), i, hi⟩
    · rintro ⟨hne, i, hi⟩
      refine ⟨i, hrel.mpr ⟨fun he => hne ?_, hi⟩⟩
      rw [he, hidx] at hi
      exact (Option.some.inj hi).symm

/-- `len_is_0`, reached with the tables `s'` from `s`: the job in lane `idx` is done, and the others
have moved on. -/
theorem Tables.completeLane [DecidableEq J] (hn : n ≤ 2 ^ shift) (hkern : kern.Lawful 64)
    (h : s.Tables st kern shift maxBlocks submitted) (hidx : s.jobInLane idx = some j)
    (htable : s'.jobInLane = s.jobInLane) (hinuse : s'.numLanesInuse = s.numLanesInuse)
    (hmoved : ∀ i k, i ≠ idx → s.jobInLane i = some k → ∃ m, Moved kern shift s s' i k m)
    (hdigest : ∀ ptr, s.dataPtr idx = some (j, ptr) →
      s'.digest idx = kern j ptr (s.left shift idx) (s.digest idx)) (jobs : J → Job D) :
    Answers kern InLane (Ready st kern shift maxBlocks) submitted s.InLane
        (s'.completeLane jobs idx (st.push s.unusedLanes idx)) ∧
      (s'.completeLane jobs idx (st.push s.unusedLanes idx)).2.2 ≠ none := by
  have hidx' : s'.jobInLane idx = some j := by rw [htable, hidx]
  rw [LaneMgr.completeLane]
  dsimp only
  rw [hidx', hinuse, htable]
  dsimp only
  refine ⟨h.finish hn hkern hidx rfl rfl rfl (fun i k hne hk => ?_) fun ptr hptr => ?_, nofun⟩
  · obtain ⟨m, hm⟩ := hmoved i k hne hk
    exact ⟨m, hm.dataPtr, hm.digest, hm.lens⟩
  · rw [Function.update_self]
    exact hdigest ptr hptr

/-! ### The least length -/

/-- The least word of some lanes, among them one with a job, is that of a lane with a job, if the
lanes without one have the word of an empty lane. -/
theorem Tables.exists_least (hfit : Fits n shift maxBlocks)
    (h : s.Tables st kern shift maxBlocks submitted) {lanes : List (Fin n)} {word : BitVec 32}
    (hword : LeastWord s.lens lanes word)
    (hempty : ∀ i ∈ lanes, s.jobInLane i = none → s.lens i = 0xFFFFFFFF#32)
    {i₀ : Fin n} (hi₀ : i₀ ∈ lanes) {j₀ : J} (hocc : s.jobInLane i₀ = some j₀) :
    ∃ a j, s.jobInLane a = some j ∧ word = s.lens a ∧ word.toNat % 2 ^ shift = a ∧
      ∀ i j, i ∈ lanes → s.jobInLane i = some j → s.left shift a ≤ s.left shift i := by
  obtain ⟨⟨a, ha, rfl⟩, hmin⟩ := hword
  cases hja : s.jobInLane a with
  | none =>
    -- the word of an empty lane is above that of any job
    obtain ⟨done, hlane⟩ := h.lane i₀ j₀ hocc
    have hle := hmin i₀ hi₀
    have hlen := h.len_le i₀ j₀ hocc
    have hlt := i₀.isLt
    have hword := hfit.word
    have hmul : 2 ^ shift * ((submitted j₀).len.toNat - done) ≤ 2 ^ shift * maxBlocks :=
      Nat.mul_le_mul_left _ ((Nat.sub_le ..).trans hlen)
    rw [hempty a ha hja, hlane.lens, BitVec.toNat_ofNat] at hle
    omega
  | some j =>
    obtain ⟨done, hlane⟩ := h.lane a j hja
    refine ⟨a, j, hja, rfl, hlane.lane_eq hfit.lanes, fun i k hi hk => ?_⟩
    exact Nat.div_le_div_right (hmin i hi)

/-! ### Kernels -/

/-- A kernel on the lanes with `p`, with their lengths lowered by as many blocks. -/
theorem moved_hashLanes [DecidableEq J] {p : Fin n → Prop} [DecidablePred p] {t : LaneMgr n W J D}
    {m : ℕ} (hp : p i) (hptr : t.dataPtr = s.dataPtr) (hdigest : t.digest = s.digest)
    (hlens : (t.lens i).toNat + 2 ^ shift * m = (s.lens i).toNat)
    (hs' : s'.dataPtr i = (hashLanes kern p t m).dataPtr i ∧
      s'.digest i = (hashLanes kern p t m).digest i ∧ s'.lens i = t.lens i) :
    Moved kern shift s s' i j m := by
  obtain ⟨h1, h2, h3⟩ := hs'
  refine ⟨fun ptr hq => ?_, fun ptr hq => ?_, by rw [h3]; exact hlens⟩
  · rw [h1, hashLanes, hptr]
    simp only [if_pos hp, hq, Option.map_some]
  · rw [h2, hashLanes]
    simp only [if_pos hp, hashLane, hptr, hq, hdigest]

/-- What is changed in lanes without a job does not count. -/
theorem Tables.congr (h : s.Tables st kern shift maxBlocks submitted)
    (htable : s'.jobInLane = s.jobInLane) (hunused : s'.unusedLanes = s.unusedLanes)
    (hinuse : s'.numLanesInuse = s.numLanesInuse)
    (hlane : ∀ i j, s.jobInLane i = some j →
      s'.dataPtr i = s.dataPtr i ∧ s'.digest i = s.digest i ∧ s'.lens i = s.lens i) :
    s'.Tables st kern shift maxBlocks submitted := by
  refine ⟨h.counted.congr htable hunused hinuse, fun i j hi => h.len_le i j (by rwa [← htable]),
    fun i j hi => ?_⟩
  rw [htable] at hi
  obtain ⟨done, hhas⟩ := h.lane i j hi
  obtain ⟨hptr, hdigest, hlens⟩ := hlane i j hi
  refine ⟨done, hhas.le, ?_, ?_, ?_⟩
  · rw [hptr, hhas.dataPtr]
  · rw [hdigest, hhas.digest]
  · rw [hlens, hhas.lens]

/-- What `copy_lane_data` changes is in lanes without a job. -/
theorem Tables.copyLaneData [NeZero n] (h : s.Tables st kern shift maxBlocks submitted) (m : ℕ) :
    (s.copyLaneData m).Tables st kern shift maxBlocks submitted := by
  refine h.congr rfl rfl rfl fun i j hi => ?_
  have hcond : ¬ (i.val < m ∧ (s.jobInLane i).isNone) := fun hnone => by
    rw [hi] at hnone
    exact absurd hnone.2 (by simp)
  exact ⟨if_neg hcond, rfl, if_neg hcond⟩

theorem lens_copyLaneData [NeZero n] {m : ℕ} (hi : i.val < m) (hnone : s.jobInLane i = none) :
    (s.copyLaneData m).lens i = 0xFFFFFFFF#32 :=
  if_pos ⟨hi, by rw [hnone]; rfl⟩

end LaneMgr

/-! ## Stacks of nibbles -/

/-- The free lanes among `lanes` as nibbles of a 64-bit word, above them the numbers `base` of lanes
that are never used, and the sentinel. -/
def sentinelStack (lanes : Finset (Fin 16)) (base : List (Fin 16))
    (hcap : lanes.card + base.length ≤ 15) : FreeStack 16 (BitVec 64) where
  lanes := lanes
  Holds w l := w.toNat = nibbleStack (l ++ base)
  top := lowNibble four_le_sixtyFour
  pop w := w >>> 4
  push w i := w <<< 4 ||| BitVec.ofNat 64 i
  top_eq h := Fin.ext (toNat_top h)
  holds_pop h := toNat_pop h
  holds_push {w i l} h hnodup hmem := by
    have hsub : (i :: l).toFinset ⊆ lanes := fun k hk => hmem k (List.mem_toFinset.mp hk)
    have hcard := Finset.card_le_card hsub
    rw [List.toFinset_card_of_nodup hnodup, List.length_cons] at hcard
    exact toNat_push h (by rw [List.length_append]; omega) i

/-- All sixteen lanes as nibbles of a 64-bit word, without a sentinel: only the low nibbles count,
as many as there are free lanes. -/
def nibbleWord : FreeStack 16 (BitVec 64) where
  lanes := Finset.univ
  Holds w l := w.toNat % 16 ^ l.length = nibbles l
  top := lowNibble four_le_sixtyFour
  pop w := w >>> 4
  push w i := w <<< 4 ||| BitVec.ofNat 64 i
  top_eq {w i l} h := Fin.ext ((val_lowNibble _ w).trans (mod_eq_nibbles_top h))
  holds_pop {w i l} h := by
    rw [BitVec.toNat_ushiftRight, Nat.shiftRight_eq_div_pow]
    exact mod_eq_nibbles_pop h
  holds_push {w i l} h hnodup _ := by
    have hlen : (i :: l).length ≤ Fintype.card (Fin 16) := hnodup.length_le_card
    rw [Fintype.card_fin, List.length_cons] at hlen
    exact mod_eq_nibbles_push h hlen i

/-- The stack is down to its base just when all its lanes are taken. -/
theorem LaneMgr.Counted.unusedLanes_eq_iff {J D : Type*} {lanes : Finset (Fin 16)}
    {base : List (Fin 16)} {hcap : lanes.card + base.length ≤ 15} {s : LaneMgr 16 (BitVec 64) J D}
    (h : s.Counted (sentinelStack lanes base hcap)) :
    s.unusedLanes.toNat = nibbleStack base ↔ ∀ i ∈ lanes, s.jobInLane i ≠ none := by
  obtain ⟨free, hholds, -, hmem⟩ := h.free
  have hword : s.unusedLanes.toNat = nibbleStack (free ++ base) := hholds
  rw [hword, nibbleStack_append_eq, List.eq_nil_iff_forall_not_mem]
  refine forall_congr' fun i => ?_
  rw [hmem, not_and]
  rfl

end IsalCrypto.Mb
