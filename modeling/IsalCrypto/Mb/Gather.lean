import IsalCrypto.Lib.Lanes
import Mathlib.Data.Fintype.Fin
import Mathlib.Data.List.FinRange

/-!
# Lane tables of the schedulers in C

`sha256_mb_mgr_ce.c`, `md5_mb_mgr_aarch64_sve.c` and `sm3_mb_mgr_sve.c` keep a word for each lane,
the blocks left above `k` bits for the lane number, and the jobs in lanes. `do_jobs` gathers the
lanes that are not finished and takes their jobs as far as the shortest of them; `free_lane` looks
for a finished one.

* `LaneTable.find_finished`: what `free_lane` finds.
* `LaneTable.gather_shortest`: what `do_jobs` gathers.
* `LaneTable.Lowered`: the words after `do_jobs`.
-/

namespace IsalCrypto.Mb

open IsalCrypto.Lib

/-- The words of the lanes, and the jobs in them. -/
structure LaneTable (n : ℕ) (J : Type*) where
  lens : Fin n → BitVec 32
  jobInLane : Fin n → Option J

namespace LaneTable

variable {n : ℕ} {J : Type*} (t : LaneTable n J) (k : ℕ)

/-- The blocks left to do in a lane. -/
def left (i : Fin n) : ℕ := (t.lens i).toNat / 2 ^ k

/-- `LANE_IS_FINISHED`. -/
def Finished (i : Fin n) : Prop :=
  t.lens i &&& ~~~BitVec.ofNat 32 (2 ^ k - 1) = 0#32 ∧ (t.jobInLane i).isSome

/-- `LANE_IS_NOT_FINISHED`. -/
def NotFinished (i : Fin n) : Prop :=
  t.lens i &&& ~~~BitVec.ofNat 32 (2 ^ k - 1) ≠ 0#32 ∧ (t.jobInLane i).isSome

instance (i : Fin n) : Decidable (t.Finished k i) := inferInstanceAs (Decidable (_ = _ ∧ _))

instance (i : Fin n) : Decidable (t.NotFinished k i) := inferInstanceAs (Decidable (_ ≠ _ ∧ _))

theorem lenPart_eq_zero_iff (i : Fin n) :
    t.lens i &&& ~~~BitVec.ofNat 32 (2 ^ k - 1) = 0#32 ↔ t.left k i = 0 := by
  rw [← BitVec.toNat_inj, toNat_and_not_mask, BitVec.toNat_zero, Nat.mul_eq_zero]
  exact or_iff_right (Nat.two_pow_pos k).ne'

theorem finished_iff (i : Fin n) :
    t.Finished k i ↔ t.left k i = 0 ∧ ∃ j, t.jobInLane i = some j := by
  rw [Finished, lenPart_eq_zero_iff, Option.isSome_iff_exists]

theorem notFinished_iff (i : Fin n) :
    t.NotFinished k i ↔ 0 < t.left k i ∧ ∃ j, t.jobInLane i = some j := by
  rw [NotFinished, ne_eq, lenPart_eq_zero_iff, Option.isSome_iff_exists, Nat.pos_iff_ne_zero]

variable {t k}

/-! ## `free_lane` -/

/-- A search over all lanes with a job finds a finished one, or there is none. -/
theorem find_finished {lanes : List (Fin n)} (hlanes : ∀ i j, t.jobInLane i = some j → i ∈ lanes) :
    ((∀ i j, t.jobInLane i = some j → 0 < t.left k i) ∧
        (lanes.find? fun i => t.Finished k i) = none) ∨
      ∃ i j, t.jobInLane i = some j ∧ t.left k i = 0 ∧
        (lanes.find? fun i => t.Finished k i) = some i := by
  cases hfind : lanes.find? fun i => t.Finished k i with
  | none =>
    refine .inl ⟨fun i j hi => Nat.pos_of_ne_zero fun hz => ?_, rfl⟩
    have hno := List.find?_eq_none.mp hfind i (hlanes i j hi)
    exact hno (decide_eq_true ((finished_iff t k i).mpr ⟨hz, j, hi⟩))
  | some i =>
    have hyes := List.find?_some hfind
    obtain ⟨hz, j, hi⟩ := (finished_iff t k i).mp (of_decide_eq_true hyes)
    exact .inr ⟨i, j, hi, hz, rfl⟩

/-! ## The lanes that `do_jobs` gathers -/

/-- The lanes that are not finished. -/
def unfinished (t : LaneTable n J) (k : ℕ) : List (Fin n) :=
  (List.finRange n).filter fun i => t.NotFinished k i

theorem nodup_unfinished : (t.unfinished k).Nodup := (List.nodup_finRange n).filter _

theorem mem_unfinished {i : Fin n} :
    i ∈ t.unfinished k ↔ 0 < t.left k i ∧ ∃ j, t.jobInLane i = some j := by
  rw [unfinished, List.mem_filter, decide_eq_true_iff, notFinished_iff]
  exact and_iff_right (List.mem_finRange i)

/-- With no lane finished, these are the lanes with a job. -/
theorem mem_unfinished_of_pos (hpos : ∀ i j, t.jobInLane i = some j → 0 < t.left k i) {i : Fin n} :
    i ∈ t.unfinished k ↔ ∃ j, t.jobInLane i = some j :=
  mem_unfinished.trans (and_iff_right_of_imp fun ⟨j, hj⟩ => hpos i j hj)

theorem mem_jobs {lanes : List (Fin n)} {j : J} :
    j ∈ lanes.filterMap t.jobInLane ↔ ∃ i ∈ lanes, t.jobInLane i = some j := List.mem_filterMap

/-- Lanes that hold different jobs list each of them once. -/
theorem nodup_jobs (hinj : ∀ i i' j, t.jobInLane i = some j → t.jobInLane i' = some j → i = i')
    {lanes : List (Fin n)} (hnodup : lanes.Nodup) : (lanes.filterMap t.jobInLane).Nodup :=
  hnodup.filterMap fun i i' j hi hi' => hinj i i' j hi hi'

theorem mem_jobs_of_mem {lanes : List (Fin n)}
    (hlanes : ∀ i, i ∈ lanes ↔ ∃ j, t.jobInLane i = some j) {j : J} :
    j ∈ lanes.filterMap t.jobInLane ↔ ∃ i, t.jobInLane i = some j := by
  rw [mem_jobs]
  exact ⟨fun ⟨i, _, hi⟩ => ⟨i, hi⟩, fun ⟨i, hi⟩ => ⟨i, (hlanes i).mpr ⟨j, hi⟩, hi⟩⟩

/-- No more lanes are gathered than have a job. -/
theorem length_unfinished_le :
    (t.unfinished k).length ≤ (Finset.univ.filter fun i => (t.jobInLane i).isSome).card := by
  rw [← List.toFinset_card_of_nodup nodup_unfinished]
  refine Finset.card_le_card fun i hi => Finset.mem_filter.mpr ⟨Finset.mem_univ i, ?_⟩
  exact Option.isSome_iff_exists.mpr (mem_unfinished.mp (List.mem_toFinset.mp hi)).2

/-- The loop of `do_jobs`, with the number of lanes in use as its bound. -/
def gather (t : LaneTable n J) (k inuse : ℕ) : List (Fin n) × BitVec 32 :=
  gatherLeast t.lens (t.NotFinished k) inuse (List.finRange n) [] 0#32

theorem gather_spec {inuse : ℕ} (hcap : (t.unfinished k).length ≤ inuse) :
    (t.gather k inuse).1 = t.unfinished k ∧
      (t.unfinished k = [] ∨ LeastWord t.lens (t.unfinished k) (t.gather k inuse).2) := by
  have hcap' : ([] : List (Fin n)).length + (t.unfinished k).length ≤ inuse := by
    rwa [List.length_nil, Nat.zero_add]
  obtain ⟨hlanes, hleast⟩ := gatherLeast_spec (p := t.NotFinished k) (List.finRange n) hcap'
    (.inl rfl : _ ∨ LeastWord t.lens [] 0#32)
  have heq : (t.gather k inuse).1 = t.unfinished k := hlanes
  refine ⟨heq, ?_⟩
  rw [← heq]
  exact hleast

/-- With no lane finished, all lanes with a job are gathered, and the word is that of a lane with a
job that no other has less left than. -/
theorem gather_shortest {inuse : ℕ} (hcap : (t.unfinished k).length ≤ inuse)
    (hpos : ∀ i j, t.jobInLane i = some j → 0 < t.left k i)
    (hsome : ∃ i j, t.jobInLane i = some j) :
    ∃ a j, t.jobInLane a = some j ∧ (∀ i j, t.jobInLane i = some j → t.left k a ≤ t.left k i) ∧
      t.gather k inuse = (t.unfinished k, t.lens a) ∧ t.unfinished k ≠ [] := by
  have hmem : ∀ i, i ∈ t.unfinished k ↔ ∃ j, t.jobInLane i = some j := fun i =>
    mem_unfinished_of_pos hpos
  obtain ⟨i₀, hi₀⟩ := hsome
  have hne : t.unfinished k ≠ [] := List.ne_nil_of_mem ((hmem i₀).mpr hi₀)
  obtain ⟨hlanes, hleast⟩ := gather_spec hcap
  obtain ⟨⟨a, ha, hword⟩, hle⟩ := hleast.resolve_left hne
  obtain ⟨j, hj⟩ := (hmem a).mp ha
  refine ⟨a, j, hj, fun i j' hi => ?_, Prod.ext hlanes hword, hne⟩
  rw [hword] at hle
  exact Nat.div_le_div_right (hle i ((hmem i).mpr ⟨j', hi⟩))

/-! ## The words after `do_jobs` -/

/-- The same jobs are in lanes, and of each of them `m` blocks fewer are left. -/
structure Lowered (k : ℕ) (t t' : LaneTable n J) (m : ℕ) : Prop where
  table : t'.jobInLane = t.jobInLane
  left : ∀ i j, t.jobInLane i = some j → t'.left k i + m = t.left k i

/-- A word is lowered by the blocks of one with no more of them. -/
theorem toNat_lens_sub {a i : Fin n} (hle : t.left k a ≤ t.left k i) :
    (t.lens i - (t.lens a &&& ~~~BitVec.ofNat 32 (2 ^ k - 1))).toNat + 2 ^ k * t.left k a =
      (t.lens i).toNat := by
  have hlen : (t.lens a &&& ~~~BitVec.ofNat 32 (2 ^ k - 1)).toNat = 2 ^ k * t.left k a :=
    toNat_and_not_mask _
  have hsub : 2 ^ k * t.left k a ≤ (t.lens i).toNat :=
    (Nat.mul_le_mul_left _ hle).trans (Nat.mul_div_le ..)
  rw [BitVec.toNat_sub_of_le (by rw [BitVec.le_def, hlen]; exact hsub), hlen]
  exact Nat.sub_add_cancel hsub

theorem left_sub {t' : LaneTable n J} {a i : Fin n} (hle : t.left k a ≤ t.left k i)
    (hlens : t'.lens i = t.lens i - (t.lens a &&& ~~~BitVec.ofNat 32 (2 ^ k - 1))) :
    t'.left k i + t.left k a = t.left k i := by
  have hsum := toNat_lens_sub hle
  rw [← hlens] at hsum
  have hquot : t.left k i = (t.lens i).toNat / 2 ^ k := rfl
  rw [hquot, ← hsum, Nat.add_mul_div_left _ _ (Nat.two_pow_pos k)]
  rfl

/-- Lowered by the least length, some lane is finished. -/
theorem Lowered.not_pos {t' : LaneTable n J} {a : Fin n} {j : J} (h : Lowered k t t' (t.left k a))
    (ha : t.jobInLane a = some j) : ¬ ∀ i j, t'.jobInLane i = some j →
      0 < t'.left k i := fun hpos => by
  have hleft := h.left a j ha
  have hlt := hpos a j (by rwa [h.table])
  omega

/-- A finished lane had the least length before. -/
theorem Lowered.left_eq {t' : LaneTable n J} {m : ℕ} {i : Fin n} {j : J} (h : Lowered k t t' m)
    (hi : t'.jobInLane i = some j) (hz : t'.left k i = 0) :
    t.jobInLane i = some j ∧ t.left k i = m := by
  rw [h.table] at hi
  have hleft := h.left i j hi
  rw [hz, Nat.zero_add] at hleft
  exact ⟨hi, hleft.symm⟩

end LaneTable

/-! ## Two passes over the jobs -/

/-- Two loops that each change every entry of a list once. -/
theorem foldl_update_twice {ι α : Type*} [DecidableEq ι] (f f' : ι → α → α) {l l' : List ι}
    (hl : l.Nodup) (hl' : l'.Nodup) (hmem : ∀ j, j ∈ l' ↔ j ∈ l) (g : ι → α) (j : ι) :
    l'.foldl (fun g i => Function.update g i (f' i (g i)))
      (l.foldl (fun g i => Function.update g i (f i (g i))) g) j =
        if j ∈ l then f' j (f j (g j)) else g j := by
  rw [foldl_update f' hl', foldl_update f hl]
  by_cases hj : j ∈ l
  · rw [if_pos ((hmem j).mpr hj), if_pos hj, if_pos hj]
  · rw [if_neg fun hj' => hj ((hmem j).mp hj'), if_neg hj, if_neg hj]

end IsalCrypto.Mb
