import IsalCrypto.Lib.Lanes
import IsalCrypto.Mb.Scheduler
import Mathlib.Data.Fintype.Fin

/-!
# The lanes of a SHA-256 manager

`ISAL_SHA256_MB_JOB_MGR` and the two changes every lane scheduler makes to it: a job is put into
the lane on top of the free list, and a lane is released onto it.

`Lanes` is what the tables have in common between any two steps: the free list, the job table,
the counter and the packed lengths tell the same story.
-/

namespace IsalCrypto.Sha256Mb

open IsalCrypto.Lib IsalCrypto.Mb

/-- `ISAL_SHA256_MB_JOB_MGR`. The digests of `args` are taken lane by lane; a data pointer comes
with the job whose memory it points into, and is `none` for `NULL`. -/
structure Sha256MbJobMgr (J D : Type*) where
  digest : Fin 16 → D
  dataPtr : Fin 16 → Option (J × BufferPtr)
  lens : Fin 16 → BitVec 32
  unusedLanes : BitVec 64
  jobInLane : Fin 16 → Option J
  numLanesInuse : BitVec 32

namespace Sha256MbJobMgr

variable {J D : Type*} {s : Sha256MbJobMgr J D} {N maxBlocks : ℕ}

/-- The lane on top of the free list. -/
def freeTop (s : Sha256MbJobMgr J D) : Fin 16 :=
  ⟨(s.unusedLanes &&& 15#64).toNat, by
    rw [toNat_and_fifteen (by decide)]
    exact Nat.mod_lt _ (by decide)⟩

/-- A job takes lane `i` off the free list. -/
def put (s : Sha256MbJobMgr J D) (i : Fin 16) (j : J) (len : BitVec 64) : Sha256MbJobMgr J D :=
  { s with
    lens := Function.update s.lens i ((len <<< 4 ||| BitVec.ofNat 64 i).setWidth 32)
    jobInLane := Function.update s.jobInLane i (some j)
    unusedLanes := s.unusedLanes >>> 4
    numLanesInuse := s.numLanesInuse + 1#32 }

/-- Lane `i` goes back to the free list. -/
def release (s : Sha256MbJobMgr J D) (i : Fin 16) : Sha256MbJobMgr J D :=
  { s with
    unusedLanes := s.unusedLanes <<< 4 ||| BitVec.ofNat 64 i
    numLanesInuse := s.numLanesInuse - 1#32
    jobInLane := Function.update s.jobInLane i none }

/-- The blocks left to do in lane `i`: `lens[i] >> 4`. -/
def left (s : Sha256MbJobMgr J D) (i : Fin 16) : ℕ := (s.lens i).toNat / 16

/-- The lanes with a job. -/
def occupied (s : Sha256MbJobMgr J D) : Finset (Fin 16) :=
  Finset.univ.filter fun i => (s.jobInLane i).isSome

@[simp]
theorem mem_occupied {i : Fin 16} : i ∈ s.occupied ↔ ∃ j, s.jobInLane i = some j := by
  rw [occupied, Finset.mem_filter, Option.isSome_iff_exists]
  exact and_iff_right (Finset.mem_univ i)

/-- The smaller of two words. -/
def min32 (a b : BitVec 32) : BitVec 32 := if a < b then a else b

/-- The tables of a manager with `N` lanes agree. -/
structure Lanes (N maxBlocks : ℕ) (s : Sha256MbJobMgr J D) : Prop where
  free : ∃ free : List (Fin 16), s.unusedLanes.toNat = nibbleStack free ∧ free.Nodup ∧
    ∀ i, i ∈ free ↔ i.val < N ∧ s.jobInLane i = none
  inuse : s.numLanesInuse.toNat = s.occupied.card
  lt : ∀ i j, s.jobInLane i = some j → i.val < N
  lane : ∀ i j, s.jobInLane i = some j → (s.lens i).toNat % 16 = i
  left_le : ∀ i j, s.jobInLane i = some j → s.left i ≤ maxBlocks
  inj : ∀ i i' j, s.jobInLane i = some j → s.jobInLane i' = some j → i = i'

/-! ### The least word -/

/-- `word` is the least of the words of the lanes `lanes`. -/
def MinWord (s : Sha256MbJobMgr J D) (lanes : List (Fin 16)) (word : BitVec 32) : Prop :=
  (∃ a ∈ lanes, word = s.lens a) ∧ ∀ i ∈ lanes, word.toNat ≤ (s.lens i).toNat

theorem minWord_singleton (i : Fin 16) : s.MinWord [i] (s.lens i) := leastWord_singleton i

theorem MinWord.concat {lanes : List (Fin 16)} {word : BitVec 32} (h : s.MinWord lanes word)
    (i : Fin 16) : s.MinWord (lanes ++ [i]) (min32 word (s.lens i)) :=
  LeastWord.concat h i

/-! ### The free list -/

/-- If a usable lane is without a job, the free list has a top. -/
theorem Lanes.exists_free (h : s.Lanes N maxBlocks) {i : Fin 16} (hi : i.val < N)
    (hnone : s.jobInLane i = none) :
    ∃ free, s.unusedLanes.toNat = nibbleStack (s.freeTop :: free) ∧ (s.freeTop :: free).Nodup ∧
      ∀ k, k ∈ s.freeTop :: free ↔ k.val < N ∧ s.jobInLane k = none := by
  obtain ⟨free, hstack, hnodup, hmem⟩ := h.free
  cases free with
  | nil => exact absurd ((hmem i).mpr ⟨hi, hnone⟩) List.not_mem_nil
  | cons top free =>
    obtain rfl : s.freeTop = top := Fin.ext (toNat_top hstack)
    exact ⟨free, hstack, hnodup, hmem⟩

/-- The lane that the next job takes is usable and without a job. -/
theorem Lanes.freeTop_free (h : s.Lanes N maxBlocks) {i : Fin 16} (hi : i.val < N)
    (hnone : s.jobInLane i = none) : s.freeTop.val < N ∧ s.jobInLane s.freeTop = none := by
  obtain ⟨free, _, _, hmem⟩ := h.exists_free hi hnone
  exact (hmem s.freeTop).mp List.mem_cons_self

/-- The usable lanes. -/
def usable (N : ℕ) : Finset (Fin 16) := Finset.univ.filter fun i => i.val < N

theorem card_usable (hN : N ≤ 16) : (usable N).card = N := by
  rw [usable, Fin.card_filter_val_lt, Nat.min_eq_right hN]

theorem Lanes.occupied_subset (h : s.Lanes N maxBlocks) : s.occupied ⊆ usable N := by
  intro i hi
  obtain ⟨j, hj⟩ := mem_occupied.mp hi
  exact Finset.mem_filter.mpr ⟨Finset.mem_univ i, h.lt i j hj⟩

/-- The counter tells whether a usable lane is without a job. -/
theorem Lanes.room_iff (h : s.Lanes N maxBlocks) (hN : N ≤ 16) :
    s.numLanesInuse.toNat < N ↔ ∃ i : Fin 16, i.val < N ∧ s.jobInLane i = none := by
  have hcard := card_usable hN
  rw [h.inuse]
  refine ⟨fun hlt => ?_, ?_⟩
  · by_contra hall
    have hsub : usable N ⊆ s.occupied := fun i hi => by
      obtain ⟨_, hi⟩ := Finset.mem_filter.mp hi
      by_contra hocc
      refine hall ⟨i, hi, Option.eq_none_iff_forall_ne_some.mpr fun j hj => ?_⟩
      exact hocc (mem_occupied.mpr ⟨j, hj⟩)
    have hle := Finset.card_le_card hsub
    omega
  · rintro ⟨i, hi, hnone⟩
    have hmem : i ∈ usable N := Finset.mem_filter.mpr ⟨Finset.mem_univ i, hi⟩
    have hocc : i ∉ s.occupied := fun hocc => by
      obtain ⟨j, hj⟩ := mem_occupied.mp hocc
      rw [hnone] at hj
      cases hj
    rw [← hcard]
    exact Finset.card_lt_card
      ((Finset.ssubset_iff_of_subset h.occupied_subset).mpr ⟨i, hmem, hocc⟩)

theorem Lanes.card_le (h : s.Lanes N maxBlocks) (hN : N ≤ 16) : s.occupied.card ≤ N := by
  rw [← card_usable hN]
  exact Finset.card_le_card h.occupied_subset

theorem length_free_le {free : List (Fin 16)} (hN : N ≤ 16) (hnodup : free.Nodup)
    (hmem : ∀ k ∈ free, k.val < N) : free.length ≤ N := by
  have hsub : free.toFinset ⊆ usable N := fun k hk =>
    Finset.mem_filter.mpr ⟨Finset.mem_univ k, hmem k (List.mem_toFinset.mp hk)⟩
  rw [← List.toFinset_card_of_nodup hnodup, ← card_usable hN]
  exact Finset.card_le_card hsub

/-- Lowering the lengths of the lanes with jobs keeps the tables in agreement. -/
theorem Lanes.lower {s' : Sha256MbJobMgr J D} (h : s.Lanes N maxBlocks)
    (htable : s'.jobInLane = s.jobInLane) (hunused : s'.unusedLanes = s.unusedLanes)
    (hinuse : s'.numLanesInuse = s.numLanesInuse)
    (hlens : ∀ i j, s.jobInLane i = some j →
      (s'.lens i).toNat % 16 = (s.lens i).toNat % 16 ∧ s'.left i ≤ s.left i) :
    s'.Lanes N maxBlocks := by
  have hocc : s'.occupied = s.occupied := by rw [occupied, occupied, htable]
  constructor
  case free => rw [hunused, htable]; exact h.free
  case inuse => rw [hinuse, hocc]; exact h.inuse
  case lt => rw [htable]; exact h.lt
  case lane =>
    intro i j hi
    rw [htable] at hi
    rw [(hlens i j hi).1]
    exact h.lane i j hi
  case left_le =>
    intro i j hi
    rw [htable] at hi
    exact (hlens i j hi).2.trans (h.left_le i j hi)
  case inj => rw [htable]; exact h.inj

/-! ### A job takes a lane -/

@[simp]
theorem lens_put (i : Fin 16) (j : J) (len : BitVec 64) : (s.put i j len).lens =
    Function.update s.lens i ((len <<< 4 ||| BitVec.ofNat 64 i).setWidth 32) := rfl

@[simp]
theorem table_put (i : Fin 16) (j : J) (len : BitVec 64) :
    (s.put i j len).jobInLane = Function.update s.jobInLane i (some j) := rfl

theorem left_put_self {i : Fin 16} {j : J} {len : BitVec 64} (hlen : len.toNat < 2 ^ 28) :
    (s.put i j len).left i = len.toNat := by
  have hi := i.isLt
  rw [left, lens_put, Function.update_self, toNat_setWidth_shiftLeft_or hlen]
  omega

theorem left_put_of_ne {i k : Fin 16} {j : J} {len : BitVec 64} (hne : k ≠ i) :
    (s.put i j len).left k = s.left k := by
  rw [left, lens_put, Function.update_of_ne hne, left]

theorem jobInLane_put {i k : Fin 16} {j j' : J} {len : BitVec 64} :
    (s.put i j len).jobInLane k = some j' ↔
      k = i ∧ j = j' ∨ k ≠ i ∧ s.jobInLane k = some j' := by
  rw [table_put]
  rcases eq_or_ne k i with rfl | hne
  · rw [Function.update_self]
    simp
  · rw [Function.update_of_ne hne]
    simp [hne]

/-- The jobs in lanes once `j` is in a lane that was free. -/
theorem exists_jobInLane_put {i : Fin 16} {j j' : J} {len : BitVec 64}
    (hi : s.jobInLane i = none) : (∃ k, (s.put i j len).jobInLane k = some j') ↔
      j' = j ∨ ∃ k, s.jobInLane k = some j' := by
  simp only [jobInLane_put]
  refine ⟨?_, ?_⟩
  · rintro ⟨k, ⟨_, rfl⟩ | ⟨_, hk⟩⟩
    · exact .inl rfl
    · exact .inr ⟨k, hk⟩
  · rintro (rfl | ⟨k, hk⟩)
    · exact ⟨i, .inl ⟨rfl, rfl⟩⟩
    · refine ⟨k, .inr ⟨fun he => ?_, hk⟩⟩
      rw [he, hi] at hk
      cases hk

theorem occupied_put {i : Fin 16} {j : J} {len : BitVec 64} :
    (s.put i j len).occupied = insert i s.occupied := by
  ext k
  rw [Finset.mem_insert, mem_occupied, mem_occupied]
  simp only [jobInLane_put]
  rcases eq_or_ne k i with rfl | hne
  · simp
  · simp [hne]

theorem Lanes.put (h : s.Lanes N maxBlocks) (hN : N < 16) (hmax : maxBlocks < 2 ^ 28) {j : J}
    {len : BitVec 64} (hroom : ∃ i : Fin 16, i.val < N ∧ s.jobInLane i = none)
    (hj : ∀ i, s.jobInLane i ≠ some j) (hlen : len.toNat ≤ maxBlocks) :
    (s.put s.freeTop j len).Lanes N maxBlocks := by
  obtain ⟨i, hi, hnone⟩ := hroom
  obtain ⟨free, hstack, hnodup, hmem⟩ := h.exists_free hi hnone
  obtain ⟨htop, htopnone⟩ := h.freeTop_free hi hnone
  obtain ⟨hnotin, hnodup⟩ := List.nodup_cons.mp hnodup
  have hlen28 : len.toNat < 2 ^ 28 := Nat.lt_of_le_of_lt hlen hmax
  have hocc : s.freeTop ∉ s.occupied := fun hocc => by
    obtain ⟨j', hj'⟩ := mem_occupied.mp hocc
    rw [htopnone] at hj'
    cases hj'
  constructor
  case free =>
    refine ⟨free, toNat_pop hstack, hnodup, fun k => ?_⟩
    have hk := hmem k
    rw [List.mem_cons] at hk
    rw [table_put]
    rcases eq_or_ne k s.freeTop with rfl | hne
    · simp [hnotin]
    · rw [Function.update_of_ne hne, ← hk]
      simp [hne]
  case inuse =>
    have hcard := h.card_le hN.le
    rw [occupied_put, Finset.card_insert_of_notMem hocc]
    change (s.numLanesInuse + 1#32).toNat = _
    rw [BitVec.toNat_add, BitVec.toNat_ofNat, h.inuse, Nat.mod_eq_of_lt (by omega)]
  case lt =>
    intro k j' hk
    rcases jobInLane_put.mp hk with ⟨rfl, rfl⟩ | ⟨_, hk⟩
    · exact htop
    · exact h.lt k j' hk
  case lane =>
    intro k j' hk
    rcases jobInLane_put.mp hk with ⟨rfl, rfl⟩ | ⟨hne, hk⟩
    · have hlt := s.freeTop.isLt
      rw [lens_put, Function.update_self, toNat_setWidth_shiftLeft_or hlen28]
      omega
    · rw [lens_put, Function.update_of_ne hne]
      exact h.lane k j' hk
  case left_le =>
    intro k j' hk
    rcases jobInLane_put.mp hk with ⟨rfl, rfl⟩ | ⟨hne, hk⟩
    · rwa [left_put_self hlen28]
    · rw [left_put_of_ne hne]
      exact h.left_le k j' hk
  case inj =>
    intro k k' j' hk hk'
    rcases jobInLane_put.mp hk with ⟨rfl, rfl⟩ | ⟨hne, hk⟩
    · rcases jobInLane_put.mp hk' with ⟨rfl, -⟩ | ⟨-, hk'⟩
      · rfl
      · exact absurd hk' (hj k')
    · rcases jobInLane_put.mp hk' with ⟨-, rfl⟩ | ⟨-, hk'⟩
      · exact absurd hk (hj k)
      · exact h.inj k k' j' hk hk'

/-! ### A lane is released -/

@[simp]
theorem table_release (i : Fin 16) :
    (s.release i).jobInLane = Function.update s.jobInLane i none := rfl

@[simp]
theorem left_release {i k : Fin 16} : (s.release i).left k = s.left k := rfl

theorem jobInLane_release {i k : Fin 16} {j : J} :
    (s.release i).jobInLane k = some j ↔ k ≠ i ∧ s.jobInLane k = some j := by
  rw [table_release]
  rcases eq_or_ne k i with rfl | hne
  · rw [Function.update_self]
    simp
  · rw [Function.update_of_ne hne]
    simp [hne]

/-- The jobs in lanes once lane `i` with the job `j` is released. -/
theorem Lanes.exists_jobInLane_release (h : s.Lanes N maxBlocks) {i : Fin 16} {j j' : J}
    (hi : s.jobInLane i = some j) : (∃ k, (s.release i).jobInLane k = some j') ↔
      j' ≠ j ∧ ∃ k, s.jobInLane k = some j' := by
  simp only [jobInLane_release]
  refine ⟨?_, ?_⟩
  · rintro ⟨k, hne, hk⟩
    exact ⟨fun he => hne (h.inj _ _ _ (he ▸ hk) hi), k, hk⟩
  · rintro ⟨hne, k, hk⟩
    refine ⟨k, fun he => hne ?_, hk⟩
    rw [he, hi] at hk
    exact (Option.some.inj hk).symm

theorem occupied_release {i : Fin 16} : (s.release i).occupied = s.occupied.erase i := by
  ext k
  rw [Finset.mem_erase, mem_occupied, mem_occupied]
  simp only [jobInLane_release, exists_and_left]

theorem Lanes.release (h : s.Lanes N maxBlocks) (hN : N < 15) {i : Fin 16} {j : J}
    (hi : s.jobInLane i = some j) : (s.release i).Lanes N maxBlocks := by
  obtain ⟨free, hstack, hnodup, hmem⟩ := h.free
  have hlen := length_free_le (by omega) hnodup fun k hk => ((hmem k).mp hk).1
  have hocc : i ∈ s.occupied := mem_occupied.mpr ⟨j, hi⟩
  constructor
  case free =>
    refine ⟨i :: free, toNat_push hstack (by omega) i, List.nodup_cons.mpr ⟨fun hin => ?_, hnodup⟩,
      fun k => ?_⟩
    · rw [((hmem i).mp hin).2] at hi
      cases hi
    · rw [List.mem_cons, hmem]
      rw [table_release]
      rcases eq_or_ne k i with rfl | hne
      · simpa using h.lt k j hi
      · rw [Function.update_of_ne hne]
        simp [hne]
  case inuse =>
    have hpos : 0 < s.occupied.card := Finset.card_pos.mpr ⟨i, hocc⟩
    rw [occupied_release, Finset.card_erase_of_mem hocc]
    change (s.numLanesInuse - 1#32).toNat = _
    rw [BitVec.toNat_sub_of_le, h.inuse]
    · rfl
    · rw [BitVec.le_def, h.inuse]
      exact hpos
  case lt => exact fun k j' hk => h.lt k j' (jobInLane_release.mp hk).2
  case lane => exact fun k j' hk => h.lane k j' (jobInLane_release.mp hk).2
  case left_le => exact fun k j' hk => h.left_le k j' (jobInLane_release.mp hk).2
  case inj =>
    exact fun k k' j' hk hk' =>
      h.inj k k' j' (jobInLane_release.mp hk).2 (jobInLane_release.mp hk').2

/-- A released lane is without a job. -/
theorem room_release (h : s.Lanes N maxBlocks) {i : Fin 16} {j : J} (hi : s.jobInLane i = some j) :
    ∃ k : Fin 16, k.val < N ∧ (s.release i).jobInLane k = none :=
  ⟨i, h.lt i j hi, Function.update_self ..⟩

end Sha256MbJobMgr

end IsalCrypto.Sha256Mb
