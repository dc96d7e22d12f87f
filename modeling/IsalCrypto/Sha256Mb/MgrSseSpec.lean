import IsalCrypto.Mb.LaneMgr
import IsalCrypto.Sha256Mb.MgrSse

/-!
# What the SSE lane scheduler does

`_sha256_mb_mgr_submit_sse` and `_sha256_mb_mgr_flush_sse` against the tables of a manager with 16
lanes and a stack of nibbles.

* `schedulerSse_serves`: what one call keeps.
* `schedulerSse_correct`: the contract that the context layer is verified against.
-/

namespace IsalCrypto.Sha256Mb

open IsalCrypto.Lib IsalCrypto.Mb Sha256MbJobMgr

variable {J D : Type*}

/-- No buffer of 32-bit length has more blocks. -/
abbrev maxBlocksSse : ℕ := 2 ^ 26 - 1

/-! ## The least length -/

theorem min32_comm (a b : BitVec 32) : min32 a b = min32 b a := by
  unfold min32
  split
  · next hlt => rw [if_neg (BitVec.lt_asymm hlt)]
  · next hge =>
    split
    · rfl
    · next hge' =>
      exact BitVec.le_antisymm (BitVec.not_lt.mp hge) (BitVec.not_lt.mp hge')

theorem minWord_minLens (s : Sha256MbJobMgr J D) : s.MinWord [0, 1, 2, 3] s.minLens := by
  rw [minLens, min32_comm (s.lens 3), min32_comm (s.lens 2), min32_comm (s.lens 1)]
  exact (((minWord_singleton 0).concat 1).concat 2).concat 3

theorem val_laneOf (word : BitVec 32) : (laneOf word).val = word.toNat % 16 :=
  toNat_and_fifteen (by decide) word

/-! ## A call against the tables -/

/-- The manager as one of 16 lanes with a stack of nibbles. -/
def Sha256MbJobMgr.lanes (s : Sha256MbJobMgr J D) : LaneMgr 16 (BitVec 64) J D :=
  ⟨s.digest, s.dataPtr, s.lens, s.unusedLanes, s.jobInLane, s.numLanesInuse⟩

/-- The four lanes in use, above the sentinel. -/
def sseStack : FreeStack 16 (BitVec 64) := sentinelStack {0, 1, 2, 3} [] (by decide)

variable [DecidableEq J] {s : Sha256MbJobMgr J D} {kern : Kernel J D} {submitted : J → Job D}

/-- Job `j` is in a lane. -/
abbrev SseInLane (s : Sha256MbJobMgr J D) (j : J) : Prop := s.lanes.InLane j

/-- What the scheduler keeps between calls. -/
abbrev SseReady (kern : Kernel J D) (s : Sha256MbJobMgr J D) (submitted : J → Job D) : Prop :=
  s.lanes.Ready sseStack kern 4 maxBlocksSse submitted

/-- What it keeps inside a call. -/
abbrev SseTables (kern : Kernel J D) (s : Sha256MbJobMgr J D) (submitted : J → Job D) : Prop :=
  s.lanes.Tables sseStack kern 4 maxBlocksSse submitted

theorem mem_sseStack : ∀ {i : Fin 16}, i ∈ sseStack.lanes ↔ i.val < 4 := by decide

theorem sse_fits : LaneMgr.Fits 16 4 maxBlocksSse := ⟨by decide, by decide⟩

theorem setWidth_word (len x : BitVec 64) :
    (len <<< 4 ||| x).setWidth 32 = ((len.setWidth 32).setWidth 64 <<< 4 ||| x).setWidth 32 := by
  ext i hi
  simp [BitVec.getElem_setWidth]

omit [DecidableEq J] in
theorem lanes_enterLane (s : Sha256MbJobMgr J D) (jobs : J → Job D) (j : J) :
    (s.enterLane jobs j).lanes =
      s.lanes.enterLane 4 (sseStack.top s.unusedLanes) (sseStack.pop s.unusedLanes) jobs j := by
  rw [LaneMgr.enterLane, ← setWidth_word]
  rfl

theorem lanes_completeLane (s : Sha256MbJobMgr J D) (jobs : J → Job D) (idx : Fin 16) :
    ((s.completeLane jobs idx).1.lanes, (s.completeLane jobs idx).2) =
      s.lanes.completeLane jobs idx (sseStack.push s.unusedLanes idx) := by
  have hlanes : s.lanes.jobInLane idx = s.jobInLane idx := rfl
  rw [LaneMgr.completeLane, Sha256MbJobMgr.completeLane, hlanes]
  cases s.jobInLane idx with
  | none => rfl
  | some j => rfl

omit [DecidableEq J] in
/-- An answer of the lanes is one of the manager. -/
theorem answers_of_lanes {In : J → Prop} {r : Sha256MbJobMgr J D × (J → Job D) × Option J}
    {q : LaneMgr 16 (BitVec 64) J D × (J → Job D) × Option J} (hq : (r.1.lanes, r.2) = q)
    (h : Answers kern LaneMgr.InLane (LaneMgr.Ready sseStack kern 4 maxBlocksSse) submitted In q ∧
      q.2.2 ≠ none) :
    Answers kern SseInLane (SseReady kern) submitted In r ∧ r.2.2 ≠ none := by
  subst hq
  exact h

/-- The job in lane `idx` is handed back, from tables reached by a kernel. -/
theorem answers_completeLane {t : Sha256MbJobMgr J D} (t' : Sha256MbJobMgr J D)
    (hkern : kern.Lawful 64) (h : SseTables kern t submitted) {idx : Fin 16} {j : J}
    (hidx : t.jobInLane idx = some j) (htable : t'.jobInLane = t.jobInLane)
    (hunused : t'.unusedLanes = t.unusedLanes) (hinuse : t'.numLanesInuse = t.numLanesInuse)
    (hmoved : ∀ i k, i ≠ idx → t.jobInLane i = some k →
      ∃ m, LaneMgr.Moved kern 4 t.lanes t'.lanes i k m)
    (hdigest : ∀ ptr, t.dataPtr idx = some (j, ptr) →
      t'.digest idx = kern j ptr (t.lanes.left 4 idx) (t.digest idx)) (jobs : J → Job D) :
    Answers kern SseInLane (SseReady kern) submitted (SseInLane t) (t'.completeLane jobs idx) ∧
      (t'.completeLane jobs idx).2.2 ≠ none := by
  have hlanes := lanes_completeLane t' jobs idx
  rw [hunused] at hlanes
  exact answers_of_lanes hlanes
    (h.completeLane sse_fits.lanes hkern hidx htable hinuse hmoved hdigest jobs)

omit [DecidableEq J] in
/-- The least length, and the lane that has it. -/
theorem sse_exists_least {t : Sha256MbJobMgr J D} (h : SseTables kern t submitted)
    (hempty : ∀ i : Fin 16, i.val < 4 → t.jobInLane i = none → t.lens i = 0xFFFFFFFF#32)
    {i₀ : Fin 16} {j₀ : J} (hocc : t.jobInLane i₀ = some j₀) :
    ∃ a j, t.jobInLane a = some j ∧ laneOf t.minLens = a ∧
      (t.minLens &&& ~~~15#32).toNat = 16 * t.lanes.left 4 a ∧
      ∀ i j, t.jobInLane i = some j → i.val < 4 ∧ t.lanes.left 4 a ≤ t.lanes.left 4 i := by
  have hmem : ∀ i : Fin 16, i.val < 4 → i ∈ ([0, 1, 2, 3] : List (Fin 16)) := by decide
  have hlt : ∀ i j, t.jobInLane i = some j → i.val < 4 := fun i j hi =>
    mem_sseStack.mp (h.counted.usable i j hi)
  have hmem' : ∀ i : Fin 16, i ∈ ([0, 1, 2, 3] : List (Fin 16)) → i.val < 4 := by decide
  obtain ⟨a, j, hja, hword, hlane, hmin⟩ := h.exists_least sse_fits (minWord_minLens t)
    (fun i hi hnone => hempty i (hmem' i hi) hnone) (hmem i₀ (hlt i₀ j₀ hocc)) hocc
  refine ⟨a, j, hja, Fin.ext ?_, ?_, fun i k hk => ⟨hlt i k hk, hmin i k (hmem i (hlt i k hk)) hk⟩⟩
  · rw [val_laneOf]
    exact hlane
  · rw [toNat_and_not_fifteen, hword]
    rfl

/-- All lanes are hashed by the least length, and the job that has it is handed back. -/
theorem answers_hashAll {t : Sha256MbJobMgr J D} (hkern : kern.Lawful 64)
    (h : SseTables kern t submitted)
    (hempty : ∀ i : Fin 16, i.val < 4 → t.jobInLane i = none → t.lens i = 0xFFFFFFFF#32)
    {i₀ : Fin 16} {j₀ : J} (hocc : t.jobInLane i₀ = some j₀) (jobs : J → Job D) :
    let r := (if t.minLens &&& ~~~15#32 = 0#32 then t
      else t.hashAll kern (t.minLens &&& ~~~15#32)).completeLane jobs (laneOf t.minLens)
    Answers kern SseInLane (SseReady kern) submitted (SseInLane t) r ∧ r.2.2 ≠ none := by
  obtain ⟨a, j, hja, hlane, hlen, hmin⟩ := sse_exists_least h hempty hocc
  rw [hlane]
  generalize t.minLens &&& ~~~15#32 = len2 at hlen
  dsimp only
  split
  · next hz =>
    have hleft : t.lanes.left 4 a = 0 := by
      rw [hz, BitVec.toNat_zero] at hlen
      omega
    refine answers_completeLane t hkern h hja rfl rfl rfl
      (fun i k _ _ => ⟨0, .of_eq hkern rfl rfl rfl⟩) (fun ptr _ => ?_) jobs
    rw [hleft, hkern.zero]
  · have hn : (len2 >>> 4).toNat = t.lanes.left 4 a := by
      rw [BitVec.toNat_ushiftRight, hlen, Nat.shiftRight_eq_div_pow]
      exact Nat.mul_div_cancel_left _ (by decide)
    refine answers_completeLane (t.hashAll kern len2) hkern h hja rfl rfl rfl (fun i k _ hk => ?_)
      (fun ptr hptr => ?_) jobs
    · obtain ⟨hi, hle⟩ := hmin i k hk
      have hdiv : 16 * t.lanes.left 4 i ≤ (t.lens i).toNat := Nat.mul_div_le ..
      have hlens : (t.hashAll kern len2).lens i = t.lens i - len2 := if_pos hi
      refine ⟨t.lanes.left 4 a, fun ptr hptr => ?_, fun ptr hptr => ?_, ?_⟩
      · have hptr' : t.dataPtr i = some (k, ptr) := hptr
        simp only [Sha256MbJobMgr.lanes, Sha256MbJobMgr.hashAll, sha256MbX4Sse, if_pos hi, hptr',
          hn, Option.map_some]
      · have hptr' : t.dataPtr i = some (k, ptr) := hptr
        simp only [Sha256MbJobMgr.lanes, Sha256MbJobMgr.hashAll, sha256MbX4Sse, if_pos hi, hashLane,
          hptr', hn]
      · change ((t.hashAll kern len2).lens i).toNat + 2 ^ 4 * t.lanes.left 4 a = (t.lens i).toNat
        rw [hlens, BitVec.toNat_sub_of_le (by rw [BitVec.le_def, hlen]; omega), hlen]
        omega
    · simp only [Sha256MbJobMgr.hashAll, sha256MbX4Sse, if_pos (hmin a j hja).1, hashLane, hptr, hn]

/-- With one job only, its lane alone is hashed, and it is handed back. -/
theorem answers_optX1 {t : Sha256MbJobMgr J D} (hkern : kern.Lawful 64)
    (h : SseTables kern t submitted)
    (hempty : ∀ i : Fin 16, i.val < 4 → t.jobInLane i = none → t.lens i = 0xFFFFFFFF#32)
    {i₀ : Fin 16} {j₀ : J} (hocc : t.jobInLane i₀ = some j₀) (jobs : J → Job D) :
    let idx := laneOf t.minLens
    let r := (if t.minLens &&& ~~~15#32 = 0#32 then t
      else sha256OptX1 kern { t with lens := Function.update t.lens idx (BitVec.ofNat 32 idx) }
        ((t.minLens &&& ~~~15#32) >>> 4).toNat idx).completeLane jobs idx
    Answers kern SseInLane (SseReady kern) submitted (SseInLane t) r ∧ r.2.2 ≠ none := by
  obtain ⟨a, j, hja, hlane, hlen, hmin⟩ := sse_exists_least h hempty hocc
  rw [hlane]
  generalize t.minLens &&& ~~~15#32 = len2 at hlen
  dsimp only
  split
  · next hz =>
    have hleft : t.lanes.left 4 a = 0 := by
      rw [hz, BitVec.toNat_zero] at hlen
      omega
    refine answers_completeLane t hkern h hja rfl rfl rfl
      (fun i k _ _ => ⟨0, .of_eq hkern rfl rfl rfl⟩) (fun ptr _ => ?_) jobs
    rw [hleft, hkern.zero]
  · have hn : (len2 >>> 4).toNat = t.lanes.left 4 a := by
      rw [BitVec.toNat_ushiftRight, hlen, Nat.shiftRight_eq_div_pow]
      exact Nat.mul_div_cancel_left _ (by decide)
    refine answers_completeLane (sha256OptX1 kern
      { t with lens := Function.update t.lens a (BitVec.ofNat 32 a) } (len2 >>> 4).toNat a)
      hkern h hja rfl rfl rfl (fun i k hne _ => ?_) (fun ptr hptr => ?_) jobs
    · exact ⟨0, .of_eq hkern rfl (Function.update_of_ne hne ..) (Function.update_of_ne hne ..)⟩
    · simp only [sha256OptX1, Function.update_self, hashLane, hptr, hn]

/-! ## Submit -/

omit [DecidableEq J] in
theorem sse_full_iff (h : SseTables kern s submitted) :
    s.unusedLanes = 0xF#64 ↔ ∀ i : Fin 16, i.val < 4 → s.jobInLane i ≠ none := by
  have hword : s.unusedLanes = 0xF#64 ↔ s.lanes.unusedLanes.toNat = nibbleStack [] :=
    ⟨fun he => congrArg BitVec.toNat he, fun he => BitVec.eq_of_toNat_eq he⟩
  rw [hword, h.counted.unusedLanes_eq_iff]
  exact forall_congr' fun i => by rw [← mem_sseStack]; rfl

/-- A job enters the lane on top. -/
theorem sse_enterLane (hkern : kern.Lawful 64) (h : SseReady kern s submitted) {j : J}
    (hj : ¬ SseInLane s j) {jobs : J → Job D} (hmax : (jobs j).len.toNat ≤ maxBlocksSse) :
    SseTables kern (s.enterLane (LaneMgr.startJob jobs j) j)
        (Function.update submitted j (jobs j)) ∧
      ∀ k, SseInLane (s.enterLane (LaneMgr.startJob jobs j) j) k ↔ k = j ∨ SseInLane s k := by
  rw [SseTables, lanes_enterLane]
  simp only [SseInLane, lanes_enterLane]
  exact h.enter sse_fits hkern hj hmax

theorem submitSse_answers (hkern : kern.Lawful 64) (h : SseReady kern s submitted)
    {jobs : J → Job D} {j : J} (hj : ¬ SseInLane s j) (hmax : (jobs j).len.toNat ≤ maxBlocksSse) :
    Answers kern SseInLane (SseReady kern) (Function.update submitted j (jobs j))
      (fun k => k = j ∨ SseInLane s k) (s.submitSse kern jobs j) := by
  obtain ⟨htables, hin⟩ := sse_enterLane hkern h hj hmax
  change Answers kern SseInLane (SseReady kern) (Function.update submitted j (jobs j))
    (fun k => k = j ∨ SseInLane s k)
    (let t := s.enterLane (LaneMgr.startJob jobs j) j
    if t.unusedLanes ≠ 0xF#64 then (t, LaneMgr.startJob jobs j, none)
    else (if t.minLens &&& ~~~15#32 = 0#32 then t
      else t.hashAll kern (t.minLens &&& ~~~15#32)).completeLane (LaneMgr.startJob jobs j)
        (laneOf t.minLens))
  dsimp only
  generalize LaneMgr.startJob jobs j = jobs' at *
  split
  · next hwait =>
    have hroom : ∃ i ∈ sseStack.lanes, (s.enterLane jobs' j).jobInLane i = none := by
      by_contra hno
      exact hwait ((sse_full_iff htables).mpr fun i hi hnone =>
        hno ⟨i, mem_sseStack.mpr hi, hnone⟩)
    exact ⟨⟨htables, hroom⟩, hin⟩
  · next hfull =>
    have hall := (sse_full_iff htables).mp (not_not.mp hfull)
    obtain ⟨i₀, hi₀⟩ := (hin j).mpr (.inl rfl)
    have hret := (answers_hashAll hkern htables (fun i hi hnone => absurd hnone (hall i hi)) hi₀
      jobs').1
    rwa [funext fun k => propext (hin k)] at hret

/-! ## Flush -/

omit [DecidableEq J] in
theorem sse_copyLaneData (h : SseTables kern s submitted) :
    SseTables kern s.copyLaneData submitted := by
  refine h.congr rfl rfl rfl fun i j hi => ?_
  have hi' : s.jobInLane i = some j := hi
  have hcond : ¬ (i.val < 4 ∧ (s.jobInLane i).isNone) := fun hnone => by
    rw [hi'] at hnone
    exact absurd hnone.2 (by simp)
  exact ⟨if_neg hcond, rfl, if_neg hcond⟩

theorem flushSse_answers (hkern : kern.Lawful 64) (h : SseReady kern s submitted)
    (jobs : J → Job D) :
    Answers kern SseInLane (SseReady kern) submitted (SseInLane s) (s.flushSse kern jobs) ∧
      ((s.flushSse kern jobs).2.2 = none ↔ ∀ j, ¬ SseInLane s j) := by
  have hzero := h.counted.inuse_eq_zero_iff
  unfold flushSse
  split
  · next hnum =>
      exact ⟨⟨h, fun _ => Iff.rfl⟩, iff_of_true rfl (hzero.mp (congrArg BitVec.toNat hnum))⟩
  · next hnum =>
    have hsome : ¬ ∀ j, ¬ SseInLane s j := fun hno => hnum (BitVec.eq_of_toNat_eq (hzero.mpr hno))
    have hocc := hsome
    push Not at hocc
    obtain ⟨j₀, i₀, hj₀⟩ := hocc
    have hempty : ∀ i : Fin 16, i.val < 4 → s.copyLaneData.jobInLane i = none →
        s.copyLaneData.lens i = 0xFFFFFFFF#32 := fun i hi hnone => by
      have hnone' : s.jobInLane i = none := hnone
      exact if_pos ⟨hi, by rw [hnone']; rfl⟩
    have htables := sse_copyLaneData h.toTables
    dsimp only
    split
    · next hz =>
      have hret := answers_hashAll hkern htables hempty hj₀ jobs
      rw [if_pos hz] at hret
      exact ⟨hret.1, iff_of_false hret.2 hsome⟩
    · next hz =>
      split
      · have hret := answers_hashAll hkern htables hempty hj₀ jobs
        rw [if_neg hz] at hret
        exact ⟨hret.1, iff_of_false hret.2 hsome⟩
      · have hret := answers_optX1 hkern htables hempty hj₀ jobs
        dsimp only at hret
        rw [if_neg hz] at hret
        exact ⟨hret.1, iff_of_false hret.2 hsome⟩

/-! ## Other jobs -/

theorem completeLane_frame (s : Sha256MbJobMgr J D) (jobs : J → Job D) (idx : Fin 16) :
    OnlyReturned jobs (s.completeLane jobs idx) := by
  intro k
  unfold completeLane
  cases s.jobInLane idx with
  | none => exact fun _ => rfl
  | some j => exact fun hk => Function.update_of_ne (fun he => hk (congrArg some he.symm)) ..

theorem submitSse_frame (kern : Kernel J D) (s : Sha256MbJobMgr J D) (jobs : J → Job D) (j k : J)
    (hne : k ≠ j) : (s.submitSse kern jobs j).2.2 ≠ some k →
      (s.submitSse kern jobs j).2.1 k = jobs k := by
  have hjobs : Function.update jobs j { jobs j with status := .beingProcessed } k = jobs k :=
    Function.update_of_ne hne ..
  unfold submitSse
  dsimp only
  split
  · exact fun _ => hjobs
  · exact fun hk => (completeLane_frame _ _ _ k hk).trans hjobs

theorem flushSse_frame (kern : Kernel J D) (s : Sha256MbJobMgr J D) (jobs : J → Job D) :
    OnlyReturned jobs (s.flushSse kern jobs) := by
  unfold flushSse
  split
  · exact fun _ _ => rfl
  · exact completeLane_frame _ _ _

/-! ## The scheduler -/

variable [Inhabited D]

omit [DecidableEq J] in
theorem initSse_tables (s : Sha256MbJobMgr J D) : SseTables kern s.initSse submitted where
  counted.free := ⟨[0, 1, 2, 3], by rfl, by decide, fun i => by
    have hnone : s.initSse.lanes.jobInLane i = none := rfl
    rw [and_iff_left hnone]
    clear hnone
    revert i
    decide⟩
  counted.inuse := by
    have hocc : s.initSse.lanes.occupied = ∅ := by
      ext i
      simp [Sha256MbJobMgr.lanes, initSse]
    rw [hocc]
    rfl
  counted.usable := nofun
  counted.inj := nofun
  len_le := nofun
  lane := nofun

theorem schedulerSse_serves (hkern : kern.Lawful 64) :
    (schedulerSse : Scheduler (Sha256MbJobMgr J D) J D).Serves kern maxBlocksSse SseInLane
      (SseReady kern) where
  init s submitted := ⟨⟨initSse_tables s, 0, by decide, rfl⟩, fun _ ⟨_, hi⟩ => nomatch hi⟩
  submit _ h hj _ hmax := submitSse_answers hkern h hj hmax
  flush h := flushSse_answers hkern h _

/-- The jobs in lanes, each owed the digest of all its blocks. -/
abbrev SseRep : Kernel J D → Sha256MbJobMgr J D → (J → Job D) → Finset J → (J → D) → Prop :=
  ServedRep SseInLane SseReady

theorem schedulerSse_correct :
    (schedulerSse : Scheduler (Sha256MbJobMgr J D) J D).Correct 64 maxBlocksSse SseRep :=
  Scheduler.correct_of_serves
    (fun _ s _ => ⟨⟨initSse_tables s, 0, by decide, rfl⟩, fun _ ⟨_, hi⟩ => nomatch hi⟩)
    schedulerSse_serves (fun heq h => h.kernel_congr heq) submitSse_frame flushSse_frame

end IsalCrypto.Sha256Mb
