import IsalCrypto.Sha1Mb.MgrSpec

/-!
# The SHA-NI lane scheduler

`sha1_mb_mgr_init_sse.c`, `sha1_mb_mgr_submit_sse_ni.asm` and `sha1_mb_mgr_flush_sse_ni.asm`: the
manager of four lanes, of which a submit looks at two.

* `schedulerSseNi_serves`: what one call keeps.
* `mgrSseNi_contract`: after every run at most one of the lanes 0 and 1 has a job and no other has
  one, the free lanes are `0xF32` and those of the two, each job is returned once with the digest of
  its own blocks, and `sha1_ni_x2` runs only with two jobs, for the shorter one's blocks.
-/

namespace IsalCrypto.Sha1Mb

open IsalCrypto.Lib IsalCrypto.Mb

variable {J : Type*}

namespace Sha1MbJobMgr

/-- `_sha1_mb_mgr_init_sse`. -/
def initSse (_ : Sha1MbJobMgr J) : Sha1MbJobMgr J where
  digest _ := 0#32
  dataPtr _ := none
  lens _ := 0#32
  unusedLanes := 0xF3210#64
  jobInLane _ := none
  numLanesInuse := 0#32

section Functions

variable [DecidableEq J] (own : J → ℕ → Byte)

/-- `_sha1_mb_mgr_submit_sse_ni`. -/
def submitSseNi (s : Sha1MbJobMgr J) (jobs : J → Job Sha1.Digest) (j : J) :
    Sha1MbJobMgr J × (J → Job Sha1.Digest) × Option J :=
  let jobs := LaneMgr.startJob jobs j
  let s := s.enterLane 4 jobs j
  if s.unusedLanes ≠ 0xF32#64 then (s, jobs, none)
  else
    let word := minDword (s.lens 1) (s.lens 0)
    let idx := lowNibble four_le_thirtyTwo word
    let len2 := word &&& ~~~15#32
    let s := if len2 = 0#32 then s
      else
        sha1NiX2 own 4
          { s with
            lens := Function.update (Function.update s.lens 0 (s.lens 0 - len2)) 1
              (s.lens 1 - len2) }
          (len2 >>> 4).toNat
    s.completeLane 4 jobs idx

/-- `_sha1_mb_mgr_flush_sse_ni`; `x4` is `sha1_mb_x4_sse`. -/
def flushSseNi (x4 : Kernel J Sha1.Digest) (s : Sha1MbJobMgr J) (jobs : J → Job Sha1.Digest) :
    Sha1MbJobMgr J × (J → Job Sha1.Digest) × Option J :=
  if s.numLanesInuse = 0#32 then (s, jobs, none)
  else
    let s := s.copyLaneData 4
    let word := minDword (s.lens 3) (minDword (s.lens 2) (minDword (s.lens 1) (s.lens 0)))
    let idx := lowNibble four_le_thirtyTwo word
    let len2 := word &&& ~~~15#32
    let s := if len2 = 0#32 then s
      else if 4#32 < s.numLanesInuse then
        sha1MbXN x4 4 { s with lens := fun i => if i.val < 4 then s.lens i - len2 else s.lens i }
          (len2 >>> 4).toNat
      else
        sha1NiX1 own 4 { s with lens := Function.update s.lens idx (BitVec.ofNat 32 idx) }
          (len2 >>> 4).toNat idx
    s.completeLane 4 jobs idx

/-- The manager and the number of blocks that a submit calls `sha1_ni_x2` with. -/
def submitSseNiX2 (s : Sha1MbJobMgr J) (jobs : J → Job Sha1.Digest) (j : J) :
    Option (Sha1MbJobMgr J × ℕ) :=
  let s := s.enterLane 4 (LaneMgr.startJob jobs j) j
  let len2 := minDword (s.lens 1) (s.lens 0) &&& ~~~15#32
  if s.unusedLanes ≠ 0xF32#64 ∨ len2 = 0#32 then none
  else
    some ({ s with
      lens := Function.update (Function.update s.lens 0 (s.lens 0 - len2)) 1 (s.lens 1 - len2) },
      (len2 >>> 4).toNat)

end Functions

end Sha1MbJobMgr

open Sha1MbJobMgr

/-- The scheduler of the SSE manager on a machine with SHA-NI. -/
def schedulerSseNi [DecidableEq J] (own : J → ℕ → Byte) (x4 : Kernel J Sha1.Digest) :
    Scheduler (Sha1MbJobMgr J) J Sha1.Digest where
  init := initSse
  submit _ := submitSseNi own
  flush _ := flushSseNi own x4

/-! ## The free lanes -/

/-- The lanes 0 and 1, above the lanes 2 and 3 and the sentinel. -/
def sseNiStack : FreeStack 16 (BitVec 64) := sentinelStack {0, 1} [2, 3] (by decide)

theorem mem_sseNiStack : ∀ {i : Fin 16}, i ∈ sseNiStack.lanes ↔ i = 0 ∨ i = 1 := by decide

theorem sseNi_layout : Layout sseNiStack 4 where
  top _ := rfl
  pop _ := rfl
  push _ _ := rfl
  lt := by decide
  le := by decide

abbrev SseNiTables (own : J → ℕ → Byte) (s : Sha1MbJobMgr J) (submitted : J → Job Sha1.Digest) :
    Prop := Tables sseNiStack 4 own s submitted

abbrev SseNiReady (own : J → ℕ → Byte) (s : Sha1MbJobMgr J) (submitted : J → Job Sha1.Digest) :
    Prop := Ready sseNiStack 4 own s submitted

variable {s t : Sha1MbJobMgr J} {submitted : J → Job Sha1.Digest} {own : J → ℕ → Byte} {j : J}

theorem sseNi_full_iff (h : SseNiTables own s submitted) :
    s.unusedLanes = 0xF32#64 ↔ s.jobInLane 0 ≠ none ∧ s.jobInLane 1 ≠ none := by
  have hword : s.unusedLanes = 0xF32#64 ↔ (s.lanes 4).unusedLanes.toNat = nibbleStack [2, 3] :=
    ⟨fun he => congrArg BitVec.toNat he, fun he => BitVec.eq_of_toNat_eq he⟩
  rw [hword, h.counted.unusedLanes_eq_iff]
  simp [Sha1MbJobMgr.lanes]

section

variable [DecidableEq J]

/-! ## Submit -/

/-- Two jobs: `sha1_ni_x2` moves both on by the least length, and the job that has it is handed
back. -/
theorem answers_x2 (h : SseNiTables own s submitted) (h0 : s.jobInLane 0 ≠ none)
    (h1 : s.jobInLane 1 ≠ none) (jobs : J → Job Sha1.Digest) :
    let word := minDword (s.lens 1) (s.lens 0)
    let len2 := word &&& ~~~15#32
    let t := if len2 = 0#32 then s
      else
        sha1NiX2 own 4
          { s with
            lens := Function.update (Function.update s.lens 0 (s.lens 0 - len2)) 1
              (s.lens 1 - len2) }
          (len2 >>> 4).toNat
    Answers (sha1Kernel own) InLane (SseNiReady own) submitted (InLane s)
      (t.completeLane 4 jobs (lowNibble four_le_thirtyTwo word)) := by
  obtain ⟨j₀, hj₀⟩ := Option.ne_none_iff_exists'.mp h0
  obtain ⟨j₁, hj₁⟩ := Option.ne_none_iff_exists'.mp h1
  have hword : LeastWord s.lens [1, 0] (minDword (s.lens 1) (s.lens 0)) :=
    (leastWord_singleton 1).append (leastWord_singleton 0)
  have hboth : ∀ i, i ∈ ([1, 0] : List (Fin 16)) → s.jobInLane i ≠ none := fun i hi => by
    rcases List.mem_cons.mp hi with rfl | hi
    · exact h1
    · rw [List.mem_singleton.mp hi]
      exact h0
  obtain ⟨a, k, hk, hlane, hlen, hmin⟩ := exists_least h hword
    (fun i hi hnone => absurd hnone (hboth i hi)) (List.mem_cons_self ..) hj₁
  intro word len2 t
  rw [hlane]
  have hsome : ∀ i k, s.jobInLane i = some k → i = 0 ∨ i = 1 := fun i k hi =>
    mem_sseNiStack.mp (h.counted.usable i k hi)
  have hmem : ∀ i : Fin 16, i = 0 ∨ i = 1 → i ∈ ([1, 0] : List (Fin 16)) := by decide
  have hmin' : ∀ i k, s.jobInLane i = some k →
      (s.lanes 4).left 4 a ≤ (s.lanes 4).left 4 i := fun i k hi =>
    hmin i k (hmem i (hsome i k hi)) hi
  by_cases hz : len2 = 0#32
  · have ht : t = s := if_pos hz
    have hleft : (s.lanes 4).left 4 a = 0 := by
      have hlen0 : len2.toNat = 16 * (s.lanes 4).left 4 a := hlen
      rw [hz, BitVec.toNat_zero] at hlen0
      omega
    rw [ht]
    refine (answers_advanced sseNi_layout h s hk rfl rfl rfl (fun i k _ => ?_) jobs).1
    rw [hleft]
    exact .refl s i
  · obtain ⟨done₀, hlane₀⟩ := h.lane 0 j₀ hj₀
    obtain ⟨done₁, hlane₁⟩ := h.lane 1 j₁ hj₁
    let s₁ : Sha1MbJobMgr J := { s with
      lens := Function.update (Function.update s.lens 0 (s.lens 0 - len2)) 1 (s.lens 1 - len2) }
    have hptr₀ : s₁.dataPtr 0 = some (j₀, (submitted j₀).buffer.add (64 * done₀)) := hlane₀.dataPtr
    have hptr₁ : s₁.dataPtr 1 = some (j₁, (submitted j₁).buffer.add (64 * done₁)) := hlane₁.dataPtr
    have ht : t = _ := (if_neg hz).trans (@sha1NiX2_eq _ 4 _ _ _ _ _ _ hptr₀ hptr₁ _)
    have hn : (len2 >>> 4).toNat = (s.lanes 4).left 4 a := toNat_shift_word hlen
    rw [hn] at ht
    have htable : t.jobInLane = s.jobInLane := by rw [ht]
    have hunused : t.unusedLanes = s.unusedLanes := by rw [ht]
    have hinuse : t.numLanesInuse = s.numLanesInuse := by rw [ht]
    refine (answers_advanced sseNi_layout h t hk htable hunused hinuse (fun i k hi => ?_) jobs).1
    rw [ht]
    have hsub := toNat_lens_sub hlen (hmin' i k hi)
    rcases hsome i k hi with rfl | rfl
    · refine .of_dataPtr hlane₀.dataPtr rfl ?_ hsub
      exact (column_setColumn_of_ne (by decide) (by decide)).trans
        (column_setColumn_self (by decide))
    · exact .of_dataPtr hlane₁.dataPtr rfl (column_setColumn_self (by decide)) hsub

theorem submitSseNi_answers (h : SseNiReady own s submitted) {jobs : J → Job Sha1.Digest}
    (hj : ¬ InLane s j) (hmax : (jobs j).len.toNat ≤ maxBlocksSha1) :
    Answers (sha1Kernel own) InLane (SseNiReady own) (Function.update submitted j (jobs j))
      (fun k => k = j ∨ InLane s k) (s.submitSseNi own jobs j) := by
  obtain ⟨htables, hin⟩ := enterLane_tables sseNi_layout h hj hmax
  have hfull := sseNi_full_iff htables
  unfold submitSseNi
  dsimp only
  split
  · next hwait =>
    have hroom : ∃ i ∈ sseNiStack.lanes,
        (s.enterLane 4 (LaneMgr.startJob jobs j) j).jobInLane i = none := by
      by_cases h0 : (s.enterLane 4 (LaneMgr.startJob jobs j) j).jobInLane 0 = none
      · exact ⟨0, by decide, h0⟩
      · by_cases h1 : (s.enterLane 4 (LaneMgr.startJob jobs j) j).jobInLane 1 = none
        · exact ⟨1, by decide, h1⟩
        · exact absurd (hfull.mpr ⟨h0, h1⟩) hwait
    exact ⟨⟨htables, hroom⟩, hin⟩
  · next hboth =>
    obtain ⟨h0, h1⟩ := hfull.mp (not_not.mp hboth)
    have hret := answers_x2 htables h0 h1 (LaneMgr.startJob jobs j)
    rwa [funext fun k => propext (hin k)] at hret

/-- A call of `sha1_ni_x2` works on two jobs, for the blocks that the shorter one has left. -/
def X2Call (submitted : J → Job Sha1.Digest) (call : Sha1MbJobMgr J × ℕ) : Prop :=
  ∃ j₀ j₁ done₀ done₁, call.1.jobInLane 0 = some j₀ ∧ call.1.jobInLane 1 = some j₁ ∧
    call.1.dataPtr 0 = some (j₀, (submitted j₀).buffer.add (64 * done₀)) ∧
    call.1.dataPtr 1 = some (j₁, (submitted j₁).buffer.add (64 * done₁)) ∧
    call.2 = min ((submitted j₀).len.toNat - done₀) ((submitted j₁).len.toNat - done₁) ∧ 0 < call.2

/-- A submit is this call of the kernel, after the job has entered and before one is completed. -/
theorem submitSseNi_eq_x2 (s : Sha1MbJobMgr J) (jobs : J → Job Sha1.Digest) (j : J) :
    s.submitSseNi own jobs j =
      let jobs' := LaneMgr.startJob jobs j
      let t := s.enterLane 4 jobs' j
      if t.unusedLanes ≠ 0xF32#64 then (t, jobs', none)
      else ((s.submitSseNiX2 jobs j).elim t fun c => c.1.sha1NiX2 own 4 c.2).completeLane 4 jobs'
        (lowNibble four_le_thirtyTwo (minDword (t.lens 1) (t.lens 0))) := by
  dsimp only [submitSseNi, submitSseNiX2]
  split
  · rfl
  · next hfull =>
    simp only [hfull, false_or]
    split
    · rfl
    · rfl

theorem submitSseNiX2_spec (h : SseNiReady own s submitted) {jobs : J → Job Sha1.Digest}
    (hj : ¬ InLane s j) (hmax : (jobs j).len.toNat ≤ maxBlocksSha1) {call : Sha1MbJobMgr J × ℕ}
    (hcall : s.submitSseNiX2 jobs j = some call) :
    X2Call (Function.update submitted j (jobs j)) call := by
  obtain ⟨htables, -⟩ := enterLane_tables sseNi_layout h hj hmax
  dsimp only [submitSseNiX2] at hcall
  generalize s.enterLane 4 (LaneMgr.startJob jobs j) j = t at hcall htables
  generalize Function.update submitted j (jobs j) = submitted' at htables
  split at hcall
  · cases hcall
  · next hrun =>
    obtain ⟨hunused, hlen2⟩ := not_or.mp hrun
    obtain ⟨h0, h1⟩ := (sseNi_full_iff htables).mp (not_not.mp hunused)
    obtain ⟨j₀, hj₀⟩ := Option.ne_none_iff_exists'.mp h0
    obtain ⟨j₁, hj₁⟩ := Option.ne_none_iff_exists'.mp h1
    have hword : LeastWord t.lens [1, 0] (minDword (t.lens 1) (t.lens 0)) :=
      (leastWord_singleton 1).append (leastWord_singleton 0)
    have hboth : ∀ i, i ∈ ([1, 0] : List (Fin 16)) → t.jobInLane i ≠ none := fun i hi => by
      rcases List.mem_cons.mp hi with rfl | hi
      · exact h1
      · rw [List.mem_singleton.mp hi]
        exact h0
    obtain ⟨a, k, hk, -, hlen, hmin⟩ := exists_least htables hword
      (fun i hi hnone => absurd hnone (hboth i hi)) (List.mem_cons_self ..) hj₁
    have hmin₁ := hmin 1 j₁ (List.mem_cons_self ..) hj₁
    have hmin₀ := hmin 0 j₀ (by decide) hj₀
    obtain ⟨done₀, hlane₀⟩ := htables.lane 0 j₀ hj₀
    obtain ⟨done₁, hlane₁⟩ := htables.lane 1 j₁ hj₁
    have hblocks : (t.lanes 4).left 4 a =
        min ((submitted' j₀).len.toNat - done₀) ((submitted' j₁).len.toNat - done₁) := by
      rw [← hlane₀.left_eq sha1_fits.lanes, ← hlane₁.left_eq sha1_fits.lanes]
      rcases mem_sseNiStack.mp (htables.counted.usable a k hk) with rfl | rfl
      · exact (Nat.min_eq_left hmin₁).symm
      · exact (Nat.min_eq_right hmin₀).symm
    have hpos : 0 < (t.lanes 4).left 4 a := by
      refine Nat.pos_of_ne_zero fun hz => hlen2 (BitVec.eq_of_toNat_eq ?_)
      rw [hlen, hz]
      rfl
    cases hcall
    dsimp only [X2Call]
    rw [toNat_shift_word hlen]
    exact ⟨j₀, j₁, done₀, done₁, hj₀, hj₁, hlane₀.dataPtr, hlane₁.dataPtr, hblocks, hpos⟩

/-! ## Flush -/

theorem flushSseNi_answers (h : SseNiReady own s submitted) (x4 : Kernel J Sha1.Digest)
    (jobs : J → Job Sha1.Digest) :
    Answers (sha1Kernel own) InLane (SseNiReady own) submitted (InLane s)
        (s.flushSseNi own x4 jobs) ∧
      ((s.flushSseNi own x4 jobs).2.2 = none ↔ ∀ j, ¬ InLane s j) := by
  have hzero := h.counted.inuse_eq_zero_iff
  unfold flushSseNi
  split
  · next hnum =>
    exact ⟨⟨h, fun _ => Iff.rfl⟩, iff_of_true rfl (hzero.mp (congrArg BitVec.toNat hnum))⟩
  · next hnum =>
    have hsome : ¬ ∀ j, ¬ InLane s j := fun hno => hnum (BitVec.eq_of_toNat_eq (hzero.mpr hno))
    have hocc := hsome
    push Not at hocc
    obtain ⟨j₀, i₀, hj₀⟩ := hocc
    have htables := copyLaneData_tables h.toTables
    have hempty : ∀ i : Fin 16, i.val < 4 → (s.copyLaneData 4).jobInLane i = none →
        (s.copyLaneData 4).lens i = 0xFFFFFFFF#32 := fun i hi hnone => by
      have hnone' : s.jobInLane i = none := hnone
      exact if_pos ⟨hi, by rw [hnone']; rfl⟩
    have hin : InLane (s.copyLaneData 4) = InLane s := rfl
    have hj₀' : (s.copyLaneData 4).jobInLane i₀ = some j₀ := hj₀
    have hsome' : ¬ ∀ j, ¬ InLane (s.copyLaneData 4) j := hsome
    dsimp only
    rw [← hin]
    generalize s.copyLaneData 4 = t at htables hempty hj₀' hsome'
    have hword : LeastWord t.lens [3, 2, 1, 0]
        (minDword (t.lens 3) (minDword (t.lens 2) (minDword (t.lens 1) (t.lens 0)))) :=
      (leastWord_singleton 3).append ((leastWord_singleton 2).append
        ((leastWord_singleton 1).append (leastWord_singleton 0)))
    have hmem : ∀ i : Fin 16, i ∈ ([3, 2, 1, 0] : List (Fin 16)) ↔ i.val < 4 := by decide
    have hlt : ∀ i k, t.jobInLane i = some k → i.val < 4 := fun i k hi =>
      sseNi_layout.lt i (htables.counted.usable i k hi)
    obtain ⟨a, k, hk, hlane, hlen, hmin⟩ := exists_least htables hword
      (fun i hi hnone => hempty i ((hmem i).mp hi) hnone) ((hmem i₀).mpr (hlt i₀ j₀ hj₀')) hj₀'
    -- two lanes are never more than the threshold
    have hfew : ¬ 4#32 < t.numLanesInuse := by
      have hcard := Finset.card_le_card htables.counted.occupied_subset
      rw [← htables.counted.inuse] at hcard
      exact Nat.not_lt.mpr (hcard.trans (by decide))
    rw [hlane, toNat_shift_word hlen, if_neg hfew]
    split
    · next hz =>
      have hleft : (t.lanes 4).left 4 a = 0 := by
        rw [hz, BitVec.toNat_zero] at hlen
        omega
      have hret := answers_advanced sseNi_layout htables t hk rfl rfl rfl
        (fun i k _ => hleft.symm ▸ .refl t i) jobs
      exact ⟨hret.1, iff_of_false hret.2 hsome'⟩
    · have hret := answers_x1 sseNi_layout htables hk jobs
      exact ⟨hret.1, iff_of_false hret.2 hsome'⟩

/-! ## Runs -/

omit [DecidableEq J] in
theorem initSse_tables (own : J → ℕ → Byte) (s : Sha1MbJobMgr J) (submitted : J → Job Sha1.Digest) :
    SseNiTables own s.initSse submitted where
  counted.free := ⟨[0, 1], by rfl, by decide, fun i => by
    have hnone : (s.initSse.lanes 4).jobInLane i = none := rfl
    rw [and_iff_left hnone, mem_sseNiStack, List.mem_cons, List.mem_singleton]⟩
  counted.inuse := by
    have hocc : (s.initSse.lanes 4).occupied = ∅ := by
      ext i
      simp [Sha1MbJobMgr.lanes, initSse]
    rw [hocc]
    rfl
  counted.usable := nofun
  counted.inj := nofun
  len_le := nofun
  lane := nofun

theorem schedulerSseNi_serves (own : J → ℕ → Byte) (x4 : Kernel J Sha1.Digest) :
    (schedulerSseNi own x4).Serves (sha1Kernel own) maxBlocksSha1 InLane (SseNiReady own) where
  init s submitted :=
    ⟨⟨initSse_tables own s submitted, 0, by decide, rfl⟩, fun _ ⟨_, hi⟩ => nomatch hi⟩
  submit _ h hj _ hmax := submitSseNi_answers h hj hmax
  flush h := flushSseNi_answers h x4 _

/-- What holds after every run. The free lanes are `0xF32` and, below it, those of the lanes 0 and 1
without a job; of the job in a lane some blocks are done, and its digest, data pointer and length
say so; each job is handed back exactly once; and a submit that may follow runs `sha1_ni_x2` only on
two jobs, for the blocks that the shorter one has left. -/
structure SseNiContract (own : J → ℕ → Byte) (x4 : Kernel J Sha1.Digest)
    (c : SchedState (Sha1MbJobMgr J) J Sha1.Digest) : Prop where
  occupied : ∀ i j, c.mgr.jobInLane i = some j → i = 0 ∨ i = 1
  one_free : c.mgr.jobInLane 0 = none ∨ c.mgr.jobInLane 1 = none
  unused : ∃ free : List (Fin 16), c.mgr.unusedLanes.toNat = nibbleStack (free ++ [2, 3]) ∧
    free.Nodup ∧ ∀ i, i ∈ free ↔ (i = 0 ∨ i = 1) ∧ c.mgr.jobInLane i = none
  lanes : ∀ i j, c.mgr.jobInLane i = some j →
    ∃ done, (c.mgr.lanes 4).LaneHas (sha1Kernel own) 4 i j (c.submitted j) done
  once : c.ExactlyOnce (schedulerSseNi own x4) (sha1Kernel own) InLane
  x2 : ∀ j buffer len digest,
    SchedCall.Allowed InLane maxBlocksSha1 c (.submit j buffer len digest) →
    ∀ call, c.mgr.submitSseNiX2 (c.fill (sha1Kernel own) (.submit j buffer len digest)).jobs j =
      some call → X2Call (c.fill (sha1Kernel own) (.submit j buffer len digest)).submitted call

/-- Every run of submits and flushes meets the contract. -/
theorem mgrSseNi_contract (own : J → ℕ → Byte) (x4 : Kernel J Sha1.Digest) (s : Sha1MbJobMgr J)
    (jobs : J → Job Sha1.Digest) (calls : List (SchedCall J Sha1.Digest))
    (hcalls : Guarded (SchedState.step (schedulerSseNi own x4) (sha1Kernel own))
      (fun c a => a.Allowed InLane maxBlocksSha1 c)
        (.initial (schedulerSseNi own x4) s jobs) calls) :
    SseNiContract own x4 (Lib.run (SchedState.step (schedulerSseNi own x4) (sha1Kernel own))
      (.initial (schedulerSseNi own x4) s jobs) calls) := by
  have hserves := schedulerSseNi_serves own x4
  have hgood := hserves.run s jobs hcalls
  generalize Lib.run (SchedState.step (schedulerSseNi own x4) (sha1Kernel own))
    (.initial (schedulerSseNi own x4) s jobs) calls = c at hgood
  have husable : ∀ i j, c.mgr.jobInLane i = some j → i = 0 ∨ i = 1 := fun i j hi =>
    mem_sseNiStack.mp (hgood.1.counted.usable i j hi)
  refine ⟨husable, ?_, ?_, hgood.1.lane, ?_, fun j buffer len digest hallowed call hcall => ?_⟩
  · obtain ⟨i, hi, hnone⟩ := hgood.1.room
    rcases mem_sseNiStack.mp hi with rfl | rfl
    · exact .inl hnone
    · exact .inr hnone
  · obtain ⟨free, hholds, hnodup, hmem⟩ := hgood.1.counted.free
    refine ⟨free, hholds, hnodup, fun i => ?_⟩
    rw [hmem, mem_sseNiStack]
    rfl
  · exact hserves.exactlyOnce hgood (c.mgr.lanes 0).exists_finset_inLane
  · obtain ⟨hj, -, hmax⟩ := hallowed
    have hjob := @SchedState.fill_jobs _ _ _ _ (sha1Kernel own) c j buffer len digest
    have hspec := submitSseNiX2_spec hgood.1 hj (by rwa [hjob]) hcall
    rwa [hjob] at hspec

end

/-- Jobs of one, three and one blocks and two flushes. The first one is the padded `abc`. -/
theorem mgrSseNi_contract_three_jobs :
    let own : ℕ → ℕ → Byte := fun _ _ => 0#8
    let abc : ℕ → Byte := fun k =>
      [0x61#8, 0x62#8, 0x63#8, 0x80#8].getD k (if k = 63 then 24#8 else 0#8)
    let zeros : Sha1.Digest := #v[0#32, 0#32, 0#32, 0#32, 0#32]
    let start : SchedState (Sha1MbJobMgr ℕ) ℕ Sha1.Digest :=
      .initial (schedulerSseNi own (sha1Kernel own))
        ⟨fun _ => 0#32, fun _ => none, fun _ => 0#32, 0#64, fun _ => none, 0#32⟩
        fun _ => ⟨.partialBlock 0, 0#64, zeros, .unknown⟩
    let calls : List (SchedCall ℕ Sha1.Digest) := [.submit 0 (.user abc) 1#64 Sha1.initial,
      .submit 1 (.user fun k => BitVec.ofNat 8 k) 3#64 Sha1.initial,
      .submit 2 (.partialBlock 0) 1#64 zeros, .flush, .flush]
    let c := Lib.run (SchedState.step (schedulerSseNi own (sha1Kernel own)) (sha1Kernel own)) start
      calls
    c.ledger[2]? = some (.given 0
        #v[0xa9993e36#32, 0x4706816a#32, 0xba3e2571#32, 0x7850c26c#32, 0x9cd0d89d#32]) ∧
      SseNiContract own (sha1Kernel own) c := by
  intro own abc zeros start calls c
  refine ⟨by decide +kernel, ?_⟩
  exact mgrSseNi_contract own _ _ _ calls (by decide +kernel)

end IsalCrypto.Sha1Mb
