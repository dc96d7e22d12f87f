import IsalCrypto.Sha1Mb.Mgr

/-!
# What the parts of the SHA-1 lane managers do

For a manager with `stride` lanes and any of the ways to keep the free ones: a job enters the lane
on top, the kernels move lanes on, and one job is handed back.
-/

namespace IsalCrypto.Sha1Mb

open IsalCrypto.Lib IsalCrypto.Mb Sha1MbJobMgr

variable {J : Type*} {st : FreeStack 16 (BitVec 64)} {stride : ℕ}

/-- No buffer of 32-bit length has more blocks. -/
abbrev maxBlocksSha1 : ℕ := 2 ^ 26 - 1

theorem sha1_fits : LaneMgr.Fits 16 4 maxBlocksSha1 := ⟨by decide, by decide⟩

/-- The free lanes are nibbles of a word, and all lanes used have their own columns. -/
structure Layout (st : FreeStack 16 (BitVec 64)) (stride : ℕ) : Prop where
  top : ∀ w, st.top w = lowNibble (by decide) w
  pop : ∀ w, st.pop w = w >>> 4
  push : ∀ w i, st.push w i = w <<< 4 ||| BitVec.ofNat 64 i
  lt : ∀ i ∈ st.lanes, i.val < stride
  le : stride ≤ 16

variable {s t : Sha1MbJobMgr J} {submitted : J → Job Sha1.Digest} {own : J → ℕ → Byte}
  {i idx : Fin 16}
  {j : J}

/-- Job `j` is in a lane. -/
abbrev InLane (s : Sha1MbJobMgr J) (j : J) : Prop := (s.lanes 0).InLane j

/-- What a manager keeps inside a call. -/
abbrev Tables (st : FreeStack 16 (BitVec 64)) (stride : ℕ) (own : J → ℕ → Byte) (s : Sha1MbJobMgr J)
    (submitted : J → Job Sha1.Digest) : Prop :=
  (s.lanes stride).Tables st (sha1Kernel own) 4 maxBlocksSha1 submitted

/-- What it keeps between calls. -/
abbrev Ready (st : FreeStack 16 (BitVec 64)) (stride : ℕ) (own : J → ℕ → Byte) (s : Sha1MbJobMgr J)
    (submitted : J → Job Sha1.Digest) : Prop :=
  (s.lanes stride).Ready st (sha1Kernel own) 4 maxBlocksSha1 submitted

theorem sha1Kernel_lawful (own : J → ℕ → Byte) : (sha1Kernel own).Lawful 64 :=
  blockKernel_lawful own sha1Compress

section

variable [DecidableEq J]

/-! ## A job enters -/

omit [DecidableEq J] in
theorem digest_enterLane (hlay : Layout st stride) (htop : st.top s.unusedLanes ∈ st.lanes)
    (hi : i.val < stride) (jobs : J → Job Sha1.Digest) :
    ((s.enterLane stride jobs j).lanes stride).digest i =
      ((s.lanes stride).enterLane 4 (st.top s.unusedLanes) (st.pop s.unusedLanes) jobs j).digest
        i := by
  have hlane := hlay.lt _ htop
  rw [hlay.top] at hlane ⊢
  change column stride i (setColumn stride (lowNibble (by decide) s.unusedLanes)
    (jobs j).resultDigest s.digest) = Function.update (fun i => column stride i.val s.digest) _ _ i
  rcases eq_or_ne i (lowNibble (by decide) s.unusedLanes) with rfl | hne
  · rw [Function.update_self, column_setColumn_self hi]
  · rw [Function.update_of_ne hne, column_setColumn_of_ne hi fun he => hne (Fin.ext he)]

/-- A job takes the lane on top of the free lanes. -/
theorem enterLane_tables (hlay : Layout st stride) (h : Ready st stride own s submitted)
    (hj : ¬ InLane s j) {jobs : J → Job Sha1.Digest} (hmax : (jobs j).len.toNat ≤ maxBlocksSha1) :
    Tables st stride own (s.enterLane stride (LaneMgr.startJob jobs j) j)
        (Function.update submitted j (jobs j)) ∧
      ∀ k, InLane (s.enterLane stride (LaneMgr.startJob jobs j) j) k ↔ k = j ∨ InLane s k := by
  obtain ⟨htables, hin⟩ := h.enter sha1_fits (sha1Kernel_lawful own) hj hmax
  have htop := h.counted.top_free h.room
  have hlane : st.top s.unusedLanes = lowNibble (by decide) s.unusedLanes := hlay.top _
  have htable : ((s.lanes stride).enterLane 4 (st.top s.unusedLanes) (st.pop s.unusedLanes)
      (LaneMgr.startJob jobs j) j).jobInLane =
        (s.enterLane stride (LaneMgr.startJob jobs j) j).jobInLane := by
    rw [hlane]
    rfl
  constructor
  · refine htables.congr htable.symm ?_ rfl fun i j' hi => ⟨?_, ?_, ?_⟩
    · exact (hlay.pop _).symm
    · exact congrArg (fun lane => Function.update s.dataPtr lane _ i) hlane.symm
    · exact digest_enterLane hlay htop.1 (hlay.lt i (htables.counted.usable i j' hi)) _
    · change _ = Function.update s.lens (st.top s.unusedLanes)
        ((((LaneMgr.startJob jobs j j).len.setWidth
        32).setWidth 64 <<< 4 ||| BitVec.ofNat 64 (st.top s.unusedLanes)).setWidth 32) i
      rw [hlane]
      rfl
  · intro k
    refine Iff.trans (exists_congr fun i => ?_) (hin k)
    change (s.enterLane stride (LaneMgr.startJob jobs j) j).jobInLane i = some k ↔ _
    rw [← htable]
    rfl

/-! ## A job is handed back -/

theorem lanes_completeLane (hlay : Layout st stride) (s : Sha1MbJobMgr J)
    (jobs : J → Job Sha1.Digest) (idx : Fin 16) :
    ((s.completeLane stride jobs idx).1.lanes stride, (s.completeLane stride jobs idx).2) =
      (s.lanes stride).completeLane jobs idx (st.push s.unusedLanes idx) := by
  have hlanes : (s.lanes stride).jobInLane idx = s.jobInLane idx := rfl
  rw [hlay.push, LaneMgr.completeLane, Sha1MbJobMgr.completeLane, hlanes]
  cases s.jobInLane idx with
  | none => rfl
  | some j => rfl

/-- The job in lane `idx` is handed back, from the tables `t` that a kernel has left. -/
theorem answers_completeLane (hlay : Layout st stride) (h : Tables st stride own s submitted)
    (t : Sha1MbJobMgr J) (hidx : s.jobInLane idx = some j) (htable : t.jobInLane = s.jobInLane)
    (hunused : t.unusedLanes = s.unusedLanes) (hinuse : t.numLanesInuse = s.numLanesInuse)
    (hmoved : ∀ i k, i ≠ idx → s.jobInLane i = some k →
      ∃ m, LaneMgr.Moved (sha1Kernel own) 4 (s.lanes stride) (t.lanes stride) i k m)
    (hdigest : ∀ ptr, s.dataPtr idx = some (j, ptr) → column stride idx t.digest =
      sha1Kernel own j ptr ((s.lanes stride).left 4 idx) (column stride idx s.digest))
    (jobs : J → Job Sha1.Digest) :
    Answers (sha1Kernel own) InLane (Ready st stride own) submitted (InLane s)
        (t.completeLane stride jobs idx) ∧ (t.completeLane stride jobs idx).2.2 ≠ none := by
  have hlanes := lanes_completeLane hlay t jobs idx
  have hret :=
    h.completeLane sha1_fits.lanes (sha1Kernel_lawful own) hidx htable hinuse hmoved hdigest
    jobs
  change Answers _ _ _ _ _ ((t.lanes stride).completeLane jobs idx (st.push s.unusedLanes idx)) ∧
    ((t.lanes stride).completeLane jobs idx (st.push s.unusedLanes idx)).2.2 ≠ none at hret
  rw [← hunused, ← hlanes] at hret
  exact hret

/-! ## The kernels -/

omit [DecidableEq J] in
/-- `sha1_ni_x1` moves its lane on and leaves the others. -/
theorem sha1NiX1_eq {ptr : BufferPtr} (hptr : s.dataPtr idx = some (j, ptr))
    (n : ℕ) :
    s.sha1NiX1 own stride n idx = { s with
      digest := setColumn stride idx (sha1Kernel own j ptr n (column stride idx s.digest)) s.digest
      dataPtr := Function.update s.dataPtr idx (some (j, ptr.add (64 * n))) } := by
  obtain ⟨hdptr, hstore⟩ := @lloop_eq _ own j n ptr (column stride idx s.digest)
    (niLoad (column stride idx s.digest)) rfl rfl
  rw [sha1NiX1, hptr]
  dsimp only
  rw [hdptr, hstore]

omit [DecidableEq J] in
/-- `sha1_ni_x2` moves the lanes 0 and 1 on by as many blocks. -/
theorem sha1NiX2_eq {jb : J} {ptr ptrb : BufferPtr}
    (hptr : s.dataPtr 0 = some (j, ptr)) (hptrb : s.dataPtr 1 = some (jb, ptrb)) (n : ℕ) :
    s.sha1NiX2 own stride n = { s with
      digest := setColumn stride 1 (sha1Kernel own jb ptrb n (column stride 1 s.digest))
        (setColumn stride 0 (sha1Kernel own j ptr n (column stride 0 s.digest)) s.digest)
      dataPtr := Function.update (Function.update s.dataPtr 0 (some (j, ptr.add (64 * n)))) 1
        (some (jb, ptrb.add (64 * n))) } := by
  obtain ⟨hdptr, hstore⟩ := @lloop_eq _ own j n ptr (column stride 0 s.digest)
    (niLoad (column stride 0 s.digest)) rfl rfl
  obtain ⟨hdptrb, hstoreb⟩ := @lloop_eq _ own jb n ptrb (column stride 1 s.digest)
    (niLoad (column stride 1 s.digest)) rfl rfl
  rw [sha1NiX2, hptr, hptrb]
  dsimp only
  rw [hdptr, hstore, hdptrb, hstoreb]

omit [DecidableEq J] in
theorem column_sha1MbXN (hi : i.val < stride) (kern : Kernel J Sha1.Digest)
    (s : Sha1MbJobMgr J) (n : ℕ) :
    column stride i (s.sha1MbXN kern stride n).digest = (s.lanes stride).hashLane kern n i := by
  refine Vector.ext fun r hr => ?_
  have hmod : (stride * r + i) % stride = i := by rw [Nat.mul_add_mod, Nat.mod_eq_of_lt hi]
  have hdiv : (stride * r + i) / stride = r := by
    rw [Nat.mul_add_div (Nat.zero_lt_of_lt hi), Nat.div_eq_of_lt hi, Nat.add_zero]
  have hlane : Fin.ofNat 16 ((stride * r + i) % stride) = i := by
    rw [hmod]
    exact Fin.ext (Nat.mod_eq_of_lt i.isLt)
  rw [column, Vector.getElem_ofFn, sha1MbXN]
  dsimp only
  rw [dif_pos (hdiv.trans_lt hr)]
  simp only [hlane, hdiv]

/-! ## The lanes move on -/

/-- In lane `i`, `n` blocks are done in `t`. -/
structure Advanced (own : J → ℕ → Byte) (stride : ℕ) (s t : Sha1MbJobMgr J) (i : Fin 16) (n : ℕ) :
    Prop where
  dataPtr : t.dataPtr i = (s.dataPtr i).map fun q => (q.1, q.2.add (64 * n))
  digest : column stride i t.digest = (s.lanes stride).hashLane (sha1Kernel own) n i
  lens : (t.lens i).toNat + 16 * n = (s.lens i).toNat

omit [DecidableEq J] in
theorem Advanced.refl (s : Sha1MbJobMgr J) (i : Fin 16) : Advanced own stride s s i 0 := by
  refine ⟨?_, ?_, rfl⟩
  · cases s.dataPtr i with
    | none => rfl
    | some q => exact congrArg (fun p => some (q.1, p)) (BufferPtr.add_zero q.2).symm
  · have hptr : (s.lanes stride).dataPtr i = s.dataPtr i := rfl
    rw [LaneMgr.hashLane, hptr]
    cases s.dataPtr i with
    | none => rfl
    | some q => rfl

omit [DecidableEq J] in
/-- A lane whose job has its data at `ptr`. -/
theorem Advanced.of_dataPtr {n : ℕ} {ptr : BufferPtr} (hptr : s.dataPtr i = some (j, ptr))
    (hnext : t.dataPtr i = some (j, ptr.add (64 * n)))
    (hdigest : column stride i t.digest = sha1Kernel own j ptr n (column stride i s.digest))
    (hlens : (t.lens i).toNat + 16 * n = (s.lens i).toNat) : Advanced own stride s t i n := by
  refine ⟨?_, ?_, hlens⟩
  · rw [hptr, hnext]
    rfl
  · have hptr' : (s.lanes stride).dataPtr i = some (j, ptr) := hptr
    rw [LaneMgr.hashLane, hptr', hdigest]
    rfl

omit [DecidableEq J] in
theorem Advanced.moved {n : ℕ} (h : Advanced own stride s t i n) :
    LaneMgr.Moved (sha1Kernel own) 4 (s.lanes stride) (t.lanes stride) i j n := by
  refine ⟨fun ptr hptr => ?_, fun ptr hptr => ?_, h.lens⟩
  · have hptr' : s.dataPtr i = some (j, ptr) := hptr
    exact h.dataPtr.trans (by rw [hptr']; rfl)
  · refine h.digest.trans ?_
    rw [LaneMgr.hashLane, hptr]

/-- All lanes with a job have moved on by the least length, and the job that has it is handed
back. -/
theorem answers_advanced (hlay : Layout st stride) (h : Tables st stride own s submitted)
    (t : Sha1MbJobMgr J) (hidx : s.jobInLane idx = some j) (htable : t.jobInLane = s.jobInLane)
    (hunused : t.unusedLanes = s.unusedLanes) (hinuse : t.numLanesInuse = s.numLanesInuse)
    (hall : ∀ i k, s.jobInLane i = some k → Advanced own stride s t i ((s.lanes stride).left 4 idx))
    (jobs : J → Job Sha1.Digest) :
    Answers (sha1Kernel own) InLane (Ready st stride own) submitted (InLane s)
        (t.completeLane stride jobs idx) ∧ (t.completeLane stride jobs idx).2.2 ≠ none :=
  answers_completeLane hlay h t hidx htable hunused hinuse
    (fun i k _ hk => ⟨_, (hall i k hk).moved⟩) ((hall idx j hidx).moved (j := j)).digest jobs

/-- Only the lane with the least length has moved on, by `sha1_ni_x1`, and its job is handed
back. -/
theorem answers_x1 (hlay : Layout st stride) (h : Tables st stride own s submitted)
    (hidx : s.jobInLane idx = some j) (jobs : J → Job Sha1.Digest) :
    let t := sha1NiX1 own stride
      { s with lens := Function.update s.lens idx (BitVec.ofNat 32 idx) }
      ((s.lanes stride).left 4 idx) idx
    Answers (sha1Kernel own) InLane (Ready st stride own) submitted (InLane s)
        (t.completeLane stride jobs idx) ∧ (t.completeLane stride jobs idx).2.2 ≠ none := by
  obtain ⟨done, hlane⟩ := h.lane idx j hidx
  have hi : idx.val < stride := hlay.lt idx (h.counted.usable idx j hidx)
  have hptr : ({ s with lens := Function.update s.lens idx (BitVec.ofNat 32 idx) } :
      Sha1MbJobMgr J).dataPtr idx = some (j, (submitted j).buffer.add (64 * done)) := hlane.dataPtr
  intro t
  have ht : t = _ := sha1NiX1_eq hptr _
  have htable : t.jobInLane = s.jobInLane := by rw [ht]
  have hunused : t.unusedLanes = s.unusedLanes := by rw [ht]
  have hinuse : t.numLanesInuse = s.numLanesInuse := by rw [ht]
  refine answers_completeLane hlay h t hidx htable hunused hinuse (fun i k hne hk => ⟨0, ?_⟩)
    (fun ptr hq => ?_) jobs
  · have hk' : i.val < stride := hlay.lt i (h.counted.usable i k hk)
    rw [ht]
    refine .of_eq (sha1Kernel_lawful own) ?_ ?_ ?_
    · exact Function.update_of_ne hne ..
    · exact column_setColumn_of_ne hk' fun he => hne (Fin.ext he)
    · exact Function.update_of_ne hne ..
  · have hq' : s.dataPtr idx = some (j, (submitted j).buffer.add (64 * done)) := hlane.dataPtr
    rw [hq'] at hq
    obtain rfl : (submitted j).buffer.add (64 * done) = ptr :=
      congrArg Prod.snd (Option.some.inj hq)
    rw [ht]
    exact column_setColumn_self hi

/-! ## The least length -/

omit [DecidableEq J] in
/-- The least word of some lanes tells the lane that has it, and how many blocks it has left. -/
theorem exists_least (h : Tables st stride own s submitted) {l : List (Fin 16)} {word : BitVec 32}
    (hword : LeastWord s.lens l word)
    (hempty : ∀ i ∈ l, s.jobInLane i = none → s.lens i = 0xFFFFFFFF#32) (hi : i ∈ l)
    (hocc : s.jobInLane i = some j) :
    ∃ a k, s.jobInLane a = some k ∧ lowNibble (by decide) word = a ∧
      (word &&& ~~~15#32).toNat = 16 * (s.lanes stride).left 4 a ∧
      ∀ i k, i ∈ l → s.jobInLane i = some k →
        (s.lanes stride).left 4 a ≤ (s.lanes stride).left 4 i := by
  obtain ⟨a, k, hk, rfl, hlane, hmin⟩ :=
    LaneMgr.Tables.exists_least sha1_fits h hword hempty hi hocc
  exact ⟨a, k, hk, Fin.ext ((val_lowNibble ..).trans hlane), toNat_and_not_fifteen _, hmin⟩

omit [DecidableEq J] in
/-- The number of blocks in a masked word. -/
theorem toNat_shift_word {len2 : BitVec 32} {n : ℕ} (hlen : len2.toNat = 16 * n) :
    (len2 >>> 4).toNat = n := by
  rw [BitVec.toNat_ushiftRight, hlen, Nat.shiftRight_eq_div_pow]
  exact Nat.mul_div_cancel_left _ (by decide)

omit [DecidableEq J] in
/-- A length is lowered by a number of blocks. -/
theorem toNat_lens_sub {len2 : BitVec 32} {n : ℕ} (hlen : len2.toNat = 16 * n)
    (hle : n ≤ (s.lanes stride).left 4 i) :
    (s.lens i - len2).toNat + 16 * n = (s.lens i).toNat := by
  have hmul : 16 * (s.lanes stride).left 4 i ≤ (s.lens i).toNat := Nat.mul_div_le ..
  have hsub : len2.toNat ≤ (s.lens i).toNat := by
    rw [hlen]
    exact (Nat.mul_le_mul_left 16 hle).trans hmul
  rw [BitVec.toNat_sub_of_le hsub, hlen, Nat.sub_add_cancel (hlen ▸ hsub)]

omit [DecidableEq J] in
/-- `copy_lane_data` does not touch a lane with a job. -/
theorem copyLaneData_tables (h : Tables st stride own s submitted) :
    Tables st stride own (s.copyLaneData stride) submitted := by
  refine h.congr rfl rfl rfl fun i j hi => ?_
  have hi' : s.jobInLane i = some j := hi
  have hcond : ¬ (i.val < stride ∧ (s.jobInLane i).isNone) := fun hnone => by
    rw [hi'] at hnone
    exact absurd hnone.2 (by simp)
  exact ⟨if_neg hcond, rfl, if_neg hcond⟩

end

end IsalCrypto.Sha1Mb
