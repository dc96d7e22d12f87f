import IsalCrypto.Lib.Runs
import IsalCrypto.Sha256Mb.MgrCeSpec

/-!
# Runs of the C lane scheduler

Every sequence of calls of `sha256_mb_mgr_submit_ce` and `sha256_mb_mgr_flush_ce` from
`sha256_mb_mgr_init_ce`. Beside the digest of a job stands the number of its blocks that the
kernels have not processed; the scheduler never reads digests, so it runs the same with it.

* `step_outcome`: what one call works on and how it ends.
* `mgrCe_invariant`: after every run the tables agree with each other and with that number, and
  what holds of one more call.
-/

namespace IsalCrypto.Sha256Mb

open IsalCrypto.Lib IsalCrypto.Mb Sha256MbJobMgr

variable {J D : Type*} [DecidableEq J]

/-- A kernel that counts down the blocks it processes. -/
def countdown (kern : Kernel J D) : Kernel J (D × ℤ) := fun j ptr n d => (kern j ptr n d.1, d.2 - n)

/-- A manager and the jobs, with what the last call returned. -/
structure MbState (J D : Type*) where
  mgr : Sha256MbJobMgr J (D × ℤ)
  jobs : J → Job (D × ℤ)
  returned : Option J

/-- The blocks of a job not processed yet. -/
def MbState.unprocessed (c : MbState J D) (j : J) : ℤ := (c.jobs j).resultDigest.2

/-- A call of the scheduler layer; the caller fills the job before it submits it. -/
inductive MbCall (J D : Type*)
  | submit (j : J) (buffer : BufferPtr) (len : BitVec 64) (digest : D)
  | flush

/-- The state when the manager is called. -/
def MbState.fill (c : MbState J D) : MbCall J D → MbState J D
  | .submit j buffer len digest =>
    { c with
      jobs := Function.update c.jobs j
        { c.jobs j with buffer := buffer, len := len, resultDigest := (digest, len.toNat) } }
  | .flush => c

/-- What a call of the manager leaves. -/
def MbState.afterCall (r : Sha256MbJobMgr J (D × ℤ) × (J → Job (D × ℤ)) × Option J) :
    MbState J D :=
  ⟨r.1, r.2.1, r.2.2⟩

/-- A call. -/
def MbState.step (kern : Kernel J D) (c : MbState J D) (a : MbCall J D) : MbState J D :=
  let f := c.fill a
  match a with
  | .submit j _ _ _ => .afterCall (f.mgr.submitCe (countdown kern) f.jobs j)
  | .flush => .afterCall (f.mgr.flushCe (countdown kern) f.jobs)

/-- A job of 1 to 2^25-1 blocks may be submitted while it is in no lane. -/
def MbCall.Allowed (c : MbState J D) : MbCall J D → Prop
  | .submit j _ len _ =>
    (∀ i, c.mgr.jobInLane i ≠ some j) ∧ 0 < len.toNat ∧ len.toNat ≤ maxBlocksCe
  | .flush => True

instance (c : MbState J D) (a : MbCall J D) : Decidable (a.Allowed c) :=
  match a with
  | .submit j _ _ _ => inferInstanceAs (Decidable ((∀ i, c.mgr.jobInLane i ≠ some j) ∧ _ ∧ _))
  | .flush => .isTrue trivial

/-- The assertions that a call runs into. -/
def MbCall.Asserts (kern : Kernel J D) (c : MbState J D) (a : MbCall J D) : Prop :=
  match a with
  | .submit j _ _ _ => (c.fill a).mgr.SubmitAsserts (countdown kern) (c.fill a).jobs j
  | .flush => True

/-- After `sha256_mb_mgr_init_ce`. -/
def MbState.initial (s : Sha256MbJobMgr J (D × ℤ)) (jobs : J → Job (D × ℤ)) : MbState J D :=
  ⟨s.initCe, jobs, none⟩

/-- The four encodings of the lanes agree, and a lane is free. -/
structure MbState.Tables (c : MbState J D) : Prop where
  free : ∃ free : List (Fin 16), c.mgr.unusedLanes.toNat = nibbleStack free ∧ free.Nodup ∧
    ∀ i, i ∈ free ↔ i.val < 3 ∧ c.mgr.jobInLane i = none
  inuse : c.mgr.numLanesInuse.toNat =
    (Finset.univ.filter fun i => (c.mgr.jobInLane i).isSome).card
  lane : ∀ i j, c.mgr.jobInLane i = some j → i.val < 3 ∧
    c.mgr.lens i &&& 15#32 = BitVec.ofNat 32 i ∧
    ((c.mgr.lens i >>> 4).toNat : ℤ) = c.unprocessed j
  room : ∃ i : Fin 16, i.val < 3 ∧ c.mgr.jobInLane i = none

/-- A job that a call leaves in its lane with nothing to process was left so before, or it has
become so together with the job that the call returns. -/
def MbState.FinishedTogether (kern : Kernel J D) (c : MbState J D) (a : MbCall J D) : Prop :=
  ∀ i j, (c.step kern a).mgr.jobInLane i = some j → (c.step kern a).unprocessed j = 0 →
    c.mgr.jobInLane i = some j ∧ c.unprocessed j = 0 ∨
      ∃ k, k ≠ j ∧ (c.step kern a).returned = some k ∧ (c.step kern a).unprocessed k = 0 ∧
        (c.fill a).unprocessed k = (c.fill a).unprocessed j ∧ 0 < (c.fill a).unprocessed j

variable {kern : Kernel J D} {s : Sha256MbJobMgr J (D × ℤ)} {jobs : J → Job (D × ℤ)}
  {c : MbState J D}

/-! ## One outcome -/

/-- The lengths count the blocks not processed. -/
def Counts (s : Sha256MbJobMgr J (D × ℤ)) (jobs : J → Job (D × ℤ)) : Prop :=
  ∀ i j, s.jobInLane i = some j → (s.left i : ℤ) = (jobs j).resultDigest.2

theorem hashed_counts {n : ℕ}
    {r : Sha256MbJobMgr J (D × ℤ) × (J → Job (D × ℤ)) × Option (BitVec 32)}
    (hr : Hashed (countdown kern) s jobs n r) {i : Fin 16} {j : J} (hi : s.jobInLane i = some j) :
    (r.2.1 j).resultDigest.2 = (jobs j).resultDigest.2 - n := by
  rw [hr.digest i j hi, countdown]

theorem Outcome.counts {r : Sha256MbJobMgr J (D × ℤ) × (J → Job (D × ℤ)) × Option J}
    (hr : Outcome (countdown kern) s jobs r) (hc : Counts s jobs) (h : s.Lanes 3 maxBlocksCe) :
    Counts r.1 r.2.1 := by
  cases hr with
  | finished i j hi _ =>
    intro k j' hk
    obtain ⟨hne, hk⟩ := jobInLane_release.mp hk
    have hj : j' ≠ j := fun he => hne (h.inj _ _ _ (he ▸ hk) hi)
    dsimp only
    rw [left_release, Function.update_of_ne hj]
    exact hc k j' hk
  | waits _ _ => exact hc
  | hashed i j r _ hr hi =>
    intro k j' hk
    obtain ⟨hne, hk⟩ := jobInLane_release.mp hk
    rw [hr.table] at hk
    have hj : j' ≠ j := fun he => hne (h.inj _ _ _ (he ▸ hk) hi)
    have hleft := hr.left hk
    have hcount := hc k j' hk
    dsimp only
    rw [left_release, Function.update_of_ne hj, hashed_counts hr hk]
    omega

/-- A job with nothing left to process has been so before, or the outcome returns a job that had as
much left. -/
theorem Outcome.together {r : Sha256MbJobMgr J (D × ℤ) × (J → Job (D × ℤ)) × Option J}
    (hr : Outcome (countdown kern) s jobs r) (hc : Counts s jobs) (h : s.Lanes 3 maxBlocksCe)
    {i : Fin 16} {j : J} (hi : r.1.jobInLane i = some j) (hz : (r.2.1 j).resultDigest.2 = 0) :
    s.jobInLane i = some j ∧ ((jobs j).resultDigest.2 = 0 ∨
      ∃ k, k ≠ j ∧ r.2.2 = some k ∧ (r.2.1 k).resultDigest.2 = 0 ∧
        (jobs k).resultDigest.2 = (jobs j).resultDigest.2 ∧ 0 < (jobs j).resultDigest.2) := by
  cases hr with
  | finished i' k hk _ =>
    obtain ⟨hne, hi⟩ := jobInLane_release.mp hi
    have hj : j ≠ k := fun he => hne (h.inj _ _ _ (he ▸ hi) hk)
    dsimp only at hz
    rw [Function.update_of_ne hj] at hz
    exact ⟨hi, .inl hz⟩
  | waits _ _ => exact ⟨hi, .inl hz⟩
  | hashed i' k r hmin hr hk =>
    obtain ⟨hne, hi⟩ := jobInLane_release.mp hi
    rw [hr.table] at hi
    have hj : j ≠ k := fun he => hne (h.inj _ _ _ (he ▸ hi) hk)
    dsimp only at hz ⊢
    rw [Function.update_of_ne hj, hashed_counts hr hi] at hz
    have hpos := (hmin i' k hk).1
    have hcount := hc i' k hk
    refine ⟨hi, .inr ⟨k, hj.symm, rfl, ?_, ?_, ?_⟩⟩
    · rw [Function.update_self]
      change (r.2.1 k).resultDigest.2 = 0
      rw [hashed_counts hr hk]
      omega
    · omega
    · omega

/-! ## One call -/

/-- What the scheduler keeps between calls. -/
structure MbState.Good (c : MbState J D) : Prop where
  lanes : c.mgr.Lanes 3 maxBlocksCe
  counts : Counts c.mgr c.jobs
  room : ∃ i : Fin 16, i.val < 3 ∧ c.mgr.jobInLane i = none

/-- The tables that a call works on: those before it, with the submitted job in its lane. -/
def MbState.entered (c : MbState J D) (a : MbCall J D) : Sha256MbJobMgr J (D × ℤ) :=
  match a with
  | .submit j _ _ _ => c.mgr.insertJob (c.fill a).jobs j
  | .flush => c.mgr

theorem fill_self (c : MbState J D) (j : J) (buffer : BufferPtr) (len : BitVec 64) (digest : D) :
    (c.fill (.submit j buffer len digest)).jobs j =
      { c.jobs j with buffer := buffer, len := len, resultDigest := (digest, len.toNat) } :=
  Function.update_self ..

theorem fill_of_ne (c : MbState J D) {j k : J} (buffer : BufferPtr) (len : BitVec 64) (digest : D)
    (hne : k ≠ j) : (c.fill (.submit j buffer len digest)).jobs k = c.jobs k :=
  Function.update_of_ne hne ..

/-- What a call works on, and how it ends. -/
theorem step_outcome (kern : Kernel J D) (hc : c.Good) {a : MbCall J D} (ha : a.Allowed c) :
    (c.entered a).Lanes 3 maxBlocksCe ∧ Counts (c.entered a) (c.fill a).jobs ∧ a.Asserts kern c ∧
      Outcome (countdown kern) (c.entered a) (c.fill a).jobs
        ((c.step kern a).mgr, (c.step kern a).jobs, (c.step kern a).returned) := by
  cases a with
  | flush =>
    exact ⟨hc.lanes, hc.counts, trivial, (flushCe_outcome (by decide) _ c.jobs hc.lanes hc.room).1⟩
  | submit j buffer len digest =>
    obtain ⟨hj, _, hlen⟩ := ha
    have hjob := fill_self c j buffer len digest
    have hlen' : ((c.fill (.submit j buffer len digest)).jobs j).len.toNat ≤ maxBlocksCe := by
      rwa [hjob]
    obtain ⟨hasserts, hout⟩ :=
      submitCe_outcome (by decide) (countdown kern) hc.lanes hc.room hj hlen'
    refine ⟨insertJob_lanes (by decide) hc.lanes hc.room hj hlen', fun i k hi => ?_, hasserts, hout⟩
    rcases insertJob_left (by decide) hj hlen' hi with ⟨rfl, hleft⟩ | ⟨hk, hi, hleft⟩
    · rw [MbState.entered, hleft, hjob]
    · rw [MbState.entered, hleft, fill_of_ne c buffer len digest hk]
      exact hc.counts i k hi

theorem MbState.Good.step (hc : c.Good) {a : MbCall J D} (ha : a.Allowed c) :
    (c.step kern a).Good := by
  obtain ⟨hlanes, hcounts, _, hout⟩ := step_outcome kern hc ha
  obtain ⟨hlanes', hroom⟩ := hout.lanes hlanes
  exact ⟨hlanes', hout.counts hcounts hlanes, hroom⟩

theorem MbState.Good.finishedTogether (hc : c.Good) {a : MbCall J D} (ha : a.Allowed c) :
    c.FinishedTogether kern a := by
  obtain ⟨hlanes, hcounts, _, hout⟩ := step_outcome kern hc ha
  intro i j hi hz
  obtain ⟨hin, hbefore | hnow⟩ := hout.together hcounts hlanes hi hz
  · cases a with
    | flush => exact .inl ⟨hin, hbefore⟩
    | submit j' buffer len digest =>
      rcases jobInLane_put.mp hin with ⟨_, rfl⟩ | ⟨_, hin⟩
      · -- the submitted job has blocks to process
        have hpos := ha.2.1
        rw [fill_self] at hbefore
        dsimp only at hbefore
        omega
      · have hne : j ≠ j' := fun he => ha.1 i (he ▸ hin)
        rw [fill_of_ne c buffer len digest hne] at hbefore
        exact .inl ⟨hin, hbefore⟩
  · exact .inr hnow

/-! ## Runs -/

omit [DecidableEq J] in
theorem MbState.Good.tables (hc : c.Good) : c.Tables := by
  refine ⟨hc.lanes.free, hc.lanes.inuse, fun i j hi => ⟨hc.lanes.lt i j hi, ?_, ?_⟩, hc.room⟩
  · refine BitVec.eq_of_toNat_eq ?_
    rw [toNat_and_fifteen (by decide), hc.lanes.lane i j hi, BitVec.toNat_ofNat, Nat.mod_eq_of_lt]
    exact Nat.lt_trans i.isLt (by decide)
  · rw [BitVec.toNat_ushiftRight, Nat.shiftRight_eq_div_pow]
    exact hc.counts i j hi

omit [DecidableEq J] in
theorem initial_good (s : Sha256MbJobMgr J (D × ℤ)) (jobs : J → Job (D × ℤ)) :
    (MbState.initial s jobs).Good := by
  refine ⟨initCe_lanes s, fun i j hi => ?_, 0, by decide, initCe_table s 0⟩
  simp [MbState.initial, initCe_table] at hi

/-- In every state that a run of allowed calls reaches, the free list, the job table, the lengths
and the counter agree and a lane is free; and of every allowed call from there the assertions
hold, and it leaves a finished job in a lane only together with the one it returns. -/
theorem mgrCe_invariant (kern : Kernel J D) (s : Sha256MbJobMgr J (D × ℤ)) (jobs : J → Job (D × ℤ))
    (calls : List (MbCall J D))
    (hcalls : Guarded (MbState.step kern) (fun c a => a.Allowed c) (.initial s jobs) calls) :
    (run (MbState.step kern) (.initial s jobs) calls).Tables ∧
      ∀ a : MbCall J D, a.Allowed (run (MbState.step kern) (.initial s jobs) calls) →
        a.Asserts kern (run (MbState.step kern) (.initial s jobs) calls) ∧
        (run (MbState.step kern) (.initial s jobs) calls).FinishedTogether kern a := by
  have hgood : (run (MbState.step kern) (.initial s jobs) calls).Good :=
    run_invariant (fun _ _ hc ha => hc.step ha) (initial_good s jobs) hcalls
  exact ⟨hgood.tables, fun a ha => ⟨(step_outcome kern hgood ha).2.2.1, hgood.finishedTogether ha⟩⟩

/-- Jobs of 5, 3 and 3 blocks: the last two finish together in the third submit. -/
theorem mgrCe_invariant_three_jobs :
    let kern : Kernel ℕ ℕ := fun _ _ n d => d + n
    let start : MbState ℕ ℕ := .initial ⟨fun _ => (0, 0), fun _ => none,
      fun _ => 7#32, 0#64, fun _ => some 9, 4#32⟩ fun _ => ⟨.partialBlock 0, 0#64, (0, 0), .unknown⟩
    let calls : List (MbCall ℕ ℕ) := [.submit 0 (.partialBlock 0) 5#64 0,
      .submit 1 (.partialBlock 0) 3#64 0, .submit 2 (.partialBlock 0) 3#64 0]
    (run (MbState.step kern) start calls).Tables ∧
      MbCall.flush.Asserts kern (run (MbState.step kern) start calls) ∧
      (run (MbState.step kern) start calls).FinishedTogether kern .flush := by
  intro kern start calls
  have hcalls : Guarded (MbState.step kern) (fun c a => a.Allowed c) start calls := by
    decide +kernel
  obtain ⟨htables, hnext⟩ := mgrCe_invariant kern _ _ calls hcalls
  exact ⟨htables, hnext .flush trivial⟩

end IsalCrypto.Sha256Mb
