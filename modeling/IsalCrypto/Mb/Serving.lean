import IsalCrypto.Lib.Ledger
import IsalCrypto.Mb.Scheduler

/-!
# Runs of a scheduler

Every sequence of submits and flushes of a scheduler layer, with a ledger of the jobs that go in and
out. A job that is submitted is owed the digest of exactly its own blocks.

* `Scheduler.Serves`: what one call keeps, for a manager that knows which jobs are in its lanes.
* `Scheduler.Serves.run`: after every run the ledger settles, and it owes exactly the jobs in lanes.
* `Scheduler.Serves.drain`: as many flushes as there are jobs in lanes hand all of them back.
* `Scheduler.correct_of_serves`: a scheduler that serves, and leaves all other jobs alone, is one
  that the context layer works over.
-/

namespace IsalCrypto.Mb

open IsalCrypto.Lib

/-! ## Kernels that read the memory -/

theorem BufferPtr.add_zero (p : BufferPtr) : p.add 0 = p := by
  cases p with
  | user bytes => exact congrArg user (funext fun k => by rw [Nat.zero_add])
  | partialBlock offset => rfl

theorem BufferPtr.add_add (p : BufferPtr) (a b : ℕ) : (p.add a).add b = p.add (a + b) := by
  cases p with
  | user bytes => exact congrArg user (funext fun k => by rw [Nat.add_assoc])
  | partialBlock offset => exact congrArg partialBlock (Nat.add_assoc ..)

/-- The bytes at a pointer, where `own` is the `partial_block_buffer`. -/
def BufferPtr.bytes (own : ℕ → Byte) : BufferPtr → ℕ → Byte
  | user bytes => bytes
  | partialBlock offset => fun k => own (offset + k)

/-- A kernel that compresses one block of 64 bytes after the other. -/
def blockKernel {J D : Type*} (own : J → ℕ → Byte) (compress : (ℕ → Byte) → D → D) : Kernel J D
  | _, _, 0, d => d
  | j, p, n + 1, d => blockKernel own compress j (p.add 64) n (compress (p.bytes (own j)) d)

theorem blockKernel_lawful {J D : Type*} (own : J → ℕ → Byte) (compress : (ℕ → Byte) → D → D) :
    (blockKernel own compress).Lawful 64 := by
  refine ⟨fun _ _ _ => rfl, fun j p m n d => ?_⟩
  induction m generalizing p d with
  | zero => rw [Nat.zero_add, Nat.mul_zero, BufferPtr.add_zero, blockKernel]
  | succ m ih =>
    have hnext : p.add (64 * (m + 1)) = (p.add 64).add (64 * m) := by
      rw [BufferPtr.add_add, Nat.mul_succ, Nat.add_comm]
    rw [Nat.succ_add, blockKernel, blockKernel, ih, hnext]

/-! ## Calls -/

variable {S J D : Type*} [DecidableEq J]

/-- A manager and the jobs, with each job as it was last submitted. -/
structure SchedState (S J D : Type*) where
  mgr : S
  jobs : J → Job D
  submitted : J → Job D
  ledger : List (Entry J D)

/-- A call of the scheduler layer; the caller fills the job before it submits it. -/
inductive SchedCall (J D : Type*)
  | submit (j : J) (buffer : BufferPtr) (len : BitVec 64) (digest : D)
  | flush

/-- After the init function. -/
def SchedState.initial (sch : Scheduler S J D) (s : S) (jobs : J → Job D) : SchedState S J D :=
  ⟨sch.init s, jobs, jobs, []⟩

/-- The state when the manager is called. -/
def SchedState.fill (kern : Kernel J D) (c : SchedState S J D) : SchedCall J D → SchedState S J D
  | .submit j buffer len digest =>
    let job := { c.jobs j with buffer := buffer, len := len, resultDigest := digest }
    { c with
      jobs := Function.update c.jobs j job
      submitted := Function.update c.submitted j job
      ledger := c.ledger ++ [.taken j (job.goal kern j)] }
  | .flush => c

/-- What a call of the manager leaves. -/
def SchedState.afterCall (c : SchedState S J D) (r : S × (J → Job D) × Option J) :
    SchedState S J D :=
  { c with
    mgr := r.1
    jobs := r.2.1
    ledger :=
      match r.2.2 with
      | none => c.ledger
      | some k => c.ledger ++ [.given k (r.2.1 k).resultDigest] }

/-- A call. -/
def SchedState.step (sch : Scheduler S J D) (kern : Kernel J D) (c : SchedState S J D)
    (a : SchedCall J D) : SchedState S J D :=
  let f := c.fill kern a
  match a with
  | .submit j _ _ _ => f.afterCall (sch.submit kern f.mgr f.jobs j)
  | .flush => f.afterCall (sch.flush kern f.mgr f.jobs)

/-- A job of 1 to `maxBlocks` blocks may be submitted while it is in no lane. -/
def SchedCall.Allowed (InLane : S → J → Prop) (maxBlocks : ℕ) (c : SchedState S J D) :
    SchedCall J D → Prop
  | .submit j _ len _ => ¬ InLane c.mgr j ∧ 0 < len.toNat ∧ len.toNat ≤ maxBlocks
  | .flush => True

instance (InLane : S → J → Prop) [∀ s j, Decidable (InLane s j)] (maxBlocks : ℕ)
    (c : SchedState S J D) (a : SchedCall J D) : Decidable (a.Allowed InLane maxBlocks c) :=
  match a with
  | .submit _ _ _ _ => inferInstanceAs (Decidable (_ ∧ _ ∧ _))
  | .flush => .isTrue trivial

/-- A call that works with the jobs of `In` in lanes hands back at most one of them, with the digest
of its own blocks, and keeps the others. -/
def Answers (kern : Kernel J D) (InLane : S → J → Prop) (Inv : S → (J → Job D) → Prop)
    (submitted : J → Job D) (In : J → Prop) (r : S × (J → Job D) × Option J) : Prop :=
  Inv r.1 submitted ∧
    match r.2.2 with
    | none => ∀ k, InLane r.1 k ↔ In k
    | some k => In k ∧ (r.2.1 k).resultDigest = (submitted k).goal kern k ∧
        ∀ k', InLane r.1 k' ↔ k' ≠ k ∧ In k'

/-- The calls of a scheduler keep `Inv`, a relation of the manager to the jobs as submitted, and
answer as they should. -/
structure Scheduler.Serves (sch : Scheduler S J D) (kern : Kernel J D) (maxBlocks : ℕ)
    (InLane : S → J → Prop) (Inv : S → (J → Job D) → Prop) : Prop where
  init : ∀ s submitted, Inv (sch.init s) submitted ∧ ∀ j, ¬ InLane (sch.init s) j
  submit : ∀ {s jobs submitted} (j : J), Inv s submitted → ¬ InLane s j →
    0 < (jobs j).len.toNat → (jobs j).len.toNat ≤ maxBlocks →
    Answers kern InLane Inv (Function.update submitted j (jobs j)) (fun k => k = j ∨ InLane s k)
      (sch.submit kern s jobs j)
  flush : ∀ {s jobs submitted}, Inv s submitted →
    Answers kern InLane Inv submitted (InLane s) (sch.flush kern s jobs) ∧
      ((sch.flush kern s jobs).2.2 = none ↔ ∀ j, ¬ InLane s j)

/-- The ledger settles, and exactly the jobs in lanes are owed, each the digest of its own
blocks. -/
structure SchedState.Served (kern : Kernel J D) (InLane : S → J → Prop) (c : SchedState S J D) :
    Prop where
  settles : Settles c.ledger
  owed : ∀ j, InLane c.mgr j → owedAfter c.ledger j = some ((c.submitted j).goal kern j)
  free : ∀ j, ¬ InLane c.mgr j → owedAfter c.ledger j = none

section Runs

variable {sch : Scheduler S J D} {kern : Kernel J D} {maxBlocks : ℕ} {InLane : S → J → Prop}
  {Inv : S → (J → Job D) → Prop} {c : SchedState S J D}

/-- A state before the answer of a call, in which the jobs of `In` are owed. -/
theorem Answers.served {In : J → Prop} {r : S × (J → Job D) × Option J}
    (hr : Answers kern InLane Inv c.submitted In r) (hsettles : Settles c.ledger)
    (howed : ∀ j, In j → owedAfter c.ledger j = some ((c.submitted j).goal kern j))
    (hfree : ∀ j, ¬ In j → owedAfter c.ledger j = none) :
    (c.afterCall r).Served kern InLane := by
  obtain ⟨mgr, jobs, ret⟩ := r
  obtain ⟨-, hr⟩ := hr
  cases ret with
  | none =>
    exact ⟨hsettles, fun j hj => howed j ((hr j).mp hj),
      fun j hj => hfree j fun h => hj ((hr j).mpr h)⟩
  | some k =>
    obtain ⟨hk, hdigest, hin⟩ := hr
    have hpost : owedAfter (c.ledger ++ [.given k (jobs k).resultDigest]) =
        Function.update (owedAfter c.ledger) k none := owedAfter_append ..
    refine ⟨hsettles.append ?_, fun j hj => ?_, fun j hj => ?_⟩
    · rw [Entry.Fair, howed k hk, hdigest]
    · obtain ⟨hne, hj⟩ := (hin j).mp hj
      exact (congrFun hpost j).trans ((Function.update_of_ne hne ..).trans (howed j hj))
    · refine (congrFun hpost j).trans ?_
      rcases eq_or_ne j k with rfl | hne
      · exact Function.update_self ..
      · exact (Function.update_of_ne hne ..).trans (hfree j fun h => hj ((hin j).mpr ⟨hne, h⟩))

theorem SchedState.Served.submit (h : c.Served kern InLane) {j : J} (hj : ¬ InLane c.mgr j)
    {r : S × (J → Job D) × Option J} {buffer : BufferPtr} {len : BitVec 64} {digest : D}
    (hr : Answers kern InLane Inv (c.fill kern (.submit j buffer len digest)).submitted
      (fun k => k = j ∨ InLane c.mgr k) r) :
    ((c.fill kern (.submit j buffer len digest)).afterCall r).Served kern InLane := by
  have hpost : ∀ k, owedAfter (c.fill kern (.submit j buffer len digest)).ledger k =
      if k = j then some (((c.fill kern (.submit j buffer len digest)).submitted j).goal kern j)
      else owedAfter c.ledger k := fun k => by
    refine (congrFun (owedAfter_append ..) k).trans ?_
    rcases eq_or_ne k j with rfl | hne
    · rw [if_pos rfl, fill, Entry.post, Function.update_self]
      dsimp only
      rw [Function.update_self]
    · rw [if_neg hne]
      exact Function.update_of_ne hne ..
  refine hr.served (h.settles.append (h.free j hj)) (fun k hk => ?_) fun k hk => ?_
  · rw [hpost]
    rcases eq_or_ne k j with rfl | hne
    · exact if_pos rfl
    · rw [if_neg hne, h.owed k (hk.resolve_left hne)]
      exact congrArg (fun job => some (Job.goal kern k job)) (Function.update_of_ne hne ..).symm
  · rw [hpost, if_neg fun he => hk (.inl he)]
    exact h.free k fun hin => hk (.inr hin)

/-- What the scheduler keeps between calls. -/
def SchedState.Good (kern : Kernel J D) (InLane : S → J → Prop) (Inv : S → (J → Job D) → Prop)
    (c : SchedState S J D) : Prop := Inv c.mgr c.submitted ∧ c.Served kern InLane

theorem SchedState.fill_jobs (c : SchedState S J D) (j : J) (buffer : BufferPtr) (len : BitVec 64)
    (digest : D) : (c.fill kern (.submit j buffer len digest)).jobs j =
      { c.jobs j with buffer := buffer, len := len, resultDigest := digest } :=
  Function.update_self ..

/-- One call. -/
theorem Scheduler.Serves.step (h : sch.Serves kern maxBlocks InLane Inv)
    (hc : c.Good kern InLane Inv) {a : SchedCall J D} (ha : a.Allowed InLane maxBlocks c) :
    (c.step sch kern a).Good kern InLane Inv := by
  cases a with
  | flush =>
    have hr : Answers kern InLane Inv c.submitted (InLane c.mgr) (sch.flush kern c.mgr c.jobs) :=
      (h.flush hc.1).1
    exact ⟨hr.1, hr.served hc.2.settles hc.2.owed hc.2.free⟩
  | submit j buffer len digest =>
    obtain ⟨hj, hpos, hle⟩ := ha
    have hjob := @SchedState.fill_jobs _ _ _ _ kern c j buffer len digest
    have hpos' : 0 < ((c.fill kern (.submit j buffer len digest)).jobs j).len.toNat := by rwa [hjob]
    have hle' : ((c.fill kern (.submit j buffer len digest)).jobs j).len.toNat ≤ maxBlocks := by
      rwa [hjob]
    have hr := h.submit j hc.1 hj hpos' hle'
    rw [hjob] at hr
    exact ⟨hr.1, hc.2.submit hj hr⟩

/-- After every run of allowed calls. -/
theorem Scheduler.Serves.run (h : sch.Serves kern maxBlocks InLane Inv) (s : S) (jobs : J → Job D)
    {calls : List (SchedCall J D)}
    (hcalls : Guarded (SchedState.step sch kern) (fun c a => a.Allowed InLane maxBlocks c)
      (.initial sch s jobs) calls) :
    (Lib.run (SchedState.step sch kern) (.initial sch s jobs) calls).Good kern InLane Inv := by
  obtain ⟨hinv, hno⟩ := h.init s jobs
  have hinitial : (SchedState.initial sch s jobs).Good kern InLane Inv :=
    ⟨hinv, trivial, fun j hj => absurd hj (hno j), fun _ _ => rfl⟩
  have hstep : ∀ (c : SchedState S J D) (a : SchedCall J D), c.Good kern InLane Inv →
      a.Allowed InLane maxBlocks c → (c.step sch kern a).Good kern InLane Inv :=
    fun _ _ hc ha => h.step hc ha
  exact run_invariant hstep hinitial hcalls

/-- A flush with jobs in lanes hands one of them back. -/
theorem Scheduler.Serves.flush_inLane (h : sch.Serves kern maxBlocks InLane Inv)
    (hc : c.Good kern InLane Inv) (hsome : ∃ j, InLane c.mgr j) :
    ∃ k, InLane c.mgr k ∧
      ∀ j, InLane (c.step sch kern .flush).mgr j ↔ j ≠ k ∧ InLane c.mgr j := by
  obtain ⟨⟨-, hret⟩, hnone⟩ := @Scheduler.Serves.flush _ _ _ _ _ _ _ _ _ h _ c.jobs _ hc.1
  cases hr : (sch.flush kern c.mgr c.jobs).2.2 with
  | none =>
    obtain ⟨j, hj⟩ := hsome
    exact absurd hj (hnone.mp hr j)
  | some k =>
    rw [hr] at hret
    exact ⟨k, hret.1, hret.2.2⟩

/-- As many flushes as there are jobs in lanes hand all of them back. -/
theorem Scheduler.Serves.drain (h : sch.Serves kern maxBlocks InLane Inv) (lanes : Finset J) :
    ∀ {c : SchedState S J D}, c.Good kern InLane Inv → (∀ j, j ∈ lanes ↔ InLane c.mgr j) →
      ∀ j, owedAfter (Lib.run (SchedState.step sch kern) c
        (List.replicate lanes.card .flush)).ledger j = none := by
  induction hn : lanes.card generalizing lanes with
  | zero =>
    intro c hc hmem j
    refine hc.2.free j fun hj => ?_
    rw [← hmem, Finset.card_eq_zero.mp hn] at hj
    exact Finset.notMem_empty j hj
  | succ n ih =>
    intro c hc hmem j
    obtain ⟨i, hi⟩ := Finset.card_pos.mp (hn ▸ n.succ_pos : 0 < lanes.card)
    obtain ⟨k, hk, hleft⟩ := h.flush_inLane hc ⟨i, (hmem i).mp hi⟩
    have hflush : SchedCall.flush.Allowed InLane maxBlocks c := trivial
    rw [← hmem] at hk
    refine ih (lanes.erase k) ?_ (h.step hc hflush) (fun j => ?_) j
    · rw [Finset.card_erase_of_mem hk, hn, Nat.add_sub_cancel]
    · rw [Finset.mem_erase, hmem, hleft]

/-- Every job is handed back exactly once for each time it is submitted: at most once so far, a
flush waits only with no job in a lane, and some flushes hand back all that is owed. -/
structure SchedState.ExactlyOnce (sch : Scheduler S J D) (kern : Kernel J D) (InLane : S → J → Prop)
    (c : SchedState S J D) : Prop extends c.Served kern InLane where
  flush_none : (sch.flush kern c.mgr c.jobs).2.2 = none ↔ ∀ j, ¬ InLane c.mgr j
  drains : ∃ n, ∀ j, owedAfter (Lib.run (SchedState.step sch kern) c
    (List.replicate n .flush)).ledger j = none

theorem Scheduler.Serves.exactlyOnce (h : sch.Serves kern maxBlocks InLane Inv)
    (hc : c.Good kern InLane Inv) (hfin : ∃ lanes : Finset J, ∀ j, j ∈ lanes ↔ InLane c.mgr j) :
    c.ExactlyOnce sch kern InLane := by
  obtain ⟨lanes, hlanes⟩ := hfin
  exact ⟨hc.2, (h.flush hc.1).2, lanes.card, h.drain lanes hc hlanes⟩

end Runs

/-! ## The contract of the context layer -/

section Contract

variable {InLane : S → J → Prop} {Inv : Kernel J D → S → (J → Job D) → Prop} {jobs : J → Job D}

/-- The jobs in lanes are `held`, each owed the digest of the job as it was submitted. -/
def ServedRep (InLane : S → J → Prop) (Inv : Kernel J D → S → (J → Job D) → Prop)
    (kern : Kernel J D) (s : S) (_ : J → Job D) (held : Finset J) (goal : J → D) : Prop :=
  ∃ submitted, Inv kern s submitted ∧ (∀ j, j ∈ held ↔ InLane s j) ∧
    ∀ j ∈ held, (submitted j).goal kern j = goal j

/-- No job but the one handed back is changed. -/
def OnlyReturned (jobs : J → Job D) (r : S × (J → Job D) × Option J) : Prop :=
  ∀ k, r.2.2 ≠ some k → r.2.1 k = jobs k

/-- An answer is what the context layer expects. -/
theorem Answers.returns {kern : Kernel J D} {submitted : J → Job D} {In : J → Prop}
    {held : Finset J} {goal : J → D} {r : S × (J → Job D) × Option J}
    (hr : Answers kern InLane (Inv kern) submitted In r) (hheld : ∀ j, j ∈ held ↔ In j)
    (hgoal : ∀ j ∈ held, (submitted j).goal kern j = goal j)
    (hframe : ∀ k, k ∉ held → r.2.2 ≠ some k → r.2.1 k = jobs k) :
    Returns (ServedRep InLane Inv kern) jobs held goal r := by
  obtain ⟨s, jobs', ret⟩ := r
  obtain ⟨hinv, hr⟩ := hr
  cases ret with
  | none =>
    refine ⟨fun k hk => hframe k hk nofun, submitted, hinv, fun j => ?_, hgoal⟩
    exact (hheld j).trans (hr j).symm
  | some k =>
    obtain ⟨hk, hdigest, hin⟩ := hr
    have hmem : k ∈ held := (hheld k).mpr hk
    refine ⟨fun i hi => hframe i hi fun he => ?_, hmem, hdigest.trans (hgoal k hmem), submitted,
      hinv, fun j => ?_, fun j hj => hgoal j (Finset.mem_of_mem_erase hj)⟩
    · exact hi (Option.some.inj he ▸ hmem)
    · rw [Finset.mem_erase, hheld, hin]

/-- A scheduler that serves over every kernel is correct, if it changes no other job and what it
keeps depends on the kernel for the jobs in lanes only. -/
theorem Scheduler.correct_of_serves {sch : Scheduler S J D} {B maxBlocks : ℕ}
    (hinit : ∀ kern s submitted, Inv kern (sch.init s) submitted ∧ ∀ j, ¬ InLane (sch.init s) j)
    (hserves : ∀ {kern : Kernel J D}, kern.Lawful B → sch.Serves kern maxBlocks InLane (Inv kern))
    (hcongr : ∀ {kern kern' : Kernel J D} {s submitted}, (∀ j, InLane s j → kern j = kern' j) →
      Inv kern s submitted → Inv kern' s submitted)
    (hsubmit : ∀ kern s jobs j k, k ≠ j → (sch.submit kern s jobs j).2.2 ≠ some k →
      (sch.submit kern s jobs j).2.1 k = jobs k)
    (hflush : ∀ kern s jobs, OnlyReturned jobs (sch.flush kern s jobs)) :
    sch.Correct B maxBlocks (ServedRep InLane Inv) where
  init kern s jobs goal := by
    obtain ⟨hinv, hno⟩ := hinit kern s jobs
    exact ⟨jobs, hinv, fun j => iff_of_false (Finset.notMem_empty j) (hno j), nofun⟩
  congr := by
    rintro kern kern' s jobs jobs' held goal goal' heq ⟨submitted, hinv, hheld, hgoal⟩
    refine ⟨submitted, hcongr (fun j hj => (heq j ((hheld j).mpr hj)).1) hinv, hheld,
      fun j hj => ?_⟩
    obtain ⟨hkern, -, hgoal'⟩ := heq j hj
    rw [← hgoal', ← hgoal j hj, Job.goal, Job.goal, hkern]
  submit := by
    rintro kern s jobs held goal j hkern ⟨submitted, hinv, hheld, hgoal⟩ hj hpos hlen
    have hin : ¬ InLane s j := fun hin => hj ((hheld j).mpr hin)
    have hr := (hserves hkern).submit j hinv hin hpos hlen
    refine hr.returns (fun k => ?_) (fun k hk => ?_) fun k hk hret => ?_
    · rw [Finset.mem_insert, hheld]
    · rcases Finset.mem_insert.mp hk with rfl | hk
      · rw [Function.update_self, Function.update_self]
      · have hne : k ≠ j := ne_of_mem_of_not_mem hk hj
        rw [Function.update_of_ne hne, Function.update_of_ne hne, hgoal k hk]
    · exact hsubmit kern s jobs j k (fun he => hk (Finset.mem_insert.mpr (.inl he))) hret
  flush := by
    rintro kern s jobs held goal hkern ⟨submitted, hinv, hheld, hgoal⟩
    obtain ⟨hanswers, hidle⟩ :=
      @Serves.flush _ _ _ _ _ _ _ _ _ (hserves hkern) s jobs submitted hinv
    refine ⟨hanswers.returns hheld hgoal fun k _ => hflush kern s jobs k, fun hnone => ?_⟩
    refine Finset.eq_empty_iff_forall_notMem.mpr fun j hj => ?_
    exact hidle.mp hnone j ((hheld j).mp hj)

end Contract

end IsalCrypto.Mb
