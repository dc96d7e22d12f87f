import IsalCrypto.Mb.Serving

/-!
# Runs of a correct scheduler

`Scheduler.Correct` speaks of single calls. Over a run the ledger of a scheduler that meets it
settles, and the jobs it holds are the ones that are owed.
-/

namespace IsalCrypto.Mb

open IsalCrypto.Lib

variable {S J D : Type*} [DecidableEq J] {sch : Scheduler S J D} {B maxBlocks : ℕ}
  {Rep : Kernel J D → S → (J → Job D) → Finset J → (J → D) → Prop} {kern : Kernel J D}
  {InLane : S → J → Prop} {c : SchedState S J D}

/-- The scheduler holds some jobs, each owed the digest of its own blocks. -/
structure SchedState.Holding (Rep : Kernel J D → S → (J → Job D) → Finset J → (J → D) → Prop)
    (kern : Kernel J D) (InLane : S → J → Prop) (c : SchedState S J D) : Prop where
  held : ∃ held, Rep kern c.mgr c.jobs held fun j => (c.submitted j).goal kern j
  served : c.Served kern InLane

/-- The jobs that a representation holds are those in lanes. -/
def HeldInLanes (Rep : Kernel J D → S → (J → Job D) → Finset J → (J → D) → Prop)
    (InLane : S → J → Prop) : Prop :=
  ∀ kern s jobs held goal, Rep kern s jobs held goal → ∀ j, j ∈ held ↔ InLane s j

/-- A call that returns as a correct scheduler does answers as it should. -/
theorem Returns.answers (hin : HeldInLanes Rep InLane) {jobs submitted : J → Job D}
    {held : Finset J} {r : S × (J → Job D) × Option J}
    (hr : Returns (Rep kern) jobs held (fun j => (submitted j).goal kern j) r) :
    Answers kern InLane (fun _ _ => True) submitted (· ∈ held) r ∧
      ∃ held, Rep kern r.1 r.2.1 held fun j => (submitted j).goal kern j := by
  obtain ⟨s, jobs', ret⟩ := r
  obtain ⟨-, hr⟩ := hr
  cases ret with
  | none => exact ⟨⟨trivial, fun k => (hin _ _ _ _ _ hr k).symm⟩, held, hr⟩
  | some k =>
    obtain ⟨hk, hdigest, hr⟩ := hr
    exact ⟨⟨trivial, hk, hdigest, fun k' => (hin _ _ _ _ _ hr k').symm.trans Finset.mem_erase⟩,
      held.erase k, hr⟩

section Correct

variable (h : sch.Correct B maxBlocks Rep) (hin : HeldInLanes Rep InLane) (hkern : kern.Lawful B)

include h hin hkern

/-- One call. -/
theorem Scheduler.Correct.step (hc : c.Holding Rep kern InLane) {a : SchedCall J D}
    (ha : a.Allowed InLane maxBlocks c) : (c.step sch kern a).Holding Rep kern InLane := by
  obtain ⟨⟨held, hrep⟩, hserved⟩ := hc
  have hheld := hin _ _ _ _ _ hrep
  cases a with
  | flush =>
    obtain ⟨hanswers, hrep'⟩ := (h.flush hkern hrep).1.answers hin
    exact ⟨hrep', hanswers.served hserved.settles (fun j hj => hserved.owed j ((hheld j).mp hj))
      fun j hj => hserved.free j fun hl => hj ((hheld j).mpr hl)⟩
  | submit j buffer len digest =>
    obtain ⟨hj, hpos, hle⟩ := ha
    rw [← hheld] at hj
    -- the caller fills a job that is not held
    let f := c.fill kern (.submit j buffer len digest)
    have hjob : f.jobs j = { c.jobs j with buffer := buffer, len := len, resultDigest := digest } :=
      Function.update_self ..
    have hsubmitted : f.submitted j = f.jobs j := by
      rw [hjob]
      exact Function.update_self ..
    have hrep' : Rep kern c.mgr f.jobs held fun k => (c.submitted k).goal kern k :=
      h.congr (fun k hk => ⟨rfl, (Function.update_of_ne (ne_of_mem_of_not_mem hk hj) ..).symm, rfl⟩)
        hrep
    have hgoal : Function.update (fun k => (c.submitted k).goal kern k) j ((f.jobs j).goal kern j) =
        fun k => (f.submitted k).goal kern k := by
      funext k
      rcases eq_or_ne k j with rfl | hne
      · rw [Function.update_self, hsubmitted]
      · rw [Function.update_of_ne hne]
        exact congrArg (Job.goal kern k) (Function.update_of_ne hne ..).symm
    have hret := h.submit j hkern hrep' hj (by rwa [hjob]) (by rwa [hjob])
    rw [hgoal] at hret
    obtain ⟨hanswers, hheld'⟩ := hret.answers hin
    have hsets : (fun k => k ∈ insert j held) = fun k => k = j ∨ InLane c.mgr k :=
      funext fun k => propext (by rw [Finset.mem_insert, hheld])
    rw [hsets] at hanswers
    exact ⟨hheld', hserved.submit (fun hl => hj ((hheld j).mpr hl)) hanswers⟩

/-- After every run of allowed calls. -/
theorem Scheduler.Correct.run (s : S) (jobs : J → Job D) {calls : List (SchedCall J D)}
    (hcalls : Guarded (SchedState.step sch kern) (fun c a => a.Allowed InLane maxBlocks c)
      (.initial sch s jobs) calls) :
    (Lib.run (SchedState.step sch kern) (.initial sch s jobs) calls).Holding Rep kern InLane := by
  have hrep : ∀ goal, Rep kern (sch.init s) jobs ∅ goal := h.init kern s jobs
  have hinitial : (SchedState.initial sch s jobs).Holding Rep kern InLane := by
    refine ⟨⟨∅, hrep _⟩, trivial, fun j hj => ?_, fun _ _ => rfl⟩
    exact absurd ((hin _ _ _ _ _ (hrep fun j => (jobs j).goal kern j) j).mpr hj)
      (Finset.notMem_empty j)
  have hstep : ∀ (c : SchedState S J D) (a : SchedCall J D), c.Holding Rep kern InLane →
      a.Allowed InLane maxBlocks c → (c.step sch kern a).Holding Rep kern InLane :=
    fun _ _ hc ha => h.step hin hkern hc ha
  exact run_invariant hstep hinitial hcalls

/-- As many flushes as there are jobs held hand all of them back. -/
theorem Scheduler.Correct.drain (n : ℕ) :
    ∀ {c : SchedState S J D} {held : Finset J}, c.Served kern InLane → held.card = n →
      Rep kern c.mgr c.jobs held (fun j => (c.submitted j).goal kern j) →
      ∀ j, owedAfter (Lib.run (SchedState.step sch kern) c (List.replicate n .flush)).ledger j =
        none := by
  induction n with
  | zero =>
    intro c held hserved hcard hrep j
    refine hserved.free j fun hj => ?_
    rw [← hin _ _ _ _ _ hrep, Finset.card_eq_zero.mp hcard] at hj
    exact Finset.notMem_empty j hj
  | succ n ih =>
    intro c held hserved hcard hrep
    obtain ⟨hret, hnone⟩ := h.flush hkern hrep
    have hc : c.Holding Rep kern InLane := ⟨⟨held, hrep⟩, hserved⟩
    have hflush : SchedCall.flush.Allowed InLane maxBlocks c := trivial
    have hstep := (h.step hin hkern hc hflush).served
    have hcall : c.step sch kern .flush = c.afterCall (sch.flush kern c.mgr c.jobs) := rfl
    rw [List.replicate_succ, run_cons]
    generalize sch.flush kern c.mgr c.jobs = r at hret hnone hcall
    obtain ⟨s, jobs', ret⟩ := r
    cases ret with
    | none =>
      rw [hnone rfl] at hcard
      exact absurd hcard (by simp)
    | some k =>
      obtain ⟨-, hk, -, hrep'⟩ := hret
      refine @ih _ (held.erase k) hstep ?_ ?_
      · rw [Finset.card_erase_of_mem hk, hcard, Nat.add_sub_cancel]
      · rw [hcall]
        exact hrep'

/-- Every job is handed back exactly once for each time it is submitted. -/
theorem Scheduler.Correct.exactlyOnce (hc : c.Holding Rep kern InLane) :
    c.ExactlyOnce sch kern InLane := by
  obtain ⟨⟨held, hrep⟩, hserved⟩ := hc
  obtain ⟨hret, hempty⟩ := h.flush hkern hrep
  refine ⟨hserved, ⟨fun hnone j hj => ?_, fun hno => ?_⟩, held.card,
    h.drain hin hkern _ hserved rfl hrep⟩
  · rw [← hin _ _ _ _ _ hrep, hempty hnone] at hj
    exact Finset.notMem_empty j hj
  · cases hr : (sch.flush kern c.mgr c.jobs).2.2 with
    | none => rfl
    | some k =>
      have hk := hret.2
      rw [hr] at hk
      exact absurd ((hin _ _ _ _ _ hrep k).mp hk.1) (hno k)

end Correct

end IsalCrypto.Mb
