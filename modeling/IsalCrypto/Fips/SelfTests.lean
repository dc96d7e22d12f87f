import IsalCrypto.Api
import IsalCrypto.Lib.Runs

/-!
# The self-test latch

`isal_self_tests` (`fips/self_tests.c`) in an x86 FIPS-mode build, with
`asm_check_self_tests_status` and `asm_set_self_tests_status` (`fips/asm_self_tests.asm`), as a
step function over any set of threads: one step is one access to `self_test_status`, one self
test, or the start or the return of a call.

* `selfTests_final`: as long as no SHA self test fails, the tests run at most once, every call
  returns after they have run and all calls return the same verdict.
* `selfTests_rerun`: a failed SHA self test stores `-1`, which the latch does not take for a final
  value; the next call runs the tests again and may return success.
-/

namespace IsalCrypto.Fips

open IsalCrypto.Lib

/-- The self tests, in the order `isal_self_tests` runs them. -/
inductive SelfTest
  | aes
  | sha1
  | sha256
  | sha512
deriving DecidableEq, Repr

/-- `SELF_TEST_NOT_DONE`. -/
abbrev selfTestNotDone : BitVec 32 := 2#32
/-- `SELF_TEST_RUNNING`. -/
abbrev selfTestRunning : BitVec 32 := 3#32

/-- What `_aes_self_tests` returns. -/
def aesSelfTests (passed : Bool) : BitVec 32 := if passed then 0#32 else 1#32

/-- What `_sha1_self_test`, `_sha256_self_test` and `_sha512_self_test` return. -/
def shaSelfTest (passed : Bool) : BitVec 32 := if passed then 0#32 else -1#32

/-- Where a thread stands. -/
inductive Pc
  /-- Outside `isal_self_tests`. -/
  | idle
  /-- At `mov eax, [self_test_status]`. -/
  | load
  /-- At `lock cmpxchg`. -/
  | cas
  /-- At `check_status_loop`. -/
  | spin
  /-- At the load after the loop. -/
  | reread
  /-- At a self test: `ret` of `isal_self_tests` and `ret` of `_sha_self_tests`. -/
  | test (k : SelfTest) (ret sha : BitVec 32)
  /-- At `asm_set_self_tests_status`. -/
  | set (ret : BitVec 32)
  /-- At a `return` of `isal_self_tests`. -/
  | ret (e : IsalCryptoError)
deriving DecidableEq

/-- What a run shows: the self tests executed, with their outcome, and the calls answered. -/
inductive Event (T : Type*)
  | ran (k : SelfTest) (passed : Bool)
  | returned (t : T) (e : IsalCryptoError)
deriving DecidableEq

structure State (T : Type*) where
  status : BitVec 32
  pc : T → Pc
  log : List (Event T)

/-- The process before the first call. -/
def State.init (T : Type*) : State T := ⟨selfTestNotDone, fun _ => .idle, []⟩

/-- `isal_self_tests` on the value of `asm_check_self_tests_status`. -/
def afterCheck (ret : BitVec 32) : Pc :=
  if ret = 0#32 then .ret .errNone
  else if ret = 1#32 then .ret .errSelfTest
  else .test .aes 0#32 0#32

variable {T : Type*} [DecidableEq T]

def State.goto (s : State T) (t : T) (pc : Pc) : State T :=
  { s with pc := Function.update s.pc t pc }

def State.emit (s : State T) (ev : Event T) : State T := { s with log := s.log ++ [ev] }

/-- The next step of thread `a.1`; if it is a self test, `a.2` is whether it passes. -/
def step (s : State T) (a : T × Bool) : State T :=
  match s.pc a.1 with
  | .idle => s.goto a.1 .load
  | .load =>
    let eax := s.status
    if eax &&& 0x2#32 = 0#32 then s.goto a.1 (afterCheck eax) else s.goto a.1 .cas
  | .cas =>
    -- on success `eax` keeps the value it was compared with
    if s.status = selfTestNotDone then
      { s with status := selfTestRunning }.goto a.1 (afterCheck selfTestNotDone)
    else s.goto a.1 .spin
  | .spin => if s.status = selfTestRunning then s else s.goto a.1 .reread
  | .reread => s.goto a.1 (afterCheck s.status)
  | .test .aes _ sha =>
    (s.emit (.ran .aes a.2)).goto a.1 (.test .sha1 (aesSelfTests a.2) sha)
  | .test .sha1 ret _ =>
    (s.emit (.ran .sha1 a.2)).goto a.1 (.test .sha256 ret (shaSelfTest a.2))
  | .test .sha256 ret sha =>
    (s.emit (.ran .sha256 a.2)).goto a.1 (.test .sha512 ret (sha ||| shaSelfTest a.2))
  | .test .sha512 ret sha =>
    (s.emit (.ran .sha512 a.2)).goto a.1 (.set (ret ||| (sha ||| shaSelfTest a.2)))
  | .set ret =>
    { s with status := ret }.goto a.1
      (.ret (if ret = 0#32 then .errNone else .errSelfTest))
  | .ret e => (s.emit (.returned a.1 e)).goto a.1 .idle

/-- The thread is at a SHA self test. -/
def Pc.atSha : Pc → Bool
  | .test k _ _ => decide (k ≠ .aes)
  | _ => false

/-- The step is not a SHA self test that fails. -/
def ShaPasses (s : State T) (a : T × Bool) : Prop := (s.pc a.1).atSha = true → a.2 = true

instance (s : State T) (a : T × Bool) : Decidable (ShaPasses s a) :=
  inferInstanceAs (Decidable (_ → _))

/-! ## What a final self test means -/

/-- The event is the execution of `k`. -/
def Event.isRun (k : SelfTest) : Event T → Bool
  | .ran k' _ => decide (k' = k)
  | .returned _ _ => false

/-- The event is not a failed self test. -/
def Event.passed : Event T → Bool
  | .ran _ p => p
  | .returned _ _ => true

/-- The tests run at most once, every call returns after they have run, and every call returns `0`
exactly when all outcomes are good. -/
structure Final (log : List (Event T)) : Prop where
  once : ∀ k, (log.filter (Event.isRun k)).length ≤ 1
  finished : ∀ pre t e post, log = pre ++ .returned t e :: post → ∀ k, ∃ p, .ran k p ∈ pre
  answer : ∀ t e, .returned t e ∈ log →
    e = if log.all Event.passed then .errNone else .errSelfTest

/-! ## The phases of a run -/

/-- What a call returns once the tests have run with AES outcome `a`. -/
def verdict (a : Bool) : IsalCryptoError := if a then .errNone else .errSelfTest

/-- The events of one execution of the tests in which only AES may fail. -/
def allRan (T : Type*) (a : Bool) : List (Event T) :=
  [.ran .aes a, .ran .sha1 true, .ran .sha256 true, .ran .sha512 true]

/-- Where the running thread stands against the events so far. -/
inductive Progress : Pc → List (Event T) → Prop
  | aes : Progress (.test .aes 0#32 0#32) []
  | sha1 (a : Bool) : Progress (.test .sha1 (aesSelfTests a) 0#32) [.ran .aes a]
  | sha256 (a : Bool) :
      Progress (.test .sha256 (aesSelfTests a) 0#32) [.ran .aes a, .ran .sha1 true]
  | sha512 (a : Bool) :
      Progress (.test .sha512 (aesSelfTests a) 0#32)
        [.ran .aes a, .ran .sha1 true, .ran .sha256 true]
  | set (a : Bool) : Progress (.set (aesSelfTests a)) (allRan T a)

/-- A thread that has not read a status yet. -/
inductive Before : Pc → Prop
  | idle : Before .idle
  | load : Before .load
  | cas : Before .cas

/-- A thread that has seen no final status. -/
inductive Waiting : Pc → Prop
  | before {pc : Pc} : Before pc → Waiting pc
  | spin : Waiting .spin

/-- A thread when the tests have run with AES outcome `a`. -/
inductive After (a : Bool) : Pc → Prop
  | waiting {pc : Pc} : Waiting pc → After a pc
  | reread : After a .reread
  | ret : After a (.ret (verdict a))

inductive Phase (s : State T) : Prop
  | notDone : s.status = selfTestNotDone → s.log = [] → (∀ t, Before (s.pc t)) → Phase s
  | running (r : T) : s.status = selfTestRunning → Progress (s.pc r) s.log →
      (∀ t, t ≠ r → Waiting (s.pc t)) → Phase s
  | done (a : Bool) (rest : List (Event T)) : s.status = aesSelfTests a →
      s.log = allRan T a ++ rest → (∀ ev ∈ rest, ∃ t, ev = .returned t (verdict a)) →
      (∀ t, After a (s.pc t)) → Phase s

@[simp]
theorem goto_status (s : State T) (t : T) (pc : Pc) : (s.goto t pc).status = s.status := rfl

@[simp]
theorem goto_log (s : State T) (t : T) (pc : Pc) : (s.goto t pc).log = s.log := rfl

@[simp]
theorem goto_pc_self (s : State T) (t : T) (pc : Pc) : (s.goto t pc).pc t = pc :=
  Function.update_self ..

theorem goto_pc_of_ne (s : State T) {t u : T} (pc : Pc) (h : u ≠ t) :
    (s.goto t pc).pc u = s.pc u :=
  Function.update_of_ne h ..

/-- A property of every thread survives a step of one thread that keeps it. -/
theorem goto_forall {P : Pc → Prop} {s : State T} {t : T} {pc : Pc} (hall : ∀ u, P (s.pc u))
    (hpc : P pc) : ∀ u, P ((s.goto t pc).pc u) := by
  intro u
  rcases eq_or_ne u t with rfl | h
  · rwa [goto_pc_self]
  · rw [goto_pc_of_ne s pc h]
    exact hall u

theorem goto_forall_ne {P : Pc → Prop} {s : State T} {t r : T} {pc : Pc}
    (hall : ∀ u, u ≠ r → P (s.pc u)) (hpc : P pc) : ∀ u, u ≠ r → P ((s.goto t pc).pc u) := by
  intro u hu
  rcases eq_or_ne u t with rfl | h
  · rwa [goto_pc_self]
  · rw [goto_pc_of_ne s pc h]
    exact hall u hu

theorem afterCheck_aesSelfTests (a : Bool) : afterCheck (aesSelfTests a) = .ret (verdict a) := by
  cases a <;> rfl

omit [DecidableEq T] in
theorem Phase.init : Phase (State.init T) := .notDone rfl rfl fun _ => .idle

/-- Before the tests have run, a thread moves up to the compare-exchange and wins it. -/
theorem Phase.step_notDone {s : State T} (t : T) (p : Bool) (hst : s.status = selfTestNotDone)
    (hlog : s.log = []) (hpc : ∀ t, Before (s.pc t)) : Phase (step s (t, p)) := by
  have ht := hpc t
  unfold step
  generalize hpct : s.pc t = pc at ht
  cases ht with
  | idle => exact .notDone hst hlog (goto_forall hpc .load)
  | load =>
    simp only [hst]
    exact .notDone hst hlog (goto_forall hpc .cas)
  | cas =>
    simp only [hst, if_true]
    refine .running t rfl ?_ fun u hu => ?_
    · rw [goto_pc_self, goto_log]
      rw [hlog]
      exact .aes
    · rw [goto_pc_of_ne _ _ hu]
      exact .before (hpc u)

/-- While one thread runs the tests, any other waits. -/
theorem Phase.step_waiting {s : State T} (t r : T) (p : Bool) (htr : t ≠ r)
    (hst : s.status = selfTestRunning) (hprog : Progress (s.pc r) s.log)
    (hpc : ∀ t, t ≠ r → Waiting (s.pc t)) : Phase (step s (t, p)) := by
  have hgoto : ∀ pc, Waiting pc → Phase (s.goto t pc) := fun pc hw =>
    .running r hst (by rwa [goto_pc_of_ne s pc htr.symm]) (goto_forall_ne hpc hw)
  have ht := hpc t htr
  unfold step
  generalize hpct : s.pc t = pc at ht
  cases ht with
  | before hb =>
    cases hb with
    | idle => exact hgoto _ (.before .load)
    | load =>
      simp only [hst]
      exact hgoto _ (.before .cas)
    | cas =>
      simp only [hst]
      exact hgoto _ .spin
  | spin =>
    simp only [hst, if_true]
    exact .running r hst hprog hpc

/-- The running thread moves through the tests and stores their result. -/
theorem Phase.step_running {s : State T} (r : T) (p : Bool) (hsha : ShaPasses s (r, p))
    (hst : s.status = selfTestRunning) (hprog : Progress (s.pc r) s.log)
    (hpc : ∀ t, t ≠ r → Waiting (s.pc t)) : Phase (step s (r, p)) := by
  have hgoto : ∀ ev pc, Progress pc (s.log ++ [ev]) → Phase ((s.emit ev).goto r pc) :=
    fun ev pc h => .running r hst (by rwa [goto_pc_self]) fun u hu => by
      rw [goto_pc_of_ne _ _ hu]
      exact hpc u hu
  unfold step
  unfold ShaPasses at hsha
  generalize hpcr : s.pc r = pc at hprog hsha
  generalize hlog : s.log = log at hprog hgoto
  cases hprog with
  | aes => exact hgoto _ _ (.sha1 p)
  | sha1 a =>
    obtain rfl : p = true := hsha rfl
    exact hgoto _ _ (.sha256 a)
  | sha256 a =>
    obtain rfl : p = true := hsha rfl
    have hsha' : 0#32 ||| shaSelfTest true = 0#32 := rfl
    refine hgoto _ _ ?_
    simp only [hsha']
    exact .sha512 a
  | sha512 a =>
    obtain rfl : p = true := hsha rfl
    refine hgoto _ _ ?_
    have hret : aesSelfTests a ||| (0#32 ||| shaSelfTest true) = aesSelfTests a := by
      cases a <;> rfl
    simp only [hret]
    exact .set a
  | set a =>
    refine .done a [] rfl (by rw [List.append_nil]; rfl) (fun _ h => by cases h) fun u => ?_
    rcases eq_or_ne u r with rfl | h
    · rw [goto_pc_self]
      cases a <;> exact .ret
    · rw [goto_pc_of_ne _ _ h]
      exact .waiting (hpc u h)

/-- Once the result is stored every thread reads it and returns it. -/
theorem Phase.step_done {s : State T} (t : T) (p : Bool) (a : Bool) (rest : List (Event T))
    (hst : s.status = aesSelfTests a) (hlog : s.log = allRan T a ++ rest)
    (hrest : ∀ ev ∈ rest, ∃ t, ev = .returned t (verdict a)) (hpc : ∀ t, After a (s.pc t)) :
    Phase (step s (t, p)) := by
  have hgoto : ∀ pc, After a pc → Phase (s.goto t pc) := fun pc h =>
    .done a rest hst hlog hrest (goto_forall hpc h)
  have hbit : aesSelfTests a &&& 0x2#32 = 0#32 := by cases a <;> rfl
  have hnot : aesSelfTests a ≠ selfTestNotDone := by cases a <;> decide
  have hrun : aesSelfTests a ≠ selfTestRunning := by cases a <;> decide
  have ht := hpc t
  unfold step
  generalize hpct : s.pc t = pc at ht
  cases ht with
  | waiting hw =>
    cases hw with
    | before hb =>
      cases hb with
      | idle => exact hgoto _ (.waiting (.before .load))
      | load =>
        simp only [hst, hbit, if_true, afterCheck_aesSelfTests]
        exact hgoto _ .ret
      | cas =>
        simp only [hst, hnot, if_false]
        exact hgoto _ (.waiting .spin)
    | spin =>
      simp only [hst, hrun, if_false]
      exact hgoto _ .reread
  | reread =>
    simp only [hst, afterCheck_aesSelfTests]
    exact hgoto _ .ret
  | ret =>
    refine .done a (rest ++ [.returned t (verdict a)]) hst ?_ ?_
      (goto_forall hpc (.waiting (.before .idle)))
    · rw [← List.append_assoc, ← hlog]
      rfl
    · intro ev hev
      rcases List.mem_append.mp hev with h | h
      · exact hrest ev h
      · exact ⟨t, List.mem_singleton.mp h⟩

theorem Phase.step {s : State T} (a : T × Bool) (h : Phase s) (hsha : ShaPasses s a) :
    Phase (step s a) := by
  obtain ⟨t, p⟩ := a
  cases h with
  | notDone hst hlog hpc => exact step_notDone t p hst hlog hpc
  | running r hst hprog hpc =>
    rcases eq_or_ne t r with rfl | htr
    · exact step_running t p hsha hst hprog hpc
    · exact step_waiting t r p htr hst hprog hpc
  | done a rest hst hlog hrest hpc => exact step_done t p a rest hst hlog hrest hpc

/-! ## The verdict is final -/

omit [DecidableEq T] in
theorem Progress.not_returned {pc : Pc} {log : List (Event T)} (h : Progress pc log) (t : T)
    (e : IsalCryptoError) : .returned t e ∉ log := by
  cases h <;> simp [allRan]

omit [DecidableEq T] in
theorem Final.of_not_returned {log : List (Event T)}
    (honce : ∀ k, (log.filter (Event.isRun k)).length ≤ 1)
    (hret : ∀ t e, .returned t e ∉ log) : Final log where
  once := honce
  finished := fun pre t e post h => absurd (h ▸ by simp) (hret t e)
  answer := fun t e h => absurd h (hret t e)

omit [DecidableEq T] in
theorem Progress.once {pc : Pc} {log : List (Event T)} (h : Progress pc log) (k : SelfTest) :
    (log.filter (Event.isRun k)).length ≤ 1 := by
  cases h <;> cases k <;> simp [allRan, Event.isRun]

omit [DecidableEq T] in
theorem Final.of_done {a : Bool} {rest : List (Event T)}
    (hrest : ∀ ev ∈ rest, ∃ t, ev = .returned t (verdict a)) : Final (allRan T a ++ rest) where
  once := fun k => by
    have hnone : rest.filter (Event.isRun k) = [] := List.filter_eq_nil_iff.mpr fun ev hev => by
      obtain ⟨t, rfl⟩ := hrest ev hev
      simp [Event.isRun]
    rw [List.filter_append, hnone, List.append_nil]
    exact Progress.once (.set a) k
  finished := fun pre t e post h k => by
    -- the return is not one of the first four events
    have hpre : ∃ as, pre = allRan T a ++ as := by
      rcases List.append_eq_append_iff.mp h with ⟨as, hpre, _⟩ | ⟨bs, hbs, hcons⟩
      · exact ⟨as, hpre⟩
      · cases bs with
        | nil => exact ⟨[], by rw [List.append_nil] at hbs ⊢; exact hbs.symm⟩
        | cons b bs =>
          obtain ⟨rfl, -⟩ := List.cons.inj hcons
          exact absurd (hbs ▸ by simp) (Progress.not_returned (.set a) t e)
    obtain ⟨as, rfl⟩ := hpre
    cases k <;> simp [allRan]
  answer := fun t e h => by
    have hall : rest.all Event.passed = true := List.all_eq_true.mpr fun ev hev => by
      obtain ⟨u, rfl⟩ := hrest ev hev
      rfl
    have he : e = verdict a := by
      rcases List.mem_append.mp h with h | h
      · exact absurd h (Progress.not_returned (.set a) t e)
      · obtain ⟨u, hu⟩ := hrest _ h
        exact (Event.returned.inj hu).2
    rw [List.all_append, hall, he]
    cases a <;> simp [allRan, Event.passed, verdict]

omit [DecidableEq T] in
theorem Phase.final {s : State T} (h : Phase s) : Final s.log := by
  cases h with
  | notDone _ hlog _ => exact .of_not_returned (by simp [hlog]) (by simp [hlog])
  | running r _ hprog _ => exact .of_not_returned hprog.once hprog.not_returned
  | done a rest _ hlog hrest _ =>
    rw [hlog]
    exact .of_done hrest

/-- In every interleaving of any threads' calls in which no SHA self test fails, the self tests run
at most once, every call returns after they have run, and all calls return the same verdict. -/
theorem selfTests_final (T : Type) [DecidableEq T] (sched : List (T × Bool))
    (hsha : Guarded step ShaPasses (State.init T) sched) :
    Final (run step (State.init T) sched).log :=
  (run_invariant (fun _ a h hg => h.step a hg) Phase.init hsha).final

/-- Two threads, the AES self test failing: the first runs the tests, the second reads the
verdict. -/
theorem selfTests_final_two_threads :
    Final (run step (State.init Bool)
      [(false, true), (false, true), (false, true), (true, true), (false, false), (false, true),
        (false, true), (false, true), (false, true), (false, true), (true, true),
        (true, true)]).log :=
  selfTests_final Bool _ (by decide)

/-- One thread, two calls. The SHA-1 self test fails in the first; the second runs the tests again
and returns success. -/
theorem selfTests_rerun :
    let log := (run step (State.init Unit)
      (((List.replicate 4 true ++ [false]) ++ List.replicate 15 true).map fun p => ((), p))).log
    .returned () .errSelfTest ∈ log ∧ .returned () .errNone ∈ log ∧ ¬ Final log := by
  refine ⟨by decide, by decide, fun h => ?_⟩
  have := h.once .sha1
  revert this
  decide

end IsalCrypto.Fips
