import IsalCrypto.Mb.Runs

/-!
# Runs with and without a rejected call

A rejected submit sets the error field of its context and nothing else. No function of the context
layer or of a scheduler reads that field, so two runs that differ by it stay the same but for it.

* `exec_setError`: one call from two such states.
* `run_setError`: a run from two such states.
-/

namespace IsalCrypto.Mb

open IsalCrypto.Lib

variable {S J D : Type*} [DecidableEq J] {p : HashParams D}

def HashCtx.setError (ctx : HashCtx p) (e : HashCtxError) : HashCtx p := { ctx with error := e }

/-- The memory with another error in context `c`. -/
def Mem.setError (m : Mem S J p) (c : J) (e : HashCtxError) : Mem S J p :=
  m.setCtx c ((m.ctx c).setError e)

/-- The event with another error in context `c`. -/
def Event.setError (ev : Event J p) (c : J) (e : HashCtxError) : Event J p :=
  { ev with ctx := Function.update ev.ctx c ((ev.ctx c).setError e) }

/-- The two events differ at most in the error of context `c`. -/
def SameButError (c : J) (ev ev' : Event J p) : Prop := ∃ e, ev' = ev.setError c e

variable {sch : Scheduler S J D} {compress : D → List Byte → D} {m : Mem S J p} {c : J}

/-! ## Contexts -/

theorem setError_ctx (m : Mem S J p) (c : J) (e : HashCtxError) (k : J) :
    (m.setError c e).ctx k = if k = c then (m.ctx k).setError e else m.ctx k := by
  rcases eq_or_ne k c with rfl | hne
  · rw [if_pos rfl]
    exact setCtx_ctx_self ..
  · rw [if_neg hne]
    exact setCtx_ctx_of_ne m _ hne

omit [DecidableEq J] in
theorem Mem.ext_ctx {m m' : Mem S J p} (hmgr : m.mgr = m'.mgr) (hctx : ∀ k, m.ctx k = m'.ctx k) :
    m = m' := by
  obtain ⟨s, ctx⟩ := m
  obtain ⟨s', ctx'⟩ := m'
  obtain rfl : s = s' := hmgr
  obtain rfl : ctx = ctx' := funext hctx
  rfl

section Fields

variable (ctx : HashCtx p) (e : HashCtxError)

@[simp] theorem setError_job : (ctx.setError e).job = ctx.job := rfl
@[simp] theorem setError_status : (ctx.setError e).status = ctx.status := rfl
@[simp] theorem setError_totalLength : (ctx.setError e).totalLength = ctx.totalLength := rfl
@[simp] theorem setError_incomingBuffer :
    (ctx.setError e).incomingBuffer = ctx.incomingBuffer := rfl
@[simp] theorem setError_incomingBufferLength :
    (ctx.setError e).incomingBufferLength = ctx.incomingBufferLength := rfl
@[simp] theorem setError_partialBlockBuffer :
    (ctx.setError e).partialBlockBuffer = ctx.partialBlockBuffer := rfl
@[simp] theorem setError_partialBlockBufferLength :
    (ctx.setError e).partialBlockBufferLength = ctx.partialBlockBufferLength := rfl
@[simp] theorem setError_copyLen : (ctx.setError e).copyLen = ctx.copyLen := rfl

@[simp]
theorem takeTail_setError : (ctx.setError e).takeTail = ctx.takeTail.setError e := by
  unfold HashCtx.takeTail
  rw [setError_copyLen]
  split <;> rfl

theorem takeIncoming_setError :
    (ctx.setError e).takeIncoming = (ctx.takeIncoming.1.setError e, ctx.takeIncoming.2) := by
  unfold HashCtx.takeIncoming
  simp only [setError_partialBlockBufferLength, setError_incomingBufferLength,
    setError_incomingBuffer, setError_copyLen, takeTail_setError]
  by_cases hcond : ctx.partialBlockBufferLength = 0#32 ∧ ctx.incomingBufferLength ≠ 0#32
  · rw [if_pos hcond, if_pos hcond]
    split <;> rfl
  · rw [if_neg hcond, if_neg hcond]

theorem takePartial_setError :
    (ctx.setError e).takePartial = (ctx.takePartial.1.setError e, ctx.takePartial.2) := by
  unfold HashCtx.takePartial
  rw [setError_status]
  split <;> rfl

theorem resubmitRound_setError :
    (ctx.setError e).resubmitRound = (ctx.resubmitRound.1.setError e, ctx.resubmitRound.2) := by
  unfold HashCtx.resubmitRound
  rw [setError_status, takeIncoming_setError]
  split
  · rfl
  · dsimp only
    split
    · rfl
    · exact takePartial_setError ..

end Fields

/-! ## The scheduler and the loops -/

omit [DecidableEq J] in
theorem load_setError (ctx : HashCtx p) (e : HashCtxError) :
    (ctx.setError e).load = ctx.load := by
  funext ptr k
  cases ptr <;> rfl

theorem kernel_setError (m : Mem S J p) (c : J) (e : HashCtxError) :
    (m.setError c e).kernel compress = m.kernel compress := by
  funext k ptr n d
  have hload : ((m.setError c e).ctx k).load = (m.ctx k).load := by
    rw [setError_ctx]
    split
    · exact load_setError ..
    · rfl
  simp only [Mem.kernel, hload]

theorem jobs_setError (m : Mem S J p) (c : J) (e : HashCtxError) :
    (m.setError c e).jobs = m.jobs := by
  funext k
  rw [Mem.jobs, Mem.jobs, setError_ctx]
  split <;> rfl

theorem afterMb_setError (m : Mem S J p) (c : J) (e : HashCtxError)
    (r : S × (J → Job D) × Option J) :
    (m.setError c e).afterMb r = ((m.afterMb r).1.setError c e, (m.afterMb r).2) := by
  refine Prod.ext (Mem.ext_ctx rfl fun k => ?_) rfl
  rw [setError_ctx]
  change { (m.setError c e).ctx k with job := r.2.1 k } = _
  rw [setError_ctx]
  split <;> rfl

theorem mbSubmit_setError (m : Mem S J p) (c : J) (e : HashCtxError) (k : J) :
    (m.setError c e).mbSubmit sch compress k =
      ((m.mbSubmit sch compress k).1.setError c e, (m.mbSubmit sch compress k).2) := by
  rw [Mem.mbSubmit, kernel_setError, jobs_setError, afterMb_setError]
  rfl

theorem mbFlush_setError (m : Mem S J p) (c : J) (e : HashCtxError) :
    (m.setError c e).mbFlush sch compress =
      ((m.mbFlush sch compress).1.setError c e, (m.mbFlush sch compress).2) := by
  rw [Mem.mbFlush, kernel_setError, jobs_setError, afterMb_setError]
  rfl

/-- A change of context `k` that does not look at the error. -/
theorem setCtx_setError (m : Mem S J p) (c k : J) (e : HashCtxError)
    {f : HashCtx p → HashCtx p} (hf : ∀ ctx, f (ctx.setError e) = (f ctx).setError e) :
    (m.setError c e).setCtx k (f ((m.setError c e).ctx k)) =
      (m.setCtx k (f (m.ctx k))).setError c e := by
  refine Mem.ext_ctx rfl fun j => ?_
  rw [setError_ctx (m.setCtx k (f (m.ctx k)))]
  rcases eq_or_ne j k with rfl | hne
  · rw [setCtx_ctx_self, setCtx_ctx_self, setError_ctx]
    split
    · rw [hf]
    · rfl
  · rw [setCtx_ctx_of_ne _ _ hne, setCtx_ctx_of_ne _ _ hne, setError_ctx]

theorem ctxMgrResubmit_setError (e : HashCtxError) (fuel : ℕ) :
    ∀ (m : Mem S J p) (ret : Option J),
      ctxMgrResubmit sch compress fuel (m.setError c e) ret =
        (ctxMgrResubmit sch compress fuel m ret).map fun r => (r.1.setError c e, r.2) := by
  induction fuel with
  | zero =>
    intro m ret
    cases ret <;> rfl
  | succ fuel ih =>
    intro m ret
    cases ret with
    | none => rfl
    | some k =>
      have hset := setCtx_setError (f := fun ctx => ctx.resubmitRound.1) m c k e fun ctx => by
        rw [resubmitRound_setError]
      have hsub : ((m.setError c e).ctx k).resubmitRound.2 = (m.ctx k).resubmitRound.2 := by
        rw [setError_ctx]
        split
        · rw [resubmitRound_setError]
        · rfl
      rw [ctxMgrResubmit, ctxMgrResubmit]
      dsimp only
      rw [hset, hsub]
      split
      · rw [mbSubmit_setError]
        exact ih ..
      · rfl

theorem flushLoop_setError (e : HashCtxError) (fuel rounds : ℕ) : ∀ m : Mem S J p,
    flushLoop sch compress fuel rounds (m.setError c e) =
      (flushLoop sch compress fuel rounds m).map fun r => (r.1.setError c e, r.2) := by
  induction rounds with
  | zero => exact fun _ => rfl
  | succ rounds ih =>
    intro m
    rw [flushLoop, flushLoop, mbFlush_setError]
    cases hflush : (m.mbFlush sch compress).2 with
    | none => rfl
    | some k =>
      dsimp only
      rw [ctxMgrResubmit_setError]
      cases hres : ctxMgrResubmit sch compress fuel (m.mbFlush sch compress).1 (some k) with
      | none => rfl
      | some r =>
        obtain ⟨m', ret⟩ := r
        cases ret with
        | none => exact ih m'
        | some k => rfl

/-! ## Calls -/

omit [DecidableEq J] in
theorem accepts_setError (ctx : HashCtx p) (e : HashCtxError) (flags : BitVec 32) :
    (ctx.setError e).Accepts flags ↔ ctx.Accepts flags := Iff.rfl

/-- An accepted submit sets the error itself. -/
theorem accept_setError (ctx : HashCtx p) (e : HashCtxError) (buffer : ℕ → Byte)
    (len flags : BitVec 32) :
    (ctx.setError e).accept buffer len flags = ctx.accept buffer len flags := by
  have hstart : (ctx.setError e).start buffer len flags = ctx.start buffer len flags := by
    unfold HashCtx.start
    split <;> rfl
  rw [HashCtx.accept, hstart]
  rfl

theorem setError_self (m : Mem S J p) (c : J) : m.setError c (m.ctx c).error = m := by
  refine Mem.ext_ctx rfl fun k => ?_
  rw [setError_ctx]
  split
  · next h => rw [h]; rfl
  · rfl

/-- A change of another context. -/
theorem setCtx_setError_of_ne (m : Mem S J p) {c k : J} (hne : k ≠ c) (e : HashCtxError)
    (ctx : HashCtx p) : (m.setError c e).setCtx k ctx = (m.setCtx k ctx).setError c e := by
  refine Mem.ext_ctx rfl fun j => ?_
  rw [setError_ctx (m.setCtx k ctx)]
  rcases eq_or_ne j k with rfl | hj
  · rw [setCtx_ctx_self, setCtx_ctx_self, if_neg hne]
  · rw [setCtx_ctx_of_ne _ _ hj, setCtx_ctx_of_ne _ _ hj, setError_ctx]

/-- A submit of a context from memories that differ by its error. -/
theorem ctxMgrSubmit_setError_self (fuel : ℕ) (m : Mem S J p) (c : J) (e : HashCtxError)
    (buffer : ℕ → Byte) (len flags : BitVec 32) :
    ctxMgrSubmit sch compress fuel (m.setError c e) c buffer len flags =
      ctxMgrSubmit sch compress fuel m c buffer len flags := by
  have hself : (m.setError c e).ctx c = (m.ctx c).setError e := setCtx_ctx_self ..
  have hset : ∀ ctx, (m.setError c e).setCtx c ctx = m.setCtx c ctx := fun ctx =>
    Mem.ext_ctx rfl fun k => by
      rcases eq_or_ne k c with rfl | hne
      · rw [setCtx_ctx_self, setCtx_ctx_self]
      · rw [setCtx_ctx_of_ne _ _ hne, setCtx_ctx_of_ne _ _ hne, setError_ctx, if_neg hne]
  by_cases hacc : (m.ctx c).Accepts flags
  · have hacc' : ((m.setError c e).ctx c).Accepts flags := by rwa [hself, accepts_setError]
    rw [ctxMgrSubmit_of_accepts hacc, ctxMgrSubmit_of_accepts hacc', hself, accept_setError]
    dsimp only
    rw [hset]
  · have hacc' : ¬ ((m.setError c e).ctx c).Accepts flags := by rwa [hself, accepts_setError]
    rw [ctxMgrSubmit_rejected fuel buffer len hacc, ctxMgrSubmit_rejected fuel buffer len hacc',
      hself, hset]
    rfl

/-- A submit of another context. -/
theorem ctxMgrSubmit_setError_of_ne (fuel : ℕ) (m : Mem S J p) {c k : J} (hne : k ≠ c)
    (e : HashCtxError) (buffer : ℕ → Byte) (len flags : BitVec 32) :
    ctxMgrSubmit sch compress fuel (m.setError c e) k buffer len flags =
      (ctxMgrSubmit sch compress fuel m k buffer len flags).map
        fun r => (r.1.setError c e, r.2) := by
  have hself : (m.setError c e).ctx k = m.ctx k := setCtx_ctx_of_ne _ _ hne
  by_cases hacc : (m.ctx k).Accepts flags
  · have hacc' : ((m.setError c e).ctx k).Accepts flags := by rwa [hself]
    rw [ctxMgrSubmit_of_accepts hacc, ctxMgrSubmit_of_accepts hacc', hself]
    dsimp only
    rw [setCtx_setError_of_ne m hne]
    split
    · rw [mbSubmit_setError, ctxMgrResubmit_setError]
    · exact ctxMgrResubmit_setError ..
  · have hacc' : ¬ ((m.setError c e).ctx k).Accepts flags := by rwa [hself]
    rw [ctxMgrSubmit_rejected fuel buffer len hacc, ctxMgrSubmit_rejected fuel buffer len hacc',
      hself, setCtx_setError_of_ne m hne]
    rfl

/-- One call from two memories that differ by the error of a context. -/
theorem exec_setError (fuel : ℕ) (m : Mem S J p) (c : J) (e : HashCtxError) (a : Call J) :
    ∃ e', exec sch compress fuel (m.setError c e) a =
      (exec sch compress fuel m a).map fun r => (r.1.setError c e', r.2) := by
  cases a with
  | flush => exact ⟨e, flushLoop_setError e fuel fuel m⟩
  | submit k buffer len flags =>
    rcases eq_or_ne k c with rfl | hne
    · -- the error is set anew, or the context is not touched
      have hself := @ctxMgrSubmit_setError_self S J D _ p sch compress fuel m k e buffer len flags
      simp only [exec, hself]
      cases ctxMgrSubmit sch compress fuel m k buffer len flags with
      | none => exact ⟨e, rfl⟩
      | some r => exact ⟨(r.1.ctx k).error, by rw [Option.map_some, setError_self]⟩
    · exact ⟨e, ctxMgrSubmit_setError_of_ne fuel m hne e buffer len flags⟩

theorem accepted_setError (m : Mem S J p) (c : J) (e : HashCtxError) (a : Call J) :
    a.accepted (m.setError c e) = a.accepted m := by
  cases a with
  | flush => rfl
  | submit k buffer len flags =>
    refine decide_eq_decide.mpr ?_
    rw [setError_ctx]
    split
    · exact accepts_setError ..
    · rfl

/-! ## Runs -/

theorem SameButError.returned {c : J} {tr tr' : List (Event J p)}
    (h : List.Forall₂ (SameButError c) tr tr') :
    tr'.map Event.returned = tr.map Event.returned := by
  induction h with
  | nil => rfl
  | cons hev _ ih =>
    obtain ⟨e, rfl⟩ := hev
    rw [List.map_cons, List.map_cons, ih]
    rfl

theorem run_setError {fuel : ℕ} (c : J) (calls : List (Call J)) :
    ∀ {m m' : Mem S J p} {tr : List (Event J p)} (e : HashCtxError),
      run sch compress fuel m calls = some (m', tr) →
      ∃ e' tr', run sch compress fuel (m.setError c e) calls = some (m'.setError c e', tr') ∧
        List.Forall₂ (SameButError c) tr tr' := by
  induction calls with
  | nil =>
    intro m m' tr e h
    cases h
    exact ⟨e, [], rfl, .nil⟩
  | cons a calls ih =>
    intro m m' tr e h
    obtain ⟨e1, he1⟩ := @exec_setError S J D _ p sch compress fuel m c e a
    rw [run] at h
    cases hexec : exec sch compress fuel m a with
    | none =>
      rw [hexec] at h
      cases h
    | some r =>
      obtain ⟨m1, ret⟩ := r
      rw [hexec] at h he1
      obtain ⟨⟨m2, tr2⟩, hrun, heq⟩ := Option.map_eq_some_iff.mp h
      cases heq
      obtain ⟨e', tr', hrun', hsame⟩ := ih e1 hrun
      refine ⟨e', ⟨a, a.accepted m, ret, (m1.setError c e1).ctx⟩ :: tr', ?_, .cons ⟨e1, rfl⟩ hsame⟩
      rw [run, he1, Option.map_some]
      dsimp only
      rw [hrun', accepted_setError]
      rfl

end IsalCrypto.Mb
