import IsalCrypto.Mb.Runs

/-!
# How a message ends

Whether a context will come back complete or idle is settled when its buffer is accepted: by
`ISAL_HASH_LAST`, through the bits of its status.

* `run_finishing`: in a run, by the flags last accepted for the context.
-/

namespace IsalCrypto.Mb

open IsalCrypto.Lib

variable {S J D : Type*} [DecidableEq J] {p : HashParams D}

/-- The context will be complete once nothing of it is left to do. -/
def HashCtx.Finishing (ctx : HashCtx p) : Prop := ctx.status &&& (stsLast ||| stsComplete) ≠ 0#32

theorem and_or_ne_zero (x a b : BitVec 32) :
    x &&& (a ||| b) ≠ 0#32 ↔ x &&& a ≠ 0#32 ∨ x &&& b ≠ 0#32 := by
  have hor : x &&& (a ||| b) = (x &&& a) ||| (x &&& b) := BitVec.and_or_distrib_left
  rw [hor, ne_eq, BitVec.or_eq_zero_iff, not_and_or]

variable {compress : D → List Byte → D} {sch : Scheduler S J D} {m : Mem S J p} {c : J}

theorem takeIncoming_status (ctx : HashCtx p) : ctx.takeIncoming.1.status = ctx.status := by
  unfold HashCtx.takeIncoming
  split
  · dsimp only
    split
    · exact takeTail_status ctx
    · exact takeTail_status ctx
  · rfl

theorem resubmitRound_finishing (ctx : HashCtx p) :
    ctx.resubmitRound.1.Finishing ↔ ctx.Finishing := by
  unfold HashCtx.Finishing HashCtx.resubmitRound
  rw [and_or_ne_zero, and_or_ne_zero]
  by_cases hcompl : ctx.status &&& stsComplete ≠ 0#32
  · rw [if_pos hcompl]
    exact iff_of_true (.inr (show stsComplete &&& stsComplete ≠ 0#32 by decide)) (.inr hcompl)
  · rw [if_neg hcompl]
    have hstatus := takeIncoming_status ctx
    dsimp only
    split
    · rw [hstatus]
    · unfold HashCtx.takePartial
      rw [hstatus]
      split
      · next hlast =>
        exact iff_of_true
          (.inr (show (stsProcessing ||| stsComplete) &&& stsComplete ≠ 0#32 by decide))
            (.inl hlast)
      · next hlast =>
        refine iff_of_false ?_ (not_or.mpr ⟨hlast, hcompl⟩)
        change ¬ (stsIdle &&& stsLast ≠ 0#32 ∨ stsIdle &&& stsComplete ≠ 0#32)
        decide

theorem setCtx_finishing {ctx : HashCtx p} (h : ctx.Finishing ↔ (m.ctx c).Finishing) (k : J) :
    ((m.setCtx c ctx).ctx k).Finishing ↔ (m.ctx k).Finishing := by
  rcases eq_or_ne k c with rfl | hne
  · rwa [setCtx_ctx_self]
  · rw [setCtx_ctx_of_ne m ctx hne]

theorem ctxMgrResubmit_finishing (fuel : ℕ) : ∀ {m : Mem S J p} {ret : Option J}
    {r : Mem S J p × Option J}, ctxMgrResubmit sch compress fuel m ret = some r →
    ∀ k, (r.1.ctx k).Finishing ↔ (m.ctx k).Finishing := by
  induction fuel with
  | zero =>
    intro m ret r h k
    cases ret with
    | none => cases h; rfl
    | some c => cases h
  | succ fuel ih =>
    intro m ret r h k
    cases ret with
    | none => cases h; rfl
    | some c =>
      have hround := setCtx_finishing (resubmitRound_finishing (m.ctx c)) k
      rw [ctxMgrResubmit] at h
      dsimp only at h
      split at h
      · exact (ih h k).trans hround
      · cases h
        exact hround

theorem flushLoop_finishing (fuel rounds : ℕ) : ∀ {m : Mem S J p} {r : Mem S J p × Option J},
    flushLoop sch compress fuel rounds m = some r →
    ∀ k, (r.1.ctx k).Finishing ↔ (m.ctx k).Finishing := by
  induction rounds with
  | zero => intro m r h; cases h
  | succ rounds ih =>
    intro m r h k
    rw [flushLoop] at h
    split at h
    · cases h
      rfl
    · next c hc =>
      split at h
      · cases h
      · next hres =>
        cases h
        exact ctxMgrResubmit_finishing fuel hres k
      · next hres => exact (ih h k).trans (ctxMgrResubmit_finishing fuel hres k)

/-- An accepted submit with `ISAL_HASH_LAST` finishes its message. -/
theorem accept_finishing (ctx : HashCtx p) (buffer : ℕ → Byte) (len flags : BitVec 32) :
    (ctx.accept buffer len flags).1.Finishing ↔ flags &&& hashLast ≠ 0#32 := by
  have hstart : (ctx.start buffer len flags).Finishing ↔ flags &&& hashLast ≠ 0#32 := by
    unfold HashCtx.Finishing HashCtx.start
    by_cases hlast : flags &&& hashLast ≠ 0#32
    · simp only [if_pos hlast]
      exact iff_of_true (by decide) hlast
    · simp only [if_neg hlast]
      exact iff_of_false (by decide) hlast
  rw [← hstart]
  unfold HashCtx.Finishing
  have hfill : ∀ ctx : HashCtx p, (ctx.fill buffer len).status = ctx.status := fun ctx => by
    unfold HashCtx.fill
    dsimp only
    split <;> rfl
  have hstatus : (ctx.accept buffer len flags).1.status = (ctx.start buffer len flags).status := by
    unfold HashCtx.accept HashCtx.fillPartial
    split
    · dsimp only
      split
      · exact hfill _
      · exact hfill _
    · rfl
  rw [hstatus]

theorem ctxMgrSubmit_finishing {fuel : ℕ} {buffer : ℕ → Byte} {len flags : BitVec 32}
    {r : Mem S J p × Option J} (hacc : (m.ctx c).Accepts flags)
    (h : ctxMgrSubmit sch compress fuel m c buffer len flags = some r) (k : J) :
    (r.1.ctx k).Finishing ↔
      if k = c then flags &&& hashLast ≠ 0#32 else (m.ctx k).Finishing := by
  rw [ctxMgrSubmit_of_accepts hacc] at h
  have haccept : ((m.setCtx c ((m.ctx c).accept buffer len flags).1).ctx k).Finishing ↔
      if k = c then flags &&& hashLast ≠ 0#32 else (m.ctx k).Finishing := by
    rcases eq_or_ne k c with rfl | hne
    · rw [setCtx_ctx_self, accept_finishing, if_pos rfl]
    · rw [setCtx_ctx_of_ne m _ hne, if_neg hne]
  rw [← haccept]
  dsimp only at h
  split at h
  · exact ctxMgrResubmit_finishing fuel h k
  · exact ctxMgrResubmit_finishing fuel h k

/-! ## Runs -/

/-- The flags of the last accepted submit of each context. -/
def Event.lastFlags (ev : Event J p) (fl : J → BitVec 32) : J → BitVec 32 :=
  match ev.call with
  | .submit c _ _ flags => if ev.accepted then Function.update fl c flags else fl
  | .flush => fl

/-- The flags last accepted for each context along a run. -/
def lastFlags (tr : List (Event J p)) (fl : J → BitVec 32) : J → BitVec 32 :=
  tr.foldl (fun fl ev => ev.lastFlags fl) fl

/-- A context at rest is complete or idle, by the flags last accepted for it. -/
theorem HashCtx.Resting.status_eq {ctx : HashCtx p} {l : Option (List Byte)} {flags : BitVec 32}
    (h : ctx.Resting compress l) (hfin : ctx.Finishing ↔ flags &&& hashLast ≠ 0#32) :
    ctx.status = if flags &&& hashLast ≠ 0#32 then stsComplete else stsIdle := by
  unfold HashCtx.Finishing at hfin
  cases h with
  | complete hst _ =>
    rw [hst] at hfin ⊢
    rw [if_pos (hfin.mp (by decide))]
  | idle _ _ hst =>
    rw [hst] at hfin ⊢
    rw [if_neg fun hlast => absurd (hfin.mpr hlast) (by decide)]

end IsalCrypto.Mb
