import IsalCrypto.Mb.Phase
import Mathlib.Algebra.Order.BigOperators.Group.Finset

/-!
# The manager over a correct scheduler

`Inv` relates the contexts to the jobs the scheduler holds. Every call keeps it and terminates:
`ctxMgrSubmit_accepted`, `ctxMgrSubmit_rejected`, `ctxMgrFlush_spec`. The loops end because every
job that goes back into the scheduler lowers the sum of the ranks of the contexts inside.
-/

namespace IsalCrypto.Mb

open IsalCrypto.Lib

variable {S J D : Type*} [DecidableEq J] {p : HashParams D}

section Kernel

variable (compress : D → List Byte → D)

theorem load_add (ctx : HashCtx p) (ptr : BufferPtr) (n k : ℕ) :
    ctx.load (ptr.add n) k = ctx.load ptr (n + k) := by
  cases ptr with
  | user bytes => rfl
  | partialBlock offset => rw [BufferPtr.add, HashCtx.load, HashCtx.load, Nat.add_assoc]

omit [DecidableEq J] in
theorem Mem.kernel_lawful (m : Mem S J p) : (m.kernel compress).Lawful p.blockSize where
  zero _ _ _ := rfl
  add c ptr a n d := by
    simp only [Mem.kernel]
    rw [absorb_add, Nat.zero_add]
    exact absorb_congr n _ fun k _ => by rw [load_add, Nat.zero_add]

end Kernel

section Invariant

variable (compress : D → List Byte → D) (maxBlocks : ℕ)
  (Rep : Kernel J D → S → (J → Job D) → Finset J → (J → D) → Prop)

/-- Between calls: the contexts in `held` are inside the manager, the others with the user. `msg`
is the message accepted for each context. -/
structure Inv (m : Mem S J p) (held : Finset J) (goal : J → D) (msg : J → Option (List Byte)) :
    Prop where
  rep : Rep (m.kernel compress) m.mgr m.jobs held goal
  busy : ∀ c ∈ held, ∃ l, msg c = some l ∧ (m.ctx c).Busy compress maxBlocks l (goal c)
  resting : ∀ c, c ∉ held → (m.ctx c).Resting compress (msg c)

/-- Inside a call: the job of context `c` is done, and `c` is in the hands of the loop. -/
structure InHand (m : Mem S J p) (held : Finset J) (goal : J → D) (msg : J → Option (List Byte))
    (c : J) : Prop where
  rep : Rep (m.kernel compress) m.mgr m.jobs held goal
  busy : ∀ k ∈ held, ∃ l, msg k = some l ∧ (m.ctx k).Busy compress maxBlocks l (goal k)
  resting : ∀ k, k ∉ held → k ≠ c → (m.ctx k).Resting compress (msg k)
  not_held : c ∉ held
  hand : ∃ l, msg c = some l ∧ (m.ctx c).Busy compress maxBlocks l (m.ctx c).job.resultDigest

/-- The sum of the ranks of the contexts inside. -/
def work (m : Mem S J p) (held : Finset J) : ℕ := ∑ c ∈ held, (m.ctx c).rank

end Invariant

variable {compress : D → List Byte → D} {maxBlocks : ℕ}
  {Rep : Kernel J D → S → (J → Job D) → Finset J → (J → D) → Prop} {sch : Scheduler S J D}
  {m : Mem S J p} {held : Finset J} {goal : J → D} {msg : J → Option (List Byte)} {c : J}

/-! ## Changes of one context -/

@[simp]
theorem setCtx_ctx_self (m : Mem S J p) (c : J) (ctx : HashCtx p) : (m.setCtx c ctx).ctx c = ctx :=
  Function.update_self ..

theorem setCtx_ctx_of_ne (m : Mem S J p) {c k : J} (ctx : HashCtx p) (h : k ≠ c) :
    (m.setCtx c ctx).ctx k = m.ctx k :=
  Function.update_of_ne h ..

/-- A change of a context that is not held leaves the scheduler as it was. -/
theorem rep_setCtx (hcor : sch.Correct p.blockSize maxBlocks Rep) (ctx : HashCtx p)
    (h : Rep (m.kernel compress) m.mgr m.jobs held goal) (hc : c ∉ held) :
    Rep ((m.setCtx c ctx).kernel compress) (m.setCtx c ctx).mgr
      (m.setCtx c ctx).jobs held goal := by
  refine hcor.congr (fun k hk => ?_) h
  have hne : k ≠ c := fun he => hc (he ▸ hk)
  refine ⟨?_, ?_, rfl⟩
  · funext ptr n d
    simp only [Mem.kernel, setCtx_ctx_of_ne m ctx hne]
  · simp only [Mem.jobs, setCtx_ctx_of_ne m ctx hne]

omit [DecidableEq J] in
theorem HashCtx.Busy.setJob {ctx : HashCtx p} {l : List Byte} {d : D}
    (h : ctx.Busy compress maxBlocks l d) (job : Job D) :
    ({ ctx with job := job } : HashCtx p).Busy compress maxBlocks l d := by
  cases h with
  | mid k hst hinc h =>
    exact .mid k hst hinc ⟨h.length, h.digest, h.partialBytes, h.incomingBytes, h.partial_lt,
      h.partial_or, h.total⟩
  | last hst h => exact .last hst h

omit [DecidableEq J] in
theorem rank_le (ctx : HashCtx p) : ctx.rank ≤ 3 := by
  unfold HashCtx.rank
  split
  · decide
  · split <;> decide

/-! ## Calls of the scheduler -/

/-- What a call of the scheduler does to the contexts: it writes the jobs of `all` and hands back
at most one context of `all`, with its job done. -/
structure MbReturns (compress : D → List Byte → D) (maxBlocks : ℕ)
    (Rep : Kernel J D → S → (J → Job D) → Finset J → (J → D) → Prop) (m : Mem S J p)
    (all : Finset J) (msg : J → Option (List Byte)) (r : Mem S J p × Option J) : Prop where
  error : ∀ k, (r.1.ctx k).error = (m.ctx k).error
  rank : ∀ k, (r.1.ctx k).rank = (m.ctx k).rank
  frame : ∀ k, k ∉ all → r.1.ctx k = m.ctx k
  none : r.2 = none → ∃ goal, Inv compress maxBlocks Rep r.1 all goal msg
  some : ∀ k, r.2 = some k → k ∈ all ∧ ∃ goal,
    InHand compress maxBlocks Rep r.1 (all.erase k) goal msg k

theorem Returns.afterMb {all : Finset J} {r : S × (J → Job D) × Option J}
    (h : Returns (Rep (m.kernel compress)) m.jobs all goal r)
    (hbusy : ∀ k ∈ all, ∃ l, msg k = some l ∧ (m.ctx k).Busy compress maxBlocks l (goal k))
    (hrest : ∀ k, k ∉ all → (m.ctx k).Resting compress (msg k)) :
    MbReturns compress maxBlocks Rep m all msg (m.afterMb r) := by
  obtain ⟨s', jobs', ret⟩ := r
  obtain ⟨hframe, hret⟩ := h
  have hctx : ∀ k, k ∉ all → (m.afterMb (s', jobs', ret)).1.ctx k = m.ctx k := fun k hk => by
    have hjob : jobs' k = (m.ctx k).job := hframe k hk
    simp only [Mem.afterMb, hjob]
  have hbusy' : ∀ k ∈ all, ∃ l, msg k = some l ∧
      ((m.afterMb (s', jobs', ret)).1.ctx k).Busy compress maxBlocks l (goal k) := fun k hk => by
    obtain ⟨l, hl, hb⟩ := hbusy k hk
    exact ⟨l, hl, hb.setJob _⟩
  have hrest' : ∀ k, k ∉ all →
      ((m.afterMb (s', jobs', ret)).1.ctx k).Resting compress (msg k) := fun k hk => by
    rw [hctx k hk]
    exact hrest k hk
  refine ⟨fun _ => rfl, fun _ => rfl, hctx, fun hk => ?_, fun k hk => ?_⟩
  · obtain rfl : ret = none := hk
    exact ⟨goal, hret, hbusy', hrest'⟩
  · obtain rfl : ret = some k := hk
    obtain ⟨hmem, hdigest, hrep⟩ := hret
    obtain ⟨l, hl, hb⟩ := hbusy' k hmem
    refine ⟨hmem, goal, hrep, fun j hj => hbusy' j (Finset.mem_of_mem_erase hj), fun j hj hne => ?_,
      Finset.notMem_erase k all, l, hl, ?_⟩
    · exact hrest' j fun hmem => hj (Finset.mem_erase.mpr ⟨hne, hmem⟩)
    · rw [← hdigest] at hb
      exact hb

/-- The contexts in `insert c held` once the job of `c` is in the scheduler, those outside. -/
theorem busy_insert {ctx : HashCtx p} {l : List Byte}
    (hbusy : ∀ k ∈ held, ∃ l, msg k = some l ∧ (m.ctx k).Busy compress maxBlocks l (goal k))
    (hc : c ∉ held) (hl : msg c = some l)
    (hctx : ctx.Busy compress maxBlocks l (ctx.goal compress)) :
    ∀ k ∈ insert c held, ∃ l, msg k = some l ∧ ((m.setCtx c ctx).ctx k).Busy compress maxBlocks l
      (Function.update goal c (ctx.goal compress) k) := fun k hk => by
  rcases Finset.mem_insert.mp hk with rfl | hk
  · rw [setCtx_ctx_self, Function.update_self]
    exact ⟨l, hl, hctx⟩
  · have hne : k ≠ c := fun he => hc (he ▸ hk)
    rw [setCtx_ctx_of_ne m ctx hne, Function.update_of_ne hne]
    exact hbusy k hk

theorem resting_insert {ctx : HashCtx p}
    (hrest : ∀ k, k ∉ held → k ≠ c → (m.ctx k).Resting compress (msg k)) :
    ∀ k, k ∉ insert c held → ((m.setCtx c ctx).ctx k).Resting compress (msg k) := fun k hk => by
  have hne : k ≠ c := fun he => hk (he ▸ Finset.mem_insert_self c held)
  rw [setCtx_ctx_of_ne m ctx hne]
  exact hrest k (fun h => hk (Finset.mem_insert_of_mem h)) hne

/-- The job of a context in hand goes back into the scheduler. -/
theorem mbSubmit_spec (hcor : sch.Correct p.blockSize maxBlocks Rep) {ctx : HashCtx p}
    {l : List Byte} (hrep : Rep (m.kernel compress) m.mgr m.jobs held goal)
    (hbusy : ∀ k ∈ held, ∃ l, msg k = some l ∧ (m.ctx k).Busy compress maxBlocks l (goal k))
    (hrest : ∀ k, k ∉ held → k ≠ c → (m.ctx k).Resting compress (msg k)) (hc : c ∉ held)
    (hl : msg c = some l) (hctx : ctx.Busy compress maxBlocks l (ctx.goal compress))
    (hpos : 0 < ctx.job.len.toNat) (hle : ctx.job.len.toNat ≤ maxBlocks) :
    MbReturns compress maxBlocks Rep (m.setCtx c ctx) (insert c held) msg
      ((m.setCtx c ctx).mbSubmit sch compress c) := by
  have hjob : (m.setCtx c ctx).jobs c = ctx.job := congrArg HashCtx.job (setCtx_ctx_self m c ctx)
  have hgoal : ((m.setCtx c ctx).jobs c).goal ((m.setCtx c ctx).kernel compress) c =
      ctx.goal compress := by
    rw [hjob]
    simp only [Job.goal, Mem.kernel, setCtx_ctx_self]
    rfl
  have hret := hcor.submit c ((m.setCtx c ctx).kernel_lawful compress)
    (rep_setCtx hcor ctx hrep hc) hc (by rwa [hjob]) (by rwa [hjob])
  rw [hgoal] at hret
  exact hret.afterMb (busy_insert hbusy hc hl hctx) (resting_insert hrest)

theorem mbFlush_spec (hcor : sch.Correct p.blockSize maxBlocks Rep)
    (h : Inv compress maxBlocks Rep m held goal msg) :
    MbReturns compress maxBlocks Rep m held msg (m.mbFlush sch compress) ∧
      ((m.mbFlush sch compress).2 = none → held = ∅) := by
  obtain ⟨hret, hnone⟩ := hcor.flush (m.kernel_lawful compress) h.rep
  exact ⟨hret.afterMb h.busy h.resting, hnone⟩

/-! ## The loop of `resubmit` -/

/-- What a call leaves that began with the contexts `all` inside or in hand: either all of them
are inside and less work is left than `bound`, or one of them is with the user. -/
structure Settled (compress : D → List Byte → D) (maxBlocks : ℕ)
    (Rep : Kernel J D → S → (J → Job D) → Finset J → (J → D) → Prop) (m : Mem S J p)
    (all : Finset J) (msg : J → Option (List Byte)) (bound : ℕ) (r : Mem S J p × Option J) :
    Prop where
  error : ∀ k, (r.1.ctx k).error = (m.ctx k).error
  frame : ∀ k, k ∉ all → r.1.ctx k = m.ctx k
  none : r.2 = none → (∃ goal, Inv compress maxBlocks Rep r.1 all goal msg) ∧ work r.1 all < bound
  some : ∀ k, r.2 = some k → k ∈ all ∧ ∃ goal, Inv compress maxBlocks Rep r.1 (all.erase k) goal msg

omit [DecidableEq J] in
theorem work_congr {m m' : Mem S J p} {all : Finset J}
    (h : ∀ k ∈ all, (m'.ctx k).rank = (m.ctx k).rank) : work m' all = work m all :=
  Finset.sum_congr rfl h

theorem work_setCtx_lt {ctx : HashCtx p} (hc : c ∉ held) (h : ctx.rank < (m.ctx c).rank) :
    work (m.setCtx c ctx) (insert c held) < work m (insert c held) := by
  have hrest : ∑ k ∈ held, ((m.setCtx c ctx).ctx k).rank = ∑ k ∈ held, (m.ctx k).rank :=
    Finset.sum_congr rfl fun k hk => by
      rw [setCtx_ctx_of_ne m ctx (ne_of_mem_of_not_mem hk hc)]
  rw [work, work, Finset.sum_insert hc, Finset.sum_insert hc, hrest, setCtx_ctx_self]
  exact Nat.add_lt_add_right h _

/-- A round that returns the context to the user. -/
theorem InHand.toUser {ctx : HashCtx p} (hcor : sch.Correct p.blockSize maxBlocks Rep)
    (h : InHand compress maxBlocks Rep m held goal msg c) (hctx : ctx.Resting compress (msg c)) :
    Inv compress maxBlocks Rep (m.setCtx c ctx) held goal msg := by
  refine ⟨rep_setCtx hcor ctx h.rep h.not_held, fun k hk => ?_, fun k hk => ?_⟩
  · rw [setCtx_ctx_of_ne m ctx (ne_of_mem_of_not_mem hk h.not_held)]
    exact h.busy k hk
  · rcases eq_or_ne k c with rfl | hne
    · rwa [setCtx_ctx_self]
    · rw [setCtx_ctx_of_ne m ctx hne]
      exact h.resting k hk hne

/-- A round that hands the job of the context back to the scheduler, with less work left. -/
theorem InHand.round (hcor : sch.Correct p.blockSize maxBlocks Rep) (hmax : 2 ≤ maxBlocks)
    (h : InHand compress maxBlocks Rep m held goal msg c)
    (hsub : (m.ctx c).resubmitRound.2 = true) :
    MbReturns compress maxBlocks Rep (m.setCtx c (m.ctx c).resubmitRound.1) (insert c held) msg
        ((m.setCtx c (m.ctx c).resubmitRound.1).mbSubmit sch compress c) ∧
      work (m.setCtx c (m.ctx c).resubmitRound.1) (insert c held) < work m (insert c held) := by
  obtain ⟨l, hl, hbusy⟩ := h.hand
  obtain ⟨hbusy', hpos, hle, hrank⟩ := (resubmitRound_spec hmax hbusy).submit hsub
  exact ⟨mbSubmit_spec hcor h.rep h.busy h.resting h.not_held hl hbusy' hpos hle,
    work_setCtx_lt h.not_held hrank⟩

/-- A round that ends the loop. -/
theorem InHand.settle (hcor : sch.Correct p.blockSize maxBlocks Rep) (hmax : 2 ≤ maxBlocks)
    (h : InHand compress maxBlocks Rep m held goal msg c)
    (hkeep : (m.ctx c).resubmitRound.2 = false) :
    Inv compress maxBlocks Rep (m.setCtx c (m.ctx c).resubmitRound.1) held goal msg := by
  obtain ⟨l, hl, hbusy⟩ := h.hand
  refine h.toUser hcor ?_
  rw [hl]
  exact (resubmitRound_spec hmax hbusy).keep hkeep

/-- The scheduler took everything in. -/
theorem MbReturns.settled {all : Finset J} {bound : ℕ} {q : Mem S J p × Option J}
    (h : MbReturns compress maxBlocks Rep m all msg q) (hq : q.2 = .none)
    (hless : work m all < bound) : Settled compress maxBlocks Rep m all msg bound q := by
  refine ⟨h.error, h.frame, fun _ => ⟨h.none hq, ?_⟩, fun k hk => ?_⟩
  · rwa [work_congr fun k _ => h.rank k]
  · rw [hq] at hk
    cases hk

/-- What comes after a call of the scheduler. -/
theorem Settled.after_mb {all : Finset J} {bound : ℕ} {q r : Mem S J p × Option J}
    (h : Settled compress maxBlocks Rep q.1 all msg bound r)
    (hmb : MbReturns compress maxBlocks Rep m all msg q) :
    Settled compress maxBlocks Rep m all msg bound r :=
  ⟨fun k => (h.error k).trans (hmb.error k), fun k hk => (h.frame k hk).trans (hmb.frame k hk),
    h.none, h.some⟩

/-- What comes after a round. -/
theorem Settled.after_round {all : Finset J} {bound bound' : ℕ} {r : Mem S J p × Option J}
    {ctx : HashCtx p} (h : Settled compress maxBlocks Rep (m.setCtx c ctx) all msg bound r)
    (hc : c ∈ all) (herror : ctx.error = (m.ctx c).error) (hle : bound ≤ bound') :
    Settled compress maxBlocks Rep m all msg bound' r := by
  refine ⟨fun k => (h.error k).trans ?_, fun k hk => (h.frame k hk).trans ?_, fun hn => ?_, h.some⟩
  · rcases eq_or_ne k c with rfl | hne
    · rw [setCtx_ctx_self, herror]
    · rw [setCtx_ctx_of_ne m _ hne]
  · rw [setCtx_ctx_of_ne m _ (ne_of_mem_of_not_mem hc hk).symm]
  · exact ⟨(h.none hn).1, Nat.lt_of_lt_of_le (h.none hn).2 hle⟩

/-- The last round of the loop. -/
theorem InHand.settled (hcor : sch.Correct p.blockSize maxBlocks Rep) (hmax : 2 ≤ maxBlocks)
    (h : InHand compress maxBlocks Rep m held goal msg c)
    (hkeep : (m.ctx c).resubmitRound.2 = false) (bound : ℕ) :
    Settled compress maxBlocks Rep m (insert c held) msg bound
      (m.setCtx c (m.ctx c).resubmitRound.1, some c) := by
  have hc := Finset.mem_insert_self c held
  obtain ⟨l, -, hbusy⟩ := h.hand
  refine Settled.after_round ⟨fun _ => rfl, fun _ _ => rfl, nofun, fun k hk => ?_⟩ hc
    (resubmitRound_spec hmax hbusy).error (Nat.le_refl bound)
  obtain rfl : c = k := Option.some.inj hk
  rw [Finset.erase_insert h.not_held]
  exact ⟨hc, goal, h.settle hcor hmax hkeep⟩

theorem ctxMgrResubmit_spec (hcor : sch.Correct p.blockSize maxBlocks Rep) (hmax : 2 ≤ maxBlocks)
    (fuel : ℕ) : ∀ {m : Mem S J p} {held : Finset J} {goal : J → D} {c : J},
      InHand compress maxBlocks Rep m held goal msg c → work m (insert c held) ≤ fuel →
      ∃ r, ctxMgrResubmit sch compress fuel m (some c) = some r ∧
        Settled compress maxBlocks Rep m (insert c held) msg (work m (insert c held)) r := by
  induction fuel with
  | zero =>
    intro m held goal c h hwork
    have hrank := rank_pos (m.ctx c)
    rw [work, Finset.sum_insert h.not_held] at hwork
    omega
  | succ fuel ih =>
    intro m held goal c h hwork
    obtain ⟨l, hl, hbusy⟩ := h.hand
    have herror := (resubmitRound_spec hmax hbusy).error
    have hc := Finset.mem_insert_self c held
    rw [ctxMgrResubmit]
    dsimp only
    split
    · next hsub =>
      obtain ⟨hmb, hless⟩ := h.round hcor hmax hsub
      generalize (m.setCtx c (m.ctx c).resubmitRound.1).mbSubmit sch compress c = q at hmb
      obtain ⟨m', ret⟩ := q
      cases ret with
      | none =>
        have hset := hmb.settled rfl hless
        exact ⟨_, ctxMgrResubmit.eq_1 .., hset.after_round hc herror (Nat.le_refl _)⟩
      | some k =>
        obtain ⟨hmem, goal', hhand⟩ := hmb.some k rfl
        have hall : insert k ((insert c held).erase k) = insert c held := Finset.insert_erase hmem
        have hwork' : work m' (insert c held) < work m (insert c held) := by
          rwa [work_congr fun k _ => hmb.rank k]
        obtain ⟨r, hr, hset⟩ := ih hhand (by
          rw [hall]
          exact Nat.lt_succ_iff.mp (Nat.lt_of_lt_of_le hwork' hwork))
        rw [hall] at hset
        exact ⟨r, hr, (hset.after_mb hmb).after_round hc herror hwork'.le⟩
    · next hkeep =>
      exact ⟨_, rfl, h.settled hcor hmax (Bool.eq_false_iff.mpr hkeep) _⟩

/-! ## Calls -/

/-- What a call leaves that began with the contexts `all` inside or accepted: at most one of them
is handed back to the user, the others are inside. -/
structure Answered (compress : D → List Byte → D) (maxBlocks : ℕ)
    (Rep : Kernel J D → S → (J → Job D) → Finset J → (J → D) → Prop) (m : Mem S J p)
    (all : Finset J) (msg : J → Option (List Byte)) (r : Mem S J p × Option J) : Prop where
  error : ∀ k, (r.1.ctx k).error = (m.ctx k).error
  frame : ∀ k, k ∉ all → r.1.ctx k = m.ctx k
  none : r.2 = none → ∃ goal, Inv compress maxBlocks Rep r.1 all goal msg
  some : ∀ k, r.2 = some k → k ∈ all ∧ ∃ goal, Inv compress maxBlocks Rep r.1 (all.erase k) goal msg

omit [DecidableEq J] in
theorem Settled.answered [DecidableEq J] {all : Finset J} {bound : ℕ} {r : Mem S J p × Option J}
    (h : Settled compress maxBlocks Rep m all msg bound r) :
    Answered compress maxBlocks Rep m all msg r :=
  ⟨h.error, h.frame, fun hn => (h.none hn).1, h.some⟩

/-- The scheduler took everything in, or had nothing. -/
theorem MbReturns.answered {all : Finset J} {q : Mem S J p × Option J}
    (h : MbReturns compress maxBlocks Rep m all msg q) (hq : q.2 = .none) :
    Answered compress maxBlocks Rep m all msg q :=
  (h.settled hq (Nat.lt_succ_self _)).answered

/-- What comes after a part of a call that returned no context. -/
theorem Answered.after_settled {all : Finset J} {bound : ℕ} {q r : Mem S J p × Option J}
    (h : Answered compress maxBlocks Rep q.1 all msg r)
    (hset : Settled compress maxBlocks Rep m all msg bound q) :
    Answered compress maxBlocks Rep m all msg r :=
  ⟨fun k => (h.error k).trans (hset.error k), fun k hk => (h.frame k hk).trans (hset.frame k hk),
    h.none, h.some⟩

theorem flushLoop_spec (hcor : sch.Correct p.blockSize maxBlocks Rep) (hmax : 2 ≤ maxBlocks)
    (fuel rounds : ℕ) : ∀ {m : Mem S J p} {goal : J → D},
      Inv compress maxBlocks Rep m held goal msg → work m held < rounds → work m held ≤ fuel →
      ∃ r, flushLoop sch compress fuel rounds m = some r ∧
        Answered compress maxBlocks Rep m held msg r ∧ (r.2 = none → held = ∅) := by
  induction rounds with
  | zero => intro m goal _ hw; omega
  | succ rounds ih =>
    intro m goal h hrounds hfuel
    obtain ⟨hmb, hnone⟩ := mbFlush_spec hcor h
    rw [flushLoop]
    generalize m.mbFlush sch compress = q at hmb hnone
    obtain ⟨m', ret⟩ := q
    cases ret with
    | none => exact ⟨_, rfl, hmb.answered rfl, hnone⟩
    | some c =>
      obtain ⟨hmem, goal', hhand⟩ := hmb.some c rfl
      have hall : insert c (held.erase c) = held := Finset.insert_erase hmem
      have hwork : work m' held = work m held := work_congr fun k _ => hmb.rank k
      obtain ⟨r, hr, hset⟩ := ctxMgrResubmit_spec hcor hmax fuel hhand (by
        rw [hall]
        exact hwork.le.trans hfuel)
      rw [hall, hwork] at hset
      have hset := hset.after_mb hmb
      dsimp only
      rw [hr]
      obtain ⟨m'', ret⟩ := r
      cases ret with
      | some k => exact ⟨_, rfl, hset.answered, nofun⟩
      | none =>
        -- everything is inside again, with less work left
        obtain ⟨⟨goal'', hinv⟩, hless⟩ := hset.none rfl
        obtain ⟨r, hr, hans, hrest⟩ := ih hinv
          (Nat.lt_of_lt_of_le hless (Nat.lt_succ_iff.mp hrounds)) (hless.le.trans hfuel)
        exact ⟨r, hr, hans.after_settled hset, hrest⟩

/-- Flush terminates; it returns `NULL` only when no context is inside. -/
theorem ctxMgrFlush_spec (hcor : sch.Correct p.blockSize maxBlocks Rep) (hmax : 2 ≤ maxBlocks)
    {fuel : ℕ} (h : Inv compress maxBlocks Rep m held goal msg) (hfuel : work m held < fuel) :
    ∃ r, ctxMgrFlush sch compress fuel m = some r ∧
      Answered compress maxBlocks Rep m held msg r ∧ (r.2 = none → held = ∅) :=
  flushLoop_spec hcor hmax fuel fuel h hfuel hfuel.le

omit [DecidableEq J] in
/-- A busy context has the processing bit. -/
theorem Inv.not_held_of_accepts {flags : BitVec 32}
    (h : Inv compress maxBlocks Rep m held goal msg) (hacc : (m.ctx c).Accepts flags) :
    c ∉ held := by
  intro hc
  obtain ⟨l, _, hbusy⟩ := h.busy c hc
  have hst := hacc.2.1
  cases hbusy with
  | mid k hs => rcases hs with hs | hs <;> rw [hs] at hst <;> revert hst <;> decide
  | last hs =>
    rw [hs] at hst
    revert hst
    decide

/-- The context that `submit` works with once it has accepted a buffer. -/
def HashCtx.accept (ctx : HashCtx p) (buffer : ℕ → Byte) (len flags : BitVec 32) :
    HashCtx p × Bool :=
  (ctx.start buffer len flags).fillPartial buffer len

theorem ctxMgrSubmit_of_accepts {fuel : ℕ} {buffer : ℕ → Byte} {len flags : BitVec 32}
    (hacc : (m.ctx c).Accepts flags) :
    ctxMgrSubmit sch compress fuel m c buffer len flags =
      let r := (m.ctx c).accept buffer len flags
      let m := m.setCtx c r.1
      if r.2 then
        ctxMgrResubmit sch compress fuel (m.mbSubmit sch compress c).1 (m.mbSubmit sch compress c).2
      else ctxMgrResubmit sch compress fuel m (some c) := by
  rw [ctxMgrSubmit]
  dsimp only
  rw [if_neg (not_not.mpr hacc.1), if_neg (not_not.mpr hacc.2.1), if_neg hacc.2.2]
  rfl

/-- What `accept` makes of a resting context. -/
theorem accept_spec {ctx : HashCtx p} {old : Option (List Byte)} (h : ctx.Resting compress old)
    (buffer : ℕ → Byte) {len flags : BitVec 32} (hacc : ctx.Accepts flags)
    (hlen : len.toNat / p.blockSize ≤ maxBlocks) :
    let r := ctx.accept buffer len flags
    let l := acceptMessage old buffer len flags
    r.1.error = .none ∧
      (r.2 = true → r.1.job.len = 1#64 ∧ r.1.Busy compress maxBlocks l (r.1.goal compress)) ∧
      (r.2 = false → r.1.Busy compress maxBlocks l r.1.job.resultDigest) := by
  obtain ⟨l, k, hl, hstart⟩ := start_spec h buffer len hacc
  have hfill := fillPartial_spec hstart
  rw [← hl] at hfill
  have hinc : (ctx.accept buffer len flags).1.incomingBufferLength.toNat / p.blockSize ≤
      maxBlocks := (Nat.div_le_div_right hfill.incoming_le).trans hlen
  have hst := hstart.status
  rw [← hfill.status] at hst
  refine ⟨hfill.error.trans hstart.error, fun hs => ?_, fun hs => ?_⟩
  · obtain ⟨hone, k, hmid⟩ := hfill.submit hs
    exact ⟨hone, .mid k hst hinc hmid⟩
  · obtain ⟨k, hmid⟩ := hfill.keep hs
    exact .mid k hst hinc hmid

/-- The messages once `submit` has accepted a buffer for `c`. -/
abbrev acceptedMsg (msg : J → Option (List Byte)) (c : J) (buffer : ℕ → Byte)
    (len flags : BitVec 32) : J → Option (List Byte) :=
  Function.update msg c (some (acceptMessage (msg c) buffer len flags))

theorem Inv.busy_acceptedMsg (h : Inv compress maxBlocks Rep m held goal msg) (hc : c ∉ held)
    (buffer : ℕ → Byte) (len flags : BitVec 32) :
    ∀ k ∈ held, ∃ l, acceptedMsg msg c buffer len flags k = some l ∧
      (m.ctx k).Busy compress maxBlocks l (goal k) := fun k hk => by
  rw [acceptedMsg, Function.update_of_ne (ne_of_mem_of_not_mem hk hc)]
  exact h.busy k hk

theorem Inv.resting_acceptedMsg (h : Inv compress maxBlocks Rep m held goal msg)
    (buffer : ℕ → Byte) (len flags : BitVec 32) :
    ∀ k, k ∉ held → k ≠ c →
      (m.ctx k).Resting compress (acceptedMsg msg c buffer len flags k) := fun k hk hne => by
  rw [acceptedMsg, Function.update_of_ne hne]
  exact h.resting k hk

/-- A submit that fills the extra block hands its job to the scheduler. -/
theorem Inv.accept_submit (hcor : sch.Correct p.blockSize maxBlocks Rep) (hmax : 2 ≤ maxBlocks)
    (buffer : ℕ → Byte) {len flags : BitVec 32} (h : Inv compress maxBlocks Rep m held goal msg)
    (hacc : (m.ctx c).Accepts flags) (hlen : len.toNat / p.blockSize ≤ maxBlocks)
    (hfull : ((m.ctx c).accept buffer len flags).2 = true) :
    MbReturns compress maxBlocks Rep (m.setCtx c ((m.ctx c).accept buffer len flags).1)
      (insert c held) (acceptedMsg msg c buffer len flags)
      ((m.setCtx c ((m.ctx c).accept buffer len flags).1).mbSubmit sch compress c) := by
  have hc := h.not_held_of_accepts hacc
  obtain ⟨hone, hb⟩ := (accept_spec (h.resting c hc) buffer hacc hlen).2.1 hfull
  refine mbSubmit_spec hcor h.rep (h.busy_acceptedMsg hc buffer len flags)
    (h.resting_acceptedMsg buffer len flags) hc (Function.update_self ..) hb ?_ ?_
  · rw [hone]
    decide
  · rw [hone]
    exact Nat.le_trans (by decide) hmax

/-- A submit that does not leaves the context in the hands of the loop. -/
theorem Inv.accept_keep (hcor : sch.Correct p.blockSize maxBlocks Rep)
    (buffer : ℕ → Byte) {len flags : BitVec 32} (h : Inv compress maxBlocks Rep m held goal msg)
    (hacc : (m.ctx c).Accepts flags) (hlen : len.toNat / p.blockSize ≤ maxBlocks)
    (hfull : ((m.ctx c).accept buffer len flags).2 = false) :
    InHand compress maxBlocks Rep (m.setCtx c ((m.ctx c).accept buffer len flags).1) held goal
      (acceptedMsg msg c buffer len flags) c := by
  have hc := h.not_held_of_accepts hacc
  have hb := (accept_spec (h.resting c hc) buffer hacc hlen).2.2 hfull
  refine ⟨rep_setCtx hcor _ h.rep hc, fun k hk => ?_, fun k hk hne => ?_, hc, _,
    Function.update_self .., ?_⟩
  · rw [setCtx_ctx_of_ne m _ (ne_of_mem_of_not_mem hk hc)]
    exact h.busy_acceptedMsg hc buffer len flags k hk
  · rw [setCtx_ctx_of_ne m _ hne]
    exact h.resting_acceptedMsg buffer len flags k hk hne
  · rw [setCtx_ctx_self]
    exact hb

theorem work_accept_le {fuel : ℕ} {ctx : HashCtx p} (hc : c ∉ held)
    (hfuel : work m held + 3 ≤ fuel) : work (m.setCtx c ctx) (insert c held) ≤ fuel := by
  have hrank := rank_le ctx
  have hsum : ∑ k ∈ held, ((m.setCtx c ctx).ctx k).rank = work m held :=
    Finset.sum_congr rfl fun k hk => by
      rw [setCtx_ctx_of_ne m ctx (ne_of_mem_of_not_mem hk hc)]
  rw [work, Finset.sum_insert hc, hsum, setCtx_ctx_self]
  omega

/-- An accepted submit terminates and answers with one of the contexts inside, or with none. -/
theorem ctxMgrSubmit_accepted (hcor : sch.Correct p.blockSize maxBlocks Rep) (hmax : 2 ≤ maxBlocks)
    {fuel : ℕ} (buffer : ℕ → Byte) {len flags : BitVec 32}
    (h : Inv compress maxBlocks Rep m held goal msg) (hacc : (m.ctx c).Accepts flags)
    (hlen : len.toNat / p.blockSize ≤ maxBlocks) (hfuel : work m held + 3 ≤ fuel) :
    ∃ r, ctxMgrSubmit sch compress fuel m c buffer len flags = some r ∧
      Answered compress maxBlocks Rep
        (m.setCtx c ((m.ctx c).accept buffer len flags).1) (insert c held)
        (Function.update msg c (some (acceptMessage (msg c) buffer len flags))) r := by
  have hc := h.not_held_of_accepts hacc
  have hfull := @Inv.accept_submit S J D _ p compress maxBlocks Rep sch m held goal msg c hcor hmax
    buffer len flags h hacc hlen
  have hkeep := @Inv.accept_keep S J D _ p compress maxBlocks Rep sch m held goal msg c hcor
    buffer len flags h hacc hlen
  rw [ctxMgrSubmit_of_accepts hacc]
  dsimp only
  generalize (m.ctx c).accept buffer len flags = r at *
  have hwork : work (m.setCtx c r.1) (insert c held) ≤ fuel := work_accept_le hc hfuel
  split
  · next hs =>
    have hmb := hfull hs
    generalize (m.setCtx c r.1).mbSubmit sch compress c = q at hmb
    obtain ⟨m', ret⟩ := q
    cases ret with
    | none => exact ⟨_, ctxMgrResubmit.eq_1 .., hmb.answered rfl⟩
    | some k =>
      obtain ⟨hmem, goal', hhand⟩ := hmb.some k rfl
      have hall : insert k ((insert c held).erase k) = insert c held := Finset.insert_erase hmem
      obtain ⟨q, hq, hset⟩ := ctxMgrResubmit_spec hcor hmax fuel hhand (by
        rw [hall]
        exact (work_congr fun j _ => hmb.rank j).le.trans hwork)
      rw [hall] at hset
      exact ⟨q, hq, (hset.after_mb hmb).answered⟩
  · next hs =>
    obtain ⟨q, hq, hset⟩ :=
      ctxMgrResubmit_spec hcor hmax fuel (hkeep (Bool.eq_false_iff.mpr hs)) hwork
    exact ⟨q, hq, hset.answered⟩

/-! ## Rejected submits -/

/-- The error that a rejected submit reports. -/
def HashCtx.rejection (ctx : HashCtx p) (flags : BitVec 32) : HashCtxError :=
  if flags &&& ~~~hashEntire ≠ 0#32 then .invalidFlags
  else if ctx.status &&& stsProcessing ≠ 0#32 then .alreadyProcessing
  else .alreadyCompleted

omit [DecidableEq J] in
theorem rejection_ne_none (ctx : HashCtx p) (flags : BitVec 32) :
    ctx.rejection flags ≠ .none := by
  unfold HashCtx.rejection
  split
  · nofun
  · split <;> nofun

/-- A rejected submit sets the error of its context and returns it. -/
theorem ctxMgrSubmit_rejected (fuel : ℕ) (buffer : ℕ → Byte) (len : BitVec 32) {flags : BitVec 32}
    (hrej : ¬ (m.ctx c).Accepts flags) :
    ctxMgrSubmit sch compress fuel m c buffer len flags =
      some (m.setCtx c { m.ctx c with error := (m.ctx c).rejection flags }, some c) := by
  rw [ctxMgrSubmit, HashCtx.rejection]
  dsimp only
  split
  · rfl
  · next hflags =>
    split
    · rfl
    · next hproc =>
      split
      · rfl
      · next hcompl => exact absurd ⟨not_not.mp hflags, not_not.mp hproc, hcompl⟩ hrej

theorem Inv.setError (hcor : sch.Correct p.blockSize maxBlocks Rep)
    (h : Inv compress maxBlocks Rep m held goal msg) (c : J) (e : HashCtxError) :
    Inv compress maxBlocks Rep (m.setCtx c { m.ctx c with error := e }) held goal msg := by
  have hctx : ∀ k, (m.setCtx c { m.ctx c with error := e }).ctx k =
      { m.ctx k with error := if k = c then e else (m.ctx k).error } := fun k => by
    rcases eq_or_ne k c with rfl | hne
    · rw [setCtx_ctx_self, if_pos rfl]
    · rw [setCtx_ctx_of_ne m _ hne, if_neg hne]
  refine ⟨hcor.congr (fun k _ => ⟨?_, ?_, rfl⟩) h.rep, fun k hk => ?_, fun k hk => ?_⟩
  · funext ptr n d
    simp only [Mem.kernel, hctx]
    rfl
  · simp only [Mem.jobs, hctx]
  · rw [hctx]
    obtain ⟨l, hl, hb⟩ := h.busy k hk
    refine ⟨l, hl, ?_⟩
    cases hb with
    | mid n hst hinc h =>
      exact .mid n hst hinc ⟨h.length, h.digest, h.partialBytes, h.incomingBytes, h.partial_lt,
        h.partial_or, h.total⟩
    | last hst h => exact .last hst h
  · rw [hctx]
    cases h.resting k hk with
    | complete hst hd => exact .complete hst hd
    | idle l n hst hl hinc h =>
      exact .idle l n hst hl hinc ⟨h.length, h.digest, h.partialBytes, h.incomingBytes,
        h.partial_lt, h.partial_or, h.total⟩

end IsalCrypto.Mb
