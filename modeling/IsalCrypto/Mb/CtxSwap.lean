import IsalCrypto.Mb.Finishing

/-!
# A context layer that swaps its digests

`sm3_mb/sm3_ctx_avx2.c` and its siblings: the context layer of the other hashes, but in the loop of
`resubmit` the digest of a complete context is swapped before the context goes back to the user.

The array of a context is then its chaining value until the last block is hashed, and the swapped
digest afterwards. `Mem.shown` is this view of the contexts of the other hashes, where the array
keeps the chaining value: `execSwap_spec` says that a call of this layer does to the view what a
call that keeps the invariant does to the contexts behind it.

* `runSwap_spec`: every run terminates, and its events are views of events that keep the ledger.
-/

namespace IsalCrypto.Mb

open IsalCrypto.Lib

variable {S J D : Type*} [DecidableEq J] {p : HashParams D}

section Model

variable (swap : D → D)

/-- One round of the loop of `resubmit`. -/
def HashCtx.resubmitRoundSwap (ctx : HashCtx p) : HashCtx p × Bool :=
  if ctx.status &&& stsComplete ≠ 0#32 then
    ({ ctx with
        status := stsComplete
        job := { ctx.job with resultDigest := swap ctx.job.resultDigest } }, false)
  else
    let r := ctx.takeIncoming
    if r.2 then r else r.1.takePartial

variable (sch : Scheduler S J D) (compress : D → List Byte → D)

/-- `ctx_mgr_resubmit`. -/
def ctxMgrResubmitSwap : ℕ → Mem S J p → Option J → Option (Mem S J p × Option J)
  | _, m, none => some (m, none)
  | 0, _, some _ => none
  | fuel + 1, m, some c =>
    let r := (m.ctx c).resubmitRoundSwap swap
    let m := m.setCtx c r.1
    if r.2 then
      let q := m.mbSubmit sch compress c
      ctxMgrResubmitSwap fuel q.1 q.2
    else some (m, some c)

/-- `ctx_mgr_submit`. -/
def ctxMgrSubmitSwap (fuel : ℕ) (m : Mem S J p) (c : J) (buffer : ℕ → Byte)
    (len flags : BitVec 32) : Option (Mem S J p × Option J) :=
  let ctx := m.ctx c
  if flags &&& ~~~hashEntire ≠ 0#32 then
    some (m.setCtx c { ctx with error := .invalidFlags }, some c)
  else if ctx.status &&& stsProcessing ≠ 0#32 then
    some (m.setCtx c { ctx with error := .alreadyProcessing }, some c)
  else if ctx.status &&& stsComplete ≠ 0#32 ∧ flags &&& hashFirst = 0#32 then
    some (m.setCtx c { ctx with error := .alreadyCompleted }, some c)
  else
    let r := (ctx.start buffer len flags).fillPartial buffer len
    let m := m.setCtx c r.1
    if r.2 then
      let q := m.mbSubmit sch compress c
      ctxMgrResubmitSwap swap sch compress fuel q.1 q.2
    else ctxMgrResubmitSwap swap sch compress fuel m (some c)

/-- The loop of `ctx_mgr_flush`; the second bound is on its own rounds. -/
def flushLoopSwap (fuel : ℕ) : ℕ → Mem S J p → Option (Mem S J p × Option J)
  | 0, _ => none
  | rounds + 1, m =>
    let q := m.mbFlush sch compress
    match q.2 with
    | none => some (q.1, none)
    | some c =>
      match ctxMgrResubmitSwap swap sch compress fuel q.1 (some c) with
      | none => none
      | some (m, some c) => some (m, some c)
      | some (m, none) => flushLoopSwap fuel rounds m

/-- `ctx_mgr_flush`. -/
def ctxMgrFlushSwap (fuel : ℕ) (m : Mem S J p) : Option (Mem S J p × Option J) :=
  flushLoopSwap swap sch compress fuel fuel m

variable (fuel : ℕ)

def execSwap (m : Mem S J p) : Call J → Option (Mem S J p × Option J)
  | .submit c buffer len flags => ctxMgrSubmitSwap swap sch compress fuel m c buffer len flags
  | .flush => ctxMgrFlushSwap swap sch compress fuel m

/-- A run from memory `m`: the memory at its end and its events. -/
def runSwap : Mem S J p → List (Call J) → Option (Mem S J p × List (Event J p))
  | m, [] => some (m, [])
  | m, a :: as =>
    match execSwap swap sch compress fuel m a with
    | none => none
    | some (m', ret) =>
      (runSwap m' as).map fun q => (q.1, ⟨a, a.accepted m, ret, m'.ctx⟩ :: q.2)

end Model

/-! ## The view -/

variable (swap : D → D)

/-- The context as the user sees it: once its message is complete, with the digest swapped. -/
def HashCtx.shown (msg : Option (List Byte)) (ctx : HashCtx p) : HashCtx p :=
  { ctx with
    job := { ctx.job with
      resultDigest :=
        if ctx.status = stsComplete ∧ msg.isSome then swap ctx.job.resultDigest
        else ctx.job.resultDigest } }

def Mem.shown (msg : J → Option (List Byte)) (m : Mem S J p) : Mem S J p :=
  { m with ctx := fun c => (m.ctx c).shown swap (msg c) }

variable {swap} {compress : D → List Byte → D} {maxBlocks : ℕ}
  {Rep : Kernel J D → S → (J → Job D) → Finset J → (J → D) → Prop} {sch : Scheduler S J D}
  {m : Mem S J p} {held : Finset J} {goal : J → D} {msg : J → Option (List Byte)} {c : J}

omit [DecidableEq J] in
theorem shown_ctx (m : Mem S J p) (msg : J → Option (List Byte)) (k : J) :
    (m.shown swap msg).ctx k = (m.ctx k).shown swap (msg k) := rfl

omit [DecidableEq J] in
theorem shown_of_ne {ctx : HashCtx p} (h : ctx.status ≠ stsComplete) (l : Option (List Byte)) :
    ctx.shown swap l = ctx := by
  unfold HashCtx.shown
  rw [if_neg fun hc => h hc.1]

omit [DecidableEq J] in
theorem shown_complete {ctx : HashCtx p} (h : ctx.status = stsComplete) (l : List Byte) :
    (ctx.shown swap (some l)).job.resultDigest = swap ctx.job.resultDigest :=
  if_pos ⟨h, rfl⟩

omit [DecidableEq J] in
/-- A context inside the manager is seen as it is. -/
theorem HashCtx.Busy.status_ne {ctx : HashCtx p} {l : List Byte} {d : D}
    (h : ctx.Busy compress maxBlocks l d) : ctx.status ≠ stsComplete := by
  intro hst
  have hproc := h.processing
  rw [HashCtx.Processing, hst] at hproc
  exact absurd hproc (by decide)

omit [DecidableEq J] in
theorem load_shown (ctx : HashCtx p) (l : Option (List Byte)) (ptr : BufferPtr) (k : ℕ) :
    (ctx.shown swap l).load ptr k = ctx.load ptr k := by
  cases ptr with
  | user bytes => rfl
  | partialBlock offset => rfl

omit [DecidableEq J] in
theorem kernel_shown (m : Mem S J p) (msg : J → Option (List Byte)) :
    (m.shown swap msg).kernel compress = m.kernel compress := by
  funext c ptr n d
  exact absorb_congr n d fun k _ => load_shown ..

/-- A change of one context and of its message. -/
theorem setCtx_shown (m : Mem S J p) {c : J} (ctx : HashCtx p) {msg msg' : J → Option (List Byte)}
    (h : ∀ k, k ≠ c → msg' k = msg k) :
    (m.setCtx c ctx).shown swap msg' = (m.shown swap msg).setCtx c (ctx.shown swap (msg' c)) := by
  refine congrArg (Mem.mk m.mgr) (funext fun k => ?_)
  rcases eq_or_ne k c with rfl | hne
  · rw [setCtx_ctx_self, Function.update_self]
  · rw [setCtx_ctx_of_ne m ctx hne, Function.update_of_ne hne, h k hne]
    rfl

/-! ## Calls of the scheduler -/

/-- What a call of the scheduler does to the view, from what it does to the jobs in the view. -/
theorem Returns.shown (hcor : sch.Correct p.blockSize maxBlocks Rep) {all : Finset J}
    {r : S × (J → Job D) × Option J}
    (h : Returns (Rep (m.kernel compress)) (m.shown swap msg).jobs all goal r)
    (hbusy : ∀ k ∈ all, ∃ l, msg k = some l ∧ (m.ctx k).Busy compress maxBlocks l (goal k))
    (hrest : ∀ k, k ∉ all → (m.ctx k).Resting compress (msg k)) :
    ∃ q : Mem S J p × Option J, (m.shown swap msg).afterMb r = (q.1.shown swap msg, q.2) ∧
      MbReturns compress maxBlocks Rep m all msg q ∧
      ∀ k, (q.1.ctx k).Finishing ↔ (m.ctx k).Finishing := by
  obtain ⟨s', jobs', ret⟩ := r
  obtain ⟨hframe, hret⟩ := h
  -- behind the view, the jobs outside stay as they are
  have hcongr : ∀ held ⊆ all, Rep (m.kernel compress) s' jobs' held goal →
      Rep (m.kernel compress) s' (fun k => if k ∈ all then jobs' k else m.jobs k) held goal :=
    fun held hsub => hcor.congr fun k hk => ⟨rfl, (if_pos (hsub hk)).symm, rfl⟩
  have hret' : Returns (Rep (m.kernel compress)) m.jobs all goal
      (s', fun k => if k ∈ all then jobs' k else m.jobs k, ret) := by
    refine ⟨fun k hk => if_neg hk, ?_⟩
    cases ret with
    | none => exact hcongr all (Finset.Subset.refl all) hret
    | some k =>
      obtain ⟨hmem, hdigest, hrep⟩ := hret
      refine ⟨hmem, ?_, hcongr _ (Finset.erase_subset k all) hrep⟩
      dsimp only
      rwa [if_pos hmem]
  refine ⟨_, ?_, hret'.afterMb hbusy hrest, fun _ => Iff.rfl⟩
  refine Prod.ext (congrArg (Mem.mk s') (funext fun k => ?_)) rfl
  simp only [Mem.afterMb]
  by_cases hk : k ∈ all
  · obtain ⟨l, -, hb⟩ := hbusy k hk
    rw [shown_ctx, shown_of_ne hb.status_ne, if_pos hk]
    exact (shown_of_ne (hb.setJob (jobs' k)).status_ne _).symm
  · have hjob : jobs' k = ((m.shown swap msg).ctx k).job := hframe k hk
    rw [hjob, if_neg hk]
    rfl

/-- The scheduler holds the same jobs in the view. -/
theorem rep_shown (hcor : sch.Correct p.blockSize maxBlocks Rep)
    (hrep : Rep (m.kernel compress) m.mgr m.jobs held goal)
    (hbusy : ∀ k ∈ held, ∃ l, msg k = some l ∧ (m.ctx k).Busy compress maxBlocks l (goal k)) :
    Rep (m.kernel compress) m.mgr (m.shown swap msg).jobs held goal := by
  refine hcor.congr (fun k hk => ⟨rfl, ?_, rfl⟩) hrep
  obtain ⟨l, -, hb⟩ := hbusy k hk
  exact congrArg HashCtx.job (shown_of_ne hb.status_ne _).symm

theorem mbSubmit_shown (hcor : sch.Correct p.blockSize maxBlocks Rep) {ctx : HashCtx p}
    {l : List Byte} (hrep : Rep (m.kernel compress) m.mgr m.jobs held goal)
    (hbusy : ∀ k ∈ held, ∃ l, msg k = some l ∧ (m.ctx k).Busy compress maxBlocks l (goal k))
    (hrest : ∀ k, k ∉ held → k ≠ c → (m.ctx k).Resting compress (msg k)) (hc : c ∉ held)
    (hl : msg c = some l) (hctx : ctx.Busy compress maxBlocks l (ctx.goal compress))
    (hpos : 0 < ctx.job.len.toNat) (hle : ctx.job.len.toNat ≤ maxBlocks) :
    ∃ q, ((m.setCtx c ctx).shown swap msg).mbSubmit sch compress c = (q.1.shown swap msg, q.2) ∧
      MbReturns compress maxBlocks Rep (m.setCtx c ctx) (insert c held) msg q ∧
      ∀ k, (q.1.ctx k).Finishing ↔ ((m.setCtx c ctx).ctx k).Finishing := by
  have hjob : ((m.setCtx c ctx).shown swap msg).jobs c = ctx.job := by
    rw [Mem.jobs, shown_ctx, setCtx_ctx_self, shown_of_ne hctx.status_ne]
  have hgoal :
    (((m.setCtx c ctx).shown swap msg).jobs c).goal ((m.setCtx c ctx).kernel compress) c =
      ctx.goal compress := by
    rw [hjob]
    simp only [Job.goal, Mem.kernel, setCtx_ctx_self]
    rfl
  have hbusy' : ∀ k ∈ held, ∃ l, msg k = some l ∧
      ((m.setCtx c ctx).ctx k).Busy compress maxBlocks l (goal k) := fun k hk => by
    rw [setCtx_ctx_of_ne m ctx (ne_of_mem_of_not_mem hk hc)]
    exact hbusy k hk
  have hret := hcor.submit c ((m.setCtx c ctx).kernel_lawful compress)
    (rep_shown hcor (rep_setCtx hcor ctx hrep hc) hbusy') hc (by rwa [hjob]) (by rwa [hjob])
  rw [hgoal] at hret
  rw [Mem.mbSubmit, kernel_shown]
  exact hret.shown hcor (busy_insert hbusy hc hl hctx) (resting_insert hrest)

theorem mbFlush_shown (hcor : sch.Correct p.blockSize maxBlocks Rep)
    (h : Inv compress maxBlocks Rep m held goal msg) :
    ∃ q, (m.shown swap msg).mbFlush sch compress = (q.1.shown swap msg, q.2) ∧
      MbReturns compress maxBlocks Rep m held msg q ∧
      (∀ k, (q.1.ctx k).Finishing ↔ (m.ctx k).Finishing) ∧ (q.2 = none → held = ∅) := by
  obtain ⟨hret, hnone⟩ := hcor.flush (m.kernel_lawful compress) (rep_shown hcor h.rep h.busy)
  obtain ⟨q, hq, hmb, hfin⟩ := hret.shown hcor h.busy h.resting
  rw [Mem.mbFlush, kernel_shown]
  exact ⟨q, hq, hmb, hfin, fun hn => hnone ((congrArg Prod.snd hq).trans hn)⟩

/-! ## The loop of `resubmit` -/

/-- A round swaps the digest of a complete context, and no other. -/
theorem resubmitRoundSwap_eq {ctx : HashCtx p} (h : ctx.status ≠ stsComplete) (l : List Byte) :
    ctx.resubmitRoundSwap swap =
      (ctx.resubmitRound.1.shown swap (some l), ctx.resubmitRound.2) := by
  unfold HashCtx.resubmitRoundSwap HashCtx.resubmitRound
  by_cases hcompl : ctx.status &&& stsComplete ≠ 0#32
  · rw [if_pos hcompl, if_pos hcompl]
    rfl
  · rw [if_neg hcompl, if_neg hcompl]
    have hst := takeIncoming_status ctx
    dsimp only
    split
    · rw [shown_of_ne (by rwa [hst])]
    · rw [shown_of_ne ?_]
      unfold HashCtx.takePartial
      split
      · exact (by decide : stsProcessing ||| stsComplete ≠ stsComplete)
      · exact (by decide : stsIdle ≠ stsComplete)

theorem ctxMgrResubmitSwap_spec (hcor : sch.Correct p.blockSize maxBlocks Rep)
    (hmax : 2 ≤ maxBlocks) (fuel : ℕ) : ∀ {m : Mem S J p} {held : Finset J} {goal : J → D} {c : J},
      InHand compress maxBlocks Rep m held goal msg c → work m (insert c held) ≤ fuel →
      ∃ r, ctxMgrResubmitSwap swap sch compress fuel (m.shown swap msg) (some c) =
          some (r.1.shown swap msg, r.2) ∧
        Settled compress maxBlocks Rep m (insert c held) msg (work m (insert c held)) r ∧
        ∀ k, (r.1.ctx k).Finishing ↔ (m.ctx k).Finishing := by
  induction fuel with
  | zero =>
    intro m held goal c h hwork
    have hrank := rank_pos (m.ctx c)
    rw [work, Finset.sum_insert h.not_held] at hwork
    omega
  | succ fuel ih =>
    intro m held goal c h hwork
    obtain ⟨l, hl, hbusy⟩ := h.hand
    have hspec := resubmitRound_spec hmax hbusy
    have hc := Finset.mem_insert_self c held
    have hround := fun k => setCtx_finishing (resubmitRound_finishing (m.ctx c)) k
    have hseen : (m.shown swap msg).ctx c = m.ctx c := shown_of_ne hbusy.status_ne _
    have hset : (m.shown swap msg).setCtx c ((m.ctx c).resubmitRound.1.shown swap (some l)) =
        (m.setCtx c (m.ctx c).resubmitRound.1).shown swap msg := by
      rw [setCtx_shown m _ fun _ _ => rfl, hl]
    rw [ctxMgrResubmitSwap, hseen, resubmitRoundSwap_eq hbusy.status_ne l]
    dsimp only
    rw [hset]
    split
    · next hsub =>
      obtain ⟨hbusy', hpos, hle, hrank⟩ := hspec.submit hsub
      have hless := @work_setCtx_lt S J D _ p m held c _ h.not_held hrank
      obtain ⟨⟨m', ret⟩, hq, hmb, hfin⟩ := mbSubmit_shown hcor h.rep h.busy h.resting h.not_held hl
        hbusy' hpos hle
      rw [hq]
      cases ret with
      | none =>
        have hdone := hmb.settled rfl hless
        exact ⟨_, ctxMgrResubmitSwap.eq_1 .., hdone.after_round hc hspec.error (Nat.le_refl _),
          fun k => (hfin k).trans (hround k)⟩
      | some k =>
        obtain ⟨hmem, goal', hhand⟩ := hmb.some k rfl
        have hall : insert k ((insert c held).erase k) = insert c held := Finset.insert_erase hmem
        have hwork' : work m' (insert c held) < work m (insert c held) := by
          rwa [work_congr fun k _ => hmb.rank k]
        obtain ⟨r, hr, hdone, hfin'⟩ := ih hhand (by
          rw [hall]
          exact Nat.lt_succ_iff.mp (Nat.lt_of_lt_of_le hwork' hwork))
        rw [hall] at hdone
        exact ⟨r, hr, (hdone.after_mb hmb).after_round hc hspec.error hwork'.le,
          fun j => (hfin' j).trans ((hfin j).trans (hround j))⟩
    · next hkeep =>
      exact ⟨_, rfl, h.settled hcor hmax (Bool.eq_false_iff.mpr hkeep) _, hround⟩

/-! ## Calls -/

theorem flushLoopSwap_spec (hcor : sch.Correct p.blockSize maxBlocks Rep) (hmax : 2 ≤ maxBlocks)
    (fuel rounds : ℕ) : ∀ {m : Mem S J p} {goal : J → D},
      Inv compress maxBlocks Rep m held goal msg → work m held < rounds → work m held ≤ fuel →
      ∃ r, flushLoopSwap swap sch compress fuel rounds (m.shown swap msg) =
          some (r.1.shown swap msg, r.2) ∧
        Answered compress maxBlocks Rep m held msg r ∧
        (∀ k, (r.1.ctx k).Finishing ↔ (m.ctx k).Finishing) ∧ (r.2 = none → held = ∅) := by
  induction rounds with
  | zero => intro m goal _ hw; omega
  | succ rounds ih =>
    intro m goal h hrounds hfuel
    obtain ⟨⟨m', ret⟩, hq, hmb, hfin, hnone⟩ := @mbFlush_shown S J D _ p swap _ _ _ _ _ _ _ _ hcor h
    rw [flushLoopSwap, hq]
    cases ret with
    | none => exact ⟨_, rfl, hmb.answered rfl, hfin, hnone⟩
    | some c =>
      obtain ⟨hmem, goal', hhand⟩ := hmb.some c rfl
      have hall : insert c (held.erase c) = held := Finset.insert_erase hmem
      have hwork : work m' held = work m held := work_congr fun k _ => hmb.rank k
      obtain ⟨r, hr, hset, hfin'⟩ := ctxMgrResubmitSwap_spec hcor hmax fuel hhand (by
        rw [hall]
        exact hwork.le.trans hfuel)
      rw [hall, hwork] at hset
      have hset := hset.after_mb hmb
      have hkept := fun k => (hfin' k).trans (hfin k)
      dsimp only
      rw [hr]
      obtain ⟨m'', ret⟩ := r
      cases ret with
      | some k => exact ⟨_, rfl, hset.answered, hkept, nofun⟩
      | none =>
        obtain ⟨⟨goal'', hinv⟩, hless⟩ := hset.none rfl
        obtain ⟨r, hr, hans, hfin'', hrest⟩ := ih hinv
          (Nat.lt_of_lt_of_le hless (Nat.lt_succ_iff.mp hrounds)) (hless.le.trans hfuel)
        exact ⟨r, hr, hans.after_settled hset, fun k => (hfin'' k).trans (hkept k), hrest⟩

omit [DecidableEq J] in
/-- An accepted submit does not see whether the digest was swapped. -/
theorem accept_shown {ctx : HashCtx p} {flags : BitVec 32} (hacc : ctx.Accepts flags)
    (l : Option (List Byte)) (buffer : ℕ → Byte) (len : BitVec 32) :
    (ctx.shown swap l).accept buffer len flags = ctx.accept buffer len flags := by
  have hstart : (ctx.shown swap l).start buffer len flags = ctx.start buffer len flags := by
    by_cases hfirst : flags &&& hashFirst ≠ 0#32
    · unfold HashCtx.start
      rw [if_pos hfirst, if_pos hfirst]
      rfl
    · have hst : ctx.status ≠ stsComplete := fun hst => by
        refine hacc.2.2 ⟨?_, not_not.mp hfirst⟩
        rw [hst]
        decide
      rw [shown_of_ne hst]
  rw [HashCtx.accept, HashCtx.accept, hstart]

theorem ctxMgrSubmitSwap_of_accepts {fuel : ℕ} {buffer : ℕ → Byte} {len flags : BitVec 32}
    (hacc : (m.ctx c).Accepts flags) :
    ctxMgrSubmitSwap swap sch compress fuel m c buffer len flags =
      let r := (m.ctx c).accept buffer len flags
      let m := m.setCtx c r.1
      if r.2 then
        ctxMgrResubmitSwap swap sch compress fuel (m.mbSubmit sch compress c).1
          (m.mbSubmit sch compress c).2
      else ctxMgrResubmitSwap swap sch compress fuel m (some c) := by
  rw [ctxMgrSubmitSwap]
  dsimp only
  rw [if_neg (not_not.mpr hacc.1), if_neg (not_not.mpr hacc.2.1), if_neg hacc.2.2]
  rfl

theorem ctxMgrSubmitSwap_accepted (hcor : sch.Correct p.blockSize maxBlocks Rep)
    (hmax : 2 ≤ maxBlocks) {fuel : ℕ} (buffer : ℕ → Byte) {len flags : BitVec 32}
    (h : Inv compress maxBlocks Rep m held goal msg) (hacc : (m.ctx c).Accepts flags)
    (hlen : len.toNat / p.blockSize ≤ maxBlocks) (hfuel : work m held + 3 ≤ fuel) :
    ∃ r, ctxMgrSubmitSwap swap sch compress fuel (m.shown swap msg) c buffer len flags =
        some (r.1.shown swap (acceptedMsg msg c buffer len flags), r.2) ∧
      Answered compress maxBlocks Rep (m.setCtx c ((m.ctx c).accept buffer len flags).1)
        (insert c held) (acceptedMsg msg c buffer len flags) r ∧
      ∀ k, (r.1.ctx k).Finishing ↔
        ((m.setCtx c ((m.ctx c).accept buffer len flags).1).ctx k).Finishing := by
  have hc := h.not_held_of_accepts hacc
  have hspec := accept_spec (h.resting c hc) buffer hacc hlen
  have hkeep := @Inv.accept_keep S J D _ p compress maxBlocks Rep sch m held goal msg c hcor
    buffer len flags h hacc hlen
  have hacc' : ((m.shown swap msg).ctx c).Accepts flags := hacc
  rw [ctxMgrSubmitSwap_of_accepts hacc', shown_ctx, accept_shown hacc]
  dsimp only
  generalize (m.ctx c).accept buffer len flags = r at *
  have hwork : work (m.setCtx c r.1) (insert c held) ≤ fuel := work_accept_le hc hfuel
  have hst : r.1.status ≠ stsComplete := by
    cases hs : r.2 with
    | true => exact (hspec.2.1 hs).2.status_ne
    | false => exact (hspec.2.2 hs).status_ne
  have hseen : (m.shown swap msg).setCtx c r.1 =
      (m.setCtx c r.1).shown swap (acceptedMsg msg c buffer len flags) := by
    rw [setCtx_shown m _ fun k hk => Function.update_of_ne hk .., shown_of_ne hst]
  rw [hseen]
  split
  · next hs =>
    obtain ⟨hone, hb⟩ := hspec.2.1 hs
    obtain ⟨⟨m', ret⟩, hq, hmb, hfin⟩ := @mbSubmit_shown S J D _ p swap _ _ _ _ _ _ _ _ _ hcor _ _
      h.rep (h.busy_acceptedMsg hc buffer len flags) (h.resting_acceptedMsg buffer len flags) hc
      (Function.update_self ..) hb (by rw [hone]; decide)
      (by rw [hone]; exact Nat.le_trans (by decide) hmax)
    rw [hq]
    cases ret with
    | none => exact ⟨_, ctxMgrResubmitSwap.eq_1 .., hmb.answered rfl, hfin⟩
    | some k =>
      obtain ⟨hmem, goal', hhand⟩ := hmb.some k rfl
      have hall : insert k ((insert c held).erase k) = insert c held := Finset.insert_erase hmem
      obtain ⟨q, hq, hset, hfin'⟩ := ctxMgrResubmitSwap_spec hcor hmax fuel hhand (by
        rw [hall]
        exact (work_congr fun j _ => hmb.rank j).le.trans hwork)
      rw [hall] at hset
      exact ⟨q, hq, (hset.after_mb hmb).answered, fun j => (hfin' j).trans (hfin j)⟩
  · next hs =>
    obtain ⟨q, hq, hset, hfin⟩ :=
      ctxMgrResubmitSwap_spec hcor hmax fuel (hkeep (Bool.eq_false_iff.mpr hs)) hwork
    exact ⟨q, hq, hset.answered, hfin⟩

theorem ctxMgrSubmitSwap_rejected (fuel : ℕ) (buffer : ℕ → Byte) (len : BitVec 32)
    {flags : BitVec 32} (hrej : ¬ (m.ctx c).Accepts flags) :
    ctxMgrSubmitSwap swap sch compress fuel m c buffer len flags =
      some (m.setCtx c { m.ctx c with error := (m.ctx c).rejection flags }, some c) := by
  rw [ctxMgrSubmitSwap, HashCtx.rejection]
  dsimp only
  by_cases hflags : flags &&& ~~~hashEntire ≠ 0#32
  · rw [if_pos hflags, if_pos hflags]
  · rw [if_neg hflags, if_neg hflags]
    by_cases hproc : (m.ctx c).status &&& stsProcessing ≠ 0#32
    · rw [if_pos hproc, if_pos hproc]
    · have hcompl : (m.ctx c).status &&& stsComplete ≠ 0#32 ∧ flags &&& hashFirst = 0#32 := by
        by_contra hno
        exact hrej ⟨not_not.mp hflags, not_not.mp hproc, hno⟩
      rw [if_neg hproc, if_neg hproc, if_pos hcompl]

/-! ## Runs -/

variable (swap) in
/-- An event as the user sees it. -/
def Event.shown (msg : J → Option (List Byte)) (ev : Event J p) : Event J p :=
  { ev with ctx := fun c => (ev.ctx c).shown swap (msg c) }

variable (swap) in
def shownTrace : (J → Option (List Byte)) → List (Event J p) → List (Event J p)
  | _, [] => []
  | msg, ev :: tr => ev.shown swap (ev.message msg) :: shownTrace (ev.message msg) tr

/-- After every event a context is finishing while the flags last accepted for it have
`ISAL_HASH_LAST`. -/
def FinishesAlong : (J → BitVec 32) → List (Event J p) → Prop
  | _, [] => True
  | fl, ev :: tr =>
    (∀ k, (ev.ctx k).Finishing ↔ ev.lastFlags fl k &&& hashLast ≠ 0#32) ∧
      FinishesAlong (ev.lastFlags fl) tr

/-- A call from the view of a state that keeps the invariant. -/
theorem execSwap_spec (hcor : sch.Correct p.blockSize maxBlocks Rep) (hmax : 2 ≤ maxBlocks)
    {fl : J → BitVec 32} (h : Inv compress maxBlocks Rep m held goal msg)
    (hfl : ∀ k, (m.ctx k).Finishing ↔ fl k &&& hashLast ≠ 0#32) (a : Call J)
    (hlen : a.len / p.blockSize ≤ maxBlocks) {fuel : ℕ} (hfuel : 3 * (held.card + 1) ≤ fuel) :
    ∃ (r : Mem S J p × Option J) (ev : Event J p), ev = ⟨a, a.accepted m, r.2, r.1.ctx⟩ ∧
      execSwap swap sch compress fuel (m.shown swap msg) a =
        some (r.1.shown swap (ev.message msg), r.2) ∧
      ev.Keeps compress maxBlocks Rep m r.1 held msg ∧
      ∀ k, (r.1.ctx k).Finishing ↔ ev.lastFlags fl k &&& hashLast ≠ 0#32 := by
  have hwork := work_le m held
  cases a with
  | submit c buffer len flags =>
    by_cases hacc : (m.ctx c).Accepts flags
    · have hf : work m held + 3 ≤ fuel := by omega
      obtain ⟨r, hr, hans, hfin⟩ := ctxMgrSubmitSwap_accepted hcor hmax buffer h hacc hlen hf
      have htrue : (Call.submit c buffer len flags).accepted m = true := decide_eq_true hacc
      rw [htrue]
      refine ⟨r, _, rfl, hr, hans.keeps_submit h hacc hlen, fun k => ?_⟩
      rw [hfin, Event.lastFlags]
      dsimp only
      rw [if_pos rfl]
      rcases eq_or_ne k c with rfl | hne
      · rw [setCtx_ctx_self, accept_finishing, Function.update_self]
      · rw [setCtx_ctx_of_ne m _ hne, Function.update_of_ne hne, hfl]
    · have hfalse : (Call.submit c buffer len flags).accepted m = false := decide_eq_false hacc
      rw [hfalse]
      have hrej : ¬ ((m.shown swap msg).ctx c).Accepts flags := hacc
      have hseen : (m.setCtx c { m.ctx c with error := (m.ctx c).rejection flags }).shown swap msg =
          (m.shown swap msg).setCtx c
            { (m.shown swap msg).ctx c with error := (m.ctx c).rejection flags } :=
        setCtx_shown m _ fun _ _ => rfl
      have hkeep :=
        @Inv.keeps_reject S J D _ p _ _ _ sch held goal msg hcor m c buffer len flags h hacc
      refine ⟨(m.setCtx c { m.ctx c with error := (m.ctx c).rejection flags }, some c), _, rfl, ?_,
        hkeep, fun k => (setCtx_finishing ?_ k).trans (hfl k)⟩
      · exact (ctxMgrSubmitSwap_rejected fuel buffer len hrej).trans
          (congrArg (fun m => some (m, some c)) hseen.symm)
      · rfl
  | flush =>
    have hf : work m held < fuel := by omega
    obtain ⟨r, hr, hans, hfin, hnone⟩ := flushLoopSwap_spec hcor hmax fuel fuel h hf hf.le
    exact ⟨r, _, rfl, hr, hans.keeps_flush hnone, fun k => (hfin k).trans (hfl k)⟩

/-- Every run terminates, and its events are views of events that keep the ledger. -/
theorem runSwap_spec (hcor : sch.Correct p.blockSize maxBlocks Rep) (hmax : 2 ≤ maxBlocks)
    {fuel : ℕ} (calls : List (Call J)) : ∀ {m : Mem S J p} {held : Finset J} {goal : J → D}
      {msg : J → Option (List Byte)} {fl : J → BitVec 32},
      Inv compress maxBlocks Rep m held goal msg →
      (∀ k, (m.ctx k).Finishing ↔ fl k &&& hashLast ≠ 0#32) →
      (∀ a ∈ calls, a.len / p.blockSize ≤ maxBlocks) → 3 * (held.card + calls.length) ≤ fuel →
      ∃ m' tr, runSwap swap sch compress fuel (m.shown swap msg) calls =
          some (m', shownTrace swap msg tr) ∧
        tr.map Event.call = calls ∧ Along compress held msg tr ∧ FinishesAlong fl tr := by
  induction calls with
  | nil =>
    intro m held goal msg fl _ _ _ _
    exact ⟨_, [], rfl, rfl, trivial, trivial⟩
  | cons a calls ih =>
    intro m held goal msg fl h hfl hlen hfuel
    rw [List.length_cons] at hfuel
    obtain ⟨hlen, hlens⟩ := List.forall_mem_cons.mp hlen
    have hf : 3 * (held.card + 1) ≤ fuel := by omega
    obtain ⟨r, ev, hev, hr, ⟨-, hok, goal', hinv⟩, hfin⟩ :=
      @execSwap_spec S J D _ p swap _ _ _ _ _ _ _ _ hcor hmax fl h hfl a hlen fuel hf
    have hcard := card_after_le ev held
    obtain ⟨m', tr, hrun, hcalls, halong, hfins⟩ := ih hinv hfin hlens (by omega)
    refine ⟨m', ev :: tr, ?_, ?_, ⟨hok, halong⟩, ?_, hfins⟩
    · rw [runSwap, hr]
      dsimp only
      rw [hrun, shownTrace, hev]
      rfl
    · rw [List.map_cons, hcalls, hev]
    · rw [hev] at hfin ⊢
      exact hfin

/-! ## What the user sees of a run -/

omit [DecidableEq J] in
theorem shown_none (ctx : HashCtx p) : ctx.shown swap none = ctx := by
  unfold HashCtx.shown
  rw [if_neg fun h => Bool.false_ne_true h.2]

/-- What is computed from the calls and their answers is the same for the view. -/
theorem foldl_shownTrace {σ : Type*} {f : σ → Event J p → σ}
    (hf : ∀ s ev msg, f s (Event.shown swap msg ev) = f s ev) (tr : List (Event J p)) :
    ∀ (msg : J → Option (List Byte)) (s : σ),
      (shownTrace swap msg tr).foldl f s = tr.foldl f s := by
  induction tr with
  | nil => exact fun _ _ => rfl
  | cons ev tr ih =>
    intro msg s
    rw [shownTrace, List.foldl_cons, List.foldl_cons, hf, ih]

theorem countP_shownTrace {f : Event J p → Bool}
    (hf : ∀ ev msg, f (Event.shown swap msg ev) = f ev) (tr : List (Event J p)) :
    ∀ msg : J → Option (List Byte), (shownTrace swap msg tr).countP f = tr.countP f := by
  induction tr with
  | nil => exact fun _ => rfl
  | cons ev tr ih =>
    intro msg
    rw [shownTrace, List.countP_cons, List.countP_cons, hf, ih]

theorem map_shownTrace {β : Type*} {f : Event J p → β}
    (hf : ∀ ev msg, f (Event.shown swap msg ev) = f ev) (tr : List (Event J p)) :
    ∀ msg : J → Option (List Byte), (shownTrace swap msg tr).map f = tr.map f := by
  induction tr with
  | nil => exact fun _ => rfl
  | cons ev tr ih =>
    intro msg
    rw [shownTrace, List.map_cons, List.map_cons, hf, ih]

theorem shownTrace_concat (pre : List (Event J p)) (ev : Event J p) :
    ∀ msg : J → Option (List Byte), shownTrace swap msg (pre ++ [ev]) =
      shownTrace swap msg pre ++ [ev.shown swap (ev.message (messages pre msg))] := by
  induction pre with
  | nil => exact fun _ => rfl
  | cons e pre ih => exact fun msg => congrArg (List.cons _) (ih _)

/-- An event of a view is the view of an event. -/
theorem shownTrace_split (pre : List (Event J p)) {ev : Event J p} {post : List (Event J p)} :
    ∀ {msg : J → Option (List Byte)} {tr : List (Event J p)},
      shownTrace swap msg tr = pre ++ ev :: post →
      ∃ pre' ev' post', tr = pre' ++ ev' :: post' ∧ pre = shownTrace swap msg pre' ∧
        ev = ev'.shown swap (ev'.message (messages pre' msg)) := by
  induction pre with
  | nil =>
    intro msg tr h
    cases tr with
    | nil => cases h
    | cons ev' tr =>
      obtain ⟨rfl, -⟩ := List.cons.inj h
      exact ⟨[], ev', tr, rfl, rfl, rfl⟩
  | cons e pre ih =>
    intro msg tr h
    cases tr with
    | nil => cases h
    | cons e' tr =>
      obtain ⟨rfl, hrest⟩ := List.cons.inj h
      obtain ⟨pre', ev', post', rfl, rfl, rfl⟩ := ih hrest
      exact ⟨e' :: pre', ev', post', rfl, rfl, rfl⟩

theorem FinishesAlong.after (pre : List (Event J p)) {ev : Event J p} {post : List (Event J p)} :
    ∀ {fl : J → BitVec 32}, FinishesAlong fl (pre ++ ev :: post) →
      ∀ k, (ev.ctx k).Finishing ↔ ev.lastFlags (lastFlags pre fl) k &&& hashLast ≠ 0#32 := by
  induction pre with
  | nil => exact fun h => h.1
  | cons e pre ih => exact fun h => ih h.2

variable (swap compress) in
/-- What the user sees after the events `tr`, in the contexts `ctx`: every accepted submit was
answered once, or its context is inside; a complete context has the swapped digest of its message,
and an idle one the chaining value as it is. -/
structure Delivers (tr : List (Event J p)) (ctx : J → HashCtx p) : Prop where
  balance : ∀ c, tr.countP (fun e => e.accepts c) =
    tr.countP (fun e => e.answer = some c) + if (ctx c).Processing then 1 else 0
  complete : ∀ c l, messages tr (fun _ => none) c = some l → (ctx c).status = stsComplete →
    p.Fits l.length → (ctx c).job.resultDigest = swap (p.hash compress l)
  idle : ∀ c l, messages tr (fun _ => none) c = some l → (ctx c).status = stsIdle →
    (ctx c).job.resultDigest = p.chain compress l (l.length / p.blockSize)

omit [DecidableEq J] in
/-- The chaining value of an idle context is that of all whole blocks. -/
theorem HashCtx.Mid.count_eq {ctx : HashCtx p} {l : List Byte} {k : ℕ} {d : D}
    (h : ctx.Mid compress l k d) (hinc : ctx.incomingBufferLength = 0#32) :
    l.length / p.blockSize = k := by
  have hlen := h.length
  rw [hinc, BitVec.toNat_zero, Nat.add_zero] at hlen
  rw [hlen, Nat.mul_add_div p.blockSize_pos, Nat.div_eq_of_lt h.partial_lt, Nat.add_zero]

/-- The view after an event that keeps the ledger. -/
theorem Along.delivers {pre post : List (Event J p)} {ev : Event J p}
    (h : Along compress ∅ (fun _ => none) (pre ++ ev :: post)) :
    Delivers swap compress (pre ++ [ev])
      fun c => (ev.ctx c).shown swap (ev.message (messages pre fun _ => none) c) := by
  have hok := (Along.rest pre h).1
  have hpart : Along compress ∅ (fun _ => none) (pre ++ [ev]) :=
    Along.beginning (pre ++ [ev]) (by rwa [List.append_assoc])
  refine ⟨fun c => ?_, fun c l hl hst hfits => ?_, fun c l hl hst => ?_⟩
  · have hcount := hpart.count c
    rw [if_neg (Finset.notMem_empty c), Nat.add_zero] at hcount
    have hin : c ∈ inFlight (pre ++ [ev]) ∅ ↔ (ev.ctx c).Processing := by
      rw [hok.processing, inFlight, List.foldl_append]
      rfl
    rw [hcount]
    simp only [hin]
    rfl
  · rw [messages_concat] at hl
    have hst : (ev.ctx c).status = stsComplete := hst
    rw [hl, shown_complete hst]
    refine congrArg swap ?_
    have hnot : c ∉ ev.after (inFlight pre ∅) := fun hin => by
      have hproc := (hok.processing c).mpr hin
      rw [HashCtx.Processing, hst] at hproc
      exact absurd hproc (by decide)
    cases hok.resting c hnot with
    | complete _ hd => exact hd l hl hfits
    | idle _ _ hidle => exact absurd (hst.symm.trans hidle) (by decide)
  · rw [messages_concat] at hl
    have hst : (ev.ctx c).status = stsIdle := hst
    rw [shown_of_ne (by rw [hst]; decide)]
    have hnot : c ∉ ev.after (inFlight pre ∅) := fun hin => by
      have hproc := (hok.processing c).mpr hin
      rw [HashCtx.Processing, hst] at hproc
      exact absurd hproc (by decide)
    cases hok.resting c hnot with
    | complete hcompl _ => exact absurd (hst.symm.trans hcompl) (by decide)
    | idle l' k _ hl' hinc hmid =>
      obtain rfl : l' = l := Option.some.inj (hl'.symm.trans hl)
      rw [hmid.count_eq hinc]
      exact hmid.digest

theorem Delivers.shown {tr : List (Event J p)} {ctx : J → HashCtx p}
    (h : Delivers swap compress tr ctx) (msg : J → Option (List Byte)) :
    Delivers swap compress (shownTrace swap msg tr) ctx := by
  have hmsg : messages (shownTrace swap msg tr) (fun _ => none) = messages tr fun _ => none :=
    foldl_shownTrace (fun _ _ _ => rfl) tr msg _
  refine ⟨fun c => ?_, fun c l hl => ?_, fun c l hl => ?_⟩
  · have haccepts := @countP_shownTrace J D _ p swap (fun e => e.accepts c) (fun _ _ => rfl) tr msg
    have hanswers := @countP_shownTrace J D _ p swap (fun e => e.answer = some c)
      (fun _ _ => rfl) tr msg
    rw [haccepts, hanswers]
    exact h.balance c
  · rw [hmsg] at hl
    exact h.complete c l hl
  · rw [hmsg] at hl
    exact h.idle c l hl

/-- Every run from initialised contexts: it terminates, and after each event the digests are
delivered; an answer is complete if it ends its message, and idle otherwise. -/
theorem runSwap_delivers (hcor : sch.Correct p.blockSize maxBlocks Rep) (hmax : 2 ≤ maxBlocks)
    (s : S) {ctx : J → HashCtx p} (hctx : ∀ c, (ctx c).Initialised) {calls : List (Call J)}
    (hlens : ∀ a ∈ calls, a.len / p.blockSize ≤ maxBlocks) {fuel : ℕ}
    (hfuel : 3 * calls.length ≤ fuel) :
    ∃ m tr, runSwap swap sch compress fuel ⟨sch.init s, ctx⟩ calls = some (m, tr) ∧
      tr.map Event.call = calls ∧
      ∀ pre ev post, tr = pre ++ ev :: post →
        Delivers swap compress (pre ++ [ev]) ev.ctx ∧
        ∀ c, ev.answer = some c → ∃ l, messages (pre ++ [ev]) (fun _ => none) c = some l ∧
          (ev.ctx c).status = if lastFlags (pre ++ [ev]) (fun _ => hashLast) c &&& hashLast ≠ 0#32
            then stsComplete else stsIdle := by
  have hinit : Inv compress maxBlocks Rep (⟨sch.init s, ctx⟩ : Mem S J p) ∅ _ _ :=
    inv_init hcor s hctx
  have hfl : ∀ k, ((⟨sch.init s, ctx⟩ : Mem S J p).ctx k).Finishing ↔
      (fun _ => hashLast) k &&& hashLast ≠ 0#32 := fun k => by
    have hst : (ctx k).status = stsComplete := (hctx k).2
    change (ctx k).Finishing ↔ _
    rw [HashCtx.Finishing, hst]
    exact iff_of_true (by decide) (show hashLast &&& hashLast ≠ 0#32 by decide)
  have hseen : (⟨sch.init s, ctx⟩ : Mem S J p).shown swap (fun _ => none) = ⟨sch.init s, ctx⟩ :=
    congrArg (Mem.mk _) (funext fun c => shown_none (ctx c))
  obtain ⟨m, tr, hrun, hcalls, halong, hfin⟩ := @runSwap_spec S J D _ p swap _ _ _ _ hcor hmax fuel
    calls _ ∅ _ _ _ hinit hfl hlens (by rwa [Finset.card_empty, Nat.zero_add])
  rw [hseen] at hrun
  refine ⟨m, _, hrun, (map_shownTrace (fun _ _ => rfl) tr _).trans hcalls,
    fun pre ev post htr => ?_⟩
  obtain ⟨pre', ev', post', rfl, rfl, rfl⟩ := shownTrace_split pre htr
  rw [← shownTrace_concat]
  refine ⟨halong.delivers.shown _, fun c hans => ?_⟩
  have hmsg : messages (shownTrace swap (fun _ => none) (pre' ++ [ev'])) (fun _ => none) =
      messages (pre' ++ [ev']) fun _ => none := foldl_shownTrace (fun _ _ _ => rfl) ..
  have hflags : lastFlags (shownTrace swap (fun _ => none) (pre' ++ [ev'])) (fun _ => hashLast) =
      ev'.lastFlags (lastFlags pre' fun _ => hashLast) :=
    (foldl_shownTrace (fun _ _ _ => rfl) ..).trans List.foldl_append
  have hans' : ev'.answer = some c := hans
  have hok := (halong.rest pre').1
  have hnot : c ∉ ev'.after (inFlight pre' ∅) := by
    rw [Event.after, hans']
    exact Finset.notMem_erase c _
  have hmem : ev'.message (messages pre' fun _ => none) c ≠ none :=
    Event.message_ne_none (messages_ne_none pre' fun k hk => absurd hk (Finset.notMem_empty k)) c
      (hok.answered c hans')
  obtain ⟨l, hl⟩ := Option.ne_none_iff_exists'.mp hmem
  rw [hmsg, hflags, messages_concat]
  exact ⟨l, hl, (hok.resting c hnot).status_eq (hfin.after pre' c)⟩

end IsalCrypto.Mb
