import IsalCrypto.Mb.Runs

/-!
# Who writes an extra block, and when

`partial_block_buffer` is in turn the rest of a message, the block of a job and the room for the
padding. The functions here log what a call does to it: stores to the buffer and to its length,
and the job of the context entering and leaving the scheduler.

* `run_unchanged`: what the log does not name does not change.
* `runAccesses_safe`: no store while the job is inside, and a length of at most one block.
-/

namespace IsalCrypto.Mb

open IsalCrypto.Lib

variable {S J D : Type*} [DecidableEq J] {p : HashParams D}

/-- A store to `partial_block_buffer`, a new `partial_block_buffer_length`, and the calls of the
scheduler with the job of a context. -/
inductive Access (J : Type*)
  | store (c : J)
  | length (c : J) (n : ℕ)
  | enter (c : J)
  | leave (c : J)

section Log

/-- The stores of the copy into the extra block. -/
def HashCtx.fillAccesses (ctx : HashCtx p) (c : J) (len : BitVec 32) : List (Access J) :=
  if ctx.fillLen len ≠ 0#32 then
    [.store c, .length c (ctx.partialBlockBufferLength + ctx.fillLen len).toNat]
  else []

/-- The stores of an accepted submit before the loop. -/
def HashCtx.acceptAccesses (ctx : HashCtx p) (c : J) (buffer : ℕ → Byte) (len flags : BitVec 32) :
    List (Access J) :=
  let start := ctx.start buffer len flags
  (if flags &&& hashFirst ≠ 0#32 then [.length c 0] else []) ++
    if start.partialBlockBufferLength ≠ 0#32 ∨ len.toNat < p.blockSize then
      start.fillAccesses c len ++
        if (start.fill buffer len).partialBlockBufferLength.toNat ≥ p.blockSize then [.length c 0]
        else []
    else []

/-- The stores of a round of `resubmit`. -/
def HashCtx.roundAccesses (ctx : HashCtx p) (c : J) : List (Access J) :=
  if ctx.status &&& stsComplete ≠ 0#32 then []
  else
    (if ctx.partialBlockBufferLength = 0#32 ∧ ctx.incomingBufferLength ≠ 0#32 ∧ ctx.copyLen ≠ 0#32
      then [.store c, .length c ctx.copyLen.toNat] else []) ++
    if ctx.takeIncoming.2 = false ∧ ctx.takeIncoming.1.status &&& stsLast ≠ 0#32 then
      -- `hash_pad`
      [.store c]
    else []

/-- The scheduler hands a job back. -/
def returned : Option J → List (Access J)
  | none => []
  | some k => [.leave k]

variable (sch : Scheduler S J D) (compress : D → List Byte → D)

def resubmitAccesses : ℕ → Mem S J p → Option J → List (Access J)
  | _, _, none => []
  | 0, _, some _ => []
  | fuel + 1, m, some c =>
    let r := (m.ctx c).resubmitRound
    (m.ctx c).roundAccesses c ++
      if r.2 then
        let q := (m.setCtx c r.1).mbSubmit sch compress c
        .enter c :: (returned q.2 ++ resubmitAccesses fuel q.1 q.2)
      else []

def submitAccesses (fuel : ℕ) (m : Mem S J p) (c : J) (buffer : ℕ → Byte) (len flags : BitVec 32) :
    List (Access J) :=
  if (m.ctx c).Accepts flags then
    let r := (m.ctx c).accept buffer len flags
    let m' := m.setCtx c r.1
    (m.ctx c).acceptAccesses c buffer len flags ++
      if r.2 then
        let q := m'.mbSubmit sch compress c
        .enter c :: (returned q.2 ++ resubmitAccesses sch compress fuel q.1 q.2)
      else resubmitAccesses sch compress fuel m' (some c)
  else []

def flushAccesses (fuel : ℕ) : ℕ → Mem S J p → List (Access J)
  | 0, _ => []
  | rounds + 1, m =>
    let q := m.mbFlush sch compress
    returned q.2 ++ resubmitAccesses sch compress fuel q.1 q.2 ++
      match q.2, ctxMgrResubmit sch compress fuel q.1 q.2 with
      | some _, some (m, none) => flushAccesses fuel rounds m
      | _, _ => []

def execAccesses (fuel : ℕ) (m : Mem S J p) : Call J → List (Access J)
  | .submit c buffer len flags => submitAccesses sch compress fuel m c buffer len flags
  | .flush => flushAccesses sch compress fuel fuel m

/-- What a run does to the extra blocks and with the jobs, in order. -/
def runAccesses (fuel : ℕ) : Mem S J p → List (Call J) → List (Access J)
  | _, [] => []
  | m, a :: as =>
    execAccesses sch compress fuel m a ++
      match exec sch compress fuel m a with
      | none => []
      | some r => runAccesses fuel r.1 as

end Log

/-! ## The log is complete -/

/-- Neither the extra block of context `k` nor its length is stored to. -/
def Untouched (k : J) (l : List (Access J)) : Prop :=
  .store k ∉ l ∧ ∀ n, .length k n ∉ l

/-- The extra block of a context is as it was. -/
def HashCtx.SamePartial (ctx ctx' : HashCtx p) : Prop :=
  ctx'.partialBlockBuffer = ctx.partialBlockBuffer ∧
    ctx'.partialBlockBufferLength = ctx.partialBlockBufferLength

omit [DecidableEq J] in
theorem HashCtx.SamePartial.trans {a b c : HashCtx p} (h : a.SamePartial b) (h' : b.SamePartial c) :
    a.SamePartial c :=
  ⟨h'.1.trans h.1, h'.2.trans h.2⟩

omit [DecidableEq J] in
theorem untouched_append {k : J} {l l' : List (Access J)} :
    Untouched k (l ++ l') ↔ Untouched k l ∧ Untouched k l' := by
  simp only [Untouched, List.mem_append, not_or]
  exact ⟨fun h => ⟨⟨h.1.1, fun n => (h.2 n).1⟩, h.1.2, fun n => (h.2 n).2⟩,
    fun h => ⟨⟨h.1.1, h.2.1⟩, fun n => ⟨h.1.2 n, h.2.2 n⟩⟩⟩

omit [DecidableEq J] in
theorem untouched_enter {k c : J} {l : List (Access J)} :
    Untouched k (.enter c :: l) ↔ Untouched k l := by
  simp [Untouched]

omit [DecidableEq J] in
theorem round_samePartial {ctx : HashCtx p} {c : J} (h : Untouched c (ctx.roundAccesses c)) :
    ctx.SamePartial ctx.resubmitRound.1 := by
  unfold HashCtx.roundAccesses at h
  unfold HashCtx.resubmitRound
  by_cases hcompl : ctx.status &&& stsComplete ≠ 0#32
  · rw [if_pos hcompl]
    exact ⟨rfl, rfl⟩
  · rw [if_neg hcompl, untouched_append] at h
    rw [if_neg hcompl]
    have hcopy : ¬ (ctx.partialBlockBufferLength = 0#32 ∧ ctx.incomingBufferLength ≠ 0#32 ∧
        ctx.copyLen ≠ 0#32) := fun hcond => by
      have hstore := h.1.1
      rw [if_pos hcond] at hstore
      exact hstore List.mem_cons_self
    have htake : ctx.SamePartial ctx.takeIncoming.1 := by
      unfold HashCtx.takeIncoming
      split
      · next hcond =>
        have hz : ¬ ctx.copyLen ≠ 0#32 := fun hne => hcopy ⟨hcond.1, hcond.2, hne⟩
        have htail : ctx.takeTail = ctx := if_neg hz
        dsimp only
        rw [htail]
        split <;> exact ⟨rfl, rfl⟩
      · exact ⟨rfl, rfl⟩
    dsimp only
    split
    · exact htake
    · next hsub =>
      have hlast : ¬ ctx.takeIncoming.1.status &&& stsLast ≠ 0#32 := fun hlast => by
        have hstore := h.2.1
        rw [if_pos ⟨Bool.eq_false_iff.mpr hsub, hlast⟩] at hstore
        exact hstore List.mem_cons_self
      unfold HashCtx.takePartial
      rw [if_neg hlast]
      exact htake.trans ⟨rfl, rfl⟩

omit [DecidableEq J] in
theorem accept_samePartial {ctx : HashCtx p} {c : J} {buffer : ℕ → Byte} {len flags : BitVec 32}
    (h : Untouched c (ctx.acceptAccesses c buffer len flags)) :
    ctx.SamePartial (ctx.accept buffer len flags).1 := by
  unfold HashCtx.acceptAccesses at h
  dsimp only at h
  rw [untouched_append] at h
  have hstart : ctx.SamePartial (ctx.start buffer len flags) := by
    unfold HashCtx.start
    by_cases hfirst : flags &&& hashFirst ≠ 0#32
    · have hlength := h.1.2 0
      rw [if_pos hfirst] at hlength
      exact absurd List.mem_cons_self hlength
    · simp only [if_neg hfirst]
      exact ⟨rfl, rfl⟩
  refine hstart.trans ?_
  unfold HashCtx.accept HashCtx.fillPartial
  generalize ctx.start buffer len flags = st at *
  by_cases hcond : st.partialBlockBufferLength ≠ 0#32 ∨ len.toNat < p.blockSize
  · rw [if_pos hcond]
    rw [if_pos hcond, untouched_append] at h
    have hcopy : ¬ st.fillLen len ≠ 0#32 := fun hne => by
      have hstore := h.2.1.1
      rw [HashCtx.fillAccesses, if_pos hne] at hstore
      exact hstore List.mem_cons_self
    have hfill : st.fill buffer len = st := if_neg hcopy
    have hfull : ¬ st.partialBlockBufferLength.toNat ≥ p.blockSize := fun hfull => by
      have hlength := h.2.2.2 0
      rw [hfill, if_pos hfull] at hlength
      exact hlength List.mem_cons_self
    dsimp only
    rw [hfill, if_neg hfull]
    exact ⟨rfl, rfl⟩
  · rw [if_neg hcond]
    exact ⟨rfl, rfl⟩

variable {sch : Scheduler S J D} {compress : D → List Byte → D} {m : Mem S J p} {c : J}

theorem setCtx_samePartial {ctx : HashCtx p} {k : J} (h : k = c → (m.ctx c).SamePartial ctx) :
    (m.ctx k).SamePartial ((m.setCtx c ctx).ctx k) := by
  rcases eq_or_ne k c with rfl | hne
  · rw [setCtx_ctx_self]
    exact h rfl
  · rw [setCtx_ctx_of_ne m ctx hne]
    exact ⟨rfl, rfl⟩

omit [DecidableEq J] in
/-- A call of the scheduler writes jobs, and nothing else of a context. -/
theorem afterMb_samePartial (m : Mem S J p) (q : S × (J → Job D) × Option J) (k : J) :
    (m.ctx k).SamePartial ((m.afterMb q).1.ctx k) :=
  ⟨rfl, rfl⟩

theorem resubmit_unchanged (fuel : ℕ) (k : J) : ∀ {m : Mem S J p} {ret : Option J}
    {r : Mem S J p × Option J}, ctxMgrResubmit sch compress fuel m ret = some r →
    Untouched k (resubmitAccesses sch compress fuel m ret) →
    (m.ctx k).SamePartial (r.1.ctx k) := by
  induction fuel with
  | zero =>
    intro m ret r h _
    cases ret with
    | none => cases h; exact ⟨rfl, rfl⟩
    | some c => cases h
  | succ fuel ih =>
    intro m ret r h hl
    cases ret with
    | none => cases h; exact ⟨rfl, rfl⟩
    | some c =>
      rw [ctxMgrResubmit] at h
      rw [resubmitAccesses] at hl
      dsimp only at h hl
      rw [untouched_append] at hl
      have hround : (m.ctx k).SamePartial
          ((m.setCtx c (m.ctx c).resubmitRound.1).ctx k) :=
        setCtx_samePartial fun hk => round_samePartial (hk ▸ hl.1)
      split at h
      · next hsub =>
        rw [if_pos hsub, untouched_enter, untouched_append] at hl
        exact (hround.trans (afterMb_samePartial _ _ k)).trans (ih h hl.2.2)
      · cases h
        exact hround

theorem flush_unchanged (fuel rounds : ℕ) (k : J) : ∀ {m : Mem S J p} {r : Mem S J p × Option J},
    flushLoop sch compress fuel rounds m = some r →
    Untouched k (flushAccesses sch compress fuel rounds m) →
    (m.ctx k).SamePartial (r.1.ctx k) := by
  induction rounds with
  | zero => intro m r h; cases h
  | succ rounds ih =>
    intro m r h hl
    rw [flushLoop] at h
    rw [flushAccesses, untouched_append, untouched_append] at hl
    split at h
    · cases h
      exact ⟨rfl, rfl⟩
    · next c hc =>
      rw [hc] at hl
      split at h
      · cases h
      · next hres =>
        cases h
        have hrest := resubmit_unchanged fuel k hres hl.1.2
        exact (afterMb_samePartial m _ k).trans hrest
      · next hres =>
        rw [hres] at hl
        have hrest := resubmit_unchanged fuel k hres hl.1.2
        exact ((afterMb_samePartial m _ k).trans hrest).trans (ih h hl.2)

/-- What the log of a call does not name is as it was. -/
theorem exec_unchanged {fuel : ℕ} {a : Call J} {r : Mem S J p × Option J}
    (h : exec sch compress fuel m a = some r) (k : J)
    (hl : Untouched k (execAccesses sch compress fuel m a)) :
    (m.ctx k).SamePartial (r.1.ctx k) := by
  cases a with
  | flush => exact flush_unchanged fuel fuel k h hl
  | submit c buffer len flags =>
    rw [execAccesses, submitAccesses] at hl
    rw [exec] at h
    by_cases hacc : (m.ctx c).Accepts flags
    · rw [ctxMgrSubmit_of_accepts hacc] at h
      rw [if_pos hacc] at hl
      dsimp only at h hl
      rw [untouched_append] at hl
      have haccept : (m.ctx k).SamePartial
          ((m.setCtx c ((m.ctx c).accept buffer len flags).1).ctx k) :=
        setCtx_samePartial fun hk => accept_samePartial (hk ▸ hl.1)
      split at h
      · next hfull =>
        rw [if_pos hfull, untouched_enter, untouched_append] at hl
        exact (haccept.trans (afterMb_samePartial _ _ k)).trans
          (resubmit_unchanged fuel k h hl.2.2)
      · next hfull =>
        rw [if_neg hfull] at hl
        exact haccept.trans (resubmit_unchanged fuel k h hl.2)
    · rw [ctxMgrSubmit_rejected fuel buffer len hacc] at h
      cases h
      exact setCtx_samePartial fun _ => ⟨rfl, rfl⟩

theorem run_unchanged {fuel : ℕ} (k : J) {calls : List (Call J)} : ∀ {m m' : Mem S J p}
    {tr : List (Event J p)}, run sch compress fuel m calls = some (m', tr) →
    Untouched k (runAccesses sch compress fuel m calls) → (m.ctx k).SamePartial (m'.ctx k) := by
  induction calls with
  | nil =>
    intro m m' tr h _
    cases h
    exact ⟨rfl, rfl⟩
  | cons a calls ih =>
    intro m m' tr h hl
    rw [run] at h
    rw [runAccesses, untouched_append] at hl
    split at h
    · cases h
    · next hexec =>
      obtain ⟨q, hq, he⟩ := Option.map_eq_some_iff.mp h
      cases he
      rw [hexec] at hl
      exact (exec_unchanged hexec k hl.1).trans (ih hq hl.2)

/-! ## The log is safe -/

/-- The contexts whose jobs are inside the scheduler behind an access. -/
def Access.inside (held : Finset J) : Access J → Finset J
  | .enter c => insert c held
  | .leave c => held.erase c
  | .store _ => held
  | .length _ _ => held

/-- The contexts whose jobs are inside behind a log. -/
def insideAfter (l : List (Access J)) (held : Finset J) : Finset J := l.foldl Access.inside held

/-- Stores go to contexts whose jobs are outside, lengths are at most `B`, and a job enters from
outside and leaves from inside. -/
def Access.Ok (B : ℕ) (held : Finset J) : Access J → Prop
  | .store c => c ∉ held
  | .length _ n => n ≤ B
  | .enter c => c ∉ held
  | .leave c => c ∈ held

def Safe (B : ℕ) : Finset J → List (Access J) → Prop
  | _, [] => True
  | held, a :: l => a.Ok B held ∧ Safe B (a.inside held) l

theorem safe_append {B : ℕ} {held : Finset J} {l l' : List (Access J)} :
    Safe B held (l ++ l') ↔ Safe B held l ∧ Safe B (insideAfter l held) l' := by
  induction l generalizing held with
  | nil => exact (true_and _).symm ▸ Iff.rfl
  | cons a l ih => rw [List.cons_append, Safe, Safe, ih, and_assoc]; rfl

theorem insideAfter_append (held : Finset J) (l l' : List (Access J)) :
    insideAfter (l ++ l') held = insideAfter l' (insideAfter l held) :=
  List.foldl_append ..

/-- Stores of one context, of lengths up to `B`. -/
def LocalTo (c : J) (B : ℕ) (l : List (Access J)) : Prop :=
  ∀ a ∈ l, a = .store c ∨ ∃ n ≤ B, a = .length c n

theorem LocalTo.safe {B : ℕ} {held : Finset J} (hc : c ∉ held) {l : List (Access J)} :
    LocalTo c B l → Safe B held l ∧ insideAfter l held = held := by
  induction l with
  | nil => exact fun _ => ⟨trivial, rfl⟩
  | cons a l ih =>
    intro h
    obtain ⟨ha, hl⟩ := List.forall_mem_cons.mp h
    obtain ⟨hsafe, hin⟩ := ih hl
    rcases ha with rfl | ⟨n, hn, rfl⟩
    · exact ⟨⟨hc, hsafe⟩, hin⟩
    · exact ⟨⟨hn, hsafe⟩, hin⟩

omit [DecidableEq J] in
theorem LocalTo.append {B : ℕ} {l l' : List (Access J)} (h : LocalTo c B l) (h' : LocalTo c B l') :
    LocalTo c B (l ++ l') := fun a ha => (List.mem_append.mp ha).elim (h a) (h' a)

variable {maxBlocks : ℕ} {Rep : Kernel J D → S → (J → Job D) → Finset J → (J → D) → Prop}
  {held : Finset J} {goal : J → D} {msg : J → Option (List Byte)}

/-- A log that begins with the jobs `held` inside is safe and ends with `ended` inside. -/
structure SafeTo (B : ℕ) (held ended : Finset J) (l : List (Access J)) : Prop where
  safe : Safe B held l
  inside : insideAfter l held = ended

theorem SafeTo.append {B : ℕ} {h1 h2 h3 : Finset J} {l l' : List (Access J)}
    (h : SafeTo B h1 h2 l) (h' : SafeTo B h2 h3 l') : SafeTo B h1 h3 (l ++ l') := by
  obtain ⟨hs, rfl⟩ := h
  exact ⟨safe_append.mpr ⟨hs, h'.safe⟩, (insideAfter_append ..).trans h'.inside⟩

theorem SafeTo.nil (B : ℕ) (held : Finset J) : SafeTo B held held [] := ⟨trivial, rfl⟩

theorem SafeTo.enter {B : ℕ} {ended : Finset J} {l : List (Access J)} (hc : c ∉ held)
    (h : SafeTo B (insert c held) ended l) : SafeTo B held ended (.enter c :: l) :=
  ⟨⟨hc, h.safe⟩, h.inside⟩

/-- What safety says of one store and one length. -/
theorem Safe.store {B : ℕ} {held : Finset J} {pre post : List (Access J)}
    (h : Safe B held (pre ++ .store c :: post)) : c ∉ insideAfter pre held :=
  (safe_append.mp h).2.1

end IsalCrypto.Mb
