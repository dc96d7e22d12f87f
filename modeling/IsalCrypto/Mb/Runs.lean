import IsalCrypto.Mb.Manager

/-!
# Runs of the manager

A run is a sequence of `submit` and `flush` calls. Over it stands an abstract ledger: the contexts
in flight and the message accepted for each. `run_spec` shows that every run terminates and keeps
the ledger: what a call returns was in flight and is in flight no more, and whatever is not in
flight rests with its message hashed.
-/

namespace IsalCrypto.Mb

open IsalCrypto.Lib

variable {S J D : Type*} [DecidableEq J] {p : HashParams D}

/-- A call of the context layer. -/
inductive Call (J : Type*)
  | submit (c : J) (buffer : ℕ → Byte) (len flags : BitVec 32)
  | flush

/-- The length of the buffer that a call submits. -/
def Call.len : Call J → ℕ
  | .submit _ _ len _ => len.toNat
  | .flush => 0

/-- A call as it happened: whether it was an accepted submit, what it returned, and the contexts
afterwards. -/
structure Event (J : Type*) {D : Type*} (p : HashParams D) where
  call : Call J
  accepted : Bool
  returned : Option J
  ctx : J → HashCtx p

/-- The call is a submit that passes the error checks. -/
def Call.accepted (m : Mem S J p) : Call J → Bool
  | .submit c _ _ flags => decide ((m.ctx c).Accepts flags)
  | .flush => false

section Exec

variable (sch : Scheduler S J D) (compress : D → List Byte → D) (fuel : ℕ)

def exec (m : Mem S J p) : Call J → Option (Mem S J p × Option J)
  | .submit c buffer len flags => ctxMgrSubmit sch compress fuel m c buffer len flags
  | .flush => ctxMgrFlush sch compress fuel m

/-- A run from memory `m`: the memory at its end and its events. -/
def run : Mem S J p → List (Call J) → Option (Mem S J p × List (Event J p))
  | m, [] => some (m, [])
  | m, a :: as =>
    match exec sch compress fuel m a with
    | none => none
    | some (m', ret) =>
      (run m' as).map fun q => (q.1, ⟨a, a.accepted m, ret, m'.ctx⟩ :: q.2)

end Exec

/-! ## The ledger -/

/-- The messages after an event. -/
def Event.message (ev : Event J p) (msg : J → Option (List Byte)) : J → Option (List Byte) :=
  match ev.call with
  | .submit c buffer len flags =>
    if ev.accepted then
      Function.update msg c (some (acceptMessage (msg c) buffer len flags))
    else msg
  | .flush => msg

/-- The messages accepted along a run. -/
def messages (tr : List (Event J p)) (msg : J → Option (List Byte)) : J → Option (List Byte) :=
  tr.foldl (fun msg ev => ev.message msg) msg

/-- The contexts in flight during an event: those before it and the one it accepts. -/
def Event.during (ev : Event J p) (held : Finset J) : Finset J :=
  match ev.call with
  | .submit c _ _ _ => if ev.accepted then insert c held else held
  | .flush => held

/-- The context that the event answers for, if any: it is returned, and not because the call was
rejected. -/
def Event.answer (ev : Event J p) : Option J :=
  match ev.call with
  | .submit _ _ _ _ => if ev.accepted then ev.returned else none
  | .flush => ev.returned

/-- The contexts in flight after an event. -/
def Event.after (ev : Event J p) (held : Finset J) : Finset J :=
  match ev.answer with
  | some c => (ev.during held).erase c
  | none => ev.during held

/-- The contexts in flight after a run. -/
def inFlight (tr : List (Event J p)) (held : Finset J) : Finset J :=
  tr.foldl (fun held ev => ev.after held) held

/-- The event is an accepted submit of `c`. -/
def Event.accepts (ev : Event J p) (c : J) : Bool :=
  match ev.call with
  | .submit c' _ _ _ => ev.accepted && decide (c' = c)
  | .flush => false

/-- The context is being processed: `isal_hash_ctx_processing`. -/
def HashCtx.Processing (ctx : HashCtx p) : Prop := ctx.status &&& stsProcessing ≠ 0#32

instance (ctx : HashCtx p) : Decidable ctx.Processing := inferInstanceAs (Decidable (_ ≠ _))

/-- The event is a submit of a context that was already being processed. -/
def Event.Misuses (ev : Event J p) : Prop :=
  ∃ c buffer len flags, ev.call = .submit c buffer len flags ∧ ev.accepted = false ∧
    (ev.ctx c).Processing

/-- The error of context `k` after a call. -/
def Call.errorAfter (m : Mem S J p) (k : J) : Call J → HashCtxError
  | .submit c _ _ flags =>
    if k = c then if (m.ctx c).Accepts flags then .none else (m.ctx c).rejection flags
    else (m.ctx k).error
  | .flush => (m.ctx k).error

/-- What an event does to the ledger. -/
structure Event.Ok (compress : D → List Byte → D) (ev : Event J p) (held : Finset J)
    (msg : J → Option (List Byte)) : Prop where
  fresh : ∀ c, ev.accepts c = true → c ∉ held
  answered : ∀ c, ev.answer = some c → c ∈ ev.during held
  drained : ev.call = .flush → ev.returned = none → held = ∅
  rejected : ∀ c buffer len flags, ev.call = .submit c buffer len flags → ev.accepted = false →
    ev.returned = some c
  processing : ∀ c, (ev.ctx c).Processing ↔ c ∈ ev.after held
  resting : ∀ c, c ∉ ev.after held → (ev.ctx c).Resting compress (ev.message msg c)

/-- Every event of a run keeps the ledger. -/
def Along (compress : D → List Byte → D) : Finset J → (J → Option (List Byte)) →
    List (Event J p) → Prop
  | _, _, [] => True
  | held, msg, ev :: tr =>
    ev.Ok compress held msg ∧ Along compress (ev.after held) (ev.message msg) tr

/-! ## One call -/

section Spec

variable {compress : D → List Byte → D} {maxBlocks : ℕ}
  {Rep : Kernel J D → S → (J → Job D) → Finset J → (J → D) → Prop} {sch : Scheduler S J D}
  {held : Finset J} {goal : J → D} {msg : J → Option (List Byte)}

omit [DecidableEq J] in
theorem HashCtx.Busy.processing {ctx : HashCtx p} {l : List Byte} {d : D}
    (h : ctx.Busy compress maxBlocks l d) : ctx.Processing := by
  unfold HashCtx.Processing
  cases h with
  | mid k hs => rcases hs with hs | hs <;> rw [hs] <;> decide
  | last hs => rw [hs]; decide

omit [DecidableEq J] in
theorem HashCtx.Resting.not_processing {ctx : HashCtx p} {l : Option (List Byte)}
    (h : ctx.Resting compress l) : ¬ ctx.Processing := by
  unfold HashCtx.Processing
  cases h with
  | complete hs => rw [hs]; decide
  | idle _ _ hs => rw [hs]; decide

omit [DecidableEq J] in
/-- The contexts in flight are those being processed. -/
theorem Inv.processing_iff {m : Mem S J p} (h : Inv compress maxBlocks Rep m held goal msg)
    (c : J) :
    (m.ctx c).Processing ↔ c ∈ held := by
  refine ⟨fun hp => ?_, fun hc => ?_⟩
  · by_contra hc
    exact (h.resting c hc).not_processing hp
  · obtain ⟨l, _, hb⟩ := h.busy c hc
    exact hb.processing

omit [DecidableEq J] in
theorem work_le (m : Mem S J p) (held : Finset J) : work m held ≤ 3 * held.card := by
  rw [work, Nat.mul_comm]
  exact Finset.sum_le_card_nsmul held _ 3 fun c _ => rank_le (m.ctx c)

/-- The ledger after a call, from what the call answered. -/
theorem answered_after {m : Mem S J p} {r : Mem S J p × Option J} (ev : Event J p)
    (h : Answered compress maxBlocks Rep m (ev.during held) (ev.message msg) r)
    (hret : ev.answer = r.2) :
    (∀ c, ev.answer = some c → c ∈ ev.during held) ∧
      ∃ goal, Inv compress maxBlocks Rep r.1 (ev.after held) goal (ev.message msg) := by
  unfold Event.after
  rw [hret]
  cases hr : r.2 with
  | none => exact ⟨nofun, h.none hr⟩
  | some k =>
    obtain ⟨hmem, hinv⟩ := h.some k hr
    refine ⟨fun c hc => ?_, hinv⟩
    obtain rfl : k = c := Option.some.inj hc
    exact hmem

/-- What a call does to the ledger and to the errors. -/
structure Event.Keeps (compress : D → List Byte → D) (maxBlocks : ℕ)
    (Rep : Kernel J D → S → (J → Job D) → Finset J → (J → D) → Prop) (m m' : Mem S J p)
    (held : Finset J) (msg : J → Option (List Byte)) (ev : Event J p) : Prop where
  error : ∀ k, (m'.ctx k).error = ev.call.errorAfter m k
  ok : ev.Ok compress held msg
  inv : ∃ goal, Inv compress maxBlocks Rep m' (ev.after held) goal (ev.message msg)

/-- An accepted submit. -/
theorem Answered.keeps_submit {m : Mem S J p} {r : Mem S J p × Option J} {c : J}
    {buffer : ℕ → Byte} {len flags : BitVec 32} (h : Inv compress maxBlocks Rep m held goal msg)
    (hacc : (m.ctx c).Accepts flags) (hlen : len.toNat / p.blockSize ≤ maxBlocks)
    (hans : Answered compress maxBlocks Rep (m.setCtx c ((m.ctx c).accept buffer len flags).1)
      (insert c held) (acceptedMsg msg c buffer len flags) r) :
    Event.Keeps compress maxBlocks Rep m r.1 held msg
      ⟨.submit c buffer len flags, true, r.2, r.1.ctx⟩ := by
  have hc := h.not_held_of_accepts hacc
  obtain ⟨hin, goal', hinv⟩ :=
    answered_after ⟨.submit c buffer len flags, true, r.2, r.1.ctx⟩ hans rfl
  refine ⟨fun k => ?_, ⟨fun k hk => ?_, hin, nofun, nofun, hinv.processing_iff, hinv.resting⟩,
    goal', hinv⟩
  · rw [hans.error, Call.errorAfter]
    rcases eq_or_ne k c with rfl | hne
    · rw [setCtx_ctx_self, if_pos rfl, if_pos hacc]
      exact (accept_spec (h.resting k hc) buffer hacc hlen).1
    · rw [setCtx_ctx_of_ne m _ hne, if_neg hne]
  · obtain rfl : c = k := by simpa [Event.accepts] using hk
    exact hc

/-- A rejected submit. -/
theorem Inv.keeps_reject (hcor : sch.Correct p.blockSize maxBlocks Rep) {m : Mem S J p} {c : J}
    {buffer : ℕ → Byte} {len flags : BitVec 32} (h : Inv compress maxBlocks Rep m held goal msg)
    (hrej : ¬ (m.ctx c).Accepts flags) :
    Event.Keeps compress maxBlocks Rep m
      (m.setCtx c { m.ctx c with error := (m.ctx c).rejection flags }) held msg
      ⟨.submit c buffer len flags, false, some c,
        (m.setCtx c { m.ctx c with error := (m.ctx c).rejection flags }).ctx⟩ := by
  have hinv := h.setError hcor c ((m.ctx c).rejection flags)
  refine ⟨fun k => ?_, ⟨fun k hk => ?_, nofun, nofun, ?_, hinv.processing_iff, hinv.resting⟩,
    goal, hinv⟩
  · rw [Call.errorAfter]
    rcases eq_or_ne k c with rfl | hne
    · rw [setCtx_ctx_self, if_pos rfl, if_neg hrej]
    · rw [setCtx_ctx_of_ne m _ hne, if_neg hne]
  · exact absurd hk (by simp [Event.accepts])
  · intro k _ _ _ hcall _
    cases hcall
    rfl

/-- A flush. -/
theorem Answered.keeps_flush {m : Mem S J p} {r : Mem S J p × Option J}
    (hans : Answered compress maxBlocks Rep m held msg r) (hnone : r.2 = .none → held = ∅) :
    Event.Keeps compress maxBlocks Rep m r.1 held msg ⟨.flush, false, r.2, r.1.ctx⟩ := by
  obtain ⟨hin, goal', hinv⟩ := answered_after ⟨.flush, false, r.2, r.1.ctx⟩ hans rfl
  exact ⟨hans.error, ⟨nofun, hin, fun _ => hnone, nofun, hinv.processing_iff, hinv.resting⟩,
    goal', hinv⟩

/-- A call from a state that keeps the invariant. -/
theorem exec_spec (hcor : sch.Correct p.blockSize maxBlocks Rep) (hmax : 2 ≤ maxBlocks)
    {m : Mem S J p} (h : Inv compress maxBlocks Rep m held goal msg) (a : Call J)
    (hlen : a.len / p.blockSize ≤ maxBlocks) {fuel : ℕ} (hfuel : 3 * (held.card + 1) ≤ fuel) :
    ∃ r, exec sch compress fuel m a = some r ∧
      Event.Keeps compress maxBlocks Rep m r.1 held msg ⟨a, a.accepted m, r.2, r.1.ctx⟩ := by
  have hwork := work_le m held
  cases a with
  | submit c buffer len flags =>
    by_cases hacc : (m.ctx c).Accepts flags
    · have hf : work m held + 3 ≤ fuel := by omega
      obtain ⟨r, hr, hans⟩ := ctxMgrSubmit_accepted hcor hmax buffer h hacc hlen hf
      have htrue : (Call.submit c buffer len flags).accepted m = true := decide_eq_true hacc
      rw [htrue]
      exact ⟨r, hr, hans.keeps_submit h hacc hlen⟩
    · have hfalse : (Call.submit c buffer len flags).accepted m = false := decide_eq_false hacc
      rw [hfalse]
      exact ⟨_, ctxMgrSubmit_rejected fuel buffer len hacc, h.keeps_reject hcor hacc⟩
  | flush =>
    have hf : work m held < fuel := by omega
    obtain ⟨r, hr, hans, hnone⟩ := ctxMgrFlush_spec hcor hmax h hf
    exact ⟨r, hr, hans.keeps_flush hnone⟩

/-! ## Runs -/

/-- Between `init` and the first call. -/
theorem inv_init (hcor : sch.Correct p.blockSize maxBlocks Rep) (s : S) {ctx : J → HashCtx p}
    (hctx : ∀ c, (ctx c).Initialised) :
    Inv compress maxBlocks Rep ⟨sch.init s, ctx⟩ ∅ (fun _ => p.initialDigest) fun _ => none :=
  ⟨hcor.init .., fun c hc => absurd hc (Finset.notMem_empty c),
    fun c _ => .complete (hctx c).2 nofun⟩

theorem card_after_le (ev : Event J p) (held : Finset J) :
    (ev.after held).card ≤ held.card + 1 := by
  have hduring : (ev.during held).card ≤ held.card + 1 := by
    unfold Event.during
    split
    · split
      · exact Finset.card_insert_le ..
      · exact Nat.le_succ _
    · exact Nat.le_succ _
  unfold Event.after
  split
  · exact (Finset.card_erase_le ..).trans hduring
  · exact hduring

/-- Every run terminates and keeps the ledger. -/
theorem run_spec (hcor : sch.Correct p.blockSize maxBlocks Rep) (hmax : 2 ≤ maxBlocks) {fuel : ℕ}
    (calls : List (Call J)) : ∀ {m : Mem S J p} {held : Finset J} {goal : J → D}
      {msg : J → Option (List Byte)}, Inv compress maxBlocks Rep m held goal msg →
      (∀ a ∈ calls, a.len / p.blockSize ≤ maxBlocks) → 3 * (held.card + calls.length) ≤ fuel →
      ∃ m' tr, run sch compress fuel m calls = some (m', tr) ∧ Along compress held msg tr ∧
        ∃ goal, Inv compress maxBlocks Rep m' (inFlight tr held) goal (messages tr msg) := by
  induction calls with
  | nil =>
    intro m held goal msg h _ _
    exact ⟨m, [], rfl, trivial, goal, h⟩
  | cons a calls ih =>
    intro m held goal msg h hlen hfuel
    rw [List.length_cons] at hfuel
    obtain ⟨hlen, hlens⟩ := List.forall_mem_cons.mp hlen
    have hf : 3 * (held.card + 1) ≤ fuel := by omega
    obtain ⟨r, hr, -, hok, goal', hinv⟩ := exec_spec hcor hmax h a hlen hf
    generalize hev : (⟨a, a.accepted m, r.2, r.1.ctx⟩ : Event J p) = ev at hok hinv
    have hcard := card_after_le ev held
    obtain ⟨m', tr, hrun, halong, hinv'⟩ := ih hinv hlens (by omega)
    refine ⟨m', ev :: tr, ?_, ⟨hok, halong⟩, hinv'⟩
    rw [run, hr]
    dsimp only
    rw [hrun, hev]
    rfl

theorem after_subset (ev : Event J p) (held : Finset J) : ev.after held ⊆ ev.during held := by
  unfold Event.after
  split
  · exact Finset.erase_subset ..
  · exact Finset.Subset.refl _

theorem errorAfter_eq_none {m : Mem S J p} {a : Call J} {ret : Option J} {ctx : J → HashCtx p}
    (hok : (⟨a, a.accepted m, ret, ctx⟩ : Event J p).Ok compress held msg)
    (hno : ¬ (⟨a, a.accepted m, ret, ctx⟩ : Event J p).Misuses)
    (herr : ∀ c ∈ held, (m.ctx c).error = .none) {k : J}
    (hk : k ∈ (⟨a, a.accepted m, ret, ctx⟩ : Event J p).after held) :
    a.errorAfter m k = .none := by
  have hduring := after_subset _ held hk
  cases a with
  | flush => exact herr k hduring
  | submit c buffer len flags =>
    rw [Call.errorAfter]
    by_cases hacc : (m.ctx c).Accepts flags
    · rw [if_pos hacc]
      split
      · rfl
      · next hne =>
        have hacc' : (Call.submit c buffer len flags).accepted m = true := decide_eq_true hacc
        rw [Event.during, hacc'] at hduring
        exact herr k (Finset.mem_of_mem_insert_of_ne hduring hne)
    · have hacc' : (Call.submit c buffer len flags).accepted m = false := decide_eq_false hacc
      split
      · next he =>
        subst he
        exact absurd ⟨k, buffer, len, flags, rfl, hacc', (hok.processing k).mpr hk⟩ hno
      · rw [Event.during, hacc'] at hduring
        exact herr k hduring

/-- The contexts inside carry no error after a run that submits none of them again. -/
theorem run_error_none (hcor : sch.Correct p.blockSize maxBlocks Rep) (hmax : 2 ≤ maxBlocks)
    {fuel : ℕ} {m' : Mem S J p} (calls : List (Call J)) : ∀ {m : Mem S J p} {held : Finset J}
      {goal : J → D} {msg : J → Option (List Byte)} {tr : List (Event J p)},
      Inv compress maxBlocks Rep m held goal msg →
      (∀ a ∈ calls, a.len / p.blockSize ≤ maxBlocks) → 3 * (held.card + calls.length) ≤ fuel →
      run sch compress fuel m calls = some (m', tr) → (∀ ev ∈ tr, ¬ ev.Misuses) →
      (∀ c ∈ held, (m.ctx c).error = .none) → ∀ c ∈ inFlight tr held, (m'.ctx c).error = .none := by
  induction calls with
  | nil =>
    intro m held goal msg tr _ _ _ hrun _ herr
    cases hrun
    exact herr
  | cons a calls ih =>
    intro m held goal msg tr h hlen hfuel hrun hno herr
    rw [List.length_cons] at hfuel
    obtain ⟨hlen, hlens⟩ := List.forall_mem_cons.mp hlen
    have hf : 3 * (held.card + 1) ≤ fuel := by omega
    obtain ⟨r, hr, herror, hok, goal', hinv⟩ := exec_spec hcor hmax h a hlen hf
    rw [run, hr] at hrun
    obtain ⟨q, hq, he⟩ := Option.map_eq_some_iff.mp hrun
    cases he
    obtain ⟨hno, hnos⟩ := List.forall_mem_cons.mp hno
    have hcard := card_after_le (⟨a, a.accepted m, r.2, r.1.ctx⟩ : Event J p) held
    have herr' : ∀ k ∈ (⟨a, a.accepted m, r.2, r.1.ctx⟩ : Event J p).after held,
        (r.1.ctx k).error = .none := fun k hk => by
      rw [herror]
      exact errorAfter_eq_none hok hno herr hk
    have hrest := ih hinv hlens (by omega) hq hnos herr'
    exact hrest

theorem run_calls {fuel : ℕ} {calls : List (Call J)} : ∀ {m m' : Mem S J p}
    {tr : List (Event J p)}, run sch compress fuel m calls = some (m', tr) →
    tr.map Event.call = calls := by
  induction calls with
  | nil =>
    intro m m' tr h
    cases h
    rfl
  | cons a calls ih =>
    intro m m' tr h
    rw [run] at h
    split at h
    · cases h
    · obtain ⟨q, hq, he⟩ := Option.map_eq_some_iff.mp h
      cases he
      rw [List.map_cons, ih hq]

/-! ## What the ledger says about a run -/

/-- What is in flight has a message. -/
theorem Event.message_ne_none {ev : Event J p} {held : Finset J} {msg : J → Option (List Byte)}
    (h : ∀ c ∈ held, msg c ≠ none) : ∀ c ∈ ev.during held, ev.message msg c ≠ none := by
  intro c hc
  unfold Event.during at hc
  unfold Event.message
  cases hcall : ev.call with
  | flush =>
    rw [hcall] at hc
    exact h c hc
  | submit k buffer len flags =>
    rw [hcall] at hc
    dsimp only at hc ⊢
    split at hc
    · next hacc =>
      rw [if_pos hacc]
      rcases eq_or_ne c k with rfl | hne
      · rw [Function.update_self]
        nofun
      · rw [Function.update_of_ne hne]
        exact h c (Finset.mem_of_mem_insert_of_ne hc hne)
    · next hacc =>
      rw [if_neg hacc]
      exact h c hc

theorem messages_concat (pre : List (Event J p)) (ev : Event J p) (msg : J → Option (List Byte)) :
    messages (pre ++ [ev]) msg = ev.message (messages pre msg) :=
  List.foldl_append ..

theorem messages_ne_none (tr : List (Event J p)) :
    ∀ {held : Finset J} {msg : J → Option (List Byte)}, (∀ c ∈ held, msg c ≠ none) →
    ∀ c ∈ inFlight tr held, messages tr msg c ≠ none := by
  induction tr with
  | nil => exact id
  | cons ev tr ih =>
    exact fun h => ih fun c hc => Event.message_ne_none h c (after_subset ev _ hc)

/-- The rest of a run keeps the ledger that its beginning leaves. -/
theorem Along.rest (pre : List (Event J p)) {tr : List (Event J p)} :
    ∀ {held : Finset J} {msg : J → Option (List Byte)}, Along compress held msg (pre ++ tr) →
    Along compress (inFlight pre held) (messages pre msg) tr := by
  induction pre with
  | nil => exact id
  | cons ev pre ih => exact fun h => ih h.2

theorem Along.beginning (pre : List (Event J p)) {tr : List (Event J p)} :
    ∀ {held : Finset J} {msg : J → Option (List Byte)}, Along compress held msg (pre ++ tr) →
    Along compress held msg pre := by
  induction pre with
  | nil => exact fun _ => trivial
  | cons ev pre ih => exact fun h => ⟨h.1, ih h.2⟩

/-- One event accepts a context or answers for it, and the books balance. -/
theorem Event.Ok.balance {ev : Event J p} (h : ev.Ok compress held msg) (c : J) :
    (if ev.accepts c then 1 else 0) + (if c ∈ held then 1 else 0) =
      (if ev.answer = some c then 1 else 0) + if c ∈ ev.after held then 1 else 0 := by
  have hduring : (if ev.accepts c then 1 else 0) + (if c ∈ held then 1 else 0) =
      if c ∈ ev.during held then 1 else 0 := by
    have hfresh := h.fresh c
    revert hfresh
    unfold Event.accepts Event.during
    cases ev.call with
    | flush => simp
    | submit c' _ _ _ =>
      cases ev.accepted with
      | false => simp
      | true =>
        rcases eq_or_ne c' c with rfl | hne
        · intro hfresh
          simpa using hfresh
        · simp [hne, hne.symm]
  have hin := h.answered c
  rw [hduring]
  unfold Event.after
  cases hans : ev.answer with
  | none => simp
  | some k =>
    by_cases hk : k = c
    · subst hk
      simp [hin hans]
    · simp [hk, Ne.symm hk]

/-- Accepted submits of a context are answers for it, and one that is still inside. -/
theorem Along.count (c : J) (tr : List (Event J p)) :
    ∀ {held : Finset J} {msg : J → Option (List Byte)}, Along compress held msg tr →
    tr.countP (fun ev => ev.accepts c) + (if c ∈ held then 1 else 0) =
      tr.countP (fun ev => ev.answer = some c) + if c ∈ inFlight tr held then 1 else 0 := by
  induction tr with
  | nil => exact fun _ => rfl
  | cons ev tr ih =>
    intro held msg h
    have hone := h.1.balance c
    have hrest := ih h.2
    rw [List.countP_cons, List.countP_cons]
    simp only [decide_eq_true_eq]
    change _ = _ + if c ∈ inFlight tr (ev.after held) then 1 else 0
    omega

/-- Flushes return what is inside, one context after the other. -/
theorem Along.drain (tr : List (Event J p)) :
    ∀ {held : Finset J} {msg : J → Option (List Byte)}, Along compress held msg tr →
    (∀ ev ∈ tr, ev.call = .flush) → tr.length ≤ held.card →
    ∃ l : List J, tr.map Event.returned = l.map some ∧ l.Nodup ∧ (∀ c ∈ l, c ∈ held) ∧
      inFlight tr held = held \ l.toFinset := by
  induction tr with
  | nil =>
    intro held msg _ _ _
    exact ⟨[], rfl, List.nodup_nil, nofun, by simp [inFlight]⟩
  | cons ev tr ih =>
    intro held msg h hflush hlen
    obtain ⟨hcall, hflushes⟩ := List.forall_mem_cons.mp hflush
    have hanswer : ev.answer = ev.returned := by rw [Event.answer, hcall]
    have hduring : ev.during held = held := by rw [Event.during, hcall]
    rw [List.length_cons] at hlen
    cases hret : ev.returned with
    | none =>
      have hempty := h.1.drained hcall hret
      rw [hempty, Finset.card_empty] at hlen
      omega
    | some c =>
      rw [hret] at hanswer
      have hc : c ∈ held := hduring ▸ h.1.answered c hanswer
      have hafter : ev.after held = held.erase c := by
        rw [Event.after, hanswer, hduring]
      have htail := h.2
      rw [hafter] at htail
      have hcard := Finset.card_erase_of_mem hc
      obtain ⟨l, hmap, hnodup, hmem, hin⟩ := ih htail hflushes (by omega)
      refine ⟨c :: l, by rw [List.map_cons, List.map_cons, hmap, hret], ?_, ?_, ?_⟩
      · exact List.nodup_cons.mpr ⟨fun hcl => Finset.notMem_erase c held (hmem c hcl), hnodup⟩
      · rintro k (_ | ⟨_, hk⟩)
        · exact hc
        · exact Finset.mem_of_mem_erase (hmem k hk)
      · change inFlight tr (ev.after held) = _
        rw [hafter, hin, List.toFinset_cons, Finset.sdiff_insert, Finset.erase_sdiff_comm]

theorem card_inFlight_le (tr : List (Event J p)) :
    ∀ held : Finset J, (inFlight tr held).card ≤ held.card + tr.length := by
  induction tr with
  | nil => exact fun held => Nat.le_refl _
  | cons ev tr ih =>
    intro held
    have hone := card_after_le ev held
    have hrest := ih (ev.after held)
    rw [List.length_cons]
    change (inFlight tr (ev.after held)).card ≤ _
    omega

/-- A run that begins with an accepted submit of `c` answers for it once, before another one is
accepted. -/
def AnsweredOnce (c : J) (tr : List (Event J p)) : Prop :=
  ∃ mid ans rest, tr = mid ++ ans :: rest ∧ ans.answer = some c ∧ ¬ (ans.ctx c).Processing ∧
    (∀ e ∈ mid, e.answer ≠ some c) ∧ ∀ e ∈ (mid ++ [ans]).tail, e.accepts c = false

/-- A run that begins with an accepted submit of `c` does not answer for it and accepts no other
one. -/
def Unanswered (c : J) (tr : List (Event J p)) : Prop :=
  (∀ e ∈ tr, e.answer ≠ some c) ∧ ∀ e ∈ tr.tail, e.accepts c = false

theorem Event.Ok.answer_not_processing {ev : Event J p} (h : ev.Ok compress held msg) {c : J}
    (hans : ev.answer = some c) : ¬ (ev.ctx c).Processing := by
  rw [h.processing, Event.after, hans]
  exact Finset.notMem_erase c _

/-- A context inside is answered for before it is accepted again, or stays inside. -/
theorem Along.answered_of_mem {c : J} (tr : List (Event J p)) :
    ∀ {held : Finset J} {msg : J → Option (List Byte)}, Along compress held msg tr → c ∈ held →
    (∃ mid ans rest, tr = mid ++ ans :: rest ∧ ans.answer = some c ∧ ¬ (ans.ctx c).Processing ∧
      (∀ e ∈ mid, e.answer ≠ some c) ∧ ∀ e ∈ mid ++ [ans], e.accepts c = false) ∨
    (c ∈ inFlight tr held ∧ (∀ e ∈ tr, e.answer ≠ some c) ∧ ∀ e ∈ tr, e.accepts c = false) := by
  induction tr with
  | nil => exact fun _ hc => .inr ⟨hc, nofun, nofun⟩
  | cons ev tr ih =>
    intro held msg h hc
    have hacc : ev.accepts c = false := Bool.eq_false_iff.mpr fun hacc => h.1.fresh c hacc hc
    by_cases hans : ev.answer = some c
    · refine .inl ⟨[], ev, tr, rfl, hans, h.1.answer_not_processing hans, nofun, fun e he => ?_⟩
      rw [List.mem_singleton.mp he]
      exact hacc
    · have hbalance := h.1.balance c
      rw [hacc, if_pos hc, if_neg hans] at hbalance
      have hafter : c ∈ ev.after held := by
        by_contra hno
        rw [if_neg hno] at hbalance
        exact absurd hbalance (by decide)
      rcases ih h.2 hafter with ⟨mid, ans, rest, rfl, hans', hproc, hmid, haccs⟩ | ⟨hin, hall,
        haccs⟩
      · refine .inl ⟨ev :: mid, ans, rest, rfl, hans', hproc, ?_, ?_⟩
        · exact List.forall_mem_cons.mpr ⟨hans, hmid⟩
        · exact List.forall_mem_cons.mpr ⟨hacc, haccs⟩
      · exact .inr ⟨hin, List.forall_mem_cons.mpr ⟨hans, hall⟩,
          List.forall_mem_cons.mpr ⟨hacc, haccs⟩⟩

/-- An accepted submit is answered once, or its context is inside at the end. -/
theorem Along.answered_once {c : J} {ev : Event J p} {tr : List (Event J p)}
    (h : Along compress held msg (ev :: tr)) (hacc : ev.accepts c = true) :
    AnsweredOnce c (ev :: tr) ∨ c ∈ inFlight (ev :: tr) held ∧ Unanswered c (ev :: tr) := by
  by_cases hans : ev.answer = some c
  · exact .inl ⟨[], ev, tr, rfl, hans, h.1.answer_not_processing hans, nofun, nofun⟩
  · have hbalance := h.1.balance c
    rw [if_pos hacc, if_neg hans, if_neg (h.1.fresh c hacc)] at hbalance
    have hafter : c ∈ ev.after held := by
      by_contra hno
      rw [if_neg hno] at hbalance
      exact absurd hbalance (by decide)
    rcases Along.answered_of_mem tr h.2 hafter with
      ⟨mid, ans, rest, rfl, hans', hproc, hmid, haccs⟩ | ⟨hin, hall, haccs⟩
    · exact .inl ⟨ev :: mid, ans, rest, rfl, hans', hproc, List.forall_mem_cons.mpr ⟨hans, hmid⟩,
        haccs⟩
    · exact .inr ⟨hin, List.forall_mem_cons.mpr ⟨hans, hall⟩, haccs⟩

/-! ## Flushing everything -/

/-- Flush returns `NULL` if and only if nothing is inside. -/
theorem flush_none_iff (hcor : sch.Correct p.blockSize maxBlocks Rep) (hmax : 2 ≤ maxBlocks)
    {m : Mem S J p} (h : Inv compress maxBlocks Rep m held goal msg) {fuel : ℕ}
    (hfuel : 3 * (held.card + 1) ≤ fuel) :
    ∃ r, ctxMgrFlush sch compress fuel m = some r ∧ (r.2 = none ↔ held = ∅) := by
  have hwork := work_le m held
  have hf : work m held < fuel := by omega
  obtain ⟨r, hr, hans, hnone⟩ := ctxMgrFlush_spec hcor hmax h hf
  refine ⟨r, hr, hnone, ?_⟩
  rintro rfl
  exact Option.eq_none_iff_forall_ne_some.mpr fun c hc =>
    absurd (hans.some c hc).1 (Finset.notMem_empty c)

/-- As many flushes as there are contexts inside return each of them once and leave none. -/
theorem flush_all (hcor : sch.Correct p.blockSize maxBlocks Rep) (hmax : 2 ≤ maxBlocks)
    {m : Mem S J p} (h : Inv compress maxBlocks Rep m held goal msg) {fuel : ℕ}
    (hfuel : 6 * held.card ≤ fuel) :
    ∃ m' tr, run sch compress fuel m (List.replicate held.card .flush) = some (m', tr) ∧
      (∃ l : List J, tr.map Event.returned = l.map some ∧ l.Nodup ∧ ∀ c, c ∈ l ↔ c ∈ held) ∧
      ∀ c, ¬ (m'.ctx c).Processing := by
  have hlens : ∀ a ∈ List.replicate held.card (Call.flush : Call J),
      a.len / p.blockSize ≤ maxBlocks := fun a ha => by
    rw [List.eq_of_mem_replicate ha, Call.len, Nat.zero_div]
    exact Nat.zero_le _
  have hf : 3 * (held.card + (List.replicate held.card (Call.flush : Call J)).length) ≤ fuel := by
    rw [List.length_replicate]
    omega
  obtain ⟨m', tr, hrun, halong, goal', hinv⟩ := run_spec hcor hmax _ h hlens hf
  have hcalls := run_calls hrun
  have hlength : tr.length = held.card := by
    rw [← List.length_map Event.call, hcalls, List.length_replicate]
  have hflush : ∀ ev ∈ tr, ev.call = .flush := fun ev hev => by
    have hmem : ev.call ∈ tr.map Event.call := List.mem_map_of_mem hev
    rw [hcalls] at hmem
    exact List.eq_of_mem_replicate hmem
  obtain ⟨l, hmap, hnodup, hsub, hin⟩ := halong.drain tr hflush hlength.le
  have hcard : l.toFinset.card = held.card := by
    rw [List.toFinset_card_of_nodup hnodup, ← hlength, ← List.length_map some, ← hmap,
      List.length_map]
  have hall : l.toFinset = held :=
    Finset.eq_of_subset_of_card_le (fun c hc => hsub c (List.mem_toFinset.mp hc)) hcard.ge
  refine ⟨m', tr, hrun, ⟨l, hmap, hnodup, fun c => by rw [← hall, List.mem_toFinset]⟩, fun c => ?_⟩
  rw [hinv.processing_iff, hin, hall, sdiff_self]
  exact Finset.notMem_empty c

end Spec

end IsalCrypto.Mb
