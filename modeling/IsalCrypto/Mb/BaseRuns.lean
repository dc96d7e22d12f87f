import IsalCrypto.Mb.Base
import IsalCrypto.Mb.Finishing

/-!
# The C context manager against a lane manager

One context is submitted again and again, to the C manager and to a context layer over a scheduler
that is flushed until it returns `NULL` after each submit.

* `submitFlush_spec`: one submit to both.
* `runFlushed_agrees`: the contexts have the same status and the same digest after every call, and
  the same error exactly as long as the C manager keeps no error from before.
-/

namespace IsalCrypto.Mb

open IsalCrypto.Lib

variable {S J D : Type*} [DecidableEq J] {p : HashParams D}

/-- The arguments of a submit that are not the manager or the context. -/
structure Submit where
  buffer : ℕ → Byte
  len : BitVec 32
  flags : BitVec 32

section Model

variable (single : (ℕ → Byte) → D → D) (buf : Fin (2 * p.blockSize) → Byte)

/-- The context after each of the submits to the C manager. -/
def runBase : HashCtx p → List Submit → List (HashCtx p)
  | _, [] => []
  | ctx, a :: as =>
    let ctx := ctxMgrSubmitBase single buf ctx a.buffer a.len a.flags
    ctx :: runBase ctx as

/-- Whenever a submit without `ISAL_HASH_FIRST` is accepted, the context carries no error. -/
def KeepsNoError : HashCtx p → List Submit → Prop
  | _, [] => True
  | ctx, a :: as =>
    (ctx.Accepts a.flags → a.flags &&& hashFirst = 0#32 → ctx.error = .none) ∧
      KeepsNoError (ctxMgrSubmitBase single buf ctx a.buffer a.len a.flags) as

variable (sch : Scheduler S J D) (compress : D → List Byte → D) (fuel : ℕ)

/-- `ctx_mgr_flush` until it returns `NULL`. -/
def flushAll : ℕ → Mem S J p → Option (Mem S J p)
  | 0, _ => none
  | rounds + 1, m =>
    match ctxMgrFlush sch compress fuel m with
    | none => none
    | some (m, none) => some m
    | some (m, some _) => flushAll rounds m

/-- A submit, and flushes until `NULL`. -/
def submitFlush (m : Mem S J p) (c : J) (a : Submit) : Option (Mem S J p) :=
  (ctxMgrSubmit sch compress fuel m c a.buffer a.len a.flags).bind fun q =>
    flushAll sch compress fuel fuel q.1

/-- The context after each of the submits to the context layer. -/
def runFlushed (m : Mem S J p) (c : J) : List Submit → Option (List (HashCtx p))
  | [] => some []
  | a :: as =>
    (submitFlush sch compress fuel m c a).bind fun m =>
      (runFlushed m c as).map fun l => m.ctx c :: l

end Model

variable {single : (ℕ → Byte) → D → D} {compress : D → List Byte → D} {maxBlocks : ℕ}
  {Rep : Kernel J D → S → (J → Job D) → Finset J → (J → D) → Prop} {sch : Scheduler S J D}
  {m : Mem S J p} {held : Finset J} {goal : J → D} {msg : J → Option (List Byte)} {c : J}

/-! ## One submit -/

/-- What flushing until `NULL` leaves: nothing inside, and the contexts outside as they were. -/
structure Flushed (compress : D → List Byte → D) (maxBlocks : ℕ)
    (Rep : Kernel J D → S → (J → Job D) → Finset J → (J → D) → Prop) (m : Mem S J p)
    (held : Finset J) (msg : J → Option (List Byte)) (r : Mem S J p) : Prop where
  inv : ∃ goal, Inv compress maxBlocks Rep r ∅ goal msg
  error : ∀ k, (r.ctx k).error = (m.ctx k).error
  finishing : ∀ k, (r.ctx k).Finishing ↔ (m.ctx k).Finishing
  frame : ∀ k, k ∉ held → r.ctx k = m.ctx k

theorem flushAll_spec (hcor : sch.Correct p.blockSize maxBlocks Rep) (hmax : 2 ≤ maxBlocks)
    {fuel : ℕ} (rounds : ℕ) : ∀ {m : Mem S J p} {held : Finset J} {goal : J → D},
      Inv compress maxBlocks Rep m held goal msg → held.card < rounds →
      3 * (held.card + 1) ≤ fuel →
      ∃ r, flushAll sch compress fuel rounds m = some r ∧
        Flushed compress maxBlocks Rep m held msg r := by
  induction rounds with
  | zero => intro m held goal _ hcard; omega
  | succ rounds ih =>
    intro m held goal h hcard hfuel
    have hwork := work_le m held
    have hf : work m held < fuel := by omega
    obtain ⟨⟨m', ret⟩, hr, hans, hnone⟩ := ctxMgrFlush_spec hcor hmax h hf
    have hfin := flushLoop_finishing fuel fuel hr
    rw [flushAll, hr]
    cases ret with
    | none =>
      obtain rfl := hnone rfl
      exact ⟨m', rfl, hans.none rfl, hans.error, hfin, hans.frame⟩
    | some k =>
      obtain ⟨hmem, goal', hinv⟩ := hans.some k rfl
      have hless := Finset.card_erase_of_mem hmem
      have hpos := Finset.card_pos.mpr ⟨k, hmem⟩
      obtain ⟨r, hr', hflushed⟩ := ih hinv (by omega) (by omega)
      refine ⟨r, hr', hflushed.inv, fun j => (hflushed.error j).trans (hans.error j),
        fun j => (hflushed.finishing j).trans (hfin j), fun j hj => ?_⟩
      rw [hflushed.frame j fun hj' => hj (Finset.mem_of_mem_erase hj'), hans.frame j hj]

/-- The context of the C manager and the one of the context layer, between calls. -/
structure Agrees (compress : D → List Byte → D) (b o : HashCtx p) (msg : Option (List Byte)) :
    Prop where
  status : b.status = o.status
  digest : b.job.resultDigest = o.job.resultDigest
  base : b.rested.Resting compress msg
  layer : o.Resting compress msg

omit [DecidableEq J] in
/-- Contexts that rest with one message and have one status have one digest. -/
theorem resting_digest (hL : p.padLengthFieldSize = 8) {b o : HashCtx p} {l : List Byte}
    (hb : b.Resting compress (some l)) (ho : o.Resting compress (some l))
    (hstatus : b.status = o.status) : b.job.resultDigest = o.job.resultDigest := by
  have hmid : ∀ {ctx : HashCtx p} {k : ℕ}, ctx.incomingBufferLength = 0#32 →
      ctx.Mid compress l k ctx.job.resultDigest →
      ctx.job.resultDigest = p.chain compress l (l.length / p.blockSize) := by
    intro ctx k hinc h
    have hlength := h.length
    rw [hinc, BitVec.toNat_zero, Nat.add_zero] at hlength
    rw [h.digest, hlength, Nat.mul_add_div p.blockSize_pos, Nat.div_eq_of_lt h.partial_lt,
      Nat.add_zero]
  cases hb with
  | complete hsb hdb =>
    cases ho with
    | complete hso hdo => rw [hdb l rfl (.inl hL), hdo l rfl (.inl hL)]
    | idle _ _ hso => exact absurd (hsb.symm.trans (hstatus.trans hso)) (by decide)
  | idle _ _ hsb hlb hincb hmidb =>
    cases hlb
    cases ho with
    | complete hso hdo => exact absurd (hsb.symm.trans (hstatus.trans hso)) (by decide)
    | idle _ _ hso hlo hinco hmido =>
      cases hlo
      rw [hmid hincb hmidb, hmid hinco hmido]

/-- The error of a context after a submit to the context layer, and to the C manager. -/
def HashCtx.errorOf (ctx : HashCtx p) (flags : BitVec 32) : HashCtxError :=
  if ctx.Accepts flags then .none else ctx.rejection flags

def HashCtx.errorOfBase (ctx : HashCtx p) (flags : BitVec 32) : HashCtxError :=
  if ctx.Accepts flags then if flags &&& hashFirst ≠ 0#32 then .none else ctx.error
  else ctx.rejection flags

theorem HashCtx.Resting.setError {ctx : HashCtx p} {msg : Option (List Byte)}
    (h : ctx.Resting compress msg) (e : HashCtxError) :
    ({ ctx with error := e } : HashCtx p).Resting compress msg := by
  cases h with
  | complete hst hd => exact .complete hst hd
  | idle l k hst hl hinc hmid =>
    exact .idle l k hst hl hinc (hmid.of_data rfl rfl (fun _ _ => rfl) rfl rfl)

theorem Agrees.setError {b o : HashCtx p} {msg : Option (List Byte)}
    (h : Agrees compress b o msg) (e e' : HashCtxError) :
    Agrees compress { b with error := e } { o with error := e' } msg :=
  ⟨h.status, h.digest, h.base.setError e, h.layer.setError e'⟩

/-- One submit to both: the contexts agree again, and their errors are these. -/
theorem submitFlush_spec (hcor : sch.Correct p.blockSize maxBlocks Rep) (hmax : 2 ≤ maxBlocks)
    (hsingle : Singles p single compress) (hL : p.padLengthFieldSize = 8) {fuel : ℕ}
    (hfuel : 6 ≤ fuel) (buf : Fin (2 * p.blockSize) → Byte)
    (h : Inv compress maxBlocks Rep m ∅ goal msg) {b : HashCtx p}
    (hb : Agrees compress b (m.ctx c) (msg c)) (a : Submit)
    (hlen : a.len.toNat / p.blockSize ≤ maxBlocks) :
    ∃ m', submitFlush sch compress fuel m c a = some m' ∧
      (∃ goal msg, Inv compress maxBlocks Rep m' ∅ goal msg ∧
        Agrees compress (ctxMgrSubmitBase single buf b a.buffer a.len a.flags) (m'.ctx c) (msg c)) ∧
      (m'.ctx c).error = b.errorOf a.flags ∧
      (ctxMgrSubmitBase single buf b a.buffer a.len a.flags).error = b.errorOfBase a.flags := by
  have hempty : (∅ : Finset J).card = 0 := Finset.card_empty
  have hproc : ¬ (m.ctx c).Processing := (h.resting c (Finset.notMem_empty c)).not_processing
  have hprocb : ¬ b.Processing := by
    unfold HashCtx.Processing at hproc ⊢
    rwa [hb.status]
  have hiff : b.Accepts a.flags ↔ (m.ctx c).Accepts a.flags := by
    unfold HashCtx.Accepts
    rw [hb.status]
  unfold submitFlush HashCtx.errorOf HashCtx.errorOfBase
  by_cases hacc : (m.ctx c).Accepts a.flags
  · have haccb := hiff.mpr hacc
    have hf : work m ∅ + 3 ≤ fuel := by
      rw [work, Finset.sum_empty]
      omega
    obtain ⟨r, hr, hans⟩ := ctxMgrSubmit_accepted hcor hmax a.buffer h hacc hlen hf
    have hfin := ctxMgrSubmit_finishing hacc hr c
    rw [if_pos rfl] at hfin
    have herr := (accept_spec (h.resting c (Finset.notMem_empty c)) a.buffer hacc hlen).1
    -- the context is inside, or came back at once
    obtain ⟨held, hheld, goal', hinv⟩ : ∃ held : Finset J, held.card ≤ 1 ∧
        ∃ goal, Inv compress maxBlocks Rep r.1 held goal
          (Function.update msg c (some (acceptMessage (msg c) a.buffer a.len a.flags))) := by
      cases hret : r.2 with
      | none => exact ⟨_, by simp, hans.none hret⟩
      | some k =>
        obtain ⟨hmem, hinv⟩ := hans.some k hret
        refine ⟨_, ?_, hinv⟩
        rw [Finset.card_erase_of_mem hmem]
        simp
    have hf' : 3 * (held.card + 1) ≤ fuel := by omega
    obtain ⟨m', hm', hflushed⟩ := flushAll_spec hcor hmax fuel hinv (by omega) hf'
    obtain ⟨goal'', hinv'⟩ := hflushed.inv
    have hrest := hinv'.resting c (Finset.notMem_empty c)
    rw [Function.update_self] at hrest
    obtain ⟨herrb, hstb, hrestb⟩ :=
      ctxMgrSubmitBase_accepted hsingle hb.base buf a.buffer a.len haccb
    have hfin' := (hflushed.finishing c).trans hfin
    have hstatus : (ctxMgrSubmitBase single buf b a.buffer a.len a.flags).status =
        (m'.ctx c).status := by
      rw [hstb, hrest.status_eq hfin']
    refine ⟨m', by rw [hr]; exact hm', ⟨goal'', _, hinv', hstatus, ?_, ?_, ?_⟩, ?_, ?_⟩
    · exact resting_digest (b := HashCtx.rested _) hL hrestb hrest hstatus
    · rw [Function.update_self]
      exact hrestb
    · rw [Function.update_self]
      exact hrest
    · rw [hflushed.error, hans.error, setCtx_ctx_self, herr, if_pos haccb]
    · rw [herrb, if_pos haccb]
  · have haccb : ¬ b.Accepts a.flags := fun hb => hacc (hiff.mp hb)
    have hinv := h.setError hcor c ((m.ctx c).rejection a.flags)
    have hf : 3 * ((∅ : Finset J).card + 1) ≤ fuel := by omega
    obtain ⟨m', hm', hflushed⟩ := flushAll_spec hcor hmax fuel hinv (by omega) hf
    obtain ⟨goal', hinv'⟩ := hflushed.inv
    have hctx : m'.ctx c = { m.ctx c with error := (m.ctx c).rejection a.flags } := by
      rw [hflushed.frame c (Finset.notMem_empty c), setCtx_ctx_self]
    have hrejection : (m.ctx c).rejection a.flags = b.rejection a.flags := by
      unfold HashCtx.rejection
      rw [hb.status]
    rw [ctxMgrSubmitBase_rejected hprocb buf a.buffer a.len haccb, if_neg haccb, if_neg haccb]
    refine ⟨m', ?_, ⟨goal', msg, hinv', ?_⟩, by rw [hctx, hrejection], rfl⟩
    · rw [ctxMgrSubmit_rejected fuel a.buffer a.len hacc]
      exact hm'
    · rw [hctx]
      exact hb.setError _ _

/-! ## Runs -/

omit [DecidableEq J] in
/-- Errors that are the same stay the same if and only if the C manager drops its own. -/
theorem errorOf_eq_iff (b : HashCtx p) (flags : BitVec 32) :
    b.errorOfBase flags = b.errorOf flags ↔
      (b.Accepts flags → flags &&& hashFirst = 0#32 → b.error = .none) := by
  unfold HashCtx.errorOf HashCtx.errorOfBase
  by_cases hacc : b.Accepts flags
  · rw [if_pos hacc, if_pos hacc]
    by_cases hfirst : flags &&& hashFirst ≠ 0#32
    · rw [if_pos hfirst]
      exact iff_of_true rfl fun _ h => absurd h hfirst
    · rw [if_neg hfirst]
      exact ⟨fun h _ _ => h, fun h => h hacc (not_not.mp hfirst)⟩
  · rw [if_neg hacc, if_neg hacc]
    exact iff_of_true rfl fun h => absurd h hacc

theorem runFlushed_agrees (hcor : sch.Correct p.blockSize maxBlocks Rep) (hmax : 2 ≤ maxBlocks)
    (hsingle : Singles p single compress) (hL : p.padLengthFieldSize = 8) {fuel : ℕ}
    (hfuel : 6 ≤ fuel) (buf : Fin (2 * p.blockSize) → Byte) (calls : List Submit) :
    ∀ {m : Mem S J p} {goal : J → D} {msg : J → Option (List Byte)} {b : HashCtx p},
      Inv compress maxBlocks Rep m ∅ goal msg → Agrees compress b (m.ctx c) (msg c) →
      (∀ a ∈ calls, a.len.toNat / p.blockSize ≤ maxBlocks) →
      ∃ outs, runFlushed sch compress fuel m c calls = some outs ∧
        List.Forall₂ (fun b o => b.status = o.status ∧ b.job.resultDigest = o.job.resultDigest)
          (runBase single buf b calls) outs ∧
        (List.Forall₂ (fun b o => b.error = o.error) (runBase single buf b calls) outs ↔
          KeepsNoError single buf b calls) := by
  induction calls with
  | nil =>
    intro m goal msg b _ _ _
    exact ⟨[], rfl, .nil, iff_of_true .nil trivial⟩
  | cons a calls ih =>
    intro m goal msg b h hb hlen
    obtain ⟨hlen, hlens⟩ := List.forall_mem_cons.mp hlen
    obtain ⟨m', hm', ⟨goal', msg', hinv, hagr⟩, herr, herrb⟩ :=
      submitFlush_spec hcor hmax hsingle hL hfuel buf h hb a hlen
    obtain ⟨outs, houts, hsame, hiff⟩ := ih hinv hagr hlens
    refine ⟨m'.ctx c :: outs, ?_, .cons ⟨hagr.status, hagr.digest⟩ hsame, ?_⟩
    · rw [runFlushed, hm', Option.bind_some, houts]
      rfl
    · rw [runBase, List.forall₂_cons, herr, herrb, errorOf_eq_iff, KeepsNoError, hiff]

end IsalCrypto.Mb
