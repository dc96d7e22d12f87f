import IsalCrypto.Sha256Mb.Params
import IsalCrypto.Sha256Mb.MgrCeSpec

/-!
# SHA-256 over the C lane scheduler

`sha256_mb/aarch64/sha256_ctx_ce.c`: the context layer with the constants of SHA-256 over the
scheduler of `sha256_mb_mgr_ce.c`.

* `sha256CtxMgrCe_digests`: every run returns the hashes of the messages it accepted.
* `sha256CtxMgrCe_answers`: every run answers each accepted submit once.
-/

namespace IsalCrypto.Sha256Mb

open IsalCrypto.Lib IsalCrypto.Mb

section Ce

variable {J : Type*} [DecidableEq J]

/-- `sha256_ctx_mgr_submit_ce`. -/
def sha256CtxMgrSubmitCe (fuel : ℕ)
    (m : Mem (Sha256MbJobMgr J Sha256.Digest) J sha256Params) (c : J) (buffer : ℕ → Byte)
    (len flags : BitVec 32) :
    Option (Mem (Sha256MbJobMgr J Sha256.Digest) J sha256Params × Option J) :=
  ctxMgrSubmit schedulerCe Sha256.compress fuel m c buffer len flags

/-- `sha256_ctx_mgr_flush_ce`. -/
def sha256CtxMgrFlushCe (fuel : ℕ)
    (m : Mem (Sha256MbJobMgr J Sha256.Digest) J sha256Params) :
    Option (Mem (Sha256MbJobMgr J Sha256.Digest) J sha256Params × Option J) :=
  ctxMgrFlush schedulerCe Sha256.compress fuel m

/-- `sha256_ctx_mgr_init_ce` on any memory, with the contexts `ctx`. -/
def sha256CtxMgrInitCe (s : Sha256MbJobMgr J Sha256.Digest) (ctx : J → HashCtx sha256Params) :
    Mem (Sha256MbJobMgr J Sha256.Digest) J sha256Params :=
  ⟨schedulerCe.init s, ctx⟩

/-- The calls of a run one after the other. -/
def runCe (fuel : ℕ) (m : Mem (Sha256MbJobMgr J Sha256.Digest) J sha256Params)
    (calls : List (Call J)) :
    Option (Mem (Sha256MbJobMgr J Sha256.Digest) J sha256Params × List (Event J sha256Params)) :=
  run schedulerCe Sha256.compress fuel m calls

variable {ctx : J → HashCtx sha256Params}

/-- A run of calls with buffers shorter than 2^31 bytes, over initialised contexts. -/
theorem runCe_spec (s : Sha256MbJobMgr J Sha256.Digest) (hctx : ∀ c, (ctx c).Initialised)
    {calls : List (Call J)} (hlen : ∀ a ∈ calls, a.len < 2 ^ 31) {fuel : ℕ}
    (hfuel : 3 * calls.length ≤ fuel) :
    ∃ m tr, runCe fuel (sha256CtxMgrInitCe s ctx) calls = some (m, tr) ∧
      tr.map Event.call = calls ∧ Along Sha256.compress ∅ (fun _ => none) tr ∧
      ∃ goal, Inv Sha256.compress maxBlocksCe CeRep m (inFlight tr ∅) goal
        (messages tr fun _ => none) := by
  have hblocks : ∀ a ∈ calls, a.len / sha256Params.blockSize ≤ maxBlocksCe := fun a ha => by
    have h := hlen a ha
    change a.len / 64 ≤ 2 ^ 25 - 1
    omega
  have hinit : Inv Sha256.compress maxBlocksCe CeRep (sha256CtxMgrInitCe s ctx) ∅ _ _ :=
    inv_init schedulerCe_correct s hctx
  have hfuel' : 3 * ((∅ : Finset J).card + calls.length) ≤ fuel := by
    rwa [Finset.card_empty, Nat.zero_add]
  obtain ⟨m, tr, hrun, halong, hinv⟩ :=
    run_spec schedulerCe_correct (by decide) calls hinit hblocks hfuel'
  exact ⟨m, tr, hrun, run_calls hrun, halong, hinv⟩

end Ce

/-! ## What a resting context holds -/

theorem Resting.complete_digest {ctx : HashCtx sha256Params} {l : List Byte}
    (h : ctx.Resting Sha256.compress (some l)) (hst : ctx.status = stsComplete) :
    ctx.job.resultDigest = Sha256.hash l := by
  cases h with
  | complete _ hd => exact hd l rfl (.inl rfl)
  | idle _ _ hidle _ _ _ =>
    rw [hidle] at hst
    exact absurd hst (by decide)

/-- The chaining value and the bytes behind the last whole block of `l`. -/
structure HoldsPrefix (ctx : HashCtx sha256Params) (l : List Byte) : Prop where
  digest : ctx.job.resultDigest =
    absorb Sha256.compress 64 (stream l) (l.length / 64) 0 Sha256.initial
  length : ctx.partialBlockBufferLength.toNat = l.length % 64
  bytes : window (arrayBytes ctx.partialBlockBuffer) 0 (l.length % 64) =
    l.drop (64 * (l.length / 64))

theorem Resting.idle_holds {ctx : HashCtx sha256Params} {l : List Byte}
    (h : ctx.Resting Sha256.compress (some l)) (hst : ctx.status = stsIdle) :
    HoldsPrefix ctx l := by
  cases h with
  | complete hcompl _ =>
    rw [hcompl] at hst
    exact absurd hst (by decide)
  | idle m k _ hm hinc hmid =>
    obtain rfl : l = m := Option.some.inj hm
    have hlen : l.length = 64 * k + ctx.partialBlockBufferLength.toNat := by
      rw [hmid.length, hinc]
      rfl
    have hlt : ctx.partialBlockBufferLength.toNat < 64 := hmid.partial_lt
    have hk : l.length / 64 = k := by omega
    have hr : ctx.partialBlockBufferLength.toNat = l.length % 64 := by omega
    refine ⟨by rw [hk]; exact hmid.digest, hr, List.ext_getElem ?_ fun i hi hi' => ?_⟩
    · rw [length_window, List.length_drop]
      omega
    · rw [length_window] at hi
      have hbyte := hmid.partialBytes i (by omega)
      rw [getElem_window, Nat.zero_add, hbyte, stream_lt (by change 64 * k + i < _; omega),
        List.getElem_drop]
      simp only [hk]
      rfl

section Ce

variable {J : Type*} [DecidableEq J]

/-- Every run of submits and flushes ends, and of every context that it returns: with status
`COMPLETE` its digest is SHA-256 of the message accepted for it, and with status `IDLE` it holds the
chaining value over the whole blocks and the bytes behind them. -/
theorem sha256CtxMgrCe_digests (s : Sha256MbJobMgr J Sha256.Digest)
    (ctx : J → HashCtx sha256Params) (calls : List (Call J)) (fuel : ℕ)
    (hctx : ∀ c, (ctx c).Initialised) (hlen : ∀ a ∈ calls, a.len < 2 ^ 31)
    (hfuel : 3 * calls.length ≤ fuel) :
    ∃ m tr, runCe fuel (sha256CtxMgrInitCe s ctx) calls = some (m, tr) ∧
      tr.map Event.call = calls ∧
      ∀ pre ev post c l, tr = pre ++ ev :: post → ev.returned = some c →
        messages (pre ++ [ev]) (fun _ => none) c = some l →
        ((ev.ctx c).status = stsComplete → (ev.ctx c).job.resultDigest = Sha256.hash l) ∧
        ((ev.ctx c).status = stsIdle → HoldsPrefix (ev.ctx c) l) := by
  obtain ⟨m, tr, hrun, hcalls, halong, _⟩ := runCe_spec s hctx hlen hfuel
  refine ⟨m, tr, hrun, hcalls, ?_⟩
  rintro pre ev post c l rfl _ hmsg
  have hok := (halong.rest pre).1
  have hmsg' : ev.message (messages pre fun _ => none) c = some l := by
    rwa [messages, List.foldl_append] at hmsg
  have hrest : ¬ (ev.ctx c).Processing →
      (ev.ctx c).Resting Sha256.compress (some l) := fun hproc => by
    rw [← hmsg']
    exact hok.resting c fun hin => hproc ((hok.processing c).mpr hin)
  refine ⟨fun hst => Resting.complete_digest (hrest ?_) hst,
    fun hst => Resting.idle_holds (hrest ?_) hst⟩
  · rw [HashCtx.Processing, hst]
    decide
  · rw [HashCtx.Processing, hst]
    decide

/-- Two contexts that share the lanes: one with the message `abc` whole, one with a message in two
pieces, of which the first leaves 36 bytes behind its block. -/
theorem sha256CtxMgrCe_digests_two_contexts :
    let s : Sha256MbJobMgr ℕ Sha256.Digest := ⟨fun _ => Sha256.initial, fun _ => none,
      fun _ => 0#32, 0#64, fun _ => none, 0#32⟩
    let ctx : ℕ → HashCtx sha256Params := fun _ =>
      ⟨⟨.partialBlock 0, 0#64, Sha256.initial, .unknown⟩, stsComplete, .none, 0#64, fun _ => 0#8,
        0#32, fun _ => 0#8, 0#32⟩
    let abc : ℕ → Byte := fun k => [0x61#8, 0x62#8, 0x63#8].getD k 0#8
    let bytes : ℕ → Byte := fun k => BitVec.ofNat 8 k
    let calls : List (Call ℕ) := [.submit 0 bytes 100#32 hashFirst, .submit 1 abc 3#32 hashEntire,
      .flush, .flush, .submit 0 bytes 70#32 hashLast, .flush]
    ∃ m tr, runCe 18 (sha256CtxMgrInitCe s ctx) calls = some (m, tr) ∧ tr.map Event.call = calls ∧
      ∀ pre ev post c l, tr = pre ++ ev :: post → ev.returned = some c →
        messages (pre ++ [ev]) (fun _ => none) c = some l →
        ((ev.ctx c).status = stsComplete → (ev.ctx c).job.resultDigest = Sha256.hash l) ∧
        ((ev.ctx c).status = stsIdle → HoldsPrefix (ev.ctx c) l) := by
  intro s ctx abc bytes calls
  refine sha256CtxMgrCe_digests s ctx calls 18 (fun _ => ⟨rfl, rfl⟩) ?_ (Nat.le_refl _)
  simp only [calls, List.forall_mem_cons]
  exact ⟨by decide, by decide, by decide, by decide, by decide, by decide, nofun⟩

/-- The number of accepted submits of `c` in a run. -/
def submits (tr : List (Event J sha256Params)) (c : J) : ℕ := tr.countP fun ev => ev.accepts c

/-- The number of times that a run answers for `c`. -/
def answers (tr : List (Event J sha256Params)) (c : J) : ℕ :=
  tr.countP fun ev => ev.answer = some c

/-- In every run of submits and flushes each accepted submit is answered once, by a context that is
not `PROCESSING`, or that context is still inside at the end; nothing else is answered for. What is
inside is what the lanes hold; a flush returns `NULL` if and only if nothing is, and as many
flushes as there are contexts inside return all of them. -/
theorem sha256CtxMgrCe_answers (s : Sha256MbJobMgr J Sha256.Digest)
    (ctx : J → HashCtx sha256Params) (calls : List (Call J)) (fuel : ℕ)
    (hctx : ∀ c, (ctx c).Initialised) (hlen : ∀ a ∈ calls, a.len < 2 ^ 31)
    (hfuel : 6 * calls.length + 3 ≤ fuel) :
    ∃ m tr, runCe fuel (sha256CtxMgrInitCe s ctx) calls = some (m, tr) ∧
      tr.map Event.call = calls ∧
      (∀ pre ev post c, tr = pre ++ ev :: post → ev.accepts c = true →
        AnsweredOnce c (ev :: post) ∨ (m.ctx c).Processing ∧ Unanswered c (ev :: post)) ∧
      (∀ pre post c, tr = pre ++ post →
        answers pre c ≤ submits pre c ∧ submits pre c ≤ answers pre c + 1) ∧
      (∀ c, submits tr c = answers tr c + if (m.ctx c).Processing then 1 else 0) ∧
      (∀ c, (m.ctx c).Processing ↔ ∃ i, m.mgr.jobInLane i = some c) ∧
      (∃ r, sha256CtxMgrFlushCe fuel m = some r ∧ (r.2 = none ↔ ∀ c, ¬ (m.ctx c).Processing)) ∧
      ∃ inside : Finset J, (∀ c, c ∈ inside ↔ (m.ctx c).Processing) ∧
        ∃ m' tr', runCe fuel m (List.replicate inside.card .flush) = some (m', tr') ∧
          (∃ l : List J, tr'.map Event.returned = l.map some ∧ l.Nodup ∧ ∀ c, c ∈ l ↔ c ∈ inside) ∧
          ∀ c, ¬ (m'.ctx c).Processing := by
  obtain ⟨m, tr, hrun, hcalls, halong, goal, hinv⟩ :=
    runCe_spec s hctx hlen (show 3 * calls.length ≤ fuel by omega)
  have hcard : (inFlight tr ∅).card ≤ calls.length := by
    rw [← hcalls, List.length_map]
    simpa using card_inFlight_le tr ∅
  refine ⟨m, tr, hrun, hcalls, ?_, ?_, fun c => ?_, fun c => ?_, ?_, inFlight tr ∅,
    fun c => (hinv.processing_iff c).symm,
    flush_all schedulerCe_correct (by decide) hinv (by omega)⟩
  · rintro pre ev post c rfl hacc
    rcases (halong.rest pre).answered_once hacc with hone | ⟨hin, hun⟩
    · exact .inl hone
    · refine .inr ⟨(hinv.processing_iff c).mpr ?_, hun⟩
      rwa [inFlight, List.foldl_append]
  · rintro pre post c rfl
    have hcount := (halong.beginning pre).count c pre
    rw [if_neg (Finset.notMem_empty c)] at hcount
    unfold submits answers
    split at hcount <;> omega
  · have hcount := halong.count c tr
    rw [if_neg (Finset.notMem_empty c)] at hcount
    simpa only [submits, answers, hinv.processing_iff, Nat.add_zero] using hcount
  · rw [hinv.processing_iff]
    exact hinv.rep.held c
  · have hf : 3 * ((inFlight tr ∅).card + 1) ≤ fuel := by omega
    obtain ⟨r, hr, hnone⟩ := flush_none_iff schedulerCe_correct (by decide) hinv hf
    refine ⟨r, hr, hnone.trans ?_⟩
    rw [Finset.eq_empty_iff_forall_notMem]
    exact forall_congr' fun c => not_congr (hinv.processing_iff c).symm

/-- Three submits of two contexts, one of them rejected, and a flush. -/
theorem sha256CtxMgrCe_answers_four_calls :
    let s : Sha256MbJobMgr ℕ Sha256.Digest := ⟨fun _ => Sha256.initial, fun _ => none,
      fun _ => 0#32, 0#64, fun _ => none, 0#32⟩
    let ctx : ℕ → HashCtx sha256Params := fun _ =>
      ⟨⟨.partialBlock 0, 0#64, Sha256.initial, .unknown⟩, stsComplete, .none, 0#64, fun _ => 0#8,
        0#32, fun _ => 0#8, 0#32⟩
    let calls : List (Call ℕ) := [.submit 0 (fun _ => 0#8) 100#32 hashFirst,
      .submit 0 (fun _ => 0#8) 0#32 hashLast, .submit 1 (fun _ => 0#8) 0#32 hashEntire, .flush]
    ∃ m tr, runCe 27 (sha256CtxMgrInitCe s ctx) calls = some (m, tr) ∧ tr.map Event.call = calls ∧
      ∀ c, submits tr c = answers tr c + if (m.ctx c).Processing then 1 else 0 := by
  intro s ctx calls
  have hlen : ∀ a ∈ calls, a.len < 2 ^ 31 := by
    simp only [calls, List.forall_mem_cons]
    exact ⟨by decide, by decide, by decide, by decide, nofun⟩
  obtain ⟨m, tr, hrun, hcalls, _, _, hcount, _⟩ :=
    sha256CtxMgrCe_answers s ctx calls 27 (fun _ => ⟨rfl, rfl⟩) hlen (Nat.le_refl _)
  exact ⟨m, tr, hrun, hcalls, hcount⟩

end Ce

end IsalCrypto.Sha256Mb
