import IsalCrypto.Mb.Rejection
import IsalCrypto.Sha256Mb.CtxSse

/-!
# Rejected submits to the SHA-256 manager

`sha256_mb/sha256_ctx_sse.c`, the three checks of `submit`.

* `sha256CtxMgrSse_rejection`: a rejected submit changes an error field and nothing else, then or
  later.
-/

namespace IsalCrypto.Sha256Mb

open IsalCrypto.Lib IsalCrypto.Mb

variable {J : Type*} [DecidableEq J]

/-- After every run, a submit that is rejected changes the error of its context and nothing else.
Every continuation hands back the same contexts in the same order with and without it, and the
memory after every call is the same but for that error. -/
theorem sha256CtxMgrSse_rejection (s : Sha256MbJobMgr J Sha256.Digest)
    (ctx : J → HashCtx sha256Params) (before : List (Call J)) (fuel : ℕ)
    (hctx : ∀ c, (ctx c).Initialised) (hfuel : 3 * before.length ≤ fuel) :
    ∃ m tr, runSse fuel (sha256CtxMgrInitSse s ctx) before = some (m, tr) ∧
      ∀ (c : J) (buffer : ℕ → Byte) (len flags : BitVec 32),
        (flags &&& ~~~hashEntire ≠ 0#32 ∨ (m.ctx c).status &&& stsProcessing ≠ 0#32 ∨
          (m.ctx c).status &&& stsComplete ≠ 0#32 ∧ flags &&& hashFirst = 0#32) →
        ∃ m', sha256CtxMgrSubmitSse fuel m c buffer len flags = some (m', some c) ∧
          m'.mgr = m.mgr ∧ (∀ k, k ≠ c → m'.ctx k = m.ctx k) ∧
          m'.ctx c = { m.ctx c with error := (m.ctx c).rejection flags } ∧
          ∀ after : List (Call J), 3 * (before.length + after.length) ≤ fuel →
            ∃ m1 tr1 m2 tr2, runSse fuel m after = some (m1, tr1) ∧
              runSse fuel m' after = some (m2, tr2) ∧
              tr2.map Event.returned = tr1.map Event.returned ∧
              List.Forall₂ (SameButError c) tr1 tr2 := by
  have hlens : ∀ calls : List (Call J), ∀ a ∈ calls,
      a.len / sha256Params.blockSize ≤ maxBlocksSse := fun _ a _ => callLen_le_maxBlocksSse a
  have hinit : Inv Sha256.compress maxBlocksSse SseRep (sha256CtxMgrInitSse s ctx) ∅ _ _ :=
    inv_init schedulerSse_correct s hctx
  have hf : 3 * ((∅ : Finset J).card + before.length) ≤ fuel := by
    rw [Finset.card_empty]
    omega
  obtain ⟨m, tr, hrun, -, goal, hinv⟩ :=
    run_spec schedulerSse_correct (by decide) before hinit (hlens before) hf
  refine ⟨m, tr, hrun, fun c buffer len flags hrej => ?_⟩
  have hacc : ¬ (m.ctx c).Accepts flags := by
    rintro ⟨h1, h2, h3⟩
    rcases hrej with h | h | h
    · exact h h1
    · exact h h2
    · exact h3 h
  refine ⟨m.setError c ((m.ctx c).rejection flags), ctxMgrSubmit_rejected fuel buffer len hacc, rfl,
    fun k hk => setCtx_ctx_of_ne m _ hk, setCtx_ctx_self .., fun after hfuel' => ?_⟩
  have hcard : (inFlight tr ∅).card ≤ before.length := by
    rw [← run_calls hrun, List.length_map]
    simpa using card_inFlight_le tr ∅
  have hf' : 3 * ((inFlight tr ∅).card + after.length) ≤ fuel := by omega
  obtain ⟨m1, tr1, hrun1, -⟩ :=
    run_spec schedulerSse_correct (by decide) after hinv (hlens after) hf'
  obtain ⟨e, tr2, hrun2, hsame⟩ := run_setError c after ((m.ctx c).rejection flags) hrun1
  refine ⟨m1, tr1, m1.setError c e, tr2, hrun1, hrun2,
    SameButError.returned hsame, hsame⟩

/-- Context 0 is in flight and submitted again with undefined flags; the flush after it returns
the same with and without that call. -/
theorem sha256CtxMgrSse_rejection_in_flight :
    let s : Sha256MbJobMgr ℕ Sha256.Digest := ⟨fun _ => Sha256.initial, fun _ => none,
      fun _ => 0#32, 0#64, fun _ => none, 0#32⟩
    let ctx : ℕ → HashCtx sha256Params := fun _ =>
      ⟨⟨.partialBlock 0, 0#64, Sha256.initial, .unknown⟩, stsComplete, .none, 0#64, fun _ => 0#8,
        0#32, fun _ => 0#8, 0#32⟩
    ∃ m tr m', runSse 6 (sha256CtxMgrInitSse s ctx) [.submit 0 (fun _ => 0#8) 64#32 hashEntire] =
        some (m, tr) ∧
      sha256CtxMgrSubmitSse 6 m 0 (fun _ => 1#8) 64#32 4#32 = some (m', some 0) ∧
      ∃ m1 tr1 m2 tr2, runSse 6 m [.flush] = some (m1, tr1) ∧
        runSse 6 m' [.flush] = some (m2, tr2) ∧
        tr2.map Event.returned = tr1.map Event.returned := by
  intro s ctx
  obtain ⟨m, tr, hrun, hrej⟩ := sha256CtxMgrSse_rejection s ctx
    [.submit 0 (fun _ => 0#8) 64#32 hashEntire] 6 (fun _ => ⟨rfl, rfl⟩) (by decide)
  obtain ⟨m', hsub, -, -, -, hafter⟩ := hrej 0 (fun _ => 1#8) 64#32 4#32 (.inl (by decide))
  obtain ⟨m1, tr1, m2, tr2, h1, h2, hret, -⟩ := hafter [.flush] (by decide)
  exact ⟨m, tr, m', hrun, hsub, m1, tr1, m2, tr2, h1, h2, hret⟩

end IsalCrypto.Sha256Mb
