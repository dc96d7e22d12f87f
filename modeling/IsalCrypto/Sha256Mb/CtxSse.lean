import IsalCrypto.Api
import IsalCrypto.Sha256Mb.MgrSseSpec
import IsalCrypto.Sha256Mb.Params

/-!
# SHA-256 over the SSE lane scheduler, and its return codes

`sha256_mb/sha256_ctx_sse.c` and the wrapper `isal_sha256_ctx_mgr_submit` of `sha256_mb.c`, which
reports the error field of whichever context the manager hands back.

* `isalSha256CtxMgrSubmit_code`: when the code says whether the submission was rejected.
* `isalSha256CtxMgrSubmit_stale_error`: an accepted submission with a non-zero code.
-/

namespace IsalCrypto.Sha256Mb

open IsalCrypto.Lib IsalCrypto.Mb IsalCryptoError

variable {J : Type*} [DecidableEq J]

/-- `_sha256_ctx_mgr_submit_sse`. -/
def sha256CtxMgrSubmitSse (fuel : ℕ)
    (m : Mem (Sha256MbJobMgr J Sha256.Digest) J sha256Params) (c : J) (buffer : ℕ → Byte)
    (len flags : BitVec 32) :
    Option (Mem (Sha256MbJobMgr J Sha256.Digest) J sha256Params × Option J) :=
  ctxMgrSubmit schedulerSse Sha256.compress fuel m c buffer len flags

/-- `_sha256_ctx_mgr_init_sse` on any memory, with the contexts `ctx`. -/
def sha256CtxMgrInitSse (s : Sha256MbJobMgr J Sha256.Digest) (ctx : J → HashCtx sha256Params) :
    Mem (Sha256MbJobMgr J Sha256.Digest) J sha256Params :=
  ⟨schedulerSse.init s, ctx⟩

/-- Calls of `_sha256_ctx_mgr_submit_sse` and `_sha256_ctx_mgr_flush_sse` one after the other. -/
def runSse (fuel : ℕ) (m : Mem (Sha256MbJobMgr J Sha256.Digest) J sha256Params)
    (calls : List (Call J)) :
    Option (Mem (Sha256MbJobMgr J Sha256.Digest) J sha256Params × List (Event J sha256Params)) :=
  run schedulerSse Sha256.compress fuel m calls

omit [DecidableEq J] in
/-- A buffer of a 32-bit length has no more blocks than a lane can take. -/
theorem callLen_le_maxBlocksSse (a : Call J) :
    a.len / sha256Params.blockSize ≤ maxBlocksSse := by
  change a.len / 64 ≤ 2 ^ 26 - 1
  cases a with
  | flush => exact (show 0 / 64 ≤ 2 ^ 26 - 1 by decide)
  | submit c buffer len flags =>
    have hlt := len.isLt
    change len.toNat / 64 ≤ _
    omega

/-! ## The wrapper -/

/-- The arguments of `isal_sha256_ctx_mgr_submit`; `none` is `NULL`. -/
structure SubmitArgs (J : Type*) where
  mgrNull : Bool
  ctxIn : Option J
  ctxOutNull : Bool
  buffer : Option (ℕ → Byte)
  len : BitVec 32
  flags : BitVec 32

/-- The checks under `SAFE_PARAM`. -/
def SubmitArgs.check (a : SubmitArgs J) : IsalCryptoError :=
  if a.mgrNull then errNullMgr
  else if a.ctxIn.isNone ∨ a.ctxOutNull then errNullCtx
  else if a.buffer.isNone ∧ (a.flags = hashUpdate ∨ a.flags = hashEntire) then errNullSrc
  else if a.len ≠ 0#32 ∧ a.buffer.isNone then errNullSrc
  else errNone

/-- The code for the error field of the context handed back. -/
def errorCode : HashCtxError → IsalCryptoError
  | .none => errNone
  | .invalidFlags => errInvalidFlags
  | .alreadyProcessing => errAlreadyProcessing
  | .alreadyCompleted => errAlreadyCompleted

/-- `isal_sha256_ctx_mgr_submit`: the memory, what it stores to `*ctx_out` if it does, and the
code. `selfTestsFail` is what `isal_self_tests` returns. -/
def isalSha256CtxMgrSubmit (build : Build) (selfTestsFail : Bool) (fuel : ℕ)
    (m : Mem (Sha256MbJobMgr J Sha256.Digest) J sha256Params) (a : SubmitArgs J) :
    Option (Mem (Sha256MbJobMgr J Sha256.Digest) J sha256Params × Option (Option J) ×
      IsalCryptoError) :=
  if build.safeParam ∧ a.check ≠ errNone then some (m, none, a.check)
  else if build.fipsMode ∧ selfTestsFail then some (m, none, errSelfTest)
  else
    match a.ctxIn with
    | none => none
    | some c =>
      -- a NULL buffer has length 0 and is not read
      (sha256CtxMgrSubmitSse fuel m c (a.buffer.getD fun _ => 0#8) a.len a.flags).map fun r =>
        (r.1, some r.2,
          match r.2 with
          | none => errNone
          | some k => if build.safeParam then errorCode (r.1.ctx k).error else errNone)

theorem errorCode_eq_errNone {e : HashCtxError} : errorCode e = errNone ↔ e = .none := by
  cases e <;> simp [errorCode]

/-- A submission that passes the checks is one of the context layer, with the code for the context
that it hands back. -/
theorem isalSha256CtxMgrSubmit_eq {build : Build} {selfTestsFail : Bool} {fuel : ℕ}
    {m : Mem (Sha256MbJobMgr J Sha256.Digest) J sha256Params} {a : SubmitArgs J} {c : J}
    (hsafe : build.safeParam = true) (htests : ¬ (build.fipsMode ∧ selfTestsFail))
    (hc : a.ctxIn = some c) (hcheck : a.check = errNone) :
    isalSha256CtxMgrSubmit build selfTestsFail fuel m a =
      (sha256CtxMgrSubmitSse fuel m c (a.buffer.getD fun _ => 0#8) a.len a.flags).map fun r =>
        (r.1, some r.2, match r.2 with
          | none => errNone
          | some k => errorCode (r.1.ctx k).error) := by
  unfold isalSha256CtxMgrSubmit
  rw [if_neg (fun h => h.2 hcheck), if_neg htests, hc]
  simp only [hsafe, if_true]

/-- The code of a submission, from the errors before it: zero if it is accepted, unless another
context is handed back that carries an error. -/
theorem isalSha256CtxMgrSubmit_spec {held : Finset J} {goal : J → Sha256.Digest}
    {msg : J → Option (List Byte)} {m : Mem (Sha256MbJobMgr J Sha256.Digest) J sha256Params}
    (h : Inv Sha256.compress maxBlocksSse SseRep m held goal msg) {fuel : ℕ}
    (hfuel : 3 * (held.card + 1) ≤ fuel) {build : Build} {selfTestsFail : Bool} {a : SubmitArgs J}
    {c : J} (hsafe : build.safeParam = true) (htests : ¬ (build.fipsMode ∧ selfTestsFail))
    (hc : a.ctxIn = some c) (hcheck : a.check = errNone) :
    ∃ m' out code, isalSha256CtxMgrSubmit build selfTestsFail fuel m a = some (m', some out, code) ∧
      (∀ k, out = some k → k = c ∨ (m.ctx k).Processing) ∧
      (code.code ≠ 0 ↔ ¬ (m.ctx c).Accepts a.flags ∨
        ∃ k, out = some k ∧ k ≠ c ∧ (m.ctx k).error ≠ .none) := by
  have hlen := callLen_le_maxBlocksSse (.submit c (a.buffer.getD fun _ => 0#8) a.len a.flags)
  obtain ⟨⟨m', out⟩, hexec, herror, hok, -⟩ :=
    exec_spec schedulerSse_correct (by decide) h _ hlen hfuel
  have hsubmit : sha256CtxMgrSubmitSse fuel m c (a.buffer.getD fun _ => 0#8) a.len a.flags =
      some (m', out) := hexec
  rw [isalSha256CtxMgrSubmit_eq hsafe htests hc hcheck, hsubmit]
  refine ⟨m', out, _, rfl, ?_⟩
  dsimp only at herror hok ⊢
  rw [ne_eq, code_eq_zero]
  by_cases hacc : (m.ctx c).Accepts a.flags
  · have htrue : (Call.submit c (a.buffer.getD fun _ => 0#8) a.len a.flags).accepted m = true :=
      decide_eq_true hacc
    rw [htrue] at hok
    cases out with
    | none => exact ⟨nofun, by simp [hacc]⟩
    | some k =>
      have hk := hok.answered k rfl
      dsimp only
      rw [errorCode_eq_errNone, herror, Call.errorAfter]
      refine ⟨fun k' hk' => ?_, ?_⟩
      · obtain rfl : k = k' := Option.some.inj hk'
        exact (Finset.mem_insert.mp hk).imp_right (h.processing_iff k).mpr
      · rcases eq_or_ne k c with rfl | hne
        · simp [hacc]
        · simp [hacc, hne]
  · have hfalse : (Call.submit c (a.buffer.getD fun _ => 0#8) a.len a.flags).accepted m = false :=
      decide_eq_false hacc
    rw [hfalse] at hok
    have hout : out = some c := hok.rejected c _ _ _ rfl rfl
    subst hout
    dsimp only
    rw [errorCode_eq_errNone, herror, Call.errorAfter, if_pos rfl, if_neg hacc]
    refine ⟨fun k hk => .inl (Option.some.inj hk).symm, ?_⟩
    exact iff_of_true (rejection_ne_none _ _) (.inl hacc)

/-- After every run: a submission that is rejected, or before which no other context in flight
carries an error, returns a non-zero code if and only if it is rejected; and it fails to do so
exactly when it is accepted and another context that carries an error is handed back. In a run that
submits no context while it is in flight, no context in flight carries an error. -/
theorem isalSha256CtxMgrSubmit_code (s : Sha256MbJobMgr J Sha256.Digest)
    (ctx : J → HashCtx sha256Params) (calls : List (Call J)) (fuel : ℕ)
    (hctx : ∀ c, (ctx c).Initialised) (hfuel : 3 * (calls.length + 1) ≤ fuel) :
    ∃ m tr, runSse fuel (sha256CtxMgrInitSse s ctx) calls = some (m, tr) ∧
      ((∀ ev ∈ tr, ¬ ev.Misuses) → ∀ k, (m.ctx k).Processing → (m.ctx k).error = .none) ∧
      ∀ (build : Build) (selfTestsFail : Bool) (a : SubmitArgs J) (c : J),
        build.safeParam = true → ¬ (build.fipsMode ∧ selfTestsFail) → a.ctxIn = some c →
        a.check = errNone →
        ∃ m' out code,
          isalSha256CtxMgrSubmit build selfTestsFail fuel m a = some (m', some out, code) ∧
          (¬ (m.ctx c).Accepts a.flags ∨
              (∀ k, k ≠ c → (m.ctx k).Processing → (m.ctx k).error = .none) →
            (code.code ≠ 0 ↔ ¬ (m.ctx c).Accepts a.flags)) ∧
          ((code.code ≠ 0 ↔ ¬ (m.ctx c).Accepts a.flags) ↔
            ¬ ((m.ctx c).Accepts a.flags ∧
              ∃ k, out = some k ∧ k ≠ c ∧ (m.ctx k).error ≠ .none)) := by
  have hlens : ∀ a ∈ calls, a.len / sha256Params.blockSize ≤ maxBlocksSse :=
    fun a _ => callLen_le_maxBlocksSse a
  have hinit : Inv Sha256.compress maxBlocksSse SseRep (sha256CtxMgrInitSse s ctx) ∅ _ _ :=
    inv_init schedulerSse_correct s hctx
  have hf : 3 * ((∅ : Finset J).card + calls.length) ≤ fuel := by
    rw [Finset.card_empty]
    omega
  obtain ⟨m, tr, hrun, halong, goal, hinv⟩ :=
    run_spec schedulerSse_correct (by decide) calls hinit hlens hf
  have hcard : (inFlight tr ∅).card ≤ calls.length := by
    rw [← run_calls hrun, List.length_map]
    simpa using card_inFlight_le tr ∅
  have hf' : 3 * ((inFlight tr ∅).card + 1) ≤ fuel := by omega
  refine ⟨m, tr, hrun, fun hno k hk => ?_, fun build fails a c hsafe htests hc hcheck => ?_⟩
  · exact run_error_none schedulerSse_correct (by decide) calls hinit hlens hf hrun hno nofun k
      ((hinv.processing_iff k).mp hk)
  · obtain ⟨m', out, code, heq, hout, hcode⟩ :=
      isalSha256CtxMgrSubmit_spec hinv hf' hsafe htests hc hcheck
    refine ⟨m', out, code, heq, fun hcond => ?_, ?_⟩
    · rw [hcode]
      refine ⟨?_, .inl⟩
      rintro (hrej | ⟨k, hk, hne, herr⟩)
      · exact hrej
      · intro hacc
        refine herr ((hcond.resolve_left (not_not.mpr hacc)) k hne ?_)
        exact (hout k hk).resolve_left hne
    · rw [hcode]
      by_cases hacc : (m.ctx c).Accepts a.flags
      · simp [hacc]
      · simp [hacc]

/-- Two contexts in flight, submitted once each. -/
theorem isalSha256CtxMgrSubmit_code_two_contexts :
    let s : Sha256MbJobMgr ℕ Sha256.Digest := ⟨fun _ => Sha256.initial, fun _ => none,
      fun _ => 0#32, 0#64, fun _ => none, 0#32⟩
    let ctx : ℕ → HashCtx sha256Params := fun _ =>
      ⟨⟨.partialBlock 0, 0#64, Sha256.initial, .unknown⟩, stsComplete, .none, 0#64, fun _ => 0#8,
        0#32, fun _ => 0#8, 0#32⟩
    let calls : List (Call ℕ) := [.submit 0 (fun _ => 0#8) 64#32 hashFirst,
      .submit 1 (fun _ => 0#8) 64#32 hashFirst]
    let a : SubmitArgs ℕ := ⟨false, some 1, false, some fun _ => 0#8, 64#32, hashLast⟩
    ∃ m tr, runSse 9 (sha256CtxMgrInitSse s ctx) calls = some (m, tr) ∧
      ∃ m' out code, isalSha256CtxMgrSubmit ⟨true, false⟩ false 9 m a = some (m', some out, code) ∧
        (¬ (m.ctx 1).Accepts a.flags ∨
            (∀ k, k ≠ 1 → (m.ctx k).Processing → (m.ctx k).error = .none) →
          (code.code ≠ 0 ↔ ¬ (m.ctx 1).Accepts a.flags)) := by
  intro s ctx calls a
  obtain ⟨m, tr, hrun, _, hcode⟩ :=
    isalSha256CtxMgrSubmit_code s ctx calls 9 (fun _ => ⟨rfl, rfl⟩) (Nat.le_refl _)
  obtain ⟨m', out, code, heq, hone, _⟩ :=
    hcode ⟨true, false⟩ false a 1 rfl (by decide) rfl (by decide)
  exact ⟨m, tr, hrun, m', out, code, heq, hone⟩

/-- Context 0 is submitted again while in flight and rejected; the accepted submission of context 3
hands it back and returns its error. -/
theorem isalSha256CtxMgrSubmit_stale_error :
    let s : Sha256MbJobMgr ℕ Sha256.Digest := ⟨fun _ => Sha256.initial, fun _ => none,
      fun _ => 0#32, 0#64, fun _ => none, 0#32⟩
    let ctx : ℕ → HashCtx sha256Params := fun _ =>
      ⟨⟨.partialBlock 0, 0#64, Sha256.initial, .unknown⟩, stsComplete, .none, 0#64, fun _ => 0#8,
        0#32, fun _ => 0#8, 0#32⟩
    let calls : List (Call ℕ) := [.submit 0 (fun _ => 0#8) 64#32 hashFirst,
      .submit 0 (fun _ => 0#8) 64#32 hashFirst, .submit 1 (fun _ => 0#8) 128#32 hashFirst,
      .submit 2 (fun _ => 0#8) 128#32 hashFirst]
    let a : SubmitArgs ℕ := ⟨false, some 3, false, some fun _ => 0#8, 128#32, hashFirst⟩
    ∃ m tr m', runSse 15 (sha256CtxMgrInitSse s ctx) calls = some (m, tr) ∧ a.check = errNone ∧
      (m.ctx 3).Accepts a.flags ∧
      isalSha256CtxMgrSubmit ⟨true, false⟩ false 15 m a =
        some (m', some (some 0), errAlreadyProcessing) := by
  intro s ctx calls a
  have hrun : ((runSse 15 (sha256CtxMgrInitSse s ctx) calls).bind fun q =>
      (isalSha256CtxMgrSubmit ⟨true, false⟩ false 15 q.1 a).map fun r =>
        (r.2, decide ((q.1.ctx 3).Accepts a.flags))) =
      some ((some (some 0), errAlreadyProcessing), true) := by decide +kernel
  obtain ⟨⟨m, tr⟩, hm, hq⟩ := Option.bind_eq_some_iff.mp hrun
  obtain ⟨⟨m', r⟩, hr, he⟩ := Option.map_eq_some_iff.mp hq
  obtain ⟨rfl, hacc⟩ := Prod.mk.inj he
  exact ⟨m, tr, m', hm, by decide, of_decide_eq_true hacc, hr⟩

end IsalCrypto.Sha256Mb
