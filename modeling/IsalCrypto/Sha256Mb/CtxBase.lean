import IsalCrypto.Mb.BaseRuns
import IsalCrypto.MhSha256.Sha256ForMhSha256
import IsalCrypto.Sha256Mb.CtxSse

/-!
# SHA-256 without lanes

`sha256_mb/sha256_ctx_base.c` against `sha256_mb/sha256_ctx_sse.c`.

* `sha256CtxBase_agrees`: both leave the same status and digest after every submit, and the same
  error exactly if no submit without `ISAL_HASH_FIRST` is accepted while the context of the C
  manager carries one.
* `sha256CtxBase_stale_error`: an accepted update after a rejected call.
-/

namespace IsalCrypto.Sha256Mb

open IsalCrypto.Lib IsalCrypto.Mb

/-- `sha256_single`: the macros and the calls of `step` are those of `sha256_for_mh_sha256.c`. `w`
is what the stack holds in its array. -/
def sha256Single (w : Vector (BitVec 32) 16) (data : ℕ → Byte) (digest : Sha256.Digest) :
    Sha256.Digest :=
  MhSha256.sha256SingleForMhSha256 w (fun i => load32 data (4 * i)) digest

/-- The context after each of the submits to `_sha256_ctx_mgr_submit_base`. -/
def runSha256Base (w : Vector (BitVec 32) 16) (buf : Fin (2 * sha256Params.blockSize) → Byte)
    (ctx : HashCtx sha256Params) (calls : List Submit) : List (HashCtx sha256Params) :=
  runBase (sha256Single w) buf ctx calls

theorem sha256Single_singles (w : Vector (BitVec 32) 16) :
    Singles sha256Params (sha256Single w) Sha256.compress := fun x d =>
  MhSha256.sha256SingleForMhSha256_eq (Mh.loadsBlock_load32 x) w d

variable {S J : Type*} [DecidableEq J]

/-- Before the first submit. -/
theorem agrees_initialised {ctx : HashCtx sha256Params} (h : ctx.Initialised) :
    Agrees Sha256.compress ctx ctx none :=
  ⟨rfl, rfl, .complete h.2 nofun, .complete h.2 nofun⟩

/-- Any submits of one initialised context to both managers: statuses and digests are the same after
every call, and errors are the same after every call if and only if no submit without
`ISAL_HASH_FIRST` is accepted while the context carries an error. -/
theorem sha256CtxBase_agrees {sch : Scheduler S J Sha256.Digest} {maxBlocks : ℕ}
    {Rep : Kernel J Sha256.Digest → S → (J → Job Sha256.Digest) → Finset J →
      (J → Sha256.Digest) → Prop}
    (hcor : sch.Correct 64 maxBlocks Rep) (hmax : 2 ^ 26 - 1 ≤ maxBlocks) (s : S)
    (ctx : J → HashCtx sha256Params) (hctx : ∀ k, (ctx k).Initialised) (c : J)
    (w : Vector (BitVec 32) 16) (buf : Fin (2 * sha256Params.blockSize) → Byte)
    (calls : List Submit) (fuel : ℕ) (hfuel : 6 ≤ fuel) :
    ∃ outs, runFlushed sch Sha256.compress fuel ⟨sch.init s, ctx⟩ c calls = some outs ∧
      List.Forall₂ (fun b o => b.status = o.status ∧ b.job.resultDigest = o.job.resultDigest)
        (runSha256Base w buf (ctx c) calls) outs ∧
      (List.Forall₂ (fun b o => b.error = o.error) (runSha256Base w buf (ctx c) calls) outs ↔
        KeepsNoError (sha256Single w) buf (ctx c) calls) := by
  have hinit : Inv Sha256.compress maxBlocks Rep (⟨sch.init s, ctx⟩ : Mem S J sha256Params) ∅ _ _ :=
    inv_init hcor s hctx
  refine runFlushed_agrees hcor (by omega) (sha256Single_singles w) rfl hfuel buf calls hinit
    (agrees_initialised (hctx c)) fun a _ => ?_
  have hlt := a.len.isLt
  change a.len.toNat / 64 ≤ maxBlocks
  omega

/-- Over the SSE lane scheduler: a rejected call, and a message in two pieces after it. -/
theorem sha256CtxBase_agrees_after_rejection :
    let s : Sha256MbJobMgr ℕ Sha256.Digest := ⟨fun _ => Sha256.initial, fun _ => none,
      fun _ => 0#32, 0#64, fun _ => none, 0#32⟩
    let ctx : ℕ → HashCtx sha256Params := fun _ =>
      ⟨⟨.partialBlock 0, 0#64, Sha256.initial, .unknown⟩, stsComplete, .none, 0#64, fun _ => 0#8,
        0#32, fun _ => 0#8, 0#32⟩
    let calls : List Submit := [⟨fun _ => 0x61#8, 3#32, 4#32⟩, ⟨fun _ => 0x61#8, 3#32, hashFirst⟩,
      ⟨fun _ => 0x62#8, 64#32, hashLast⟩]
    ∃ outs, runFlushed schedulerSse Sha256.compress 6 ⟨schedulerSse.init s, ctx⟩ 0 calls =
      some outs ∧
      List.Forall₂ (fun b o => b.status = o.status ∧ b.job.resultDigest = o.job.resultDigest)
        (runSha256Base (Vector.replicate 16 0#32) (fun _ => 0#8) (ctx 0) calls) outs := by
  intro s ctx calls
  obtain ⟨outs, hrun, hsame, -⟩ := sha256CtxBase_agrees schedulerSse_correct (by decide) s ctx
    (fun _ => ⟨rfl, rfl⟩) 0 (Vector.replicate 16 0#32) (fun _ => 0#8) calls 6 (Nat.le_refl 6)
  exact ⟨outs, hrun, hsame⟩

/-- Three submits of no bytes, the second one with undefined flags: the update is accepted by both
managers, and the C manager keeps the error of the second call. -/
theorem sha256CtxBase_stale_error :
    let s : Sha256MbJobMgr ℕ Sha256.Digest := ⟨fun _ => Sha256.initial, fun _ => none,
      fun _ => 0#32, 0#64, fun _ => none, 0#32⟩
    let ctx : HashCtx sha256Params := ⟨⟨.partialBlock 0, 0#64, Sha256.initial, .unknown⟩,
      stsComplete, .none, 0#64, fun _ => 0#8, 0#32, fun _ => 0#8, 0#32⟩
    let calls : List Submit := [⟨fun _ => 0#8, 0#32, hashFirst⟩, ⟨fun _ => 0#8, 0#32, 4#32⟩,
      ⟨fun _ => 0#8, 0#32, hashUpdate⟩]
    (runSha256Base (Vector.replicate 16 0#32) (fun _ => 0#8) ctx calls).map HashCtx.error =
        [.none, .invalidFlags, .invalidFlags] ∧
      (runFlushed schedulerSse Sha256.compress 6 ⟨schedulerSse.init s, fun _ => ctx⟩ 0 calls).map
        (·.map HashCtx.error) = some [.none, .invalidFlags, .none] := by
  intro s ctx calls
  refine ⟨?_, by decide +kernel⟩
  have hsingle := sha256Single_singles (Vector.replicate 16 0#32)
  -- the three contexts, one after the other
  obtain ⟨herr, hst, hrest⟩ :=
    ctxMgrSubmitBase_accepted hsingle (agrees_initialised ⟨rfl, rfl⟩).base
    (fun _ => 0#8) (fun _ => 0#8) 0#32 (show ctx.Accepts hashFirst by decide)
  rw [if_pos (by decide)] at herr
  rw [if_neg (by decide)] at hst
  change [_, _, _] = _
  dsimp only at herr hst hrest ⊢
  generalize ctxMgrSubmitBase (sha256Single (Vector.replicate 16 0#32)) (fun _ => 0#8) ctx
    (fun _ => 0#8) 0#32 hashFirst = b at *
  have hinvalid : ctxMgrSubmitBase (sha256Single (Vector.replicate 16 0#32)) (fun _ => 0#8) b
      (fun _ => 0#8) 0#32 4#32 = { b with error := .invalidFlags } := if_pos (by decide)
  have hacc : ({ b with error := .invalidFlags } : HashCtx sha256Params).Accepts hashUpdate := by
    refine ⟨by decide, ?_, ?_⟩
    · rw [hst]
      decide
    · rw [hst]
      decide
  have hlast := (ctxMgrSubmitBase_accepted hsingle
    (hrest.setError .invalidFlags) (fun _ => 0#8) (fun _ => 0#8) 0#32 hacc).error
  rw [hinvalid, hlast, herr]
  rfl

end IsalCrypto.Sha256Mb
