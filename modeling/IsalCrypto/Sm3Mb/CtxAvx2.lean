import IsalCrypto.Mb.CtxSwap
import IsalCrypto.Sha512Mb.SbMgr
import IsalCrypto.Sm3Mb.CtxBase

/-!
# SM3 over any scheduler

`sm3_mb/sm3_ctx_avx2.c`. The array `result_digest` of a context is at first its chaining value and
in the end the digest in output byte order; the bytes are swapped in the loop of `resubmit`.

The functions are modelled over any digests that have words (`Sm3Words`): over the arrays themselves
(`digestWords`), and over arrays with the record of how they came about (`History`), where a
chaining value that is swapped too early or twice is a different value.

* `sm3CtxMgr_delivers`: the digests of every run.
-/

namespace IsalCrypto.Sm3Mb

open IsalCrypto.Lib IsalCrypto.Mb

/-- Digests with words: the initial one, the compression of a block and the swap of the bytes. -/
structure Sm3Words (D : Type*) where
  words : D → Sm3.Digest
  initial : D
  compress : D → List Byte → D
  byteswap : D → D
  words_initial : words initial = Sm3.initial
  words_compress : ∀ d block, words (compress d block) = Sm3.compress (words d) block
  words_byteswap : ∀ d, words (byteswap d) = byteswapWords (words d)

/-- The arrays themselves. -/
def digestWords : Sm3Words Sm3.Digest :=
  ⟨id, Sm3.initial, Sm3.compress, byteswapWords, rfl, fun _ _ => rfl, fun _ => rfl⟩

/-- How an array came about. -/
inductive History
  | initial
  | compressed (h : History) (block : List Byte)
  | byteswapped (h : History)
deriving DecidableEq, Repr

def History.words : History → Sm3.Digest
  | initial => Sm3.initial
  | compressed h block => Sm3.compress h.words block
  | byteswapped h => byteswapWords h.words

/-- Arrays with their history. -/
def historyWords : Sm3Words History :=
  ⟨History.words, .initial, .compressed, .byteswapped, rfl, fun _ _ => rfl, fun _ => rfl⟩

variable {S J D : Type*} [DecidableEq J]

/-- The constants of `sm3_mb.h` over such digests. -/
def Sm3Words.params (w : Sm3Words D) : HashParams D where
  log2BlockSize := sm3Params.log2BlockSize
  padLengthFieldSize := sm3Params.padLengthFieldSize
  initialDigest := w.initial
  log2BlockSize_mem := sm3Params.log2BlockSize_mem
  padLengthFieldSize_mem := sm3Params.padLengthFieldSize_mem

/-- The hash before the swap, as it comes about. -/
def Sm3Words.hash (w : Sm3Words D) (m : List Byte) : D := mdHash w.compress 64 8 w.initial m

omit [DecidableEq J] in
theorem Sm3Words.words_hash (w : Sm3Words D) (m : List Byte) : w.words (w.hash m) = Sm3.hash m := by
  rw [Sm3Words.hash, Sm3.hash, mdHash, mdHash, absorb_map w.words_compress, w.words_initial]

/-- `_sm3_ctx_mgr_init_avx2`, with the contexts `ctx`. -/
def sm3CtxMgrInit {w : Sm3Words D} (sch : Scheduler S J D) (s : S) (ctx : J → HashCtx w.params) :
    Mem S J w.params :=
  ⟨sch.init s, ctx⟩

/-- Calls of `_sm3_ctx_mgr_submit_avx2` and `_sm3_ctx_mgr_flush_avx2` one after the other. -/
def runSm3 (w : Sm3Words D) (sch : Scheduler S J D) (fuel : ℕ) (m : Mem S J w.params)
    (calls : List (Call J)) : Option (Mem S J w.params × List (Event J w.params)) :=
  runSwap w.byteswap sch w.compress fuel m calls

omit [DecidableEq J] in
/-- A buffer of a 32-bit length has less than `2 ^ 26` blocks. -/
theorem callLen_le (w : Sm3Words D) (a : Call J) : a.len / w.params.blockSize ≤ 2 ^ 26 - 1 := by
  change a.len / 64 ≤ 2 ^ 26 - 1
  cases a with
  | flush => exact (show 0 / 64 ≤ 2 ^ 26 - 1 by decide)
  | submit c buffer len flags =>
    have hlt := len.isLt
    change len.toNat / 64 ≤ _
    omega

/-- Over any correct scheduler every run ends, and after each of its events:

* every accepted submit was answered exactly once, or its context is still being processed;
* an answer is complete if the flags accepted last have `ISAL_HASH_LAST`, and idle otherwise;
* a complete context has the hash of its message swapped once and after its last block: the words of
  SM3 in output byte order, as the C manager leaves them for any cut of the message into pieces;
* an idle context has the chaining value of the whole blocks of its message, not swapped. -/
theorem sm3CtxMgr_delivers (w : Sm3Words D) {sch : Scheduler S J D} {maxBlocks : ℕ}
    {Rep : Kernel J D → S → (J → Job D) → Finset J → (J → D) → Prop}
    (hcor : sch.Correct 64 maxBlocks Rep) (hmax : 2 ^ 26 - 1 ≤ maxBlocks) (s : S)
    (ctx : J → HashCtx w.params) (hctx : ∀ c, (ctx c).Initialised) (calls : List (Call J))
    (fuel : ℕ) (hfuel : 3 * calls.length ≤ fuel) :
    ∃ m tr, runSm3 w sch fuel (sm3CtxMgrInit sch s ctx) calls = some (m, tr) ∧
      tr.map Event.call = calls ∧
      ∀ pre ev post, tr = pre ++ ev :: post →
        (∀ c, (pre ++ [ev]).countP (fun e => e.accepts c) =
          (pre ++ [ev]).countP (fun e => e.answer = some c) +
            if (ev.ctx c).Processing then 1 else 0) ∧
        (∀ c, ev.answer = some c → ∃ l, messages (pre ++ [ev]) (fun _ => none) c = some l ∧
          (ev.ctx c).status = if lastFlags (pre ++ [ev]) (fun _ => hashLast) c &&& hashLast ≠ 0#32
            then stsComplete else stsIdle) ∧
        ∀ c l, messages (pre ++ [ev]) (fun _ => none) c = some l →
          ((ev.ctx c).status = stsComplete → l.length < 2 ^ 61 →
            (ev.ctx c).job.resultDigest = w.byteswap (w.hash l) ∧
            w.words (ev.ctx c).job.resultDigest = byteswapWords (Sm3.hash l) ∧
            ∀ W Wbar buf b pieces, (pieces.flatMap fun a => window a.1 0 a.2.toNat) = l →
              w.words (ev.ctx c).job.resultDigest =
                (sm3Base W Wbar buf b pieces).job.resultDigest) ∧
          ((ev.ctx c).status = stsIdle → (ev.ctx c).job.resultDigest =
            absorb w.compress 64 (stream l) (l.length / 64) 0 w.initial) := by
  obtain ⟨m, tr, hrun, hcalls, hevents⟩ := @runSwap_delivers S J D _ w.params w.byteswap w.compress
    maxBlocks Rep sch hcor (by omega) s ctx hctx calls (fun a _ => (callLen_le w a).trans hmax) fuel
    hfuel
  refine ⟨m, tr, hrun, hcalls, fun pre ev post htr => ?_⟩
  obtain ⟨hdelivers, hanswers⟩ := hevents pre ev post htr
  refine ⟨hdelivers.balance, hanswers, fun c l hl => ⟨fun hst hlen => ?_, hdelivers.idle c l hl⟩⟩
  have hdigest : (ev.ctx c).job.resultDigest = w.byteswap (w.hash l) :=
    hdelivers.complete c l hl hst (.inr hlen)
  have hwords : w.words (ev.ctx c).job.resultDigest = byteswapWords (Sm3.hash l) := by
    rw [hdigest, w.words_byteswap, w.words_hash]
  refine ⟨hdigest, hwords, fun W Wbar buf b pieces hpieces => ?_⟩
  subst hpieces
  rw [hwords, sm3Base_digest W Wbar buf b pieces hlen]

/-- Two contexts over a single-buffer scheduler, one of them in two pieces, a rejected submit of the
other, and the reuse of a complete context: the arrays, and their histories. -/
theorem sm3CtxMgr_delivers_single_buffer :
    let ctx {D : Type} (w : Sm3Words D) : ℕ → HashCtx w.params := fun _ =>
      ⟨⟨.partialBlock 0, 0#64, w.initial, .unknown⟩, stsComplete, .none, 0#64, fun _ => 0#8, 0#32,
        fun _ => 0#8, 0#32⟩
    let calls : List (Call ℕ) := [.submit 0 (fun _ => 0x61#8) 100#32 hashFirst,
      .submit 1 (fun _ => 0x62#8) 3#32 hashEntire, .submit 1 (fun _ => 0x62#8) 3#32 hashUpdate,
      .submit 0 (fun _ => 0x61#8) 300#32 hashLast, .submit 0 (fun _ => 0x61#8) 3#32 hashEntire,
      .flush]
    (∃ m tr, runSm3 digestWords Sha512Mb.schedulerSb 18
        (sm3CtxMgrInit Sha512Mb.schedulerSb () (ctx digestWords)) calls = some (m, tr) ∧
      ∀ pre ev post, tr = pre ++ ev :: post → ∀ c l,
        messages (pre ++ [ev]) (fun _ => none) c = some l → (ev.ctx c).status = stsComplete →
        l.length < 2 ^ 61 → (ev.ctx c).job.resultDigest = byteswapWords (Sm3.hash l)) ∧
    ∃ m tr, runSm3 historyWords Sha512Mb.schedulerSb 18
        (sm3CtxMgrInit Sha512Mb.schedulerSb () (ctx historyWords)) calls = some (m, tr) ∧
      ∀ pre ev post, tr = pre ++ ev :: post → ∀ c l,
        messages (pre ++ [ev]) (fun _ => none) c = some l → (ev.ctx c).status = stsComplete →
        l.length < 2 ^ 61 → (ev.ctx c).job.resultDigest = .byteswapped (historyWords.hash l) := by
  intro ctx calls
  refine ⟨?_, ?_⟩
  · obtain ⟨m, tr, hrun, -, hevents⟩ := sm3CtxMgr_delivers digestWords
      (Sha512Mb.schedulerSb_correct 64 (2 ^ 26 - 1)) (Nat.le_refl _) () (ctx digestWords)
      (fun _ => ⟨rfl, rfl⟩) calls 18 (by decide)
    exact ⟨m, tr, hrun, fun pre ev post htr c l hl hst hlen =>
      (((hevents pre ev post htr).2.2 c l hl).1 hst hlen).2.1⟩
  · obtain ⟨m, tr, hrun, -, hevents⟩ := sm3CtxMgr_delivers historyWords
      (Sha512Mb.schedulerSb_correct 64 (2 ^ 26 - 1)) (Nat.le_refl _) () (ctx historyWords)
      (fun _ => ⟨rfl, rfl⟩) calls 18 (by decide)
    exact ⟨m, tr, hrun, fun pre ev post htr c l hl hst hlen =>
      (((hevents pre ev post htr).2.2 c l hl).1 hst hlen).1⟩

end IsalCrypto.Sm3Mb
