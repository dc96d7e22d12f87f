import IsalCrypto.Lib.Lanes
import IsalCrypto.Lib.Sm3
import IsalCrypto.Mb.Base
import IsalCrypto.Mh.Segments

/-!
# SM3 without lanes

`sm3_mb/sm3_ctx_base.c`. Its `sm3_init` and `sm3_update` are those of the other C managers; its
`sm3_final` swaps the bytes of the words before it returns.

* `sm3Single_singles`: `sm3_single` is the standard's compression function.
* `sm3Base_digest`: init, updates and final leave the swapped words of the hash.
-/

namespace IsalCrypto.Sm3Mb

open IsalCrypto.Lib IsalCrypto.Mb

theorem log2BlockSize_six : 6 = 6 ∨ 6 = 7 := .inl rfl

theorem padLengthFieldSize_eight : 8 = 8 ∨ 8 = 16 := .inl rfl

/-- `ISAL_SM3_BLOCK_SIZE` and `ISAL_SM3_PADLENGTHFIELD_SIZE` of `sm3_mb.h`, and
`ISAL_SM3_INITIAL_DIGEST` of `sm3_mb_internal.h`. -/
def sm3Params : HashParams Sm3.Digest where
  log2BlockSize := 6
  padLengthFieldSize := 8
  initialDigest := Sm3.initial
  log2BlockSize_mem := log2BlockSize_six
  padLengthFieldSize_mem := padLengthFieldSize_eight

/-! ## The functions -/

/-- `rol32`. -/
def rol32 (x : BitVec 32) (r : ℕ) : BitVec 32 := (x <<< r) ||| (x >>> (32 - r))

/-- `P0`. -/
def P0 (x : BitVec 32) : BitVec 32 := x ^^^ rol32 x 9 ^^^ rol32 x 17

/-- `P1`. -/
def P1 (x : BitVec 32) : BitVec 32 := x ^^^ rol32 x 15 ^^^ rol32 x 23

/-- `sm3_ff`. -/
def sm3Ff (j : ℕ) (x y z : BitVec 32) : BitVec 32 :=
  if j < 16 then x ^^^ y ^^^ z else (x &&& y) ||| (x &&& z) ||| (y &&& z)

/-- `sm3_gg`. -/
def sm3Gg (j : ℕ) (x y z : BitVec 32) : BitVec 32 :=
  if j < 16 then x ^^^ y ^^^ z else (x &&& y) ||| (~~~x &&& z)

/-- The second loop of `sm3_message_schedule`, at `j`. -/
def scheduleStep (w : ℕ → BitVec 32) (j : ℕ) : ℕ → BitVec 32 :=
  let tmp := w (j - 16) ^^^ w (j - 9) ^^^ rol32 (w (j - 3)) 15
  Function.update w j (P1 tmp ^^^ rol32 (w (j - 13)) 7 ^^^ w (j - 6))

/-- `sm3_message_schedule`, on what the stack holds in the two arrays. -/
def sm3MessageSchedule (bi w wBar : ℕ → BitVec 32) : (ℕ → BitVec 32) × (ℕ → BitVec 32) :=
  let w := (List.range 16).foldl (fun w j => Function.update w j (toBe32 (bi j))) w
  let w := (List.range' 16 52).foldl scheduleStep w
  (w, (List.range 64).foldl (fun wBar j => Function.update wBar j (w j ^^^ w (j + 4))) wBar)

/-- The variables of `sm3_single`. -/
structure Sm3Vars where
  a : BitVec 32
  b : BitVec 32
  c : BitVec 32
  d : BitVec 32
  e : BitVec 32
  f : BitVec 32
  g : BitVec 32
  h : BitVec 32

/-- `sm3_compress_step_func`. For `j` a multiple of 32 its `rol32` shifts by no bits to the left,
and the shift by 32 to the right is taken to add none. -/
def sm3CompressStepFunc (w wBar : ℕ → BitVec 32) (v : Sm3Vars) (j : ℕ) : Sm3Vars :=
  let t := if j < 16 then 0x79cc4519#32 else 0x7a879d8a#32
  let ss1 := rol32 (rol32 v.a 12 + v.e + rol32 t (j % 32)) 7
  let ss2 := ss1 ^^^ rol32 v.a 12
  let tt1 := sm3Ff j v.a v.b v.c + v.d + ss2 + wBar j
  let tt2 := sm3Gg j v.e v.f v.g + v.h + ss1 + w j
  { a := tt1
    b := v.a
    c := rol32 v.b 9
    d := v.c
    e := P0 tt2
    f := v.e
    g := rol32 v.f 19
    h := v.g }

/-- `sm3_single`; `w` and `wBar` are what the stack holds in its arrays. -/
def sm3Single (w wBar : ℕ → BitVec 32) (data : ℕ → Byte) (digest : Sm3.Digest) : Sm3.Digest :=
  let schedule := sm3MessageSchedule (fun i => load32 data (4 * i)) w wBar
  let v := (List.range 64).foldl (sm3CompressStepFunc schedule.1 schedule.2)
    ⟨digest.get 0, digest.get 1, digest.get 2, digest.get 3, digest.get 4, digest.get 5,
      digest.get 6, digest.get 7⟩
  #v[digest.get 0 ^^^ v.a, digest.get 1 ^^^ v.b, digest.get 2 ^^^ v.c, digest.get 3 ^^^ v.d,
    digest.get 4 ^^^ v.e, digest.get 5 ^^^ v.f, digest.get 6 ^^^ v.g, digest.get 7 ^^^ v.h]

/-- The loop of `byteswap32` over the words of a digest. -/
def byteswapWords (digest : Sm3.Digest) : Sm3.Digest := digest.map byteswap32

/-- `sm3_update`. -/
def sm3Update (w wBar : ℕ → BitVec 32) (ctx : HashCtx sm3Params) (buffer : ℕ → Byte)
    (len : BitVec 32) : HashCtx sm3Params :=
  ctx.update (sm3Single w wBar) buffer len

/-- `sm3_final`: the last blocks as in the other C managers, then the swap. -/
def sm3Final (w wBar : ℕ → BitVec 32) (buf : Fin (2 * sm3Params.blockSize) → Byte)
    (ctx : HashCtx sm3Params) : HashCtx sm3Params :=
  let ctx := ctx.final (sm3Single w wBar) buf
  { ctx with job := { ctx.job with resultDigest := byteswapWords ctx.job.resultDigest } }

/-- `sm3_init`, an update for each piece of a message, `sm3_final`. -/
def sm3Base (w wBar : ℕ → BitVec 32) (buf : Fin (2 * sm3Params.blockSize) → Byte)
    (ctx : HashCtx sm3Params) (pieces : List ((ℕ → Byte) × BitVec 32)) : HashCtx sm3Params :=
  sm3Final w wBar buf (pieces.foldl (fun ctx a => sm3Update w wBar ctx a.1 a.2) ctx.init)

/-! ## The compression function -/

theorem rol32_eq (x : BitVec 32) {r : ℕ} (hr : r < 32) : rol32 x r = x.rotateLeft r := by
  rw [BitVec.rotateLeft, Nat.mod_eq_of_lt hr]
  rfl

theorem P0_eq (x : BitVec 32) : P0 x = Sm3.p0 x := by
  rw [P0, rol32_eq x (by decide), rol32_eq x (by decide), Sm3.p0]

theorem P1_eq (x : BitVec 32) : P1 x = Sm3.p1 x := by
  rw [P1, rol32_eq x (by decide), rol32_eq x (by decide), Sm3.p1]

/-- A loop that writes the slots `0`, …, `n - 1`. -/
theorem foldl_update_range {α : Type*} (f : ℕ → α) (w : ℕ → α) {n j : ℕ} (hj : j < n) :
    (List.range n).foldl (fun w j => Function.update w j (f j)) w j = f j :=
  (foldl_update (fun i _ => f i) List.nodup_range w j).trans (if_pos (List.mem_range.mpr hj))

/-- The first words of the array, after `n` rounds of the second loop. -/
theorem scheduleStep_foldl {w : ℕ → BitVec 32} {block : List Byte}
    (h : ∀ j, j < 16 → w j = (Sm3.schedule block).getD j 0#32) {n : ℕ} (hn : n ≤ 52) :
    ∀ j, j < 16 + n →
      (List.range' 16 n).foldl scheduleStep w j = (Sm3.schedule block).getD j 0#32 := by
  induction n with
  | zero => exact h
  | succ n ih =>
    intro j hj
    have ih := ih (by omega)
    rw [List.range'_1_concat, List.foldl_append]
    generalize (List.range' 16 n).foldl scheduleStep w = v at *
    change scheduleStep v (16 + n) j = _
    rw [scheduleStep]
    rcases eq_or_ne j (16 + n) with rfl | hne
    · rw [Function.update_self, Sm3.schedule_recurrence block (by omega), Sm3.nextWord, P1_eq,
        rol32_eq _ (by decide), rol32_eq _ (by decide), ih _ (by omega), ih _ (by omega),
        ih _ (by omega), ih _ (by omega), ih _ (by omega),
        show 16 + n - 16 = n by omega, show 16 + n - 9 = n + 7 by omega,
        show 16 + n - 3 = n + 13 by omega, show 16 + n - 13 = n + 3 by omega,
        show 16 + n - 6 = n + 10 by omega]
    · rw [Function.update_of_ne hne]
      exact ih j (by omega)

/-- The expansion that `sm3_message_schedule` leaves. -/
theorem sm3MessageSchedule_w (x : ℕ → Byte) (w wBar : ℕ → BitVec 32) {j : ℕ} (hj : j < 68) :
    (sm3MessageSchedule (fun i => load32 x (4 * i)) w wBar).1 j =
      (Sm3.schedule (window x 0 64)).getD j 0#32 := by
  rw [sm3MessageSchedule]
  refine scheduleStep_foldl (fun i hi => ?_) (Nat.le_refl 52) j hj
  rw [foldl_update_range _ _ hi, Mh.loadsBlock_load32 x i hi, Sm3.schedule_input _ hi]

theorem sm3MessageSchedule_wBar (bi w wBar : ℕ → BitVec 32) {j : ℕ} (hj : j < 64) :
    (sm3MessageSchedule bi w wBar).2 j =
      (sm3MessageSchedule bi w wBar).1 j ^^^ (sm3MessageSchedule bi w wBar).1 (j + 4) := by
  rw [sm3MessageSchedule]
  exact foldl_update_range _ wBar hj

/-- The working variables. -/
def Sm3Vars.vars (v : Sm3Vars) : Sm3.Digest := #v[v.a, v.b, v.c, v.d, v.e, v.f, v.g, v.h]

/-- A step is a round. -/
theorem sm3CompressStepFunc_vars {w wBar : ℕ → BitVec 32} {W : List (BitVec 32)} {j : ℕ}
    (hw : w j = W.getD j 0#32) (hwBar : wBar j = W.getD j 0#32 ^^^ W.getD (j + 4) 0#32)
    (v : Sm3Vars) : (sm3CompressStepFunc w wBar v j).vars = Sm3.round W v.vars j := by
  have hconstant : rol32 (if j < 16 then 0x79cc4519#32 else 0x7a879d8a#32) (j % 32) =
      Sm3.roundConstant j := by
    rw [rol32_eq _ (Nat.mod_lt j (by decide)), Sm3.roundConstant,
      BitVec.rotateLeft_mod_eq_rotateLeft]
  rw [Sm3Vars.vars, sm3CompressStepFunc]
  dsimp only
  rw [hconstant, hw, hwBar, P0_eq, rol32_eq _ (by decide), rol32_eq _ (by decide),
    rol32_eq _ (by decide), rol32_eq _ (by decide)]
  rfl

/-- The first `n` steps are the first `n` rounds. -/
theorem sm3CompressStepFunc_foldl (x : ℕ → Byte) (w wBar : ℕ → BitVec 32) (v : Sm3Vars) {n : ℕ}
    (hn : n ≤ 64) :
    let schedule := sm3MessageSchedule (fun i => load32 x (4 * i)) w wBar
    ((List.range n).foldl (sm3CompressStepFunc schedule.1 schedule.2) v).vars =
      (List.range n).foldl (Sm3.round (Sm3.schedule (window x 0 64))) v.vars := by
  intro schedule
  induction n with
  | zero => rfl
  | succ n ih =>
    have hw := sm3MessageSchedule_w x w wBar (j := n) (by omega)
    have hwBar : schedule.2 n = (Sm3.schedule (window x 0 64)).getD n 0#32 ^^^
        (Sm3.schedule (window x 0 64)).getD (n + 4) 0#32 := by
      rw [sm3MessageSchedule_wBar _ _ _ (by omega), hw, sm3MessageSchedule_w x w wBar (by omega)]
    rw [List.range_succ, List.foldl_append, List.foldl_append, ← ih (by omega)]
    exact sm3CompressStepFunc_vars hw hwBar _

/-- `sm3_single` is the compression function. -/
theorem sm3Single_singles (w wBar : ℕ → BitVec 32) :
    Singles sm3Params (sm3Single w wBar) Sm3.compress := fun x d => by
  have hrounds := sm3CompressStepFunc_foldl x w wBar
    ⟨d[0], d[1], d[2], d[3], d[4], d[5], d[6], d[7]⟩ (Nat.le_refl 64)
  have hd : #v[d[0], d[1], d[2], d[3], d[4], d[5], d[6], d[7]] = d := by
    ext i hi
    interval_cases i <;> rfl
  dsimp only at hrounds
  rw [Sm3Vars.vars, Sm3Vars.vars, hd] at hrounds
  change _ = Sm3.compress d (window x 0 64)
  rw [Sm3.compress, ← hrounds, sm3Single]
  refine Vector.ext fun i hi => ?_
  interval_cases i <;> simp [get_eq_getElem]

/-! ## The digest -/

/-- The swapped words of the hash, however the message is cut into pieces. -/
theorem sm3Base_digest (w wBar : ℕ → BitVec 32) (buf : Fin (2 * sm3Params.blockSize) → Byte)
    (ctx : HashCtx sm3Params) (pieces : List ((ℕ → Byte) × BitVec 32))
    (hlen : (pieces.flatMap fun a => window a.1 0 a.2.toNat).length < 2 ^ 61) :
    (sm3Base w wBar buf ctx pieces).job.resultDigest =
      byteswapWords (Sm3.hash (pieces.flatMap fun a => window a.1 0 a.2.toNat)) := by
  have hsingle := sm3Single_singles w wBar
  obtain ⟨k, hmid⟩ := updates_mid hsingle pieces (@init_mid _ _ Sm3.compress ctx)
  have hhash := (final_spec hsingle buf hmid).2.2
  exact congrArg byteswapWords (hhash (.inr hlen))

end IsalCrypto.Sm3Mb
