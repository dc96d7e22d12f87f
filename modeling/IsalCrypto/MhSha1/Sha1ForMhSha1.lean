import IsalCrypto.Lib.Sha1
import IsalCrypto.Mh.Segments

/-!
# The second hash of multi-hash SHA-1

`mh_sha1/sha1_for_mh_sha1.c`: SHA-1 of a buffer, with the message schedule in a ring of sixteen
words and the working variables renamed from call to call.

* `sha1SingleForMhSha1_eq`: one block is the standard's compression function.
* `sha1ForMhSha1_eq`: the whole is the standard's hash.
-/

namespace IsalCrypto.MhSha1

open IsalCrypto.Lib IsalCrypto.Mh

/-! ## The macros -/

/-- `rol32`. -/
def rol32 (x : BitVec 32) (r : ℕ) : BitVec 32 := (x <<< r) ^^^ (x >>> (32 - r))

/-- `F1`. -/
def f1 (b c d : BitVec 32) : BitVec 32 := d ^^^ (b &&& (c ^^^ d))

/-- `F2`. -/
def f2 (b c d : BitVec 32) : BitVec 32 := b ^^^ c ^^^ d

/-- `F3`. -/
def f3 (b c d : BitVec 32) : BitVec 32 := (b &&& c) ||| (d &&& (b ||| c))

/-- `F4`. -/
def f4 (b c d : BitVec 32) : BitVec 32 := b ^^^ c ^^^ d

/-- `MH_SHA1_H0`, …, `MH_SHA1_H4`. -/
def mhSha1H : Sha1.Digest :=
  #[0x67452301#32, 0xefcdab89#32, 0x98badcfe#32, 0x10325476#32, 0xc3d2e1f0#32].toVector

/-- `W(i) = rol32(W(i - 3) ^ W(i - 8) ^ W(i - 14) ^ W(i - 16), 1)`: the new word. -/
def updateW (w : Vector (BitVec 32) 16) (i : ℕ) : BitVec 32 :=
  rol32 (ring w (i - 3) ^^^ ring w (i - 8) ^^^ ring w (i - 14) ^^^ ring w (i - 16)) 1

/-- The arguments of a step, and `w`. -/
structure Sha1Vars where
  a : BitVec 32
  b : BitVec 32
  c : BitVec 32
  d : BitVec 32
  e : BitVec 32
  w : Vector (BitVec 32) 16

/-- The text that the step macros share: `W(i)` becomes `wi`, then
`e += rol32(a, 5) + F(b, c, d) + K + W(i); b = rol32(b, 30)`. The next call's arguments are
`(e, a, b, c, d)`. -/
def Sha1Vars.step (f : BitVec 32 → BitVec 32 → BitVec 32 → BitVec 32) (k : BitVec 32) (i : ℕ)
    (wi : BitVec 32) (v : Sha1Vars) : Sha1Vars :=
  let w := setAt v.w (Fin.ofNat 16 i) wi
  { a := v.e + (rol32 v.a 5 + f v.b v.c v.d + k + ring w i)
    b := v.a
    c := rol32 v.b 30
    d := v.c
    e := v.d
    w }

def step00_19 (ww : ℕ → BitVec 32) (i : ℕ) (v : Sha1Vars) : Sha1Vars :=
  v.step f1 0x5a827999#32 i (if i > 15 then updateW v.w i else toBe32 (ww i))

def step20_39 (i : ℕ) (v : Sha1Vars) : Sha1Vars := v.step f2 0x6ed9eba1#32 i (updateW v.w i)

def step40_59 (i : ℕ) (v : Sha1Vars) : Sha1Vars := v.step f3 0x8f1bbcdc#32 i (updateW v.w i)

def step60_79 (i : ℕ) (v : Sha1Vars) : Sha1Vars := v.step f4 0xca62c1d6#32 i (updateW v.w i)

/-- The line of the body with index `i`. -/
def stepLine (ww : ℕ → BitVec 32) (v : Sha1Vars) (i : ℕ) : Sha1Vars :=
  if i < 20 then step00_19 ww i v
  else if i < 40 then step20_39 i v
  else if i < 60 then step40_59 i v
  else step60_79 i v

/-- `_sha1_single_for_mh_sha1` on the words `ww` of its block. -/
def sha1SingleForMhSha1 (ww : ℕ → BitVec 32) (digest : Sha1.Digest) : Sha1.Digest :=
  let v := (List.range 80).foldl (stepLine ww)
    ⟨digest.get 0, digest.get 1, digest.get 2, digest.get 3, digest.get 4, Vector.replicate 16 0#32⟩
  #v[digest.get 0 + v.a, digest.get 1 + v.b, digest.get 2 + v.c, digest.get 3 + v.d,
    digest.get 4 + v.e]

/-- `_sha1_for_mh_sha1`; `buf` is what the stack holds in its array. Its block function is `noipa`:
the compiler does not look into it, so its loads see the length. -/
def sha1ForMhSha1 (buf : Fin 128 → Byte) (input : ℕ → Byte) (len : BitVec 32) : Sha1.Digest :=
  shaForMh (fun data => sha1SingleForMhSha1 fun i => load32 data (4 * i))
    (fun _ => true) mhSha1H buf
    input len

/-! ## The macros and the standard's functions -/

theorem rol32_eq (x : BitVec 32) {r : ℕ} (h0 : 0 < r) (hr : r < 32) :
    rol32 x r = x.rotateLeft r := by
  refine BitVec.eq_of_getLsbD_eq fun i hi => ?_
  rw [rol32, BitVec.getLsbD_xor, BitVec.getLsbD_shiftLeft, BitVec.getLsbD_ushiftRight,
    BitVec.getLsbD_rotateLeft, Nat.mod_eq_of_lt hr]
  by_cases hir : i < r
  · simp [hir, hi]
  · have hout : 32 ≤ 32 - r + i := by omega
    simp [hir, hi, BitVec.getLsbD_of_ge x _ hout]

theorem f1_eq (b c d : BitVec 32) : f1 b c d = Sha1.ch b c d := by
  refine BitVec.eq_of_getLsbD_eq fun i hi => ?_
  simp only [f1, Sha1.ch, BitVec.getLsbD_xor, BitVec.getLsbD_and, BitVec.getLsbD_not, hi,
    decide_true, Bool.true_and]
  cases b.getLsbD i <;> cases c.getLsbD i <;> cases d.getLsbD i <;> rfl

theorem f3_eq (b c d : BitVec 32) : f3 b c d = Sha1.maj b c d := by
  refine BitVec.eq_of_getLsbD_eq fun i _ => ?_
  simp only [f3, Sha1.maj, BitVec.getLsbD_xor, BitVec.getLsbD_and, BitVec.getLsbD_or]
  cases b.getLsbD i <;> cases c.getLsbD i <;> cases d.getLsbD i <;> rfl

/-! ## One block -/

/-- The working variables. -/
def Sha1Vars.vars (v : Sha1Vars) : Sha1.Digest := #v[v.a, v.b, v.c, v.d, v.e]

/-- The schedule of a block as a sequence. -/
def scheduleWord (block : List Byte) (t : ℕ) : BitVec 32 := (Sha1.schedule block).getD t 0#32

/-- A step whose new word is the schedule's is a round. -/
theorem Sha1Vars.step_eq {f : BitVec 32 → BitVec 32 → BitVec 32 → BitVec 32} {k wi : BitVec 32}
    {W : List (BitVec 32)} {t : ℕ} (v : Sha1Vars) (hf : f = Sha1.roundFunction t)
    (hk : k = Sha1.roundConstant t) (hw : wi = W.getD t 0#32) :
    (v.step f k t wi).vars = Sha1.round W v.vars t ∧
      (v.step f k t wi).w = setAt v.w (Fin.ofNat 16 t) (W.getD t 0#32) := by
  have hring : ring (setAt v.w (Fin.ofNat 16 t) wi) t = wi := Vector.getElem_set_self _
  have ha : v.e + (rol32 v.a 5 + f v.b v.c v.d + k + ring (setAt v.w (Fin.ofNat 16 t) wi) t) =
      v.a.rotateLeft 5 + Sha1.roundFunction t v.b v.c v.d + v.e + Sha1.roundConstant t +
        W.getD t 0#32 := by
    rw [hring, rol32_eq _ (by decide) (by decide), hf, hk, hw]
    ac_rfl
  have hb : rol32 v.b 30 = v.b.rotateLeft 30 := rol32_eq _ (by decide) (by decide)
  refine ⟨?_, by rw [step, hw]⟩
  rw [vars, step, ha, hb]
  rfl

/-- The word that `updateW` computes from a ring of the last sixteen. -/
theorem updateW_eq {w : Vector (BitVec 32) 16} {block : List Byte} {t : ℕ}
    (h : RingHolds w (scheduleWord block) t) (h16 : 16 ≤ t) (ht : t < 80) :
    updateW w t = scheduleWord block t := by
  have hread : ∀ k, 0 < k → k ≤ 16 → ring w (t - k) = scheduleWord block (t - k) :=
    fun k h0 hk => h (t - k) (by omega) (by omega)
  rw [updateW, rol32_eq _ (by decide) (by decide), hread 3 (by decide) (by decide),
    hread 8 (by decide) (by decide), hread 14 (by decide) (by decide),
    hread 16 (by decide) (by decide)]
  exact (Sha1.schedule_recurrence block h16 ht).symm

theorem stepLine_eq {ww : ℕ → BitVec 32} {block : List Byte} (hww : LoadsBlock ww block)
    {v : Sha1Vars} {t : ℕ} (h : RingHolds v.w (scheduleWord block) t) (ht : t < 80) :
    (stepLine ww v t).vars = Sha1.round (Sha1.schedule block) v.vars t ∧
      RingHolds (stepLine ww v t).w (scheduleWord block) (t + 1) := by
  have hstep : (stepLine ww v t).vars = Sha1.round (Sha1.schedule block) v.vars t ∧
      (stepLine ww v t).w = setAt v.w (Fin.ofNat 16 t) (scheduleWord block t) := by
    unfold stepLine
    split
    · next h20 =>
      refine v.step_eq ?_ ?_ ?_
      · funext b c d
        rw [f1_eq, Sha1.roundFunction, if_pos h20]
      · rw [Sha1.roundConstant, if_pos h20]
      · split
        · next h16 => exact updateW_eq h (by omega) ht
        · next h16 => rw [hww t (by omega), Sha1.schedule_input block (by omega)]
    · next h20 =>
      have hw := updateW_eq h (by omega) ht
      split
      · next h40 =>
        refine v.step_eq ?_ ?_ hw
        · rw [Sha1.roundFunction, if_neg h20, if_pos h40]
          rfl
        · rw [Sha1.roundConstant, if_neg h20, if_pos h40]
      · next h40 =>
        split
        · next h60 =>
          refine v.step_eq ?_ ?_ hw
          · funext b c d
            rw [f3_eq, Sha1.roundFunction, if_neg h20, if_neg h40, if_pos h60]
          · rw [Sha1.roundConstant, if_neg h20, if_neg h40, if_pos h60]
        · next h60 =>
          refine v.step_eq ?_ ?_ hw
          · rw [Sha1.roundFunction, if_neg h20, if_neg h40, if_neg h60]
            rfl
          · rw [Sha1.roundConstant, if_neg h20, if_neg h40, if_neg h60]
  exact ⟨hstep.1, hstep.2 ▸ h.set⟩

/-- The first `t` lines are the first `t` rounds, whatever the ring holds before them. -/
theorem stepLines_eq {ww : ℕ → BitVec 32} {block : List Byte} (hww : LoadsBlock ww block)
    (v : Sha1Vars) {t : ℕ} (ht : t ≤ 80) :
    ((List.range t).foldl (stepLine ww) v).vars =
        (List.range t).foldl (Sha1.round (Sha1.schedule block)) v.vars ∧
      RingHolds ((List.range t).foldl (stepLine ww) v).w (scheduleWord block) t := by
  induction t with
  | zero => exact ⟨rfl, RingHolds.zero _ _⟩
  | succ t ih =>
    obtain ⟨hvars, hring⟩ := ih (Nat.le_of_succ_le ht)
    have hline := stepLine_eq hww hring ht
    rw [List.range_succ, List.foldl_append, List.foldl_append, ← hvars]
    exact hline

/-- `_sha1_single_for_mh_sha1` is the compression function. -/
theorem sha1SingleForMhSha1_eq {ww : ℕ → BitVec 32} {block : List Byte} (hww : LoadsBlock ww block)
    (digest : Sha1.Digest) : sha1SingleForMhSha1 ww digest = Sha1.compress digest block := by
  have h := (stepLines_eq hww
    ⟨digest[0], digest[1], digest[2], digest[3], digest[4], Vector.replicate 16 0#32⟩ le_rfl).1
  have hvars : #v[digest[0], digest[1], digest[2], digest[3], digest[4]] = digest := by
    ext i hi
    interval_cases i <;> rfl
  rw [Sha1Vars.vars, Sha1Vars.vars, hvars] at h
  rw [Sha1.compress, ← h, sha1SingleForMhSha1]
  ext i hi
  interval_cases i <;> simp [get_eq_getElem]

/-- `_sha1_for_mh_sha1` is SHA-1. -/
theorem sha1ForMhSha1_eq (buf : Fin 128 → Byte) (input : ℕ → Byte) (len : BitVec 32) :
    sha1ForMhSha1 buf input len = Sha1.hash (window input 0 len.toNat) :=
  shaForMh_eq (fun x d => sha1SingleForMhSha1_eq (loadsBlock_load32 x) d) (fun _ => rfl) _ _ _ _

end IsalCrypto.MhSha1
