import IsalCrypto.Mh.Segments

/-!
# The second hash of multi-hash SHA-256

`mh_sha256/sha256_for_mh_sha256.c`: SHA-256 of a buffer, with the message schedule in a ring of
sixteen words and the working variables renamed from call to call.

* `sha256SingleForMhSha256_eq`: one block is the standard's compression function.
* `sha256ForMhSha256_eq`: the whole compresses the bytes that are loaded.
-/

namespace IsalCrypto.MhSha256

open IsalCrypto.Lib IsalCrypto.Mh

/-! ## The macros -/

/-- `ror32`. -/
def ror32 (x : BitVec 32) (r : ℕ) : BitVec 32 := (x >>> r) ^^^ (x <<< (32 - r))

/-- `S0`, of the schedule. -/
def S0 (w : BitVec 32) : BitVec 32 := ror32 w 7 ^^^ ror32 w 18 ^^^ (w >>> 3)

/-- `S1`, of the schedule. -/
def S1 (w : BitVec 32) : BitVec 32 := ror32 w 17 ^^^ ror32 w 19 ^^^ (w >>> 10)

/-- `s0`, of the rounds. -/
def s0 (a : BitVec 32) : BitVec 32 := ror32 a 2 ^^^ ror32 a 13 ^^^ ror32 a 22

/-- `s1`, of the rounds. -/
def s1 (e : BitVec 32) : BitVec 32 := ror32 e 6 ^^^ ror32 e 11 ^^^ ror32 e 25

def maj (a b c : BitVec 32) : BitVec 32 := (a &&& b) ^^^ (a &&& c) ^^^ (b &&& c)

def ch (e f g : BitVec 32) : BitVec 32 := (e &&& f) ^^^ (g &&& ~~~e)

/-- `MH_SHA256_H0`, …, `MH_SHA256_H7`. -/
def mhSha256H : Sha256.Digest :=
  #[0x6a09e667#32, 0xbb67ae85#32, 0x3c6ef372#32, 0xa54ff53a#32, 0x510e527f#32, 0x9b05688c#32,
    0x1f83d9ab#32, 0x5be0cd19#32].toVector

/-- `k`, and the constants of the calls of `step`. -/
def stepConstants : List (BitVec 32) :=
  [0x428a2f98#32, 0x71374491#32, 0xb5c0fbcf#32, 0xe9b5dba5#32, 0x3956c25b#32, 0x59f111f1#32,
   0x923f82a4#32, 0xab1c5ed5#32, 0xd807aa98#32, 0x12835b01#32, 0x243185be#32, 0x550c7dc3#32,
   0x72be5d74#32, 0x80deb1fe#32, 0x9bdc06a7#32, 0xc19bf174#32, 0xe49b69c1#32, 0xefbe4786#32,
   0x0fc19dc6#32, 0x240ca1cc#32, 0x2de92c6f#32, 0x4a7484aa#32, 0x5cb0a9dc#32, 0x76f988da#32,
   0x983e5152#32, 0xa831c66d#32, 0xb00327c8#32, 0xbf597fc7#32, 0xc6e00bf3#32, 0xd5a79147#32,
   0x06ca6351#32, 0x14292967#32, 0x27b70a85#32, 0x2e1b2138#32, 0x4d2c6dfc#32, 0x53380d13#32,
   0x650a7354#32, 0x766a0abb#32, 0x81c2c92e#32, 0x92722c85#32, 0xa2bfe8a1#32, 0xa81a664b#32,
   0xc24b8b70#32, 0xc76c51a3#32, 0xd192e819#32, 0xd6990624#32, 0xf40e3585#32, 0x106aa070#32,
   0x19a4c116#32, 0x1e376c08#32, 0x2748774c#32, 0x34b0bcb5#32, 0x391c0cb3#32, 0x4ed8aa4a#32,
   0x5b9cca4f#32, 0x682e6ff3#32, 0x748f82ee#32, 0x78a5636f#32, 0x84c87814#32, 0x8cc70208#32,
   0x90befffa#32, 0xa4506ceb#32, 0xbef9a3f7#32, 0xc67178f2#32]

/-- `W(i - 16) + S0(W(i - 15)) + W(i - 7) + S1(W(i - 2))`. -/
def updateW (w : Vector (BitVec 32) 16) (i : ℕ) : BitVec 32 :=
  ring w (i - 16) + S0 (ring w (i - 15)) + ring w (i - 7) + S1 (ring w (i - 2))

/-- The arguments of `step`, and `w`. -/
structure Sha256Vars where
  a : BitVec 32
  b : BitVec 32
  c : BitVec 32
  d : BitVec 32
  e : BitVec 32
  f : BitVec 32
  g : BitVec 32
  h : BitVec 32
  w : Vector (BitVec 32) 16

/-- `step` with the new word `wi`. The next call's arguments are `(h, a, b, c, d, e, f, g)`. -/
def Sha256Vars.step (k : BitVec 32) (i : ℕ) (wi : BitVec 32) (v : Sha256Vars) : Sha256Vars :=
  let w := setAt v.w (Fin.ofNat 16 i) wi
  let t2 := s0 v.a + maj v.a v.b v.c
  let t1 := v.h + s1 v.e + ch v.e v.f v.g + k + ring w i
  { a := t1 + t2
    b := v.a
    c := v.b
    d := v.c
    e := v.d + t1
    f := v.e
    g := v.f
    h := v.g
    w }

/-- The call of `step` with index `i`. -/
def stepLine (ww : ℕ → BitVec 32) (v : Sha256Vars) (i : ℕ) : Sha256Vars :=
  v.step (stepConstants.getD i 0#32) i (if i < 16 then toBe32 (ww i) else updateW v.w i)

/-- `sha256_single_for_mh_sha256` on the words `ww` of its block; `w` is what the stack holds in
its array. -/
def sha256SingleForMhSha256 (w : Vector (BitVec 32) 16) (ww : ℕ → BitVec 32)
    (digest : Sha256.Digest) : Sha256.Digest :=
  let v := (List.range 64).foldl (stepLine ww)
    ⟨digest.get 0, digest.get 1, digest.get 2, digest.get 3, digest.get 4, digest.get 5,
      digest.get 6, digest.get 7, w⟩
  #v[digest.get 0 + v.a, digest.get 1 + v.b, digest.get 2 + v.c, digest.get 3 + v.d,
    digest.get 4 + v.e, digest.get 5 + v.f, digest.get 6 + v.g, digest.get 7 + v.h]

/-- `sha256_for_mh_sha256`; `buf` and `w` are what the stack holds in its array and in the one of
`sha256_single_for_mh_sha256`. Unlike `sha1_for_mh_sha1.c`, the file does not make its block
function `noipa`: which of the loads of the padded block see the length is left to the compiler, and
is the parameter `sees`. -/
def sha256ForMhSha256 (sees : ℕ → Bool) (buf : Fin 128 → Byte) (w : Vector (BitVec 32) 16)
    (input : ℕ → Byte) (len : BitVec 32) : Sha256.Digest :=
  shaForMh (fun data => sha256SingleForMhSha256 w fun i => load32 data (4 * i)) sees mhSha256H buf
    input len

/-! ## The macros and the standard's functions -/

theorem ror32_eq (x : BitVec 32) {r : ℕ} (hr : r < 32) : ror32 x r = x.rotateRight r := by
  refine BitVec.eq_of_getLsbD_eq fun i hi => ?_
  rw [ror32, BitVec.getLsbD_xor, BitVec.getLsbD_shiftLeft, BitVec.getLsbD_ushiftRight,
    BitVec.getLsbD_rotateRight, Nat.mod_eq_of_lt hr]
  by_cases hir : i < 32 - r
  · simp [hir]
  · have hout : 32 ≤ r + i := by omega
    simp [hir, hi, BitVec.getLsbD_of_ge x _ hout]

theorem S0_eq (w : BitVec 32) : S0 w = Sha256.smallSigma0 w := by
  rw [S0, ror32_eq _ (by decide), ror32_eq _ (by decide), Sha256.smallSigma0]

theorem S1_eq (w : BitVec 32) : S1 w = Sha256.smallSigma1 w := by
  rw [S1, ror32_eq _ (by decide), ror32_eq _ (by decide), Sha256.smallSigma1]

theorem s0_eq (a : BitVec 32) : s0 a = Sha256.bigSigma0 a := by
  rw [s0, ror32_eq _ (by decide), ror32_eq _ (by decide), ror32_eq _ (by decide), Sha256.bigSigma0]

theorem s1_eq (e : BitVec 32) : s1 e = Sha256.bigSigma1 e := by
  rw [s1, ror32_eq _ (by decide), ror32_eq _ (by decide), ror32_eq _ (by decide), Sha256.bigSigma1]

theorem ch_eq (e f g : BitVec 32) : ch e f g = Sha256.ch e f g := by
  rw [ch, Sha256.ch, BitVec.and_comm g]

/-! ## One block -/

/-- The working variables. -/
def Sha256Vars.vars (v : Sha256Vars) : Sha256.Digest := #v[v.a, v.b, v.c, v.d, v.e, v.f, v.g, v.h]

/-- The schedule of a block as a sequence. -/
def scheduleWord (block : List Byte) (t : ℕ) : BitVec 32 := (Sha256.schedule block).getD t 0#32

/-- A step is a round. -/
theorem Sha256Vars.step_eq (v : Sha256Vars) (k wi : BitVec 32) (t : ℕ) :
    (v.step k t wi).vars = Sha256.round v.vars (k, wi) := by
  have hring : ring (setAt v.w (Fin.ofNat 16 t) wi) t = wi := Vector.getElem_set_self _
  rw [vars, step]
  dsimp only
  rw [hring, s0_eq, s1_eq, ch_eq]
  rfl

/-- The word that `updateW` computes from a ring of the last sixteen. -/
theorem updateW_eq {w : Vector (BitVec 32) 16} {block : List Byte} {t : ℕ}
    (h : RingHolds w (scheduleWord block) t) (h16 : 16 ≤ t) (ht : t < 64) :
    updateW w t = scheduleWord block t := by
  have hread : ∀ k, 0 < k → k ≤ 16 → ring w (t - k) = scheduleWord block (t - k) :=
    fun k h0 hk => h (t - k) (by omega) (by omega)
  rw [updateW, S0_eq, S1_eq, hread 16 (by decide) (by decide), hread 15 (by decide) (by decide),
    hread 7 (by decide) (by decide), hread 2 (by decide) (by decide)]
  have hrec : scheduleWord block t = Sha256.smallSigma1 (scheduleWord block (t - 2)) +
      scheduleWord block (t - 7) + Sha256.smallSigma0 (scheduleWord block (t - 15)) +
      scheduleWord block (t - 16) := Sha256.schedule_recurrence block h16 ht
  have hsum : ∀ a b c d : BitVec 32, a + b + c + d = d + c + b + a := by
    intro a b c d
    ac_rfl
  rw [hrec, hsum]

theorem stepLine_eq {ww : ℕ → BitVec 32} {block : List Byte} (hww : LoadsBlock ww block)
    {v : Sha256Vars} {t : ℕ} (h : RingHolds v.w (scheduleWord block) t) (ht : t < 64) :
    (stepLine ww v t).vars =
        Sha256.round v.vars (Sha256.roundConstants.getD t 0#32, scheduleWord block t) ∧
      RingHolds (stepLine ww v t).w (scheduleWord block) (t + 1) := by
  have hword : (if t < 16 then toBe32 (ww t) else updateW v.w t) = scheduleWord block t := by
    split
    · next h16 => rw [hww t h16, scheduleWord, Sha256.schedule_input block h16]
    · next h16 => exact updateW_eq h (by omega) ht
  rw [stepLine, hword]
  exact ⟨v.step_eq _ _ t, h.set⟩

/-- The first `t` lines are the first `t` rounds, whatever the ring holds before them. -/
theorem stepLines_eq {ww : ℕ → BitVec 32} {block : List Byte} (hww : LoadsBlock ww block)
    (v : Sha256Vars) {t : ℕ} (ht : t ≤ 64) :
    ((List.range t).foldl (stepLine ww) v).vars =
        (List.range t).foldl (fun s t => Sha256.round s
          (Sha256.roundConstants.getD t 0#32, (Sha256.schedule block).getD t 0#32)) v.vars ∧
      RingHolds ((List.range t).foldl (stepLine ww) v).w (scheduleWord block) t := by
  induction t with
  | zero => exact ⟨rfl, RingHolds.zero _ _⟩
  | succ t ih =>
    obtain ⟨hvars, hring⟩ := ih (Nat.le_of_succ_le ht)
    have hline := stepLine_eq hww hring ht
    rw [List.range_succ, List.foldl_append, List.foldl_append, ← hvars]
    exact hline

/-- `sha256_single_for_mh_sha256` is the compression function. -/
theorem sha256SingleForMhSha256_eq {ww : ℕ → BitVec 32} {block : List Byte}
    (hww : LoadsBlock ww block) (w : Vector (BitVec 32) 16) (digest : Sha256.Digest) :
    sha256SingleForMhSha256 w ww digest = Sha256.compress digest block := by
  have h := (stepLines_eq hww ⟨digest[0], digest[1], digest[2], digest[3], digest[4], digest[5],
    digest[6], digest[7], w⟩ le_rfl).1
  have hvars : #v[digest[0], digest[1], digest[2], digest[3], digest[4], digest[5], digest[6],
      digest[7]] = digest := by
    ext i hi
    interval_cases i <;> rfl
  rw [Sha256Vars.vars, Sha256Vars.vars, hvars] at h
  rw [Sha256.compress_eq, ← h, sha256SingleForMhSha256]
  ext i hi
  interval_cases i <;> simp [get_eq_getElem]

/-- `sha256_for_mh_sha256` compresses the bytes that it loads. -/
theorem sha256ForMhSha256_eq (sees : ℕ → Bool) (buf : Fin 128 → Byte)
    (w : Vector (BitVec 32) 16) (input : ℕ → Byte) (len : BitVec 32) :
    sha256ForMhSha256 sees buf w input len =
      absorb Sha256.compress 64 (stream (shaBytes sees buf input len)) (mdBlocks 64 8 len.toNat) 0
        Sha256.initial :=
  shaForMh_eq_bytes (fun x d => sha256SingleForMhSha256_eq (loadsBlock_load32 x) w d) _ _ _ _ _

end IsalCrypto.MhSha256
