import IsalCrypto.Aes.GcmAarch64Crypt
import IsalCrypto.Aes.GcmAarch64Hash
import IsalCrypto.Aes.GcmSseSpec

/-!
# The whole blocks of a call on AArch64

A call works at a position of a text, a stream `m` from positions to bytes, with the ciphertext as
another stream. The hash lags behind: its register has the last block added and not multiplied.

* `add4s_one`: the register counts the blocks.
* `TextCall.Sums.middle`: one round, which adds a product and encrypts the next block.
* `TextCall.Hashed.wholeBlocks`: all whole blocks of a call, in batches and one by one.
-/

namespace IsalCrypto.Aes.GcmAarch64

open IsalCrypto.Lib
open IsalCrypto.Aes.GcmSse (EncDec)

/-! ## Counters -/

section Counters

variable {v x : BitVec 128} {i k : ℕ}

theorem byteAt_rev32 (v : BitVec 128) (hk : k < 16) :
    byteAt (rev32 v) k = byteAt v (k / 4 * 4 + (3 - k % 4)) := by
  rw [rev32, byteAt_ofBytes (by simp), List.getD_eq_getElem?_getD, List.getElem?_map,
    List.getElem?_range hk]
  rfl

@[simp]
theorem rev32_rev32 (v : BitVec 128) : rev32 (rev32 v) = v := by
  refine eq_of_byteAt_eq fun k hk => ?_
  rw [byteAt_rev32 _ hk, byteAt_rev32 _ (by omega)]
  exact congrArg (byteAt v) (by omega)

/-- A counter block as the register has it. -/
def ctrReg (x : BitVec 128) : BitVec 128 := rev32 (byteSwap x)

@[simp]
theorem rev32_ctrReg (x : BitVec 128) : rev32 (ctrReg x) = byteSwap x := rev32_rev32 _

/-- The 32-bit elements are in the opposite order. -/
theorem getLsbD_ctrReg (x : BitVec 128) (hi : i < 128) :
    (ctrReg x).getLsbD i = x.getLsbD (32 * (3 - i / 32) + i % 32) := by
  have hbyte : byteAt (ctrReg x) (i / 8) = byteAt x (4 * (3 - i / 8 / 4) + i / 8 % 4) := by
    rw [ctrReg, byteAt_rev32 _ (by omega), byteAt_byteSwap (by omega)]
    exact congrArg (byteAt x) (by omega)
  have hbit := congrArg (BitVec.getLsbD · (i % 8)) hbyte
  simp only [getLsbD_byteAt, Nat.div_add_mod] at hbit
  rw [decide_eq_true (Nat.mod_lt i (by decide)), Bool.true_and, Bool.true_and] at hbit
  rw [hbit]
  exact congrArg x.getLsbD (by omega)

/-- The register counts. -/
theorem add4s_one (x : BitVec 128) : add4s (ctrReg x) one = ctrReg (inc32 x) := by
  have hzero : ∀ q < 4, q ≠ 3 → one.extractLsb' (32 * q) 32 = 0#32 := by decide
  have hone : one.extractLsb' (32 * 3) 32 = 1#32 := by decide
  have hlow : (ctrReg x).extractLsb' (32 * 3) 32 = x.extractLsb' 0 32 := by
    refine BitVec.eq_of_getLsbD_eq fun b hb => ?_
    rw [BitVec.getLsbD_extractLsb', BitVec.getLsbD_extractLsb', getLsbD_ctrReg x (by omega)]
    exact congrArg (decide (b < 32) && x.getLsbD ·) (by omega)
  refine BitVec.eq_of_getLsbD_eq fun i hi => ?_
  refine (GcmSse.getLsbD_paddd (ctrReg x) one hi).trans ?_
  rw [getLsbD_ctrReg _ hi, GcmSse.getLsbD_inc32 x (by omega)]
  by_cases hthree : i / 32 = 3
  · rw [hthree, hone, hlow, if_pos (by omega)]
    exact congrArg (BitVec.getLsbD _) (by omega)
  · rw [hzero _ (by omega) hthree, BitVec.add_zero, if_neg (by omega), BitVec.getLsbD_extractLsb',
      decide_eq_true (show i % 32 < 32 by omega), Bool.true_and, Nat.div_add_mod,
      getLsbD_ctrReg x hi]

end Counters

/-! ## The two sums -/

section Folded

variable {keys : ℕ → Byte} {s : HashRegs} {n c : ℕ}

/-- What the two sums stand for. -/
noncomputable def HashRegs.folded (s : HashRegs) : Gf := ev s.low + gfX ^ 128 * ev s.high

theorem ev_ext8_zero (v : BitVec 128) : ev (ext8 v zero) = ev (highQ v) := by
  rw [ext8, lowQ_zero, ev_append, ev_zero, mul_zero, add_zero]

theorem ev_zero_ext8 (v : BitVec 128) : ev (ext8 zero v) = gfX ^ 64 * ev (lowQ v) := by
  rw [ext8, highQ_zero, ev_append, ev_zero, zero_add]

/-- The middle products, put into the two sums. -/
theorem ev_ext8_ext8 (v : BitVec 128) :
    ev (ext8 zero v) + gfX ^ 128 * ev (ext8 v zero) = gfX ^ 64 * ev v := by
  rw [ev_ext8_zero, ev_zero_ext8, ev_halves v]
  ring

theorem folded_multFirst (hext : s.hashkeyExt = ext8 s.hashkey s.hashkey) :
    (multFirst s).folded = ev s.aadhash * ev s.hashkey := by
  have hmiddle := ev_ext8_ext8 (pmull s.aadhash s.hashkeyExt ^^^ pmull2 s.aadhash s.hashkeyExt)
  have hmul := ev_mul s.aadhash s.hashkey
  rw [← hext, ← ev_xor] at hmul
  rw [HashRegs.folded, multFirst, ev_xor, ev_xor]
  linear_combination hmul + hmiddle

theorem folded_multNext (hext : s.hashkeyExt = ext8 s.hashkey s.hashkey) :
    (multNext s).folded = s.folded + ev s.aadhash * ev s.hashkey := by
  have hmiddle := ev_ext8_ext8 (pmull2 s.aadhash s.hashkeyExt ^^^ pmull s.aadhash s.hashkeyExt)
  have hmul := ev_mul s.aadhash s.hashkey
  rw [← hext, ← ev_xor, BitVec.xor_comm (pmull _ s.hashkeyExt)] at hmul
  rw [HashRegs.folded, HashRegs.folded, multNext, ev_xor, ev_xor, ev_xor, ev_xor]
  linear_combination hmul + hmiddle

theorem folded_congr {t : HashRegs} (hhigh : t.high = s.high) (hlow : t.low = s.low) :
    t.folded = s.folded := by
  rw [HashRegs.folded, HashRegs.folded, hhigh, hlow]

/-- A load of a pair leaves the two sums. -/
theorem folded_nextPair (keys : ℕ → Byte) (c : ℕ) (s : HashRegs) :
    (nextPair keys c s).folded = s.folded := by
  unfold nextPair
  split
  · apply folded_congr <;> dsimp only
  · rfl

/-- The reduction of the two sums. -/
theorem ev_polyMultFinalX2 (s : HashRegs) :
    ev (polyMultFinalX2 s).aadhash = ev s.aadhash + s.folded := by
  have hred := ev_reduction s.high s.low 0#128
  have hsame : (polyMultFinalX2 s).aadhash = s.aadhash ^^^ reduction s.high s.low 0#128 := by
    have hhigh : ext8 0#128 zero = 0#128 := by decide
    have hlow : ext8 zero 0#128 = 0#128 := by decide
    dsimp only [polyMultFinalX2, reduction]
    rw [hhigh, hlow, BitVec.xor_zero, BitVec.xor_zero]
    ac_rfl
  rw [hsame, ev_xor, hred, ev_zero, mul_zero, add_zero, HashRegs.folded]

end Folded

/-! ## One call -/

/-- What is fixed in one call: the key, the text `m` of all calls, of which `n` bytes from position
`L` on are in `inp`, the first counter block, and the value that the hash lags from. -/
structure TextCall where
  aes : BitVec 128 → BitVec 128
  encDec : EncDec
  keys : ℕ → Byte
  h : BitVec 128
  x : BitVec 128
  j : BitVec 128
  m : ℕ → Byte
  inp : ℕ → Byte
  out : ℕ → Byte
  L : ℕ
  n : ℕ
  keysFor : KeysFor keys h
  inp_eq : ∀ k < n, inp k = m (L + k)

namespace TextCall

variable {C : TextCall} {s : CryptRegs} {q p d b c : ℕ}

/-- The ciphertext of all calls. -/
def cipher (C : TextCall) : ℕ → Byte := C.encDec.cipherText C.aes C.j C.m

/-- The hash of the first `q` blocks. -/
noncomputable def lag (C : TextCall) (q : ℕ) : Gf :=
  gfEl (ghashLag C.h C.x (streamBlock C.cipher) q)

theorem lag_succ (C : TextCall) (q : ℕ) :
    C.lag (q + 1) = C.lag q * gfEl C.h + gfEl (streamBlock C.cipher q) :=
  gfEl_ghashLag_succ ..

/-- The call has come to block `q` of the text. -/
structure Position (C : TextCall) (q : ℕ) (s : CryptRegs) : Prop where
  ctr : s.ctr = ctrReg (inc32^[q] C.j)
  datAdr : C.L + s.hash.datAdr = 16 * q
  outAdr : s.outAdr = s.hash.datAdr
  out : ∀ k, s.out k =
    if k < s.hash.datAdr then gctrAt C.aes (inc32 C.j) C.m (C.L + k) else C.out k

/-- And the sums are to become the hash, with the power `p` of the hash key to come for the last
block. -/
structure Sums (C : TextCall) (q p : ℕ) (s : CryptRegs) : Prop extends Position C q s where
  sums : s.hash.folded + ev s.hash.aadhash * gfEl C.h ^ p = C.lag q * gfEl C.h ^ p

/-- And the hash is in its register. -/
structure Hashed (C : TextCall) (q : ℕ) (s : CryptRegs) : Prop extends Position C q s where
  aadhash : ev s.hash.aadhash = C.lag q

/-- Only the hash changes. -/
theorem Position.hash (hs : C.Position q s) {t : HashRegs} (hdat : t.datAdr = s.hash.datAdr) :
    C.Position q { s with hash := t } where
  ctr := hs.ctr
  datAdr := by
    dsimp only
    rw [hdat, hs.datAdr]
  outAdr := hs.outAdr.trans hdat.symm
  out := fun k => by
    dsimp only
    rw [hdat]
    exact hs.out k

/-- The counter of the next block. -/
theorem Position.add4s_ctr (hs : C.Position q s) :
    add4s s.ctr one = ctrReg (inc32^[q + 1] C.j) := by
  rw [hs.ctr, add4s_one, Function.iterate_succ_apply']

/-- A block is encrypted or decrypted, and its ciphertext is the next block of the hash. -/
theorem Position.cryptBlock (hs : C.Position q s) (hq : 16 * (q + 1) ≤ C.L + C.n) :
    C.Position (q + 1) (cryptBlock C.aes C.inp C.encDec s) ∧
      ev (GcmAarch64.cryptBlock C.aes C.inp C.encDec s).hash.aadhash =
        gfEl (streamBlock C.cipher q) := by
  have hdat := hs.datAdr
  have hload : ldQ C.inp s.hash.datAdr = ofBytes (window C.m (16 * q) 16) := by
    rw [ldQ, window_eq_window fun k hk => ?_]
    rw [C.inp_eq _ (by omega)]
    exact congrArg C.m (by omega)
  have hctr := hs.add4s_ctr
  have hcrypt : C.aes (rev32 (add4s s.ctr one)) ^^^ ldQ C.inp s.hash.datAdr =
      ofBytes (window (gctrAt C.aes (inc32 C.j) C.m) (16 * q) 16) := by
    rw [hctr, rev32_ctrReg, hload, GcmSse.ofBytes_window_gctrAt]
  unfold GcmAarch64.cryptBlock
  dsimp only
  rw [hcrypt, hload]
  constructor
  · refine ⟨hctr, ?_, ?_, fun k => ?_⟩
    · dsimp only
      omega
    · dsimp only
      rw [hs.outAdr]
    · dsimp only
      rw [stQ_apply, hs.outAdr, hs.out]
      by_cases hnew : s.hash.datAdr ≤ k ∧ k < s.hash.datAdr + 16
      · rw [if_pos hnew, if_pos hnew.2, byteAt_ofBytes_window (Nat.le_refl 16), if_pos (by omega)]
        exact congrArg _ (by omega)
      · rw [if_neg hnew]
        exact if_congr (by omega) rfl rfl
  · rw [ev_rbit, cipher, streamBlock]
    cases C.encDec with
    | enc => rfl
    | dec => rfl

/-- The rest of a round, when the sums have taken in the block before. -/
theorem Position.sums (hs : C.Position q s) {t : HashRegs} (hdat : t.datAdr = s.hash.datAdr)
    (hfolded : t.folded = C.lag q * gfEl C.h ^ (p + 1)) (hq : 16 * (q + 1) ≤ C.L + C.n) :
    C.Sums (q + 1) p (GcmAarch64.cryptBlock C.aes C.inp C.encDec { s with hash := t }) := by
  obtain ⟨hpos, hblock⟩ := (hs.hash hdat).cryptBlock hq
  refine ⟨hpos, ?_⟩
  have hkeep : (GcmAarch64.cryptBlock C.aes C.inp C.encDec { s with hash := t }).hash.folded =
      t.folded := by
    unfold GcmAarch64.cryptBlock
    apply folded_congr <;> dsimp only
  rw [hkeep, hfolded, hblock, C.lag_succ]
  ring

/-- The pair stays. -/
theorem holdsPair_cryptBlock {keys : ℕ → Byte} {n : ℕ} {t : HashRegs} (hpair : HoldsPair keys n t) :
    HoldsPair keys n
      (GcmAarch64.cryptBlock C.aes C.inp C.encDec { s with hash := t }).hash := by
  unfold GcmAarch64.cryptBlock
  apply hpair.congr <;> dsimp only

/-- `aes_gcm_middle`. -/
theorem Sums.middle (hs : C.Sums q (p + 1) s) {n : ℕ} (hpair : HoldsPair C.keys n s.hash)
    (hn : n + p + 1 = hashkeyTotalNum) (hq : 16 * (q + 1) ≤ C.L + C.n) (c : ℕ) :
    C.Sums (q + 1) p (aesGcmMiddle C.aes C.keys C.inp C.encDec c s) ∧
      (1 < c → HoldsPair C.keys (n + 1) (aesGcmMiddle C.aes C.keys C.inp C.encDec c s).hash) := by
  have hlt : n < hashkeyTotalNum := by omega
  obtain ⟨-, -, hdat⟩ := nextPair_keeps C.keys c (multNext s.hash)
  have hdat' : (multNext s.hash).datAdr = s.hash.datAdr := by dsimp only [multNext]
  constructor
  · refine hs.toPosition.sums (hdat.trans hdat') ?_ hq
    rw [folded_nextPair, folded_multNext (hpair.ext_eq C.keysFor hlt), hpair.hashkey,
      C.keysFor.ev_hashkey hlt, show hashkeyTotalNum - n = p + 1 by omega, hs.sums]
  · intro hc
    refine holdsPair_cryptBlock (holdsPair_nextPair hc ?_)
    dsimp only [multNext]
    exact hpair.hashkeyAdr

/-- `aes_gcm_init`, the macro. -/
theorem Hashed.first (hs : C.Hashed q s) {n : ℕ} (hadr : s.hash.hashkeyAdr = 32 * n)
    (hn : n + p + 1 = hashkeyTotalNum) (hq : 16 * (q + 1) ≤ C.L + C.n) (hc : 1 < c) :
    C.Sums (q + 1) p (aesGcmFirst C.aes C.keys C.inp C.encDec c s) ∧
      HoldsPair C.keys (n + 1) (aesGcmFirst C.aes C.keys C.inp C.encDec c s).hash := by
  have hlt : n < hashkeyTotalNum := by omega
  have hpair : HoldsPair C.keys n (nextPair C.keys 2 s.hash) := holdsPair_nextPair (by decide) hadr
  obtain ⟨-, haad, hdat⟩ := nextPair_keeps C.keys 2 s.hash
  unfold aesGcmFirst
  generalize nextPair C.keys 2 s.hash = t at hpair haad hdat
  obtain ⟨-, -, hdat₂⟩ := nextPair_keeps C.keys c (multFirst t)
  have hdat₁ : (multFirst t).datAdr = t.datAdr := by dsimp only [multFirst]
  constructor
  · refine hs.toPosition.sums (hdat₂.trans (hdat₁.trans hdat)) ?_ hq
    rw [folded_nextPair, folded_multFirst (hpair.ext_eq C.keysFor hlt), haad, hs.aadhash,
      hpair.hashkey, C.keysFor.ev_hashkey hlt, show hashkeyTotalNum - n = p + 1 by omega]
  · refine holdsPair_cryptBlock (holdsPair_nextPair hc ?_)
    dsimp only [multFirst]
    exact hpair.hashkeyAdr

/-- `poly_mult_final_x2`. -/
theorem Sums.final (hs : C.Sums q 0 s) : C.Hashed q { s with hash := polyMultFinalX2 s.hash } where
  toPosition := hs.toPosition.hash (by dsimp only [polyMultFinalX2])
  aadhash := by
    have hsums := hs.sums
    rw [pow_zero, mul_one, mul_one] at hsums
    dsimp only
    rw [ev_polyMultFinalX2, add_comm, hsums]

/-- The address of the next pair is set. -/
theorem Hashed.hashkeyAdr (hs : C.Hashed q s) (a : ℕ) :
    C.Hashed q { s with hash := { s.hash with hashkeyAdr := a } } :=
  ⟨hs.toPosition.hash rfl, hs.aadhash⟩

/-! ### Batches -/

theorem Sums.middles (hs : C.Sums q (c + 1) s) {n : ℕ} (hpair : HoldsPair C.keys n s.hash)
    (hn : n + c + 1 = hashkeyTotalNum) (hq : 16 * (q + c + 1) ≤ C.L + C.n) :
    C.Sums (q + c + 1) 0 (aesGcmMiddles C.aes C.keys C.inp C.encDec (c + 1) s) := by
  induction c generalizing q n s with
  | zero => exact (hs.middle hpair hn hq 1).1
  | succ c ih =>
    obtain ⟨hsums, hpair'⟩ := hs.middle hpair hn (by omega) (c + 2)
    have hrest := ih hsums (hpair' (by omega)) (by omega) (by omega)
    rw [show q + 1 + c + 1 = q + (c + 1) + 1 by omega] at hrest
    exact hrest

theorem Sums.middleLoop (hs : C.Sums q (c + 1) s) {n : ℕ} (hpair : HoldsPair C.keys n s.hash)
    (hn : n + c + 1 = hashkeyTotalNum) (hq : 16 * (q + c + 1) ≤ C.L + C.n) :
    C.Sums (q + c) 1 (middleLoop C.aes C.keys C.inp C.encDec c s) ∧
      HoldsPair C.keys (hashkeyTotalNum - 1) (middleLoop C.aes C.keys C.inp C.encDec c s).hash := by
  induction c generalizing q n s with
  | zero =>
    have hlast : n = hashkeyTotalNum - 1 := by omega
    exact ⟨hs, hlast ▸ hpair⟩
  | succ c ih =>
    obtain ⟨hsums, hpair'⟩ := hs.middle hpair hn (by omega) 2
    have hrest := ih hsums (hpair' (by decide)) (by omega) (by omega)
    rw [show q + 1 + c = q + (c + 1) by omega] at hrest
    exact hrest

/-- A batch. -/
theorem Hashed.nRound (hs : C.Hashed q s) (hq : 16 * (q + hashkeyTotalNum) ≤ C.L + C.n) :
    C.Hashed (q + hashkeyTotalNum)
      (aesGcmNRound C.aes C.keys C.inp C.encDec hashkeyTotalNum s) := by
  have hq' : 16 * (q + 24) ≤ C.L + C.n := hq
  obtain ⟨hsums, hpair⟩ := (hs.hashkeyAdr ((24 - hashkeyTotalNum) <<< 5)).first (n := 0) (p := 23)
    (c := hashkeyTotalNum) rfl rfl (by omega) (by decide)
  exact (hsums.middles (c := 22) hpair rfl (by omega)).final

/-- The batches, and how many blocks are left. -/
theorem Hashed.cryptLoop (hs : C.Hashed q s) (hq : 16 * (q + b) ≤ C.L + C.n) :
    (cryptLoop C.aes C.keys C.inp C.encDec b s).1 < hashkeyTotalNum ∧
      ∃ r, r + (GcmAarch64.cryptLoop C.aes C.keys C.inp C.encDec b s).1 = q + b ∧
        C.Hashed r (GcmAarch64.cryptLoop C.aes C.keys C.inp C.encDec b s).2 := by
  induction b using Nat.strongRecOn generalizing q s with
  | _ b ih =>
    unfold GcmAarch64.cryptLoop
    split
    · next hle => exact ⟨Nat.lt_of_le_of_lt hle (by decide), q, rfl, hs⟩
    · next hgt =>
      have hge : hashkeyTotalNum ≤ b := by
        unfold hashkeyTotalNum at *
        omega
      obtain ⟨hlt, r, hr, hloop⟩ := ih (b - hashkeyTotalNum) (Nat.sub_lt (by omega) (by decide))
        (hs.nRound (by omega)) (by omega)
      exact ⟨hlt, r, by omega, hloop⟩

/-- The blocks after the batches. -/
theorem Hashed.leftBlocks (hs : C.Hashed q s) (hb : b < hashkeyTotalNum)
    (hq : 16 * (q + b) ≤ C.L + C.n) :
    C.Hashed (q + b) (leftBlocks C.aes C.keys C.inp C.encDec b s) := by
  unfold GcmAarch64.leftBlocks
  split
  · next hzero =>
    rw [hzero]
    exact hs
  · next hne =>
    have hadr : (hashkeyTotalNum - b) <<< 5 = 32 * (hashkeyTotalNum - b) := by
      rw [Nat.shiftLeft_eq, Nat.mul_comm]
    obtain ⟨hsums, hpair⟩ := (hs.hashkeyAdr ((hashkeyTotalNum - b) <<< 5)).first
      (n := hashkeyTotalNum - b) (p := b - 1) (c := 2) hadr (by omega) (by omega) (by decide)
    dsimp only
    generalize aesGcmFirst C.aes C.keys C.inp C.encDec 2 _ = s₁ at *
    split
    · next hone =>
      rw [hone] at hsums ⊢
      exact hsums.final
    · next hmany =>
      obtain ⟨k, rfl⟩ : ∃ k, b = k + 2 := ⟨b - 2, by omega⟩
      obtain ⟨hmiddle, hlast⟩ := Sums.middleLoop (c := k) hsums hpair (by omega) (by omega)
      rw [Nat.add_sub_cancel]
      generalize GcmAarch64.middleLoop C.aes C.keys C.inp C.encDec k s₁ = s₂ at *
      have hend := (hmiddle.middle (p := 0) hlast rfl (by omega) 1).1.final
      rw [show q + 1 + k + 1 = q + (k + 2) by omega] at hend
      exact hend

/-- All whole blocks of a call. -/
theorem Hashed.wholeBlocks (hs : C.Hashed q s) (hq : 16 * (q + b) ≤ C.L + C.n) :
    C.Hashed (q + b) (wholeBlocks C.aes C.keys C.inp C.encDec b s) := by
  obtain ⟨hlt, r, hr, hloop⟩ := hs.cryptLoop hq
  unfold GcmAarch64.wholeBlocks
  dsimp only
  rw [← hr]
  exact hloop.leftBlocks hlt (by omega)

end TextCall

end IsalCrypto.Aes.GcmAarch64
