import IsalCrypto.Aes.GcmAarch64
import IsalCrypto.Lib.Gcm
import Mathlib.Tactic.LinearCombination

/-!
# GHASH on AArch64

After `rbit` the bits of a register are the coefficients of a polynomial, the lowest first, so a
register stands for the block with its bits in the opposite order (`ev_eq`). The sums of the
products keep their three parts until the final round (`ev_reduction`).

* `aesGcmPrecomp_keysFor`: the pairs hold the powers 24 to 1 of the hash key.
* `Sums.round`: one round of a sum, whatever is loaded next.
* `ghashBlockN_absorbs`, `ghashBlockReg_absorbs`: a batch, and a single block.
-/

namespace IsalCrypto.Aes.GcmAarch64

open IsalCrypto.Lib

/-! ## The element of a register -/

section Elements

variable {v w : BitVec 128} {k : ℕ}

/-- The value of the bits of a register, the lowest bit first. -/
noncomputable def ev {n : ℕ} (v : BitVec n) : Gf := evalBits gfX v

theorem ev_xor {n : ℕ} (v w : BitVec n) : ev (v ^^^ w) = ev v + ev w := evalBits_xor _ v w

@[simp]
theorem ev_zero {n : ℕ} : ev 0#n = 0 := evalBits_zero _

theorem ev_eq (v : BitVec 128) : ev v = gfEl v.reverse := by
  rw [gfEl, el, BitVec.reverse_reverse_eq, ev]

theorem ev_reverse (v : BitVec 128) : ev v.reverse = gfEl v := by
  rw [ev_eq, BitVec.reverse_reverse_eq]

theorem ev_injective : Function.Injective (ev : BitVec 128 → Gf) := fun v w h => by
  rw [ev_eq, ev_eq] at h
  rw [← BitVec.reverse_reverse_eq (x := v), gfEl_injective h, BitVec.reverse_reverse_eq]

theorem ev_append (a b : BitVec 64) : ev (a ++ b : BitVec 128) = ev b + gfX ^ 64 * ev a :=
  evalBits_append ..

theorem ev_halves (v : BitVec 128) : ev v = ev (lowQ v) + gfX ^ 64 * ev (highQ v) := by
  conv_lhs => rw [← append_highQ_lowQ v]
  exact ev_append ..

theorem ev_pmull (v w : BitVec 128) : ev (pmull v w) = ev (lowQ v) * ev (lowQ w) :=
  evalBits_clmul ..

theorem ev_pmull2 (v w : BitVec 128) : ev (pmull2 v w) = ev (highQ v) * ev (highQ w) :=
  evalBits_clmul ..

theorem lowQ_xor (v w : BitVec 128) : lowQ (v ^^^ w) = lowQ v ^^^ lowQ w := BitVec.extractLsb'_xor

@[simp]
theorem lowQ_ext8 (v w : BitVec 128) : lowQ (ext8 v w) = highQ v := lowQ_append ..

@[simp]
theorem highQ_ext8 (v w : BitVec 128) : highQ (ext8 v w) = lowQ w := highQ_append ..

@[simp]
theorem lowQ_zero : lowQ zero = 0#64 := by decide

@[simp]
theorem highQ_zero : highQ zero = 0#64 := by decide

/-- The bits of each byte in the opposite order are the bits of the block with its bytes in the
opposite order, from the other end. -/
theorem rbit_eq (v : BitVec 128) : rbit v = (byteSwap v).reverse := by
  refine eq_of_byteAt_eq fun k hk => BitVec.eq_of_getLsbD_eq fun i hi => ?_
  have hbyte : byteAt (rbit v) k = (byteAt v k).reverse := by
    rw [rbit, toBytes_eq_map, List.map_map, byteAt_ofBytes (by simp), List.getD_eq_getElem?_getD,
      List.getElem?_map, List.getElem?_range hk]
    rfl
  have hswap : (byteSwap v).getLsbD (8 * (15 - k) + (7 - i)) = (byteAt v k).getLsbD (7 - i) := by
    have hbit := congrArg (BitVec.getLsbD · (7 - i))
        (byteAt_byteSwap (v := v) (k := 15 - k) (by omega))
    simp only [getLsbD_byteAt, Nat.sub_sub_self (show k ≤ 15 by omega)] at hbit
    rw [decide_eq_true (show 7 - i < 8 by omega), Bool.true_and, Bool.true_and] at hbit
    rw [getLsbD_byteAt, decide_eq_true (show 7 - i < 8 by omega), Bool.true_and, hbit]
  rw [hbyte, getLsbD_byteAt, decide_eq_true hi, Bool.true_and, BitVec.getLsbD_reverse,
    BitVec.getLsbD_reverse, BitVec.getMsbD_eq_getLsbD, BitVec.getMsbD_eq_getLsbD, decide_eq_true hi,
    decide_eq_true (show 8 * k + i < 128 by omega), Bool.true_and, Bool.true_and,
    show 128 - 1 - (8 * k + i) = 8 * (15 - k) + (7 - i) by omega, hswap]

theorem ev_rbit (v : BitVec 128) : ev (rbit v) = gfEl (byteSwap v) := by rw [rbit_eq, ev_reverse]

end Elements

/-! ## The reduction -/

theorem gfX_poly : ev (lowQ poly) = gfX ^ 128 ∧ ev (highQ poly) = gfX ^ 128 := by
  have hbits : 0x87#64 = 1#64 <<< 7 ^^^ 1#64 <<< 2 ^^^ 1#64 <<< 1 ^^^ 1#64 <<< 0 := by decide
  have hbit : ∀ k < 64, ev (1#64 <<< k) = gfX ^ k := fun k hk =>
    evalBits_of_single gfX hk fun i hi => by
      rw [BitVec.getLsbD_shiftLeft, BitVec.getLsbD_one]
      grind
  have hpoly : ev 0x87#64 = gfX ^ 128 := by
    rw [hbits, ev_xor, ev_xor, ev_xor, hbit 7 (by decide), hbit 2 (by decide), hbit 1 (by decide),
      hbit 0 (by decide), gfX_pow_128, pow_one, pow_zero]
  exact ⟨by rw [poly, lowQ_append, hpoly], by rw [poly, highQ_append, hpoly]⟩

/-- The three sums, put together. -/
theorem ev_reduction (high low middle : BitVec 128) : ev (reduction high low middle) =
    ev low + gfX ^ 64 * ev middle + gfX ^ 128 * ev high := by
  obtain ⟨hlowPoly, hhighPoly⟩ := gfX_poly
  generalize hhigh : high ^^^ ext8 middle zero = high₁
  generalize hlow : low ^^^ ext8 zero middle = low₁
  generalize hm : pmull2 high₁ poly = m
  have hfold : ev m = gfX ^ 128 * ev (highQ high₁) := by rw [← hm, ev_pmull2, hhighPoly, mul_comm]
  have hhigh₁ : ev high₁ = ev high + ev (highQ middle) := by
    rw [← hhigh, ev_xor, ext8, lowQ_zero, ev_append, ev_zero, mul_zero, add_zero]
  have hlow₁ : ev low₁ = ev low + gfX ^ 64 * ev (lowQ middle) := by
    rw [← hlow, ev_xor, ext8, highQ_zero, ev_append, ev_zero, zero_add]
  have hresult : ev (reduction high low middle) =
      ev low₁ + gfX ^ 64 * ev (lowQ m) + gfX ^ 128 * (ev (lowQ high₁) + ev (highQ m)) := by
    rw [reduction, hhigh, hlow, hm, ev_xor, ev_xor, ev_pmull, hlowPoly, lowQ_xor, lowQ_ext8, ev_xor,
      ext8, highQ_zero, ev_append, ev_zero, zero_add, mul_comm (gfX ^ 128)]
  rw [ev_halves m] at hfold
  rw [ev_halves high₁] at hhigh₁
  rw [hresult, hlow₁, ev_halves middle]
  linear_combination gfX ^ 64 * hfold + gfX ^ 128 * hhigh₁

/-! ## Sums of products -/

section Sums

variable {keys dat : ℕ → Byte} {h y : BitVec 128} {f : ℕ → BitVec 128} {s : HashRegs} {n p q c : ℕ}

/-- What the three sums stand for. -/
noncomputable def HashRegs.parts (s : HashRegs) : Gf :=
  ev s.low + gfX ^ 64 * ev s.middle + gfX ^ 128 * ev s.high

/-- The four products of the halves. -/
theorem ev_mul (v w : BitVec 128) : ev (pmull v w) +
    gfX ^ 64 * (ev (pmull v (ext8 w w)) + ev (pmull2 v (ext8 w w))) + gfX ^ 128 * ev (pmull2 v w) =
      ev v * ev w := by
  rw [ev_pmull, ev_pmull2, ev_pmull, ev_pmull2, lowQ_ext8, highQ_ext8, ev_halves v, ev_halves w]
  ring

theorem parts_roundNoload (hext : s.hashkeyExt = ext8 s.hashkey s.hashkey) :
    (ghashMultRoundNoload s).parts = s.parts + ev s.aadhash * ev s.hashkey := by
  rw [← ev_mul, HashRegs.parts, HashRegs.parts, ghashMultRoundNoload, hext, ev_xor, ev_xor, ev_xor,
    ev_xor]
  ring

theorem parts_first (hext : s.hashkeyExt = ext8 s.hashkey s.hashkey) :
    (ghashMultFirst s).parts = ev s.aadhash * ev s.hashkey := by
  rw [← ev_mul, HashRegs.parts, ghashMultFirst, hext, ev_xor]

theorem parts_congr {t : HashRegs} (hhigh : t.high = s.high) (hlow : t.low = s.low)
    (hmiddle : t.middle = s.middle) : t.parts = s.parts := by
  rw [HashRegs.parts, HashRegs.parts, hhigh, hlow, hmiddle]

/-- A load of a pair leaves the sums, the hash and the data. -/
theorem nextPair_keeps (keys : ℕ → Byte) (c : ℕ) (s : HashRegs) :
    (nextPair keys c s).parts = s.parts ∧ (nextPair keys c s).aadhash = s.aadhash ∧
      (nextPair keys c s).datAdr = s.datAdr := by
  unfold nextPair
  split
  · refine ⟨parts_congr ?_ ?_ ?_, ?_, ?_⟩ <;> dsimp only
  · exact ⟨rfl, rfl, rfl⟩

theorem parts_nextDat (dat : ℕ → Byte) (s : HashRegs) : (nextDat dat s).parts = s.parts := by
  unfold nextDat
  apply parts_congr <;> dsimp only

theorem aadhash_nextDat (dat : ℕ → Byte) (s : HashRegs) :
    (nextDat dat s).aadhash = rbit (ldQ dat s.datAdr) := by
  dsimp only [nextDat]

theorem datAdr_nextDat (dat : ℕ → Byte) (s : HashRegs) :
    (nextDat dat s).datAdr = s.datAdr + 16 := by
  dsimp only [nextDat]

theorem ev_finalRound : ev (ghashMultFinalRound s).aadhash = ev s.aadhash + s.parts := by
  rw [ghashMultFinalRound, ev_xor, ev_reduction, HashRegs.parts]

/-! ### The pairs in memory and in the registers -/

/-- What `aes_gcm_precomp` stores, for the hash key `h`. -/
structure KeysFor (keys : ℕ → Byte) (h : BitVec 128) : Prop where
  hashkey : ∀ n < hashkeyTotalNum, ldQ keys (32 * n) = (gfPow h (hashkeyTotalNum - n)).reverse
  hashkeyExt : ∀ n < hashkeyTotalNum,
    ldQ keys (32 * n + 16) = ext8 (ldQ keys (32 * n)) (ldQ keys (32 * n))

/-- The registers hold pair `n`, and the address is that of the next one. -/
structure HoldsPair (keys : ℕ → Byte) (n : ℕ) (s : HashRegs) : Prop where
  hashkey : s.hashkey = ldQ keys (32 * n)
  hashkeyExt : s.hashkeyExt = ldQ keys (32 * n + 16)
  hashkeyAdr : s.hashkeyAdr = 32 * (n + 1)

theorem KeysFor.ev_hashkey (hkeys : KeysFor keys h) (hn : n < hashkeyTotalNum) :
    ev (ldQ keys (32 * n)) = gfEl h ^ (hashkeyTotalNum - n) := by
  rw [hkeys.hashkey n hn, ev_reverse, gfEl_gfPow]

theorem HoldsPair.ext_eq (hpair : HoldsPair keys n s) (hkeys : KeysFor keys h)
    (hn : n < hashkeyTotalNum) : s.hashkeyExt = ext8 s.hashkey s.hashkey := by
  rw [hpair.hashkeyExt, hpair.hashkey, hkeys.hashkeyExt n hn]

theorem holdsPair_nextPair (hc : 1 < c) (hadr : s.hashkeyAdr = 32 * n) :
    HoldsPair keys n (nextPair keys c s) := by
  rw [nextPair, if_pos hc]
  refine ⟨?_, ?_, ?_⟩ <;> dsimp only <;> rw [hadr]
  rw [Nat.mul_succ]

/-- The registers of the pair decide. -/
theorem HoldsPair.congr {t : HashRegs} (hpair : HoldsPair keys n s) (hkey : t.hashkey = s.hashkey)
    (hext : t.hashkeyExt = s.hashkeyExt) (hadr : t.hashkeyAdr = s.hashkeyAdr) :
    HoldsPair keys n t :=
  ⟨hkey.trans hpair.hashkey, hext.trans hpair.hashkeyExt, hadr.trans hpair.hashkeyAdr⟩

theorem HoldsPair.nextDat (hpair : HoldsPair keys n s) (dat : ℕ → Byte) :
    HoldsPair keys n (nextDat dat s) := by
  unfold GcmAarch64.nextDat
  apply hpair.congr <;> dsimp only

theorem HoldsPair.round (hpair : HoldsPair keys n s) (hc : 1 < c) :
    HoldsPair keys (n + 1) (ghashMultRound keys dat c s) :=
  (holdsPair_nextPair hc (by dsimp only [ghashMultRoundNoload]; exact hpair.hashkeyAdr)).nextDat dat

/-- The last round loads no pair. -/
theorem HoldsPair.lastRound (hpair : HoldsPair keys n s) :
    HoldsPair keys n (ghashMultRound keys dat 1 s) := by
  have hkeep : nextPair keys 1 (ghashMultRoundNoload s) = ghashMultRoundNoload s :=
    if_neg (by decide)
  have hnoload : HoldsPair keys n (ghashMultRoundNoload s) := by
    unfold ghashMultRoundNoload
    apply hpair.congr <;> dsimp only
  rw [ghashMultRound, hkeep]
  exact hnoload.nextDat dat

theorem HoldsPair.finalRound (hpair : HoldsPair keys n s) :
    HoldsPair keys n (ghashMultFinalRound s) := by
  unfold ghashMultFinalRound
  apply hpair.congr <;> dsimp only

/-! ### Rounds -/

/-- The registers sum up the first `q + 1` blocks of the data, with the power `p` of the hash key to
come for the last one. -/
structure Sums (dat : ℕ → Byte) (h y : BitVec 128) (q p : ℕ) (s : HashRegs) : Prop where
  parts : s.parts + ev s.aadhash * gfEl h ^ p =
    gfEl (ghashDeferred h y (streamBlock dat) q) * gfEl h ^ p
  datAdr : s.datAdr = 16 * (q + 1)

/-- The hash of the first `q + 1` blocks is in its register. -/
structure Absorbed (dat : ℕ → Byte) (h y : BitVec 128) (q : ℕ) (s : HashRegs) : Prop where
  aadhash : ev s.aadhash = gfEl (ghashDeferred h y (streamBlock dat) q)
  datAdr : s.datAdr = 16 * (q + 1)

/-- The next block of data is block `q + 1`. -/
theorem sums_nextDat (hdat : s.datAdr = 16 * (q + 1)) (hparts : s.parts =
    gfEl (ghashDeferred h y (streamBlock dat) q) * gfEl h ^ (p + 1)) :
    Sums dat h y (q + 1) p (nextDat dat s) where
  parts := by
    have hblock : ev (rbit (ldQ dat s.datAdr)) = gfEl (streamBlock dat (q + 1)) := by
      rw [ev_rbit, hdat, streamBlock, ldQ]
    rw [parts_nextDat, aadhash_nextDat, hparts, hblock, gfEl_ghashDeferred_succ, pow_succ]
    ring
  datAdr := by rw [datAdr_nextDat, hdat, ← Nat.mul_succ]

theorem Sums.round (hsums : Sums dat h y q (p + 1) s) (hkeys : KeysFor keys h)
    (hpair : HoldsPair keys n s) (hn : n + p + 1 = hashkeyTotalNum) (c : ℕ) :
    Sums dat h y (q + 1) p (ghashMultRound keys dat c s) := by
  have hlt : n < hashkeyTotalNum := by omega
  obtain ⟨hparts, -, hdat⟩ := nextPair_keeps keys c (ghashMultRoundNoload s)
  have hdat' : (ghashMultRoundNoload s).datAdr = s.datAdr := by dsimp only [ghashMultRoundNoload]
  refine sums_nextDat (hdat.trans (hdat'.trans hsums.datAdr)) ?_
  rw [hparts, parts_roundNoload (hpair.ext_eq hkeys hlt), hpair.hashkey, hkeys.ev_hashkey hlt,
    show hashkeyTotalNum - n = p + 1 by omega, hsums.parts]

theorem Absorbed.initRound (habs : Absorbed dat h y q s) (hkeys : KeysFor keys h)
    (hadr : s.hashkeyAdr = 32 * n) (hn : n + p + 1 = hashkeyTotalNum) (hc : 1 < c) :
    Sums dat h y (q + 1) p (ghashMultInitRound keys dat c s) ∧
      HoldsPair keys (n + 1) (ghashMultInitRound keys dat c s) := by
  have hlt : n < hashkeyTotalNum := by omega
  have hpair : HoldsPair keys n (nextPair keys 2 s) := holdsPair_nextPair (by decide) hadr
  obtain ⟨-, haad, hdat⟩ := nextPair_keeps keys 2 s
  unfold ghashMultInitRound
  generalize nextPair keys 2 s = s₁ at hpair haad hdat
  obtain ⟨hparts', -, hdat'⟩ := nextPair_keeps keys c (ghashMultFirst s₁)
  have hfirst : (ghashMultFirst s₁).datAdr = s₁.datAdr ∧
      (ghashMultFirst s₁).hashkeyAdr = s₁.hashkeyAdr := by
    constructor <;> dsimp only [ghashMultFirst]
  constructor
  · refine sums_nextDat (hdat'.trans (hfirst.1.trans (hdat.trans habs.datAdr))) ?_
    rw [hparts', parts_first (hpair.ext_eq hkeys hlt), haad, habs.aadhash, hpair.hashkey,
      hkeys.ev_hashkey hlt, show hashkeyTotalNum - n = p + 1 by omega]
  · exact (holdsPair_nextPair hc (hfirst.2.trans hpair.hashkeyAdr)).nextDat dat

/-- The rounds of a batch, down to the power 0. -/
theorem Sums.rounds (hkeys : KeysFor keys h) (hsums : Sums dat h y q (c + 1) s)
    (hpair : HoldsPair keys n s) (hn : n + c + 1 = hashkeyTotalNum) :
    Sums dat h y (q + c + 1) 0 (ghashMultRounds keys dat (c + 1) s) ∧
      HoldsPair keys (hashkeyTotalNum - 1) (ghashMultRounds keys dat (c + 1) s) := by
  induction c generalizing q n s with
  | zero =>
    have hlast : n = hashkeyTotalNum - 1 := by omega
    exact ⟨hsums.round hkeys hpair hn 1, hlast ▸ hpair.lastRound⟩
  | succ c ih =>
    have hstep := ih (hsums.round hkeys hpair hn (c + 2)) (hpair.round (by omega)) (by omega)
    rw [show q + 1 + c + 1 = q + (c + 1) + 1 by omega] at hstep
    exact hstep

theorem Sums.leftLoop (hkeys : KeysFor keys h) (hsums : Sums dat h y q (c + 1) s)
    (hpair : HoldsPair keys n s) (hn : n + c + 1 = hashkeyTotalNum) :
    Sums dat h y (q + c) 1 (leftLoop keys dat c s) ∧
      HoldsPair keys (hashkeyTotalNum - 1) (leftLoop keys dat c s) := by
  induction c generalizing q n s with
  | zero =>
    have hlast : n = hashkeyTotalNum - 1 := by omega
    exact ⟨hsums, hlast ▸ hpair⟩
  | succ c ih =>
    have hstep := ih (hsums.round hkeys hpair hn 2) (hpair.round (by decide)) (by omega)
    rw [show q + 1 + c = q + (c + 1) by omega] at hstep
    exact hstep

/-! ### Batches and single blocks -/

theorem Sums.finalRound (hsums : Sums dat h y q 0 s) :
    Absorbed dat h y q (ghashMultFinalRound s) where
  aadhash := by
    have hparts := hsums.parts
    rw [pow_zero, mul_one, mul_one] at hparts
    rw [ev_finalRound, add_comm, hparts]
  datAdr := by
    dsimp only [ghashMultFinalRound]
    exact hsums.datAdr

theorem ghashBlockN_absorbs (hkeys : KeysFor keys h) (habs : Absorbed dat h y q s) :
    Absorbed dat h y (q + hashkeyTotalNum) (ghashBlockN keys dat hashkeyTotalNum s) ∧
      HoldsPair keys (hashkeyTotalNum - 1) (ghashBlockN keys dat hashkeyTotalNum s) := by
  unfold ghashBlockN
  dsimp only
  generalize hs : ({ s with hashkeyAdr := (24 - hashkeyTotalNum) <<< 5 } : HashRegs) = s₁
  have hreset : Absorbed dat h y q s₁ := by
    subst hs
    exact ⟨habs.aadhash, habs.datAdr⟩
  have hadr : s₁.hashkeyAdr = 32 * 0 := by
    subst hs
    rfl
  obtain ⟨hsums, hpair⟩ :=
    hreset.initRound (p := 23) (c := hashkeyTotalNum) hkeys hadr rfl (by decide)
  obtain ⟨hlast, hlastPair⟩ := Sums.rounds (c := 22) hkeys hsums hpair rfl
  exact ⟨hlast.finalRound, hlastPair.finalRound⟩

/-- The hash times the hash key, and a block. -/
theorem ghashBlockReg_absorbs (hkeys : KeysFor keys h) (d : BitVec 128)
    (hkey : s.hashkey = ldQ keys (32 * (hashkeyTotalNum - 1)))
    (hext : s.hashkeyExt = ldQ keys (32 * (hashkeyTotalNum - 1) + 16)) :
    ev (ghashBlockReg d s).aadhash = ev s.aadhash * gfEl h + gfEl (byteSwap d) := by
  have hlt : hashkeyTotalNum - 1 < hashkeyTotalNum := by decide
  have hself : s.hashkeyExt = ext8 s.hashkey s.hashkey := by rw [hext, hkey, hkeys.hashkeyExt _ hlt]
  have hpower : ev s.hashkey = gfEl h := by
    rw [hkey, hkeys.ev_hashkey hlt, Nat.sub_sub_self (by decide), pow_one]
  unfold ghashBlockReg
  rw [ev_finalRound, parts_congr (s := ghashMultFirst s) (by dsimp only) (by dsimp only)
    (by dsimp only), parts_first hself, hpower, ev_rbit, add_comm]

end Sums

/-! ## Precomputation -/

section Precomp

variable {keys : ℕ → Byte} {v : BitVec 128} {m n : ℕ}

/-- A power and the same with its halves swapped are stored as pair `n`. -/
structure StoresPair (keys : ℕ → Byte) (n : ℕ) (v : BitVec 128) : Prop where
  hashkey : ldQ keys (32 * n) = v
  hashkeyExt : ldQ keys (32 * n + 16) = ext8 v v

theorem stpKey_self (keys : ℕ → Byte) (n : ℕ) (v : BitVec 128) :
    StoresPair (stpKey keys n v) n v where
  hashkey := by rw [stpKey, ldQ_stQ_of_apart (.inl (Nat.le_refl _)), ldQ_stQ_self]
  hashkeyExt := ldQ_stQ_self ..

theorem StoresPair.stpKey (hpair : StoresPair keys m v) (hne : m ≠ n) (w : BitVec 128) :
    StoresPair (stpKey keys n w) m v where
  hashkey := by
    rw [GcmAarch64.stpKey, ldQ_stQ_of_apart (by omega), ldQ_stQ_of_apart (by omega), hpair.hashkey]
  hashkeyExt := by
    rw [GcmAarch64.stpKey, ldQ_stQ_of_apart (by omega), ldQ_stQ_of_apart (by omega),
      hpair.hashkeyExt]

theorem ev_nextKey (hashKey hashKeyIter : BitVec 128) :
    ev (nextKey hashKey hashKeyIter) = ev hashKeyIter * ev hashKey := by
  rw [nextKey, ev_reduction, ev_xor, ← ev_mul]

/-- The pairs below `n` are stored, those from `n` on are kept. -/
theorem precompLoop_stores (hashKey hashKeyIter : BitVec 128) (keys : ℕ → Byte) (n : ℕ) :
    (∀ m < n, ∃ v, StoresPair (precompLoop hashKey n hashKeyIter keys) m v ∧
      ev v = ev hashKeyIter * ev hashKey ^ (n - m)) ∧
    ∀ m, n ≤ m → ∀ v, StoresPair keys m v →
      StoresPair (precompLoop hashKey n hashKeyIter keys) m v := by
  induction n generalizing hashKeyIter keys with
  | zero => exact ⟨fun m hm => absurd hm (Nat.not_lt_zero m), fun m _ v hpair => hpair⟩
  | succ n ih =>
    rw [precompLoop]
    obtain ⟨hbelow, habove⟩ := ih (nextKey hashKey hashKeyIter)
      (stpKey keys n (nextKey hashKey hashKeyIter))
    refine ⟨fun m hm => ?_, fun m hm v hpair => ?_⟩
    · rcases Nat.lt_succ_iff_lt_or_eq.mp hm with hlt | rfl
      · obtain ⟨v, hstores, hv⟩ := hbelow m hlt
        refine ⟨v, hstores, ?_⟩
        rw [hv, ev_nextKey, mul_assoc, ← pow_succ', show n - m + 1 = n + 1 - m by omega]
      · refine ⟨_, habove m (Nat.le_refl m) _ (stpKey_self keys m _), ?_⟩
        rw [ev_nextKey, Nat.add_sub_cancel_left, pow_one]
    · exact habove m (by omega) v (hpair.stpKey (by omega) _)

/-- The pairs hold the powers of the hash key, the highest first. -/
theorem aesGcmPrecomp_keysFor (aes : BitVec 128 → BitVec 128) (keys : ℕ → Byte) :
    KeysFor (aesGcmPrecomp aes keys) (byteSwap (aes 0#128)) := by
  have hkey : ev (rbit (aes 0#128)) = gfEl (byteSwap (aes 0#128)) := ev_rbit _
  have hstores : ∀ n < hashkeyTotalNum, ∃ v, StoresPair (aesGcmPrecomp aes keys) n v ∧
      ev v = gfEl (byteSwap (aes 0#128)) ^ (hashkeyTotalNum - n) := fun n hn => by
    obtain ⟨hbelow, habove⟩ := precompLoop_stores (rbit (aes 0#128))
      (rbit (aes 0#128)) (stpKey keys (hashkeyTotalNum - 1) (rbit (aes 0#128)))
      (hashkeyTotalNum - 1)
    rcases Nat.lt_or_ge n (hashkeyTotalNum - 1) with hlt | hge
    · obtain ⟨v, hpair, hv⟩ := hbelow n hlt
      refine ⟨v, hpair, ?_⟩
      rw [hv, hkey, ← pow_succ', show hashkeyTotalNum - 1 - n + 1 = hashkeyTotalNum - n by omega]
    · obtain rfl : n = hashkeyTotalNum - 1 := by omega
      refine ⟨_, habove _ (Nat.le_refl _) _ (stpKey_self ..), ?_⟩
      rw [hkey, Nat.sub_sub_self (by decide), pow_one]
  constructor
  · intro n hn
    obtain ⟨v, hpair, hv⟩ := hstores n hn
    refine hpair.hashkey.trans (ev_injective ?_)
    rw [hv, ev_reverse, gfEl_gfPow]
  · intro n hn
    obtain ⟨v, hpair, -⟩ := hstores n hn
    rw [hpair.hashkeyExt, hpair.hashkey]

end Precomp

end IsalCrypto.Aes.GcmAarch64
