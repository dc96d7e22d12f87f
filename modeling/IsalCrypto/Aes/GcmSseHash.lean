import IsalCrypto.Aes.GcmSse
import IsalCrypto.Lib.Gcm
import Mathlib.Tactic.LinearCombination

/-!
# GHASH on x86

The hash code works on bit strings whose first bit is the highest of the register, so a product of
two registers comes out one bit too low; the keys are shifted by one bit against that
(`gfX_mul_gfEl_shiftHashKey`). `ghashMul_eq` is one multiplication, `ghashLast8_eq` a batch.
-/

namespace IsalCrypto.Aes.GcmSse

open IsalCrypto.Lib

/-! ## Shuffles -/

section Shuffles

variable {v mask : BitVec 128} {k r : ℕ}

theorem byteAt_pshufb (hk : k < 16) : byteAt (pshufb v mask) k =
    if (byteAt mask k).msb then 0#8 else byteAt v ((byteAt mask k).toNat % 16) := by
  rw [pshufb, toBytes_eq_map, List.map_map, byteAt_ofBytes (by simp), List.getD_eq_getElem?_getD,
    List.getElem?_map, List.getElem?_range hk]
  rfl

theorem pshufb_shufMask (v : BitVec 128) : pshufb v shufMask = byteSwap v := by
  have hmask : ∀ k < 16, byteAt shufMask k = BitVec.ofNat 8 (15 - k) := by decide
  refine eq_of_byteAt_eq fun k hk => ?_
  have hmsb : ∀ k < 16, (BitVec.ofNat 8 (15 - k)).msb = false := by decide
  have hnat : ∀ k < 16, (BitVec.ofNat 8 (15 - k)).toNat % 16 = 15 - k := by decide
  rw [byteAt_pshufb hk, hmask k hk, hmsb k hk, if_neg Bool.false_ne_true, hnat k hk,
    byteAt_byteSwap hk]

theorem shiftTable_low : ∀ j < 16, shiftTable j = BitVec.ofNat 8 j := by decide

theorem shiftTable_mid : ∀ j < 32, 16 ≤ j → shiftTable j = 0xff#8 := by decide

theorem shiftTable_high : ∀ j < 48, 32 ≤ j → shiftTable j = 0#8 := by decide

/-- A load from `SHIFT_MASK + r` shifts by `r` bytes to the right. -/
theorem byteAt_pshufb_shift (hr : r ≤ 16) (hk : k < 16) :
    byteAt (pshufb v (ldQ shiftTable r)) k = if k + r < 16 then byteAt v (k + r) else 0#8 := by
  rw [byteAt_pshufb hk, byteAt_ldQ hk, Nat.add_comm r k]
  rcases Nat.lt_or_ge (k + r) 16 with hlt | hge
  · have hmsb : ∀ j < 16, (BitVec.ofNat 8 j).msb = false := by decide
    have hnat : ∀ j < 16, (BitVec.ofNat 8 j).toNat % 16 = j := by decide
    rw [if_pos hlt, shiftTable_low _ hlt, hmsb _ hlt, if_neg Bool.false_ne_true, hnat _ hlt]
  · rw [if_neg (Nat.not_lt.mpr hge), shiftTable_mid _ (by omega) hge]
    rfl

/-- A load from `ALL_F + r` keeps `16 - r` bytes. -/
theorem byteAt_and_mask (hr : r ≤ 16) (hk : k < 16) :
    byteAt (v &&& ldQ shiftTable (r + 16)) k = if k + r < 16 then byteAt v k else 0#8 := by
  rw [byteAt_and, byteAt_ldQ hk]
  split
  · rw [shiftTable_mid _ (by omega) (by omega)]
    exact BitVec.and_allOnes
  · rw [shiftTable_high _ (by omega) (by omega), BitVec.and_zero]

/-- The first `r` bytes are kept. -/
theorem byteAt_and_keep {f : ℕ → Byte} (hr : r ≤ 16) (hv : ∀ k < r, byteAt v k = f k)
    (hk : k < 16) :
    byteAt (v &&& ldQ shiftTable (16 - r + 16)) k = if k < r then f k else 0#8 := by
  rw [byteAt_and_mask (by omega) hk]
  by_cases hlt : k < r
  · rw [if_pos (by omega), if_pos hlt, hv k hlt]
  · rw [if_neg (by omega), if_neg hlt]

end Shuffles

/-! ## Shifts of the elements -/

section Shifts

variable {v w : BitVec 128} {k : ℕ}

/-- The lowest element, shifted left and moved to the highest. -/
theorem pslldq_pslld (hk : k ≤ 32) : pslldq (pslld v k) 12 = v <<< (96 + k) := by
  refine BitVec.eq_of_getLsbD_eq fun i hi => ?_
  rw [pslldq, BitVec.getLsbD_shiftLeft, BitVec.getLsbD_shiftLeft]
  rcases Nat.lt_or_ge i 96 with hlow | hhigh
  · rw [decide_eq_true (show i < 8 * 12 by omega), decide_eq_true (show i < 96 + k by omega)]
    simp
  · rw [pslld, getLsbD_mapDwords _ _ (by omega), BitVec.getLsbD_shiftLeft,
      BitVec.getLsbD_extractLsb', decide_eq_false (show ¬ i < 8 * 12 by omega),
      show 32 * ((i - 8 * 12) / 32) = 0 by omega, show (i - 8 * 12) % 32 = i - 96 by omega]
    grind

/-- A shift of the elements to the right, with what the elements above lose. -/
theorem psrld_xor_psrldq (hk : k < 25) (hvw : ∀ i < 121, v.getLsbD i = w.getLsbD i) :
    psrld v k ^^^ psrldq (pslld w (32 - k)) 4 = v >>> k := by
  refine BitVec.eq_of_getLsbD_eq fun i hi => ?_
  have hright : (psrld v k).getLsbD i = (decide (i % 32 + k < 32) && v.getLsbD (k + i)) := by
    rw [psrld, getLsbD_mapDwords _ _ hi, BitVec.getLsbD_ushiftRight, BitVec.getLsbD_extractLsb',
      show 32 * (i / 32) + (k + i % 32) = k + i by omega, Nat.add_comm k]
  have hleft : (psrldq (pslld w (32 - k)) 4).getLsbD i =
      (decide (i < 96) && (!decide (i % 32 + k < 32) && w.getLsbD (k + i))) := by
    rw [psrldq, BitVec.getLsbD_ushiftRight]
    rcases Nat.lt_or_ge i 96 with hlow | hhigh
    · rw [pslld, getLsbD_mapDwords _ _ (by omega), BitVec.getLsbD_shiftLeft,
        BitVec.getLsbD_extractLsb', decide_eq_true hlow, show (8 * 4 + i) % 32 = i % 32 by omega]
      rcases Nat.lt_or_ge (i % 32 + k) 32 with hin | hout
      · rw [decide_eq_true hin, decide_eq_true (show i % 32 < 32 - k by omega)]
        simp
      · rw [decide_eq_false (Nat.not_lt.mpr hout),
          decide_eq_false (show ¬ i % 32 < 32 - k by omega),
          show 32 * ((8 * 4 + i) / 32) + (i % 32 - (32 - k)) = k + i by omega,
          decide_eq_true (show i % 32 - (32 - k) < 32 by omega),
          decide_eq_true (show i % 32 < 32 by omega)]
        rfl
    · rw [BitVec.getLsbD_of_ge _ _ (by omega), decide_eq_false (by omega), Bool.false_and]
  rw [BitVec.getLsbD_xor, hright, hleft, BitVec.getLsbD_ushiftRight]
  rcases Nat.lt_or_ge (i % 32 + k) 32 with hin | hout
  · rw [decide_eq_true hin, Bool.not_true, Bool.false_and, Bool.and_false, Bool.true_and,
      Bool.xor_false]
  · rw [decide_eq_false (Nat.not_lt.mpr hout), Bool.not_false, Bool.false_and, Bool.true_and,
      Bool.false_xor]
    rcases Nat.lt_or_ge i 96 with hlow | hhigh
    · rw [decide_eq_true hlow, Bool.true_and, hvw _ (by omega)]
    · rw [decide_eq_false (Nat.not_lt.mpr hhigh), Bool.false_and,
        BitVec.getLsbD_of_ge v _ (by omega)]

theorem xor_interleave (a b c d e f : BitVec 128) :
    a ^^^ b ^^^ c ^^^ (d ^^^ e ^^^ f) = (a ^^^ d) ^^^ (b ^^^ e) ^^^ (c ^^^ f) := by
  ac_rfl

/-- The reduction as shifts of the whole register. -/
theorem reduction_eq {gh lo : BitVec 128} (t1 : BitVec 128)
    (hlo : gh ^^^ (gh <<< 127 ^^^ gh <<< 126 ^^^ gh <<< 121) = lo) :
    reduction gh t1 = lo ^^^ (lo >>> 1 ^^^ lo >>> 2 ^^^ lo >>> 7) ^^^ t1 := by
  have hleft : pslldq (pslld gh 31 ^^^ pslld gh 30 ^^^ pslld gh 25) 12 =
      gh <<< 127 ^^^ gh <<< 126 ^^^ gh <<< 121 := by
    have hdist : ∀ v w : BitVec 128, pslldq (v ^^^ w) 12 = pslldq v 12 ^^^ pslldq w 12 :=
      fun v w => BitVec.shiftLeft_xor_distrib v w _
    rw [hdist, hdist, pslldq_pslld (by decide), pslldq_pslld (by decide), pslldq_pslld (by decide)]
  have hlow : ∀ i < 121, lo.getLsbD i = gh.getLsbD i := fun i hi => by
    rw [← hlo]
    simp only [BitVec.getLsbD_xor, BitVec.getLsbD_shiftLeft]
    rw [decide_eq_true (show i < 127 by omega), decide_eq_true (show i < 126 by omega),
      decide_eq_true hi]
    simp
  have hright : psrld lo 1 ^^^ psrld lo 2 ^^^ psrld lo 7 ^^^
      psrldq (pslld gh 31 ^^^ pslld gh 30 ^^^ pslld gh 25) 4 =
        lo >>> 1 ^^^ lo >>> 2 ^^^ lo >>> 7 := by
    have hdist : ∀ v w : BitVec 128, psrldq (v ^^^ w) 4 = psrldq v 4 ^^^ psrldq w 4 :=
      fun v w => BitVec.ushiftRight_xor_distrib v w _
    rw [← psrld_xor_psrldq (k := 1) (by decide) hlow, ← psrld_xor_psrldq (k := 2) (by decide) hlow,
      ← psrld_xor_psrldq (k := 7) (by decide) hlow, hdist, hdist]
    exact xor_interleave ..
  rw [reduction, hleft, hlo, ← hright]

end Shifts

/-! ## Products -/

section Products

variable {v w : BitVec 128}

/-- The arithmetic of the reduction: `g` shifted by 1, 2 and 7, where the bits `s₁`, `s₂` and `s₇`
that leave the register come back in the sum `w`. -/
theorem reduction_field {A : Type*} [CommRing A] [CharP A 2] {x g w s₁ s₂ s₇ : A}
    (hx : x ^ 128 = x ^ 7 + x ^ 2 + x + 1) (hw : w = s₁ + s₂ + s₇) (t : A) :
    g + w + (x ^ 1 * (g + w) + x ^ 128 * s₁ + (x ^ 2 * (g + w) + x ^ 128 * s₂) +
      (x ^ 7 * (g + w) + x ^ 128 * s₇)) + t = x ^ 128 * g + t := by
  have htwo : (2 : A) = 0 := CharTwo.two_eq_zero
  linear_combination (-(g + w)) * hx + x ^ 128 * w * htwo - x ^ 128 * hw

/-- The low half of the product is multiplied by `x^128`, which the reduction does with shifts. -/
theorem gfEl_reduction (gh t1 : BitVec 128) :
    gfEl (reduction gh t1) = gfX ^ 128 * gfEl gh + gfEl t1 := by
  generalize hw : gh <<< 127 ^^^ gh <<< 126 ^^^ gh <<< 121 = w
  have hlow : ∀ k, 0 < k → k < 8 → (gh ^^^ w) <<< (128 - k) = gh <<< (128 - k) := fun k hk hk8 => by
    refine BitVec.eq_of_getLsbD_eq fun i hi => ?_
    rw [BitVec.getLsbD_shiftLeft, BitVec.getLsbD_shiftLeft, BitVec.getLsbD_xor, ← hw]
    simp only [BitVec.getLsbD_xor, BitVec.getLsbD_shiftLeft]
    rcases Nat.lt_or_ge i (128 - k) with hin | hout
    · rw [decide_eq_true hin]
      simp
    · rw [decide_eq_true (show i - (128 - k) < 127 by omega),
        decide_eq_true (show i - (128 - k) < 126 by omega),
        decide_eq_true (show i - (128 - k) < 121 by omega)]
      simp
  have hshift : ∀ k, 0 < k → k < 8 → gfEl ((gh ^^^ w) >>> k) =
      gfX ^ k * (gfEl gh + gfEl w) + gfX ^ 128 * gfEl (gh <<< (128 - k)) := fun k hk hk8 => by
    have h := el_ushiftRight_add gfX (gh ^^^ w) (k := k) (by omega)
    rw [hlow k hk hk8, el_xor] at h
    exact (CharTwo.add_eq_iff_eq_add.mp h)
  have hlost : gfEl w = gfEl (gh <<< 127) + gfEl (gh <<< 126) + gfEl (gh <<< 121) := by
    rw [← hw, gfEl_xor, gfEl_xor]
  rw [reduction_eq t1 (congrArg (gh ^^^ ·) hw), gfEl_xor, gfEl_xor, gfEl_xor, gfEl_xor, gfEl_xor,
    hshift 1 (by decide) (by decide), hshift 2 (by decide) (by decide),
    hshift 7 (by decide) (by decide)]
  exact reduction_field gfX_pow_128 hlost _

/-- The value of the bits of a register, the highest bit first. -/
noncomputable def ev {n : ℕ} (v : BitVec n) : Gf := evalBits gfX⁻¹ v

theorem ev_xor {n : ℕ} (v w : BitVec n) : ev (v ^^^ w) = ev v + ev w := evalBits_xor _ v w

theorem ev_halves (v : BitVec 128) : ev v = ev (lowQ v) + gfX⁻¹ ^ 64 * ev (highQ v) := by
  conv_lhs => rw [← append_highQ_lowQ v]
  exact evalBits_append ..

theorem ev_pclmul11 (v w : BitVec 128) : ev (pclmul11 v w) = ev (highQ v) * ev (highQ w) :=
  evalBits_clmul ..

theorem ev_pclmul00 (v w : BitVec 128) : ev (pclmul00 v w) = ev (lowQ v) * ev (lowQ w) :=
  evalBits_clmul ..

theorem lowQ_pshufd4e_xor (v : BitVec 128) : lowQ (pshufd4e v ^^^ v) = highQ v ^^^ lowQ v := by
  rw [lowQ, BitVec.extractLsb'_xor]
  congr 1
  exact lowQ_append ..

/-- What the three parts of a sum of products stand for. -/
noncomputable def evParts (t : BitVec 128 × BitVec 128 × BitVec 128) : Gf :=
  ev t.2.1 + gfX⁻¹ ^ 64 * (ev t.2.2 + ev t.1 + ev t.2.1) + gfX⁻¹ ^ 128 * ev t.1

/-- Karatsuba: one more product. -/
theorem evParts_add (t₁ t₂ t₃ x hk : BitVec 128) :
    evParts (t₁ ^^^ pclmul11 x hk, t₂ ^^^ pclmul00 x hk,
      t₃ ^^^ pclmul00 (pshufd4e x ^^^ x) (pshufd4e hk ^^^ hk)) =
        evParts (t₁, t₂, t₃) + ev x * ev hk := by
  have htwo : (2 : Gf) = 0 := CharTwo.two_eq_zero
  simp only [evParts, ev_xor, ev_pclmul11, ev_pclmul00, lowQ_pshufd4e_xor]
  rw [ev_halves x, ev_halves hk]
  generalize gfX⁻¹ = b
  linear_combination (b ^ 64 * (ev (lowQ x) * ev (lowQ hk) + ev (highQ x) * ev (highQ hk))) * htwo

/-- The parts are put together and reduced. -/
theorem gfEl_reduction_parts (t₄ t₇ t₆ : BitVec 128) :
    gfEl (reduction (t₇ ^^^ pslldq (t₆ ^^^ t₄ ^^^ t₇) 8) (t₄ ^^^ psrldq (t₆ ^^^ t₄ ^^^ t₇) 8)) =
      gfX ^ 255 * evParts (t₄, t₇, t₆) := by
  generalize hm : t₆ ^^^ t₄ ^^^ t₇ = m
  have hshift : ev (pslldq m 8) + gfX⁻¹ ^ 128 * ev (psrldq m 8) = gfX⁻¹ ^ 64 * ev m :=
    evalBits_shiftLeft_add gfX⁻¹ m (k := 64) (by decide)
  have hinv : gfX ^ 255 * gfX⁻¹ ^ 128 = gfX ^ 127 := by
    rw [show 255 = 127 + 128 from rfl, pow_add, mul_assoc, ← mul_pow, mul_inv_cancel₀ gfX_ne_zero,
      one_pow, mul_one]
  have hparts : evParts (t₄, t₇, t₆) = ev t₇ + gfX⁻¹ ^ 64 * ev m + gfX⁻¹ ^ 128 * ev t₄ := by
    rw [evParts, ← hm, ev_xor, ev_xor]
  have hel : ∀ v, gfEl v = gfX ^ 127 * ev v := gfEl_eq
  rw [gfEl_reduction, hel, hel, ev_xor, ev_xor, hparts, ← hshift]
  generalize gfX⁻¹ = b at hinv
  linear_combination (-(ev (psrldq m 8) + ev t₄)) * hinv

end Products

/-! ## The shifted key -/

section Key

variable {v w hk : BitVec 128} {n : ℕ}

/-- The element of the register with the lowest bit. -/
theorem gfEl_one : gfEl 1#128 = gfX ^ 127 := by
  have hbit : 1#128 <<< (127 - 127) = 1#128 := by decide
  rw [← hbit, gfEl, el_single gfX (by decide)]

theorem gfX_mul_gfEl_poly : gfX * gfEl poly = 1 := by
  have hmul : mulX poly = blockOne := by decide
  rw [← el_blockOne gfX, ← hmul]
  exact (el_mulX gfX_pow_128 poly).symm

/-- The mask of `pcmpeqd` with the constant, from the bit that leaves the register. -/
theorem carryMask (b : Bool) :
    pcmpeqd (pshufd24 ((BitVec.ofBool b).setWidth 128)) twoone &&& poly =
      if b then poly else 0#128 := by
  cases b <;> decide

theorem psrldq_psrlq (v : BitVec 128) :
    psrldq (psrlq v 63) 8 = (BitVec.ofBool v.msb).setWidth 128 := by
  refine BitVec.eq_of_getLsbD_eq fun i hi => ?_
  rw [psrldq, psrlq, BitVec.getLsbD_ushiftRight, BitVec.getLsbD_setWidth, decide_eq_true hi,
    Bool.true_and, BitVec.msb_eq_getLsbD_last]
  rcases Nat.eq_zero_or_pos i with rfl | hpos
  · rw [BitVec.getLsbD_append, if_neg (by decide), BitVec.getLsbD_ushiftRight,
      getLsbD_highQ (by decide)]
    cases v.getLsbD 127 <;> rfl
  · rw [BitVec.getLsbD_of_ge (BitVec.ofBool _) i hpos, BitVec.getLsbD_append]
    rcases Nat.lt_or_ge (8 * 8 + i) 128 with hlt | hge
    · rw [if_neg (by omega), BitVec.getLsbD_ushiftRight, BitVec.getLsbD_of_ge _ _ (by omega)]
    · rw [if_neg (by omega), BitVec.getLsbD_of_ge _ _ (by omega)]

/-- The two halves, shifted left by one bit with the carry of the lower one. -/
theorem psllq_or_pslldq (v : BitVec 128) :
    psllq v 1 ||| pslldq (psrlq v 63) 8 = v <<< 1 := by
  refine BitVec.eq_of_getLsbD_eq fun i hi => ?_
  simp only [psllq, pslldq, psrlq, BitVec.getLsbD_or, BitVec.getLsbD_append,
    BitVec.getLsbD_shiftLeft, BitVec.getLsbD_ushiftRight, lowQ, highQ, BitVec.getLsbD_extractLsb']
  grind

theorem shiftHashKey_eq (v : BitVec 128) :
    shiftHashKey v = v <<< 1 ^^^ if v.msb then poly else 0#128 := by
  rw [shiftHashKey, psllq_or_pslldq, psrldq_psrlq, carryMask]

/-- The stored key has one power of `x` less than the key. -/
theorem gfX_mul_gfEl_shiftHashKey (v : BitVec 128) : gfX * gfEl (shiftHashKey v) = gfEl v := by
  have hshift := el_ushiftRight_add gfX v (k := 127) (by decide)
  have hcarry : v >>> 127 = if v.msb then 1#128 else 0#128 := by
    refine BitVec.eq_of_getLsbD_eq fun i hi => ?_
    rw [BitVec.getLsbD_ushiftRight, BitVec.msb_eq_getLsbD_last]
    rcases Nat.eq_zero_or_pos i with rfl | hpos
    · rw [Nat.add_zero]
      cases v.getLsbD 127 <;> rfl
    · rw [BitVec.getLsbD_of_ge v _ (by omega)]
      split
      · rw [BitVec.getLsbD_one, decide_eq_false (Nat.ne_of_gt hpos), Bool.and_false]
      · rw [BitVec.getLsbD_zero]
  have hpow : gfX ^ 127 ≠ 0 := pow_ne_zero _ gfX_ne_zero
  have hadd : gfX * gfEl (v <<< 1) + (if v.msb then 1 else 0) = gfEl v := by
    refine mul_left_cancel₀ hpow ?_
    change gfX ^ 127 * _ = gfX ^ 127 * el gfX v
    rw [← hshift, hcarry, mul_add, ← mul_assoc, ← pow_succ, add_comm]
    congr 1
    split
    · exact (mul_one _).trans gfEl_one.symm
    · exact (mul_zero _).trans gfEl_zero.symm
  rw [shiftHashKey_eq, gfEl_xor, mul_add, ← hadd]
  congr 1
  split
  · exact gfX_mul_gfEl_poly
  · rw [gfEl_zero, mul_zero]

/-! ## One multiplication -/

theorem xor_right_comm (a b c : BitVec 128) : a ^^^ b ^^^ c = a ^^^ c ^^^ b := by ac_rfl

theorem gfEl_ghashMul (a b : BitVec 128) : gfEl (ghashMul a b) = gfX * gfEl a * gfEl b := by
  have hparts := evParts_add 0#128 0#128 0#128 a b
  simp only [BitVec.zero_xor] at hparts
  have hzero : evParts (0#128, 0#128, 0#128) = 0 := by simp [evParts, ev]
  have hpow : gfX ^ 255 = gfX * gfX ^ 127 * gfX ^ 127 := by ring
  rw [ghashMul, xor_right_comm, gfEl_reduction_parts, hparts, hzero, zero_add, gfEl_eq a, gfEl_eq b,
    hpow, ev, ev]
  ring

/-- The stored key `n` stands for the power `n + 1` of the hash key. -/
theorem gfEl_hashKeys {h : BitVec 128} (hk0 : gfX * gfEl hk = gfEl h) (n : ℕ) :
    gfX * gfEl (hashKeys hk n) = gfEl h ^ (n + 1) := by
  induction n with
  | zero => rw [hashKeys, hk0, pow_one]
  | succ n ih => rw [hashKeys, gfEl_ghashMul, ih, mul_left_comm, hk0, pow_succ _ (n + 1)]

theorem ghashMul_eq {h : BitVec 128} (hk0 : gfX * gfEl hk = gfEl h) (a : BitVec 128) :
    ghashMul a hk = gfMul a h :=
  gfEl_injective (by rw [gfEl_ghashMul, gfEl_gfMul, ← hk0]; ring)

end Key

/-! ## A batch -/

/-- The hash of a list of blocks, from `y` on. -/
def ghashList (h y : BitVec 128) (l : List (BitVec 128)) : BitVec 128 :=
  l.foldl (fun y b => gfMul (y ^^^ b) h) y

theorem ghashFrom_eq_ghashList (h y : BitVec 128) (f : ℕ → BitVec 128) (m : ℕ) :
    ghashFrom h y f m = ghashList h y ((List.range m).map f) := by
  induction m with
  | zero => rfl
  | succ m ih =>
    rw [ghashFrom, ih, List.range_succ, List.map_append, ghashList, ghashList, List.foldl_append]
    rfl

section Batch

variable {key : KeyData} {h : BitVec 128}

/-- What `PRECOMPUTE` stores, for the hash key `h`. -/
structure KeyData.For (key : KeyData) (h : BitVec 128) : Prop where
  hashKey : ∀ n, gfX * gfEl (key.hashKey n) = gfEl h ^ (n + 1)
  hashKeyK : ∀ n, key.hashKeyK n = pshufd4e (key.hashKey n) ^^^ key.hashKey n

theorem precomp_for (aes : BitVec 128 → BitVec 128) : (precomp aes).For (byteSwap (aes 0#128)) where
  hashKey := gfEl_hashKeys (by rw [gfX_mul_gfEl_shiftHashKey, pshufb_shufMask])
  hashKeyK _ := rfl

theorem KeyData.For.ghashMul_eq (hkey : key.For h) (a : BitVec 128) :
    ghashMul a (key.hashKey 0) = gfMul a h :=
  GcmSse.ghashMul_eq (by rw [hkey.hashKey 0, zero_add, pow_one]) a

/-- The blocks, each with its power of the hash key. -/
noncomputable def weighted (h : BitVec 128) : List (BitVec 128) → Gf
  | [] => 0
  | b :: l => gfEl b * gfEl h ^ (l.length + 1) + weighted h l

theorem gfEl_ghashList (h : BitVec 128) (l : List (BitVec 128)) (y : BitVec 128) :
    gfEl (ghashList h y l) = gfEl y * gfEl h ^ l.length + weighted h l := by
  induction l generalizing y with
  | nil => rw [ghashList, List.foldl_nil, List.length_nil, pow_zero, mul_one, weighted, add_zero]
  | cons b l ih =>
    have hcons : ghashList h y (b :: l) = ghashList h (gfMul (y ^^^ b) h) l := rfl
    rw [hcons, ih, gfEl_gfMul, gfEl_xor, List.length_cons, weighted]
    ring

theorem evParts_products (hkey : key.For h) (l : List (BitVec 128))
    (t : BitVec 128 × BitVec 128 × BitVec 128) :
    gfX ^ 255 * evParts (products key l t) = gfX ^ 255 * evParts t + weighted h l := by
  induction l generalizing t with
  | nil => rw [products, weighted, add_zero]
  | cons b l ih =>
    obtain ⟨t4, t7, t6⟩ := t
    have hterm : gfX ^ 255 * (ev b * ev (key.hashKey l.length)) =
        gfEl b * gfEl h ^ (l.length + 1) := by
      rw [← hkey.hashKey l.length, gfEl_eq b, gfEl_eq (key.hashKey _), ev, ev]
      ring
    rw [products, ih, hkey.hashKeyK, evParts_add, mul_add, hterm, weighted, add_assoc]

/-- A batch of blocks, the first of which has the hash so far. -/
theorem ghashLast8_eq (hkey : key.For h) (y : BitVec 128) {l : List (BitVec 128)} (hl : l ≠ []) :
    ghashLast8 key (combine y l) = ghashList h y l := by
  refine gfEl_injective ?_
  have hzero : evParts (0#128, 0#128, 0#128) = 0 := by simp [evParts, ev]
  have hparts := evParts_products hkey (combine y l) (0#128, 0#128, 0#128)
  rw [hzero, mul_zero, zero_add] at hparts
  rw [ghashLast8]
  generalize products key (combine y l) (0#128, 0#128, 0#128) = t at hparts
  obtain ⟨t4, t7, t6⟩ := t
  dsimp only
  rw [gfEl_reduction_parts, hparts, gfEl_ghashList]
  cases l with
  | nil => exact absurd rfl hl
  | cons b l =>
    rw [combine, weighted, weighted, gfEl_xor, List.length_cons]
    ring

end Batch

end IsalCrypto.Aes.GcmSse
