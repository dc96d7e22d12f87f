import IsalCrypto.Aes.GcmAarch64Update
import IsalCrypto.Aes.GcmSseStandard

/-!
# The tag on AArch64

* `insS3_ctrReg`: the first counter block comes back from the register.
* `gfMul_aadHash`: the hash of the additional data, with the multiplication that the code puts off.
* `lengthsAndTag_eq`: the products for the last block and the lengths, and the tag.
* `aesGcmFinalize_eq`: the tag after a text of any length.
-/

namespace IsalCrypto.Aes.GcmAarch64

open IsalCrypto.Lib
open IsalCrypto.Aes.GcmSse (GcmContextData tagBlock)

/-! ## The first counter block -/

section Counter

variable {iv : ℕ → Byte} {v x y : BitVec 128} {i n : ℕ}

theorem byteAt_counter0 (iv : ℕ → Byte) {k : ℕ} (hk : k < 16) :
    byteAt (counter0 (window iv 0 12)) k =
      if k < 4 then ([1#8, 0#8, 0#8, 0#8] : List Byte).getD k 0#8 else iv (15 - k) := by
  rw [counter0, byteAt_byteSwap hk, byteAt_ofBytes (by rw [List.length_append, length_window]; rfl),
    List.getD_eq_getElem?_getD]
  split
  · next hlow =>
    rw [List.getElem?_append_right (by rw [length_window]; omega), length_window]
    have hbyte : ∀ k < 4, ([0#8, 0#8, 0#8, 1#8] : List Byte)[15 - k - 12]?.getD 0#8 =
        ([1#8, 0#8, 0#8, 0#8] : List Byte).getD k 0#8 := by decide
    exact hbyte k hlow
  · rw [List.getElem?_append_left (by rw [length_window]; omega), ← List.getD_eq_getElem?_getD,
      getD_window, if_pos (by omega), Nat.zero_add]

theorem extractLsb'_counter0 (iv : ℕ → Byte) :
    (counter0 (window iv 0 12)).extractLsb' 0 32 = 1#32 := by
  refine BitVec.eq_of_getLsbD_eq fun i hi => ?_
  have hbit := congrArg (BitVec.getLsbD · (i % 8)) (byteAt_counter0 iv (k := i / 8) (by omega))
  simp only [getLsbD_byteAt, Nat.div_add_mod, if_pos (show i / 8 < 4 by omega)] at hbit
  rw [decide_eq_true (Nat.mod_lt i (by decide)), Bool.true_and] at hbit
  have hone : ∀ i < 32, (([1#8, 0#8, 0#8, 0#8] : List Byte).getD (i / 8) 0#8).getLsbD (i % 8) =
      (1#32).getLsbD i := by decide
  rw [BitVec.getLsbD_extractLsb', decide_eq_true hi, Bool.true_and, Nat.zero_add, hbit, hone i hi]

/-- The counter of the register is set to one. -/
theorem insS3_ctrReg (hlow : y.extractLsb' 0 32 = 1#32)
    (hhigh : ∀ i < 128, 32 ≤ i → x.getLsbD i = y.getLsbD i) : insS3 (ctrReg x) 1#32 = ctrReg y := by
  refine BitVec.eq_of_getLsbD_eq fun i hi => ?_
  rw [insS3, BitVec.getLsbD_append, getLsbD_ctrReg y hi]
  split
  · next hlt =>
    rw [BitVec.getLsbD_extractLsb', decide_eq_true hlt, Bool.true_and, Nat.zero_add,
      getLsbD_ctrReg x hi]
    exact hhigh _ (by omega) (by omega)
  · next hge =>
    rw [← hlow, BitVec.getLsbD_extractLsb', decide_eq_true (show i - 96 < 32 by omega),
      Bool.true_and]
    exact congrArg y.getLsbD (by omega)

/-- The counting leaves the other bits. -/
theorem getLsbD_iterate_inc32 (x : BitVec 128) (n : ℕ) (hi : i < 128) (hge : 32 ≤ i) :
    (inc32^[n] x).getLsbD i = x.getLsbD i := by
  rw [iterate_inc32, BitVec.getLsbD_append, if_neg (by omega), BitVec.getLsbD_extractLsb',
    decide_eq_true (show i - 32 < 96 by omega), Bool.true_and]
  exact congrArg x.getLsbD (by omega)

/-- The first counter block after any number of steps. -/
theorem insS3_iterate (iv : ℕ → Byte) (n : ℕ) :
    rev32 (insS3 (ctrReg (inc32^[n] (counter0 (window iv 0 12)))) 1#32) =
      byteSwap (counter0 (window iv 0 12)) := by
  rw [insS3_ctrReg (extractLsb'_counter0 iv) fun i hi hge => getLsbD_iterate_inc32 _ n hi hge,
    rev32_ctrReg]

/-- The counter that `aes_gcm_enc` and `aes_gcm_dec` begin with, whatever the register holds. -/
theorem insS3_ld1 (iv : ℕ → Byte) (v : BitVec 128) :
    insS3 (rev32 (ld1 (ld1 v 0 8 iv 0) 8 4 iv 8)) 1#32 = ctrReg (counter0 (window iv 0 12)) := by
  rw [← byteSwap_byteSwap (ld1 (ld1 v 0 8 iv 0) 8 4 iv 8)]
  refine insS3_ctrReg (extractLsb'_counter0 iv) fun i hi hge => ?_
  have hbyte : byteAt (byteSwap (ld1 (ld1 v 0 8 iv 0) 8 4 iv 8)) (i / 8) =
      byteAt (counter0 (window iv 0 12)) (i / 8) := by
    rw [byteAt_counter0 iv (by omega), if_neg (by omega), byteAt_byteSwap (by omega),
      byteAt_ld1 (by omega)]
    split
    · exact congrArg iv (by omega)
    · rw [byteAt_ld1 (by omega), if_pos (by omega)]
      exact congrArg iv (by omega)
  have hbit := congrArg (BitVec.getLsbD · (i % 8)) hbyte
  simp only [getLsbD_byteAt, Nat.div_add_mod] at hbit
  rwa [decide_eq_true (Nat.mod_lt i (by decide)), Bool.true_and, Bool.true_and] at hbit

/-- The counter that `aes_gcm_init` keeps. -/
theorem origIV_eq (iv : ℕ → Byte) : (0x0100#16 ++ 0#16 ++ load32 iv 8 : BitVec 64) ++ load64 iv 0 =
    byteSwap (counter0 (window iv 0 12)) := by
  have hone : (0x0100#16 ++ 0#16 : BitVec 32) = 0x01000000#32 := by decide
  have hpinsr := GcmSse.origIV_eq iv
  rw [GcmSse.pinsrd2, GcmSse.pinsrq0] at hpinsr
  rw [counter0, byteSwap_byteSwap, ← hpinsr, hone, lowQ_append]
  have htop : (highQ GcmSse.onef ++ load64 iv 0 : BitVec 128).extractLsb' 96 32 =
      0x01000000#32 := by
    refine BitVec.eq_of_getLsbD_eq fun i hi => ?_
    rw [BitVec.getLsbD_extractLsb', BitVec.getLsbD_append, if_neg (by omega)]
    revert i
    decide
  rw [htop]

end Counter

/-! ## The additional data -/

section Aad

variable {keys aad : ℕ → Byte} {h : BitVec 128} {s : HashRegs} {m n : ℕ}

/-- All blocks before the last one are multiplied by the hash key. -/
theorem aadBlocksReload_eq (hkeys : KeysFor keys h) (hm : 0 < m) (leftDat : BitVec 128) :
    ev (aadBlocksReload keys aad m leftDat s) =
      gfEl (ghashFrom h 0#128 (streamBlock aad) m ^^^ byteSwap leftDat) := by
  unfold aadBlocksReload
  dsimp only
  have habs : Absorbed aad h 0#128 0 (nextDat aad { s with datAdr := 0 }) := by
    constructor
    · rw [aadhash_nextDat, ev_rbit, ghashDeferred, ghashFrom, BitVec.zero_xor, streamBlock, ldQ]
    · rw [datAdr_nextDat]
  obtain ⟨hlt, r, hr, hloop⟩ := ghashLoop_induct (m := m - 1) (p := Absorbed aad h 0#128)
    (fun _ _ hs => (ghashBlockN_absorbs hkeys hs).1) habs
  generalize ghashLoop keys aad (m - 1) _ = t at *
  obtain ⟨left, s₂⟩ := t
  dsimp only at *
  split
  · next hzero =>
    have hreg := ghashBlockReg_absorbs (s := { s₂ with
      hashkey := ldQ keys ((hashkeyTotalNum - 1) * 32)
      hashkeyExt := ldQ keys ((hashkeyTotalNum - 1) * 32 + 16) }) hkeys leftDat rfl rfl
    dsimp only at hreg
    rw [hreg, hloop.aadhash, gfEl_xor, show m = r + 1 by omega, ghashFrom_succ_eq, gfEl_gfMul]
  · next hne =>
    obtain ⟨k, rfl⟩ : ∃ k, left = k + 1 := ⟨left - 1, by omega⟩
    rw [Nat.add_sub_cancel]
    have hblocks := leftBlocks_eq (m := k) (s := { s₂ with
      hashkeyAdr := (hashkeyTotalNum - 1 - (k + 1)) <<< 5 }) hkeys ⟨hloop.aadhash, hloop.datAdr⟩ (by
        dsimp only
        rw [Nat.shiftLeft_eq, Nat.mul_comm]) hlt leftDat
    rw [hblocks, show m = r + k + 2 by omega]

/-- The one-shot functions leave the same hash. -/
theorem aadHashOneShot_eq (hkeys : KeysFor keys h) (aadLen : BitVec 64)
    (leftDat leftDat' : BitVec 128) (s s' : HashRegs) :
    (aadHashOneShot keys aad aadLen leftDat s).1 = aadHash keys aad aadLen leftDat' s' := by
  rcases Nat.eq_zero_or_pos aadLen.toNat with hzero | hpos
  · have hlen : aadLen = 0#64 := BitVec.eq_of_toNat_eq hzero
    rw [hlen, aadHash_zero, aadHashOneShot, if_pos rfl]
  rw [aadHash_eq hkeys aadLen rfl hpos]
  have hne : aadLen ≠ 0#64 := by
    rintro rfl
    exact absurd hpos (Nat.lt_irrefl 0)
  have hleft : (aadLen &&& 15#64).toNat = aadLen.toNat % 16 := by
    rw [BitVec.toNat_and]
    exact Nat.and_two_pow_sub_one_eq_mod _ 4
  have hshift : (aadLen >>> 4).toNat = aadLen.toNat / 16 := by
    rw [BitVec.toNat_ushiftRight, Nat.shiftRight_eq_div_pow]
  have hmul : ∀ j : ℕ, j <<< 4 = 16 * j := fun j => by rw [Nat.shiftLeft_eq, Nat.mul_comm]
  have hblocks : ∀ m d, (if m = 0 then rbit d else aadBlocksReload keys aad m d s) =
      (ghashFrom h 0#128 (streamBlock aad) m ^^^ byteSwap d).reverse := fun m d => by
    split
    · next hzero => rw [hzero, ghashFrom, BitVec.zero_xor, rbit_eq]
    · next hpos => exact ev_injective (by rw [aadBlocksReload_eq hkeys (by omega), ev_reverse])
  unfold aadHashOneShot
  dsimp only
  rw [if_neg hne, hleft, hshift, hmul, hmul]
  generalize aadLen.toNat = n at *
  split
  · next hzero =>
    dsimp only
    rw [hblocks, ldQ, show n / 16 - 1 = (n - 1) / 16 by omega,
      show n - 16 * ((n - 1) / 16) = 16 by omega]
  · next hne =>
    dsimp only
    rw [hblocks, readSmallDataStart_eq aad _ (by omega) (by omega),
      show (n - 1) / 16 = n / 16 by omega, show n - 16 * (n / 16) = n % 16 by omega]

/-- Multiplied once more, the stored hash is that of the padded data. -/
theorem gfMul_aadHash (hkeys : KeysFor keys h) (aad : ℕ → Byte) (aadLen : BitVec 64)
    (leftDat : BitVec 128) (s : HashRegs) :
    gfMul (aadHash keys aad aadLen leftDat s).reverse h = ghashPadded h 0#128 aad aadLen.toNat := by
  rcases Nat.eq_zero_or_pos aadLen.toNat with hzero | hpos
  · have hlen : aadLen = 0#64 := BitVec.eq_of_toNat_eq hzero
    rw [hzero, hlen, aadHash_zero, ghashPadded, if_pos rfl, ghashAt_of_mod rfl]
    exact gfMul_eq_zero_iff.mpr (.inl (BitVec.reverse_eq_zero_iff.mpr rfl))
  · rw [aadHash_eq hkeys aadLen rfl hpos,
      BitVec.reverse_reverse_eq, ← ghash_pad16_window h aad hpos, ghash, ghash_window_pad16]

end Aad

/-! ## The last products -/

section Last

variable {keys : ℕ → Byte} {h x encCtr : BitVec 128} {s : HashRegs} {inLen aadLen : BitVec 64}
  {n t : ℕ} {v : BitVec 128}

theorem byteAt_rev64 (v : BitVec 128) {k : ℕ} (hk : k < 16) :
    byteAt (rev64 v) k = byteAt v (k / 8 * 8 + (7 - k % 8)) := by
  rw [rev64, byteAt_ofBytes (by simp), List.getD_eq_getElem?_getD, List.getElem?_map,
    List.getElem?_range hk]
  rfl

/-- Both halves are turned around, then the whole. -/
theorem byteSwap_rev64 (v : BitVec 128) : byteSwap (rev64 v) = ext8 v v := by
  refine eq_of_byteAt_eq fun k hk => ?_
  rw [byteAt_byteSwap hk, byteAt_rev64 v (by omega)]
  refine BitVec.eq_of_getLsbD_eq fun i hi => ?_
  rw [getLsbD_byteAt, getLsbD_byteAt, decide_eq_true hi, Bool.true_and, Bool.true_and, ext8,
    BitVec.getLsbD_append]
  split
  · rw [highQ, BitVec.getLsbD_extractLsb', decide_eq_true (by omega), Bool.true_and]
    exact congrArg v.getLsbD (by omega)
  · rw [lowQ, BitVec.getLsbD_extractLsb', decide_eq_true (by omega), Bool.true_and]
    exact congrArg v.getLsbD (by omega)

theorem shiftLeft_three (w : BitVec 64) : w <<< 3 = BitVec.ofNat 64 (8 * w.toNat) := by
  refine BitVec.eq_of_toNat_eq ?_
  rw [BitVec.toNat_shiftLeft, BitVec.toNat_ofNat, Nat.shiftLeft_eq]
  omega

/-- The lengths in bits, as the last block of the hash has them. -/
theorem byteSwap_lengths (inLen aadLen : BitVec 64) : byteSwap (rev64 (shl3 (inLen ++ aadLen))) =
    BitVec.ofNat 64 (8 * aadLen.toNat) ++ BitVec.ofNat 64 (8 * inLen.toNat) := by
  rw [byteSwap_rev64, shl3, ext8, lowQ_append, highQ_append, lowQ_append, highQ_append,
    shiftLeft_three, shiftLeft_three]

theorem byteAt_rbit (v : BitVec 128) {k : ℕ} (hk : k < 16) :
    byteAt (rbit v) k = (byteAt v k).reverse := by
  rw [rbit, toBytes_eq_map, List.map_map, byteAt_ofBytes (by simp), List.getD_eq_getElem?_getD,
    List.getElem?_map, List.getElem?_range hk]
  rfl

theorem rbit_rbit (v : BitVec 128) : rbit (rbit v) = v :=
  eq_of_byteAt_eq fun k hk => by rw [byteAt_rbit _ hk, byteAt_rbit _ hk, BitVec.reverse_reverse_eq]

/-- A register is known from its element. -/
theorem rbit_eq_of_ev (hv : ev v = gfEl x) : rbit v = byteSwap x := by
  have hreg : v = rbit (byteSwap x) := ev_injective (by rw [hv, ev_rbit, byteSwap_byteSwap])
  rw [hreg, rbit_rbit]

/-- The block to be multiplied is not part of the sums. -/
theorem parts_aadhash (s : HashRegs) (v : BitVec 128) :
    ({ s with aadhash := v } : HashRegs).parts = s.parts :=
  parts_congr rfl rfl rfl

/-- The power of the pair is taken. -/
theorem HoldsPair.parts_noload (hpair : HoldsPair keys n s) (hkeys : KeysFor keys h)
    (hn : n < hashkeyTotalNum) : (ghashMultRoundNoload s).parts =
      s.parts + ev s.aadhash * gfEl h ^ (hashkeyTotalNum - n) := by
  rw [parts_roundNoload (hpair.ext_eq hkeys hn), hpair.hashkey, hkeys.ev_hashkey hn]

/-- And the next pair is loaded. -/
theorem HoldsPair.next (hpair : HoldsPair keys n s) :
    HoldsPair keys (n + 1) (nextPair keys 2 (ghashMultRoundNoload s)) := by
  refine holdsPair_nextPair (by decide) ?_
  dsimp only [ghashMultRoundNoload]
  exact hpair.hashkeyAdr

theorem holdsPair_tagStart (keys : ℕ → Byte) (n : ℕ) (aadHash : BitVec 128) (s : HashRegs) :
    HoldsPair keys n (tagStart keys n aadHash s) ∧ (tagStart keys n aadHash s).parts = 0 ∧
      (tagStart keys n aadHash s).aadhash = aadHash := by
  unfold tagStart
  obtain ⟨hparts, haad, -⟩ := nextPair_keeps keys 2 { s with
    aadhash := aadHash
    high := 0#128
    low := 0#128
    middle := 0#128
    hashkeyAdr := n <<< 5 }
  refine ⟨holdsPair_nextPair (by decide) ?_, hparts.trans ?_, haad⟩
  · dsimp only
    rw [Nat.shiftLeft_eq, Nat.mul_comm]
  · rw [HashRegs.parts]
    dsimp only
    rw [ev_zero, mul_zero, mul_zero, add_zero, add_zero]

theorem outputAuthTag_eq (v : BitVec 128) (ht : t = 8 ∨ t = 12 ∨ t = 16) :
    outputAuthTag v (BitVec.ofNat 64 t) = (toBytes v).take t := by
  obtain rfl | rfl | rfl := ht
  · rfl
  · exact (List.take_add (i := 8) (j := 4)).symm
  · rw [outputAuthTag, if_pos rfl, List.take_of_length_le (by rw [length_toBytes])]

/-- The sums stand for `x` times the square of the hash key: the lengths are added, and the tag is
that of the hash `x` times the hash key. -/
theorem lengthsAndTag_eq (hkeys : KeysFor keys h) (hpair : HoldsPair keys (hashkeyTotalNum - 2) s)
    (hsum : s.parts + ev s.aadhash * gfEl h ^ 2 = gfEl x * gfEl h) (encCtr : BitVec 128)
    (inLen aadLen t : BitVec 64) :
    lengthsAndTag keys (inLen ++ aadLen) encCtr t s =
      outputAuthTag (encCtr ^^^ byteSwap (gfMul (x ^^^
      (BitVec.ofNat 64 (8 * aadLen.toNat) ++ BitVec.ofNat 64 (8 * inLen.toNat))) h)) t := by
  have hsquare : (ghashMultRoundNoload s).parts = gfEl x * gfEl h := by
    rw [hpair.parts_noload hkeys (by decide), ← hsum]
    rfl
  have hlast : HoldsPair keys (hashkeyTotalNum - 1) (nextPair keys 2 (ghashMultRoundNoload s)) :=
    hpair.next
  obtain ⟨hparts, -, -⟩ := nextPair_keeps keys 2 (ghashMultRoundNoload s)
  rw [hsquare] at hparts
  unfold lengthsAndTag
  dsimp only
  generalize nextPair keys 2 (ghashMultRoundNoload s) = s₁ at *
  have hlengths : HoldsPair keys (hashkeyTotalNum - 1)
      { s₁ with aadhash := rbit (rev64 (shl3 (inLen ++ aadLen))) } :=
    hlast.congr rfl rfl rfl
  have hsums := hlengths.parts_noload hkeys (by decide)
  rw [parts_aadhash s₁, hparts, ev_rbit, byteSwap_lengths,
    show hashkeyTotalNum - (hashkeyTotalNum - 1) = 1 from rfl, pow_one] at hsums
  generalize ghashMultRoundNoload { s₁ with aadhash := _ } = s₂ at hsums ⊢
  refine congrArg (outputAuthTag · t) ?_
  have hfinal : ev (ghashMultFinalRound { s₂ with aadhash := rbit encCtr }).aadhash =
      gfEl (byteSwap encCtr ^^^ gfMul (x ^^^
        (BitVec.ofNat 64 (8 * aadLen.toNat) ++ BitVec.ofNat 64 (8 * inLen.toNat))) h) := by
    rw [ev_finalRound, parts_aadhash s₂, hsums, ev_rbit, gfEl_xor, gfEl_gfMul, gfEl_xor,
      add_mul]
  rw [rbit_eq_of_ev hfinal, byteSwap_xor, byteSwap_byteSwap]

end Last

/-! ## Finalization -/

section Finalize

variable {aes : BitVec 128 → BitVec 128} {keys : ℕ → Byte} {h x j : BitVec 128} {c : ℕ → Byte}
  {context : GcmContextData} {s : HashRegs} {L t : ℕ}

/-- The sums for the padded ciphertext, when its last block is whole. -/
theorem tagStart_whole (keys : ℕ → Byte) (hmod : L % 16 = 0) {aadHash : BitVec 128}
    (haad : ev aadHash = gfEl (ghashLag h x (streamBlock c) (L / 16))) (s : HashRegs) :
    HoldsPair keys (hashkeyTotalNum - 2) (tagStart keys (hashkeyTotalNum - 2) aadHash s) ∧
      (tagStart keys (hashkeyTotalNum - 2) aadHash s).parts +
        ev (tagStart keys (hashkeyTotalNum - 2) aadHash s).aadhash * gfEl h ^ 2 =
          gfEl (ghashPadded h (gfMul x h) c L) * gfEl h := by
  obtain ⟨hpair, hparts, haadhash⟩ := holdsPair_tagStart keys (hashkeyTotalNum - 2) aadHash s
  refine ⟨hpair, ?_⟩
  rw [hparts, haadhash, haad, ghashPadded, if_pos hmod, ghashAt_of_mod hmod, ← gfMul_ghashLag,
    gfEl_gfMul]
  ring

/-- And when it is not: the sum is multiplied first, and the last block comes behind it. -/
theorem tagStart_partial (hkeys : KeysFor keys h) (hmod : L % 16 ≠ 0) {aadHash last : BitVec 128}
    (haad : ev aadHash = gfEl (ghashLag h x (streamBlock c) (L / 16)))
    (hlast : byteSwap last = streamRest c L) (s : HashRegs) :
    let s' := nextPair keys 2 (ghashMultRoundNoload (tagStart keys (hashkeyTotalNum - 3) aadHash s))
    HoldsPair keys (hashkeyTotalNum - 2) { s' with aadhash := rbit last } ∧
      HashRegs.parts { s' with aadhash := rbit last } + ev (rbit last) * gfEl h ^ 2 =
        gfEl (ghashPadded h (gfMul x h) c L) * gfEl h := by
  obtain ⟨hpair, hparts, haadhash⟩ := holdsPair_tagStart keys (hashkeyTotalNum - 3) aadHash s
  have hsum := hpair.parts_noload hkeys (by decide)
  rw [hparts, haadhash, haad, zero_add] at hsum
  have hnext : HoldsPair keys (hashkeyTotalNum - 2) (nextPair keys 2
      (ghashMultRoundNoload (tagStart keys (hashkeyTotalNum - 3) aadHash s))) := hpair.next
  obtain ⟨hkeep, -, -⟩ := nextPair_keeps keys 2
    (ghashMultRoundNoload (tagStart keys (hashkeyTotalNum - 3) aadHash s))
  rw [hsum] at hkeep
  intro s'
  change s'.parts = _ at hkeep
  change HoldsPair keys _ s' at hnext
  generalize s' = s₁ at *
  refine ⟨hnext.congr rfl rfl rfl, ?_⟩
  rw [parts_aadhash s₁, hkeep, ev_rbit, hlast, ghashPadded, if_neg hmod, ghashAt,
    ← gfMul_ghashLag, gfEl_gfMul, gfEl_xor, gfEl_gfMul,
    show hashkeyTotalNum - (hashkeyTotalNum - 3) = 3 from rfl]
  ring

/-- The tag after `L` bytes of a text. -/
theorem aesGcmFinalize_eq (hkeys : KeysFor keys h) (hctx : ContextAfter aes h x j c L context)
    (hin : context.inLength = BitVec.ofNat 64 L) (ht : t = 8 ∨ t = 12 ∨ t = 16)
    (partialBlock : BitVec 128) (s : HashRegs) :
    aesGcmFinalize aes keys context partialBlock s (BitVec.ofNat 64 t) =
      (toBytes (tagBlock aes h context.origIV (ghashPadded h (gfMul x h) c L)
        (GcmSse.standardLengths context.aadLength.toNat L))).take t := by
  have hnat : context.partialBlockLength.toNat = L % 16 := by
    rw [hctx.partialBlockLength, BitVec.toNat_ofNat]
    omega
  have hlengths : BitVec.ofNat 64 (8 * context.inLength.toNat) = BitVec.ofNat 64 (8 * L) := by
    refine BitVec.eq_of_toNat_eq ?_
    rw [hin, BitVec.toNat_ofNat, BitVec.toNat_ofNat, BitVec.toNat_ofNat]
    omega
  rw [← outputAuthTag_eq _ ht, tagBlock, GcmSse.standardLengths, ← hlengths]
  unfold aesGcmFinalize
  dsimp only
  split
  · next hzero =>
    have hmod : L % 16 = 0 := by
      rw [← hnat, hzero]
      rfl
    obtain ⟨hpair, hsum⟩ := tagStart_whole keys hmod hctx.aadHash s
    exact lengthsAndTag_eq hkeys hpair hsum ..
  · next hne =>
    have hmod : L % 16 ≠ 0 := fun h => hne (BitVec.eq_of_toNat_eq (hnat.trans h))
    have hlast : byteSwap (readSmallDataStart (byteAt context.partialBlockEncKey) 0
        context.partialBlockLength.toNat partialBlock) = streamRest c L := by
      rw [hnat, readSmallDataStart_eq _ _ (Nat.pos_of_ne_zero hmod) (Nat.mod_lt L (by decide)),
        streamRest]
      refine congrArg (byteSwap <| ofBytes ·) (window_eq_window fun k hk => ?_)
      rw [Nat.zero_add, hctx.partialBlockEncKey hmod k (by omega), if_pos hk]
    obtain ⟨hpair, hsum⟩ := tagStart_partial hkeys hmod hctx.aadHash hlast s
    exact lengthsAndTag_eq hkeys hpair hsum ..

end Finalize

end IsalCrypto.Aes.GcmAarch64
