import IsalCrypto.Aes.Gcm
import IsalCrypto.Aes.GcmSseStream

/-!
# GCM on x86 and the standard

`GCM_INIT`, `GCM_ENC_DEC` and `GCM_COMPLETE` in one go, against NIST SP 800-38D.

* `calcAadHash_eq`: the hash of the additional data.
* `gcmComplete_eq`: the tag, where only the low 32 bits of the bit length of the additional data go
  into the last block.
* `aesGcmEnc_standard_iff`: the outcome is the standard's just for less than `2^29` bytes of
  additional data, or for the hash key zero.
-/

namespace IsalCrypto.Aes.GcmSse

open IsalCrypto.Lib

section

variable {key : KeyData} {h y : BitVec 128} {iv aIn : ℕ → Byte} {n q t2 : ℕ} {aLen : BitVec 64}

/-! ## Additional data -/

theorem getSmallAadBlock_eq (hkey : key.For h) (hlen : aLen.toNat = n) (hn : n < 16) (a : ℕ) :
    getSmallAadBlock (key.hashKey 0) aIn a aLen y =
      gfMul (y ^^^ byteSwap (ofBytes (window aIn a n))) h := by
  rw [getSmallAadBlock, hkey.ghashMul_eq, readSmallDataInput_eq hlen hn, pshufb_shufMask]

theorem ghashPadded_small (h y : BitVec 128) (c : ℕ → Byte) (hpos : 0 < n) (hn : n < 16) :
    ghashPadded h y c (16 * q + n) = gfMul (ghashFrom h y (streamBlock c) q ^^^
      byteSwap (ofBytes (window c (16 * q) n))) h := by
  rw [ghashPadded, if_neg (by omega), ghashAt, streamRest, show (16 * q + n) / 16 = q by omega,
    show (16 * q + n) % 16 = n by omega]

/-- The loop, from block `q` on with `t2` bytes left. -/
theorem getAadLoop16_eq (hkey : key.For h) (hpos : 0 < t2) :
    getAadLoop16 (key.hashKey 0) aIn t2 (16 * q) (ghashFrom h 0#128 (streamBlock aIn) q) =
      ghashPadded h 0#128 aIn (16 * q + t2) := by
  induction t2 using Nat.strongRecOn generalizing q with
  | _ t2 ih =>
    rcases Nat.lt_or_ge t2 16 with hlt | hge
    · have hsmall : getAadLoop16 (key.hashKey 0) aIn t2 (16 * q)
          (ghashFrom h 0#128 (streamBlock aIn) q) =
            getSmallAadBlock (key.hashKey 0) aIn (16 * q) (BitVec.ofNat 64 t2)
              (ghashFrom h 0#128 (streamBlock aIn) q) := by
        rw [getAadLoop16]
        omega
      have hnat : (BitVec.ofNat 64 t2).toNat = t2 := by
        rw [BitVec.toNat_ofNat]
        omega
      rw [hsmall, getSmallAadBlock_eq hkey hnat hlt, ghashPadded_small _ _ _ hpos hlt]
    · obtain ⟨r, rfl⟩ : ∃ r, t2 = r + 16 := ⟨t2 - 16, by omega⟩
      have hblock : ghashMul (ghashFrom h 0#128 (streamBlock aIn) q ^^^
          pshufb (ldQ aIn (16 * q)) shufMask) (key.hashKey 0) =
            ghashFrom h 0#128 (streamBlock aIn) (q + 1) := by
        rw [hkey.ghashMul_eq, pshufb_shufMask]
        rfl
      rw [getAadLoop16, hblock]
      split
      · next hzero =>
        rw [hzero, Nat.zero_add, ghashPadded, if_pos (by omega), ghashAt_of_mod (by omega),
          show (16 * q + 16) / 16 = q + 1 by omega]
      · next hne =>
        rw [show 16 * q + 16 = 16 * (q + 1) by omega, ih r (by omega) (by omega)]
        exact congrArg _ (by omega)

/-- The hash of the padded data. -/
theorem calcAadHash_eq (hkey : key.For h) (hlen : aLen.toNat = n) (hn : n < 2 ^ 63) :
    calcAadHash (key.hashKey 0) aIn aLen = ghashPadded h 0#128 aIn n := by
  rw [calcAadHash, slt_ofNat (b := 16) (by omega) (by decide), hlen]
  split
  · next hlt =>
    have hlt := of_decide_eq_true hlt
    rw [getSmallAadBlock_eq hkey hlen hlt]
    rcases Nat.eq_zero_or_pos n with hzero | hpos
    · rw [hzero, ghashPadded, if_pos rfl, ghashAt_of_mod rfl]
      refine gfMul_eq_zero_iff.mpr (.inl ?_)
      rw [BitVec.zero_xor]
      exact byteSwap_zero
    · rw [← Nat.zero_add n, ← Nat.mul_zero 16, ghashPadded_small h 0#128 aIn hpos hlt, Nat.mul_zero,
        Nat.zero_add]
      rfl
  · next hge =>
    have hge : 16 ≤ n := by simpa using hge
    have hloop := @getAadLoop16_eq key h aIn 0 n hkey (by omega)
    rw [Nat.mul_zero, Nat.zero_add] at hloop
    exact hloop

/-! ## The counter -/

theorem origIV_eq (iv : ℕ → Byte) :
    pinsrd2 (pinsrq0 onef (load64 iv 0)) (load32 iv 8) =
      ofBytes (window iv 0 12 ++ [0#8, 0#8, 0#8, 1#8]) := by
  have htop : (pinsrq0 onef (load64 iv 0)).extractLsb' 96 32 = 0x01000000#32 := by
    rw [pinsrq0]
    refine BitVec.eq_of_getLsbD_eq fun i hi => ?_
    rw [BitVec.getLsbD_extractLsb', BitVec.getLsbD_append, if_neg (by omega)]
    revert i
    decide
  refine eq_of_byteAt_eq fun k hk => BitVec.eq_of_getLsbD_eq fun b hb => ?_
  rw [byteAt_ofBytes (by rw [List.length_append, length_window]; rfl), getLsbD_byteAt,
    decide_eq_true hb, Bool.true_and, pinsrd2, htop, pinsrq0, lowQ_append, BitVec.getLsbD_append,
    List.getD_eq_getElem?_getD]
  rcases Nat.lt_or_ge k 8 with hlow | hhigh
  · rw [if_pos (by omega), getLsbD_load64 (by omega), List.getElem?_append_left (by
      rw [length_window]; omega), ← List.getD_eq_getElem?_getD, getD_window, if_pos (by omega),
      show 0 + (8 * k + b) / 8 = 0 + k by omega, show (8 * k + b) % 8 = b by omega]
  · rw [if_neg (by omega), BitVec.getLsbD_append]
    rcases Nat.lt_or_ge k 12 with hmid | htop
    · rw [if_pos (by omega), getLsbD_load32 (by omega), List.getElem?_append_left (by
        rw [length_window]; omega), ← List.getD_eq_getElem?_getD, getD_window, if_pos (by omega),
        show 8 + (8 * k + b - 64) / 8 = 0 + k by omega, show (8 * k + b - 64) % 8 = b by omega]
    · rw [if_neg (by omega), List.getElem?_append_right (by rw [length_window]; exact htop),
        length_window]
      have hbits : ∀ r < 4, ∀ b < 8, (0x01000000#32).getLsbD (8 * r + b) =
          (([0#8, 0#8, 0#8, 1#8] : List Byte)[r]?.getD 0#8).getLsbD b := by decide
      rw [← hbits (k - 12) (by omega) b hb]
      exact congrArg _ (by omega)

/-! ## The last block of the hash -/

theorem leNat_append (a b : List Byte) : leNat (a ++ b) = leNat a + 256 ^ a.length * leNat b := by
  induction a with
  | nil => rw [List.nil_append, leNat, List.length_nil, pow_zero, Nat.one_mul, Nat.zero_add]
  | cons x a ih =>
    rw [List.cons_append, leNat, leNat, ih, List.length_cons, pow_succ]
    ring

theorem byteSwap_ofBytes_be64 (x y : ℕ) :
    byteSwap (ofBytes (be64 x ++ be64 y)) = BitVec.ofNat 64 x ++ BitVec.ofNat 64 y := by
  have hrev : be64 x ++ be64 y = (leBytes 8 y ++ leBytes 8 x).reverse := by
    rw [be64, be64, List.reverse_append]
  have hlen : (leBytes 8 y ++ leBytes 8 x).reverse.length = 16 := by
    rw [List.length_reverse, List.length_append, length_leBytes, length_leBytes]
  rw [byteSwap, hrev, toBytes_ofBytes hlen, List.reverse_reverse, ofBytes, leNat_append,
    leNat_leBytes, leNat_leBytes, length_leBytes]
  refine BitVec.eq_of_toNat_eq ?_
  rw [BitVec.toNat_append, ← Nat.shiftLeft_add_eq_or_of_lt (BitVec.isLt _), BitVec.toNat_ofNat,
    BitVec.toNat_ofNat, BitVec.toNat_ofNat, Nat.shiftLeft_eq]
  omega

/-- The last block as the code builds it. -/
theorem lengths_eq (a p : BitVec 64) :
    pslldq ((a.setWidth 32).setWidth 128) 8 ^^^ p.setWidth 128 =
      (a.setWidth 32).setWidth 64 ++ p := by
  refine BitVec.eq_of_getLsbD_eq fun i hi => ?_
  rw [pslldq, BitVec.getLsbD_xor, BitVec.getLsbD_shiftLeft, BitVec.getLsbD_setWidth,
    BitVec.getLsbD_setWidth, BitVec.getLsbD_append, BitVec.getLsbD_setWidth, decide_eq_true hi]
  rcases Nat.lt_or_ge i 64 with hlow | hhigh
  · rw [if_pos hlow, decide_eq_true (show i < 8 * 8 from hlow)]
    simp
  · rw [if_neg (by omega), decide_eq_false (show ¬ i < 8 * 8 by omega),
      BitVec.getLsbD_of_ge p i hhigh, decide_eq_true (show i - 8 * 8 < 128 by omega),
      BitVec.getLsbD_setWidth, BitVec.getLsbD_setWidth, decide_eq_true (show i - 64 < 64 by omega)]
    simp

theorem returnT_eq (v : BitVec 128) {t : ℕ} (ht : t = 8 ∨ t = 12 ∨ t = 16) :
    returnT v (BitVec.ofNat 64 t) = (toBytes v).take t := by
  have hshift : ∀ k < 8, byteAt (psrldq v 8) k = byteAt v (8 + k) := fun k _ => by
    rw [byteAt_psrldq_eight, Nat.add_comm]
  obtain rfl | rfl | rfl := ht
  · rfl
  · rw [returnT, if_neg (by decide), if_pos rfl, toBytes_eq_map, toBytes_eq_map, ← List.map_take,
      ← List.map_take, ← List.map_take]
    simp [List.range_succ, hshift]
  · rw [returnT, if_pos rfl, List.take_of_length_le (by rw [length_toBytes])]

/-! ## The tag -/

/-- The tag of the hash `x`, of which the lengths are still missing. -/
def tagBlock (aes : BitVec 128 → BitVec 128) (h iv0 x lengths : BitVec 128) : BitVec 128 :=
  aes iv0 ^^^ byteSwap (gfMul (x ^^^ lengths) h)

/-- `GCM_COMPLETE` after `n` bytes with the ciphertext `c`. -/
theorem gcmComplete_eq {ctx : GcmContextData} {c : ℕ → Byte} {j : BitVec 128} {t : ℕ}
    (hkey : key.For h) (hctx : ctx.After key.aes h y j c n) (hin : ctx.inLength = BitVec.ofNat 64 n)
    (ht : t = 8 ∨ t = 12 ∨ t = 16) :
    (gcmComplete key ctx (BitVec.ofNat 64 t)).2 =
      (toBytes (tagBlock key.aes h ctx.origIV (ghashPadded h y c n)
        (((ctx.aadLength <<< 3).setWidth 32).setWidth 64 ++ BitVec.ofNat 64 (8 * n)))).take t := by
  have hhash : (if ctx.partialBlockLength = 0#64 then ctx.aadHash
      else ghashMul ctx.aadHash (key.hashKey 0)) = ghashPadded h y c n := by
    have hiff : ctx.partialBlockLength = 0#64 ↔ n % 16 = 0 := by
      rw [hctx.partialBlockLength, ← BitVec.toNat_inj, BitVec.toNat_ofNat, BitVec.toNat_ofNat]
      omega
    rw [hkey.ghashMul_eq, hctx.aadHash, ghashPadded]
    exact if_congr hiff rfl rfl
  have hlen : ctx.inLength <<< 3 = BitVec.ofNat 64 (8 * n) := by
    rw [hin]
    refine BitVec.eq_of_toNat_eq ?_
    rw [BitVec.toNat_shiftLeft, BitVec.toNat_ofNat, BitVec.toNat_ofNat, Nat.shiftLeft_eq]
    omega
  rw [gcmComplete]
  dsimp only
  rw [returnT_eq _ ht, hhash, hlen, lengths_eq, hkey.ghashMul_eq, pshufb_shufMask, tagBlock]

/-- The tag of the standard. -/
theorem gcmTag_eq (aes : BitVec 128 → BitVec 128) (iv : List Byte) (c : ℕ → Byte) (a t : ℕ)
    (haes : byteSwap (aes 0#128) = h) :
    gcmTag aes iv (window aIn 0 a) (window c 0 n) t =
      (toBytes (tagBlock aes h (ofBytes (iv ++ [0#8, 0#8, 0#8, 1#8]))
        (ghashPadded h (ghashPadded h 0#128 aIn a) c n)
        (BitVec.ofNat 64 (8 * a) ++ BitVec.ofNat 64 (8 * n)))).take t := by
  have hpad : ∀ msg : List Byte, (pad16 msg).length % 16 = 0 := fun msg => by
    rw [pad16, List.length_append, List.length_replicate]
    omega
  have hlast : (be64 (8 * a) ++ be64 (8 * n)).length = 16 := by
    rw [List.length_append, be64, be64, List.length_reverse, List.length_reverse, length_leBytes,
      length_leBytes]
  have hghash : ghash h (pad16 (window aIn 0 a) ++ pad16 (window c 0 n) ++
      (be64 (8 * a) ++ be64 (8 * n))) =
        gfMul (ghashPadded h (ghashPadded h 0#128 aIn a) c n ^^^
          (BitVec.ofNat 64 (8 * a) ++ BitVec.ofNat 64 (8 * n))) h := by
    have hboth : (pad16 (window aIn 0 a) ++ pad16 (window c 0 n)).length % 16 = 0 := by
      rw [List.length_append]
      have haad := hpad (window aIn 0 a)
      have hc := hpad (window c 0 n)
      omega
    have haad : ghash h (pad16 (window aIn 0 a)) = ghashPadded h 0#128 aIn a :=
      ghash_window_pad16 h 0#128 aIn a
    rw [ghash_append hboth, ghash_append (hpad _), haad, ghash_window_pad16, hlast, ghashFrom,
      ghashFrom, block, Nat.mul_zero, List.drop_zero, List.take_of_length_le (Nat.le_of_eq hlast),
      byteSwap_ofBytes_be64]
  have hgctr : ∀ s : BitVec 128, gctr aes (counter0 iv) (toBytes s) =
      toBytes (aes (ofBytes (iv ++ [0#8, 0#8, 0#8, 1#8])) ^^^ s) := fun s => by
    refine List.ext_getElem? fun i => ?_
    rw [gctr, List.getElem?_mapIdx]
    rcases Nat.lt_or_ge i 16 with hi | hi
    · rw [getElem?_toBytes hi, getElem?_toBytes hi, Option.map_some, byteAt_xor, BitVec.xor_comm,
        keyStream, show i / 16 = 0 by omega, show i % 16 = i by omega, Function.iterate_zero_apply,
        counter0, byteSwap_byteSwap]
    · rw [List.getElem?_eq_none (by rw [length_toBytes]; exact hi),
        List.getElem?_eq_none (by rw [length_toBytes]; exact hi), Option.map_none]
  rw [gcmTag, haes, length_window, length_window, hghash, hgctr, tagBlock]

end

/-! ## The whole call -/

section Standard

variable {aes : BitVec 128 → BitVec 128} {inp iv aIn out : ℕ → Byte} {len aLen : BitVec 64}
  {tmp : BitVec 128}

/-- What `_aes_gcm_enc_128_sse` leaves: the ciphertext and the tag. -/
def aesGcmEnc (aes : BitVec 128 → BitVec 128) (inp : ℕ → Byte) (len : BitVec 64) (iv aIn : ℕ → Byte)
    (aLen : BitVec 64) (t : ℕ) (tmp : BitVec 128) (out : ℕ → Byte) : List Byte × List Byte :=
  let r := aesGcm (precomp aes) .enc inp len iv aIn aLen (BitVec.ofNat 64 t) tmp out
  (window r.1 0 len.toNat, r.2)

/-- The ciphertext, and the tag of `t` bytes with these lengths in the last block of the hash. -/
def outcome (aes : BitVec 128 → BitVec 128) (inp iv aIn : ℕ → Byte) (a n : ℕ) (lengths : BitVec 128)
    (t : ℕ) : List Byte × List Byte :=
  let h := byteSwap (aes 0#128)
  let c := gctrAt aes (inc32 (counter0 (window iv 0 12))) inp
  (window c 0 n, (toBytes (tagBlock aes h (ofBytes (window iv 0 12 ++ [0#8, 0#8, 0#8, 1#8]))
    (ghashPadded h (ghashPadded h 0#128 aIn a) c n) lengths)).take t)

/-- The tag of 16 bytes tells the lengths, unless the hash key is zero. -/
theorem outcome_inj {aes : BitVec 128 → BitVec 128} {a n : ℕ} {lengths lengths' : BitVec 128}
    (hsame : outcome aes inp iv aIn a n lengths 16 = outcome aes inp iv aIn a n lengths' 16) :
    lengths = lengths' ∨ aes 0#128 = 0#128 := by
  have htag := congrArg Prod.snd hsame
  rw [outcome, outcome] at htag
  dsimp only at htag
  rw [List.take_of_length_le (by rw [length_toBytes]),
    List.take_of_length_le (by rw [length_toBytes])]
    at htag
  have hblock := congrArg ofBytes htag
  rw [ofBytes_toBytes, ofBytes_toBytes, tagBlock, tagBlock, BitVec.xor_right_inj,
    byteSwap_injective.eq_iff] at hblock
  have hzero := BitVec.xor_eq_zero_iff.mpr hblock
  rw [← gfMul_xor_left, gfMul_eq_zero_iff] at hzero
  obtain hdiff | hkey := hzero
  · exact .inl ((BitVec.xor_right_inj _).mp (BitVec.xor_eq_zero_iff.mp hdiff))
  · exact .inr (byteSwap_injective (hkey.trans byteSwap_zero.symm))

/-- With the hash key zero the lengths do not matter. -/
theorem outcome_of_key (hkey : aes 0#128 = 0#128) (a n : ℕ) (lengths lengths' : BitVec 128)
    (t : ℕ) :
    outcome aes inp iv aIn a n lengths t = outcome aes inp iv aIn a n lengths' t := by
  have hmul : ∀ b, gfMul b (byteSwap (aes 0#128)) = 0#128 := fun b =>
    gfMul_eq_zero_iff.mpr (.inr (by rw [hkey]; exact byteSwap_zero))
  rw [outcome, outcome, tagBlock, tagBlock, hmul, hmul]

/-- The lengths as the standard has them. -/
def standardLengths (a n : ℕ) : BitVec 128 := BitVec.ofNat 64 (8 * a) ++ BitVec.ofNat 64 (8 * n)

theorem gcmEncrypt_eq (aes : BitVec 128 → BitVec 128) (inp iv aIn : ℕ → Byte) (a n t : ℕ) :
    gcmEncrypt aes (window iv 0 12) (window aIn 0 a) (window inp 0 n) t =
      outcome aes inp iv aIn a n (standardLengths a n) t := by
  rw [gcmEncrypt, gctr_window]
  exact congrArg _ (gcmTag_eq aes (window iv 0 12) _ a t rfl)

/-- The lengths as the code puts them into the last block. -/
def codeLengths (a n : ℕ) : BitVec 128 :=
  BitVec.ofNat 64 (8 * a % 2 ^ 32) ++ BitVec.ofNat 64 (8 * n)

theorem aesGcmEnc_eq (aes : BitVec 128 → BitVec 128) (inp iv aIn out : ℕ → Byte) (tmp : BitVec 128)
    {t : ℕ} (hlen : len.toNat ≤ gcmMaxLen) (haad : aLen.toNat < 2 ^ 61)
    (ht : t = 8 ∨ t = 12 ∨ t = 16) :
    aesGcmEnc aes inp len iv aIn aLen t tmp out =
      outcome aes inp iv aIn aLen.toNat len.toNat (codeLengths aLen.toNat len.toNat) t := by
  let h := byteSwap (aes 0#128)
  let c := gctrAt aes (inc32 (counter0 (window iv 0 12))) inp
  have hj : (gcmInit (precomp aes) iv aIn aLen tmp).currentCounter = counter0 (window iv 0 12) := by
    rw [gcmInit, counter0, ← origIV_eq]
    exact pshufb_shufMask _
  have hy : (gcmInit (precomp aes) iv aIn aLen tmp).aadHash = ghashPadded h 0#128 aIn aLen.toNat :=
    calcAadHash_eq (precomp_for aes) rfl (by omega)
  have hstart :
    (gcmInit (precomp aes) iv aIn aLen tmp).After aes h (ghashPadded h 0#128 aIn aLen.toNat)
      (counter0 (window iv 0 12)) c 0 := by
    refine ⟨rfl, hj, ?_, fun hne => absurd rfl hne⟩
    rw [hy, ghashAt_of_mod (Nat.zero_mod 16)]
    rfl
  have hsigned : Signed len.toNat := by
    unfold Signed
    rw [gcmMaxLen] at hlen
    omega
  obtain ⟨hafter, hout, -, hin, haadLen, hiv⟩ := gcmEncDec_spec .enc out (precomp_for aes)
    hstart rfl hsigned fun k _ => congrArg inp (Nat.zero_add k).symm
  rw [Nat.zero_add] at hafter
  have hin' : (gcmEncDec (precomp aes) .enc inp len (gcmInit (precomp aes) iv aIn aLen tmp)
      out).1.inLength = BitVec.ofNat 64 len.toNat := by
    rw [hin, BitVec.ofNat_toNat, BitVec.setWidth_eq]
    exact BitVec.zero_add len
  have hbits : ((aLen <<< 3).setWidth 32).setWidth 64 =
      BitVec.ofNat 64 (8 * aLen.toNat % 2 ^ 32) := by
    refine BitVec.eq_of_toNat_eq ?_
    rw [BitVec.toNat_setWidth, BitVec.toNat_setWidth, BitVec.toNat_shiftLeft, BitVec.toNat_ofNat,
      Nat.shiftLeft_eq]
    omega
  have htag := gcmComplete_eq (precomp_for aes) hafter hin' ht
  rw [hiv, haadLen] at htag
  refine Prod.ext (window_congr fun k _ hk => ?_) ?_
  · rw [Nat.zero_add] at hk
    refine (hout k).trans ?_
    rw [if_pos hk, Nat.zero_add]
    rfl
  · refine htag.trans ?_
    rw [show (gcmInit (precomp aes) iv aIn aLen tmp).aadLength = aLen from rfl, hbits,
      show (gcmInit (precomp aes) iv aIn aLen tmp).origIV = _ from origIV_eq iv]
    rfl

/-- The two last blocks are the same for short additional data only. -/
theorem codeLengths_eq_iff {a n : ℕ} (ha : a < 2 ^ 61) :
    codeLengths a n = standardLengths a n ↔ a < 2 ^ 29 := by
  constructor
  · intro heq
    have hhigh := congrArg highQ heq
    rw [codeLengths, standardLengths, highQ_append, highQ_append] at hhigh
    have hnat := congrArg BitVec.toNat hhigh
    rw [BitVec.toNat_ofNat, BitVec.toNat_ofNat] at hnat
    omega
  · intro hlt
    rw [codeLengths, standardLengths, Nat.mod_eq_of_lt (by omega)]

/-- The outcome for every length of the tag is the standard's just if the additional data has less
than `2^29` bytes or the hash key is zero. -/
theorem aesGcmEnc_standard_iff (aes : BitVec 128 → BitVec 128) (inp iv aIn out : ℕ → Byte)
    (tmp : BitVec 128) (hlen : len.toNat ≤ gcmMaxLen) (haad : aLen.toNat < 2 ^ 61) :
    (∀ t, t = 8 ∨ t = 12 ∨ t = 16 → aesGcmEnc aes inp len iv aIn aLen t tmp out =
      gcmEncrypt aes (window iv 0 12) (window aIn 0 aLen.toNat) (window inp 0 len.toNat) t) ↔
      aLen.toNat < 2 ^ 29 ∨ aes 0#128 = 0#128 := by
  constructor
  · intro hsame
    have hfull := hsame 16 (by decide)
    rw [aesGcmEnc_eq aes inp iv aIn out tmp hlen haad (by decide), gcmEncrypt_eq] at hfull
    exact (outcome_inj hfull).imp_left (codeLengths_eq_iff haad).mp
  · intro hwhen t ht
    rw [aesGcmEnc_eq aes inp iv aIn out tmp hlen haad ht, gcmEncrypt_eq]
    obtain hshort | hkey := hwhen
    · rw [(codeLengths_eq_iff haad).mpr hshort]
    · exact outcome_of_key hkey ..

/-- Thirty-seven bytes and twenty bytes of additional data, under the zero key. -/
theorem aesGcmEnc_standard_iff_zero_key :
    let zeros : ℕ → Byte := fun _ => 0#8
    aesGcmEnc zeroKeyAes zeros 37#64 zeros zeros 20#64 12 0#128 zeros =
      gcmEncrypt zeroKeyAes (window zeros 0 12) (window zeros 0 20) (window zeros 0 37) 12 := by
  intro zeros
  exact (@aesGcmEnc_standard_iff 37#64 20#64 zeroKeyAes zeros zeros zeros zeros 0#128
    (by decide) (by decide)).mpr (.inl (by decide)) 12 (by decide)

/-- With `2^29` zero bytes of additional data under the zero key, no data and a zero IV. -/
theorem aesGcmEnc_half_gib :
    let zeros : ℕ → Byte := fun _ => 0#8
    aesGcmEnc zeroKeyAes zeros 0#64 zeros zeros (BitVec.ofNat 64 (2 ^ 29)) 16 0#128 zeros ≠
      gcmEncrypt zeroKeyAes (window zeros 0 12) (window zeros 0 (2 ^ 29))
        (window zeros 0 0) 16 := by
  intro zeros hsame
  have haad : (BitVec.ofNat 64 (2 ^ 29)).toNat = 2 ^ 29 := by decide
  have hcode := @aesGcmEnc_eq 0#64 (BitVec.ofNat 64 (2 ^ 29)) zeroKeyAes zeros zeros zeros zeros
    0#128 16 (by decide) (by rw [haad]; decide) (by decide)
  rw [haad] at hcode
  obtain hlengths | hkey := outcome_inj ((hcode.symm.trans hsame).trans (gcmEncrypt_eq ..))
  · exact absurd ((codeLengths_eq_iff (by decide)).mp hlengths) (Nat.lt_irrefl _)
  · exact absurd (zeroKeyAes_zero.symm.trans hkey) (by decide)

end Standard

end IsalCrypto.Aes.GcmSse
