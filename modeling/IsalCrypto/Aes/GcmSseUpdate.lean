import IsalCrypto.Aes.GcmSseSpec

/-!
# One call of GCM on x86

`GCM_ENC_DEC` for a call at any position `L` of a text.

* `partialBlock_spec`: the block that an earlier call has begun is filled, or filled further.
* `zeroCipherLeft_spec`: a new block is begun.
* `gcmEncDec_spec`: after the call the context is that of the position behind it, whatever calls led
  there.
-/

namespace IsalCrypto.Aes.GcmSse

open IsalCrypto.Lib

/-- The context after `L` bytes of a text with the ciphertext `c`: the hash has the bytes of an
incomplete block added, not multiplied, and the key stream of that block is kept. -/
structure GcmContextData.After (aes : BitVec 128 → BitVec 128) (h y j : BitVec 128) (c : ℕ → Byte)
    (L : ℕ) (ctx : GcmContextData) : Prop where
  partialBlockLength : ctx.partialBlockLength = BitVec.ofNat 64 (L % 16)
  currentCounter : ctx.currentCounter = inc32^[(L + 15) / 16] j
  aadHash : ctx.aadHash = ghashAt h y c L
  partialBlockEncKey : L % 16 ≠ 0 →
    ctx.partialBlockEncKey = aes (byteSwap (inc32^[L / 16 + 1] j))

section

variable {aes : BitVec 128 → BitVec 128} {h y j : BitVec 128} {c m inp out : ℕ → Byte} {L n r t : ℕ}
  {v : BitVec 128}

/-! ## Bytes of an incomplete block -/

theorem byteAt_streamRest (c : ℕ → Byte) (L : ℕ) {k : ℕ} (hk : k < 16) :
    byteAt (streamRest c L) k = if 15 - k < L % 16 then c (16 * (L / 16) + (15 - k)) else 0#8 := by
  rw [streamRest, byteAt_byteSwap hk, byteAt_ofBytes_window (by omega)]

theorem byteAt_streamBlock (c : ℕ → Byte) (q : ℕ) {k : ℕ} (hk : k < 16) :
    byteAt (streamBlock c q) k = c (16 * q + (15 - k)) := by
  rw [streamBlock, byteAt_byteSwap hk, byteAt_ofBytes_window (Nat.le_refl 16), if_pos (by omega)]

/-- The `t` next bytes of the stream, in their places in the block. -/
def nextBytes (c : ℕ → Byte) (L t : ℕ) : BitVec 128 :=
  byteSwap (ofBytes ((List.range 16).map fun k =>
    if L % 16 ≤ k ∧ k < L % 16 + t then c (16 * (L / 16) + k) else 0#8))

theorem byteAt_nextBytes (c : ℕ → Byte) (L t : ℕ) {k : ℕ} (hk : k < 16) :
    byteAt (nextBytes c L t) k =
      if L % 16 ≤ 15 - k ∧ 15 - k < L % 16 + t then c (16 * (L / 16) + (15 - k)) else 0#8 := by
  rw [nextBytes, byteAt_byteSwap hk, byteAt_ofBytes (by rw [List.length_map, List.length_range]),
    List.getD_eq_getElem?_getD, List.getElem?_map, List.getElem?_range (by omega)]
  rfl

/-- The bytes fill the block. -/
theorem streamRest_xor_nextBytes_full (c : ℕ → Byte) (ht : L % 16 + t = 16) :
    streamRest c L ^^^ nextBytes c L t = streamBlock c (L / 16) :=
  eq_of_byteAt_eq fun k hk => by
    rw [byteAt_xor, byteAt_streamRest c L hk, byteAt_nextBytes c L t hk, byteAt_streamBlock c _ hk]
    by_cases hold : 15 - k < L % 16
    · rw [if_pos hold, if_neg (by omega), BitVec.xor_zero]
    · rw [if_neg hold, if_pos (by omega), BitVec.zero_xor]

/-- The bytes do not fill the block. -/
theorem streamRest_xor_nextBytes (c : ℕ → Byte) (ht : L % 16 + t < 16) :
    streamRest c L ^^^ nextBytes c L t = streamRest c (L + t) :=
  eq_of_byteAt_eq fun k hk => by
    rw [byteAt_xor, byteAt_streamRest c L hk, byteAt_nextBytes c L t hk, byteAt_streamRest c _ hk,
      show (L + t) / 16 = L / 16 by omega, show (L + t) % 16 = L % 16 + t by omega]
    by_cases hold : 15 - k < L % 16
    · rw [if_pos hold, if_neg (by omega), if_pos (by omega), BitVec.xor_zero]
    · rw [if_neg hold, BitVec.zero_xor]
      exact if_congr (by omega) rfl rfl

theorem ghashAt_full (h y : BitVec 128) (c : ℕ → Byte) (ht : L % 16 + t = 16) :
    gfMul (ghashAt h y c L ^^^ nextBytes c L t) h = ghashAt h y c (L + t) := by
  rw [ghashAt, BitVec.xor_assoc, streamRest_xor_nextBytes_full c ht, ghashAt_of_mod (by omega),
    show (L + t) / 16 = L / 16 + 1 by omega, ghashFrom]

theorem ghashAt_more (h y : BitVec 128) (c : ℕ → Byte) (ht : L % 16 + t < 16) :
    ghashAt h y c L ^^^ nextBytes c L t = ghashAt h y c (L + t) := by
  rw [ghashAt, BitVec.xor_assoc, streamRest_xor_nextBytes c ht, ghashAt,
    show (L + t) / 16 = L / 16 by omega]

/-- The bytes, lowest first, are swapped and shifted to their places. -/
theorem pshufb_swap_shift (hr : L % 16 = r)
    (hv : ∀ k < 16, byteAt v k = if k < t then c (L + k) else 0#8) :
    pshufb (pshufb v shufMask) (ldQ shiftTable r) = nextBytes c L t :=
  eq_of_byteAt_eq fun k hk => by
    rw [byteAt_pshufb_shift (by omega) hk, byteAt_nextBytes c L t hk, pshufb_shufMask]
    by_cases hin : k + r < 16
    · rw [if_pos hin, byteAt_byteSwap hin, hv _ (by omega)]
      by_cases hlt : 15 - (k + r) < t
      · rw [if_pos hlt, if_pos (by omega)]
        exact congrArg c (by omega)
      · rw [if_neg hlt, if_neg (by omega)]
    · rw [if_neg hin, if_neg (by omega)]

/-- And back. -/
theorem pshufb_swap_shift_back (hr : L % 16 = r) (ht : r + t ≤ 16) {k : ℕ} (hk : k < t) :
    byteAt (pshufb (pshufb (nextBytes c L t) shufMask) (ldQ shiftTable r)) k = c (L + k) := by
  rw [byteAt_pshufb_shift (by omega) (by omega), if_pos (by omega), pshufb_shufMask,
    byteAt_byteSwap (by omega), byteAt_nextBytes c L t (by omega), if_pos (by omega)]
  exact congrArg c (by omega)

end

/-! ## The block that is begun -/

/-- A length that the signed comparisons of the code take for what it is. -/
def Signed (n : ℕ) : Prop := n + 16 ≤ 2 ^ 63

/-- `t` bytes of the call at position `L` are done. -/
structure Partial.Filled (key : KeyData) (h y j : BitVec 128) (m : ℕ → Byte) (encDec : EncDec)
    (L t : ℕ) (s p : Partial) : Prop where
  after : p.ctx.After key.aes h y j (encDec.cipherText key.aes j m) (L + t)
  dataOffset : p.dataOffset = t
  aadHash : p.aadHash = p.ctx.aadHash
  out : ∀ k, p.out k = if k < t then gctrAt key.aes (inc32 j) m (L + k) else s.out k
  frame : p.ctx = { s.ctx with
    aadHash := p.ctx.aadHash
    partialBlockLength := p.ctx.partialBlockLength }

section Fill

variable {key : KeyData} {h y j : BitVec 128} {m inp : ℕ → Byte} {encDec : EncDec} {L n r t : ℕ}
  {len : BitVec 64} {s : Partial}

theorem slt_ofNat {x : BitVec 64} {b : ℕ} (hx : x.toNat < 2 ^ 63) (hb : b < 2 ^ 63) :
    x.slt (BitVec.ofNat 64 b) = decide (x.toNat < b) := by
  have hnat : (BitVec.ofNat 64 b).toNat = b := by
    rw [BitVec.toNat_ofNat]
    omega
  have hiff := slt_iff hx (hnat ▸ hb)
  rw [hnat] at hiff
  rw [Bool.eq_iff_iff, hiff, decide_eq_true_eq]

/-- What is left after the block, as a signed number. -/
theorem slt_sub_sixteen {x : BitVec 64} (hx : x.toNat < 2 ^ 63) :
    (x - 16#64).slt 0#64 = decide (x.toNat < 16) := by
  rcases Nat.lt_or_ge x.toNat 16 with hlt | hge
  · rw [decide_eq_true hlt, BitVec.slt_zero_eq_msb, BitVec.msb_eq_decide, decide_eq_true_eq,
      BitVec.toNat_sub]
    simp only [BitVec.toNat_ofNat]
    omega
  · have hsub : (x - 16#64).toNat = x.toNat - 16 := BitVec.toNat_sub_of_le (by
      rw [BitVec.le_def]
      exact hge)
    rw [slt_ofNat (b := 0) (by omega) (by decide), hsub, decide_eq_false (Nat.not_lt_zero _),
      decide_eq_false (by omega)]

/-- With the comparisons on numbers: `t` bytes are taken. -/
theorem partialBlock_eq (hr : s.ctx.partialBlockLength = BitVec.ofNat 64 r) (hr0 : r ≠ 0)
    (hr16 : r < 16) (hlen : len.toNat = n) (hn : Signed n) (hoff : s.dataOffset = 0)
    (ht : t = min n (16 - r)) :
    partialBlock key encDec inp len s =
      let xmm1 := ofBytes (window inp 0 (min n 16))
      let xmm2 := ldQ shiftTable r
      let mask := ldQ shiftTable (16 - t + 16)
      let xmm9 := (pshufb s.ctx.partialBlockEncKey xmm2 ^^^ xmm1) &&& mask
      let hashed := match encDec with
        | .enc => pshufb (pshufb xmm9 shufMask) xmm2
        | .dec => pshufb (pshufb (xmm1 &&& mask) shufMask) xmm2
      let aadHash := if r + n < 16 then s.aadHash ^^^ hashed
        else ghashMul (s.aadHash ^^^ hashed) (key.hashKey 0)
      { ctx := { s.ctx with
          aadHash := aadHash
          partialBlockLength := if r + n < 16 then BitVec.ofNat 64 (r + n) else 0#64 }
        out := storeSmall s.out 0 (match encDec with
          | .enc => pshufb (pshufb hashed shufMask) xmm2
          | .dec => xmm9) t
        dataOffset := t
        aadHash := aadHash } := by
  have hn' : n + 16 ≤ 2 ^ 63 := hn
  have hrnat : (BitVec.ofNat 64 r).toNat = r := by
    rw [BitVec.toNat_ofNat]
    omega
  have hrne : ¬ BitVec.ofNat 64 r = 0#64 := fun he => hr0 (by rw [← hrnat, he]; rfl)
  have hsum : (len + BitVec.ofNat 64 r).toNat = r + n := by
    rw [BitVec.toNat_add, hlen, hrnat]
    omega
  have hread : (if len.slt 16#64 then readSmallDataInput inp 0 len else ldQ inp 0) =
      ofBytes (window inp 0 (min n 16)) := by
    rw [slt_ofNat (b := 16) (by omega) (by decide), hlen]
    split
    · next hlt =>
      have hlt' := of_decide_eq_true hlt
      rw [readSmallDataInput_eq hlen hlt', Nat.min_eq_left (Nat.le_of_lt hlt')]
    · next hge =>
      rw [Nat.min_eq_right (by simpa using hge)]
      rfl
  have hfew : (len + BitVec.ofNat 64 r).slt 16#64 = decide (r + n < 16) := by
    rw [slt_ofNat (b := 16) (by omega) (by decide), hsum]
  have hleft : (len + BitVec.ofNat 64 r - 16#64).slt 0#64 = decide (r + n < 16) := by
    rw [slt_sub_sixteen (by omega), hsum]
  rw [partialBlock]
  dsimp only
  rw [hr, if_neg hrne, hoff, hread, hfew, hleft, hrnat, Nat.zero_add]
  by_cases hin : r + n < 16
  · have htn : t = n := by omega
    have hmask : (BitVec.ofNat 64 r - (len + BitVec.ofNat 64 r - 16#64)).toNat = 16 - t := by
      rw [BitVec.toNat_sub, BitVec.toNat_sub, hsum, hrnat]
      simp only [BitVec.toNat_ofNat]
      omega
    have hlength : BitVec.ofNat 64 r + len = BitVec.ofNat 64 (r + n) := by
      refine BitVec.eq_of_toNat_eq ?_
      rw [BitVec.add_comm, hsum, BitVec.toNat_ofNat]
      omega
    cases encDec with
    | enc =>
      simp only [hin, decide_true, if_true, Bool.not_true, Bool.false_eq_true, if_false, hmask,
        hlength, hlen, htn]
    | dec =>
      simp only [hin, decide_true, if_true, Bool.not_true, Bool.false_eq_true, if_false, hmask,
        hlength, hlen, htn]
  · have htr : t = 16 - r := by omega
    have hcount : (16#64 - BitVec.ofNat 64 r).toNat = t := by
      rw [BitVec.toNat_sub_of_le (by rw [BitVec.le_def, hrnat]; exact (by omega : r ≤ 16)), hrnat,
        htr]
      rfl
    have hr16 : 16 - t = r := by omega
    cases encDec with
    | enc =>
      simp only [hin, decide_false, if_false, Bool.not_false, Bool.false_eq_true, if_true, hcount,
        hrnat, hr16]
    | dec =>
      simp only [hin, decide_false, if_false, Bool.not_false, Bool.false_eq_true, if_true, hcount,
        hrnat, hr16]

theorem EncDec.match_eq {a b x : BitVec 128} (encDec : EncDec) :
    (encDec = .enc → a = x) → (encDec = .dec → b = x) →
      (match encDec with
        | .enc => a
        | .dec => b) = x := by
  intro ha hb
  cases encDec with
  | enc => exact ha rfl
  | dec => exact hb rfl

/-- A kept key stream block, from byte `r` on, over the bytes of the call. -/
theorem byteAt_kept {v w : BitVec 128} (hkept : v = key.aes (byteSwap (inc32^[L / 16 + 1] j)))
    (hr : L % 16 = r) (ht : r + t ≤ 16) (hw : ∀ k < t, byteAt w k = m (L + k)) {k : ℕ}
    (hk : k < 16) :
    byteAt ((pshufb v (ldQ shiftTable r) ^^^ w) &&& ldQ shiftTable (16 - t + 16)) k =
      if k < t then gctrAt key.aes (inc32 j) m (L + k) else 0#8 := by
  refine byteAt_and_keep (f := fun k => gctrAt key.aes (inc32 j) m (L + k)) (by omega)
    (fun k hlt => ?_) hk
  rw [byteAt_xor, byteAt_pshufb_shift (by omega) (by omega), if_pos (by omega), hw k hlt, gctrAt,
    BitVec.xor_comm, hkept, show L + k = 16 * (L / 16) + (k + r) by omega,
    keyStream_block (by omega), Function.iterate_succ_apply]

theorem partialBlock_spec (hkey : key.For h)
    (hctx : s.ctx.After key.aes h y j (encDec.cipherText key.aes j m) L) (hoff : s.dataOffset = 0)
    (hhash : s.aadHash = s.ctx.aadHash) (hlen : len.toNat = n) (hn : Signed n)
    (hinp : ∀ k < n, inp k = m (L + k)) :
    Partial.Filled key h y j m encDec L (min n ((16 - L % 16) % 16)) s
      (partialBlock key encDec inp len s) := by
  obtain ⟨hlength, hcounter, haad, hkept⟩ := hctx
  rcases Nat.eq_zero_or_pos (L % 16) with hzero | hpos
  · -- no block is begun
    have hnone : partialBlock key encDec inp len s = s := if_pos (by rw [hlength, hzero])
    rw [hnone, show min n ((16 - L % 16) % 16) = 0 by omega]
    exact ⟨⟨hlength, hcounter, haad, hkept⟩, hoff, hhash,
      fun k => (if_neg (Nat.not_lt_zero k)).symm, rfl⟩
  · obtain ⟨r, hr⟩ : ∃ r, L % 16 = r := ⟨_, rfl⟩
    obtain ⟨t, ht⟩ : ∃ t, t = min n (16 - r) := ⟨_, rfl⟩
    have hrt : r + t ≤ 16 := by omega
    have hkept := hkept (Nat.ne_of_gt hpos)
    have hxmm1 : ∀ k < t, byteAt (ofBytes (window inp 0 (min n 16))) k = m (L + k) := fun k hk => by
      rw [byteAt_ofBytes_window (Nat.min_le_right n 16), if_pos (by omega), Nat.zero_add,
        hinp k (by omega)]
    have hout : ∀ {k}, k < 16 → _ := fun hk => byteAt_kept hkept hr hrt hxmm1 hk
    have henc : encDec = .enc →
        pshufb (pshufb ((pshufb s.ctx.partialBlockEncKey (ldQ shiftTable r) ^^^
          ofBytes (window inp 0 (min n 16))) &&& ldQ shiftTable (16 - t + 16)) shufMask)
          (ldQ shiftTable r) = nextBytes (encDec.cipherText key.aes j m) L t := fun he => by
      rw [he, EncDec.cipherText_enc]
      exact pshufb_swap_shift hr fun k hk => hout hk
    have hdec : encDec = .dec → pshufb (pshufb (ofBytes (window inp 0 (min n 16)) &&&
        ldQ shiftTable (16 - t + 16)) shufMask) (ldQ shiftTable r) =
          nextBytes (encDec.cipherText key.aes j m) L t := fun hd => by
      rw [hd, EncDec.cipherText_dec]
      exact pshufb_swap_shift hr fun k hk => byteAt_and_keep (by omega) hxmm1 hk
    rw [hr] at hlength
    rw [partialBlock_eq hlength (by omega) (by omega) hlen hn hoff ht, hr,
      show min n ((16 - r) % 16) = t by omega, hhash, haad]
    dsimp only
    rw [encDec.match_eq henc hdec]
    refine ⟨⟨?_, ?_, ?_, fun hne => ?_⟩, rfl, rfl, fun k => ?_, rfl⟩
    · dsimp only
      split
      · rw [show (L + t) % 16 = r + n by omega]
      · rw [show (L + t) % 16 = 0 by omega]
    · rw [show (L + t + 15) / 16 = (L + 15) / 16 by omega]
      exact hcounter
    · dsimp only
      split
      · exact ghashAt_more h y _ (by omega)
      · rw [hkey.ghashMul_eq]
        exact ghashAt_full h y _ (by omega)
    · rw [show (L + t) / 16 = L / 16 by omega]
      exact hkept
    · dsimp only
      rw [storeSmall_apply _ _ _ (by omega), Nat.zero_add, Nat.sub_zero]
      by_cases hk : k < t
      · rw [if_pos ⟨Nat.zero_le k, hk⟩, if_pos hk]
        cases encDec with
        | enc =>
          rw [EncDec.cipherText_enc]
          exact pshufb_swap_shift_back hr hrt hk
        | dec => exact (hout (by omega)).trans (if_pos hk)
      · rw [if_neg (fun hin => hk hin.2), if_neg hk]

end Fill

/-! ## The block that is left -/

section Last

variable {key : KeyData} {h y j : BitVec 128} {m inp out : ℕ → Byte} {encDec : EncDec}
  {q n r off : ℕ} {len : BitVec 64} {v : BitVec 128}

/-- The last bytes of the call, however they are read. -/
theorem byteAt_last (hlen : len.toNat = n) (hn : Signed n) (hr : r < 16) (hoff : off + r = n)
    {k : ℕ} (hk : k < r) :
    byteAt (if len.slt 16#64 then readSmallDataInput inp off (BitVec.ofNat 64 r)
      else pshufb (ldQ inp (off + r - 16)) (ldQ shiftTable (16 - r))) k = inp (off + k) := by
  have hn' : n + 16 ≤ 2 ^ 63 := hn
  have hrnat : (BitVec.ofNat 64 r).toNat = r := by
    rw [BitVec.toNat_ofNat]
    omega
  rw [slt_ofNat (b := 16) (by omega) (by decide), hlen]
  split
  · rw [readSmallDataInput_eq hrnat hr, byteAt_ofBytes_window (by omega), if_pos hk]
  · next hlong =>
    have hge : 16 ≤ n := by simpa using hlong
    rw [byteAt_pshufb_shift (by omega) (by omega), if_pos (by omega), byteAt_ldQ (by omega)]
    exact congrArg inp (by omega)

/-- A new key stream block over the bytes. -/
theorem byteAt_new {w : BitVec 128} (hw : ∀ k < r, byteAt w k = m (16 * q + k)) (hr : r < 16)
    {k : ℕ} (hk : k < 16) :
    byteAt ((key.aes (byteSwap (inc32^[q + 1] j)) ^^^ w) &&& ldQ shiftTable (16 - r + 16)) k =
      if k < r then gctrAt key.aes (inc32 j) m (16 * q + k) else 0#8 := by
  refine byteAt_and_keep (f := fun k => gctrAt key.aes (inc32 j) m (16 * q + k)) (Nat.le_of_lt hr)
    (fun k hlt => ?_) hk
  rw [byteAt_xor, hw k hlt, gctrAt, BitVec.xor_comm, keyStream_block (by omega),
    Function.iterate_succ_apply]

/-- The bytes of an incomplete block, swapped. -/
theorem pshufb_streamRest {c : ℕ → Byte} (hr : r < 16)
    (hv : ∀ k < 16, byteAt v k = if k < r then c (16 * q + k) else 0#8) :
    pshufb v shufMask = streamRest c (16 * q + r) :=
  eq_of_byteAt_eq fun k hk => by
    rw [pshufb_shufMask, byteAt_byteSwap hk, hv _ (by omega), byteAt_streamRest c _ hk,
      show (16 * q + r) / 16 = q by omega, show (16 * q + r) % 16 = r by omega]

/-- After the whole blocks before block `q`, with `r` bytes left. -/
theorem zeroCipherLeft_spec {ctx : GcmContextData} {s : Bulk} (hlen : len.toNat = n) (hn : Signed n)
    (hr : r < 16) (hend : s.dataOffset + r = n) (hctr : s.ctr = inc32^[q] j)
    (hlength : ctx.partialBlockLength = 0#64)
    (hinp : ∀ k < r, inp (s.dataOffset + k) = m (16 * q + k)) :
    let c := encDec.cipherText key.aes j m
    let res := zeroCipherLeft key encDec inp len r ctx (ghashFrom h y (streamBlock c) q) s
    res.1.After key.aes h y j c (16 * q + r) ∧
      (∀ k, res.2.1 k =
        if s.dataOffset ≤ k ∧ k < n then gctrAt key.aes (inc32 j) m (16 * q + (k - s.dataOffset))
        else s.out k) ∧
      res.2.2 = s.encrypted ++ window (fun i => byteSwap (inc32^[i + 1] j)) q ((r + 15) / 16) ∧
      res.1.inLength = ctx.inLength ∧ res.1.aadLength = ctx.aadLength ∧
        res.1.origIV = ctx.origIV := by
  intro c res
  have hhash : ghashAt h y c (16 * q) = ghashFrom h y (streamBlock c) q := by
    rw [ghashAt_of_mod (Nat.mul_mod_right 16 q), Nat.mul_div_cancel_left q (by decide)]
  rcases Nat.eq_zero_or_pos r with rfl | hpos
  · refine ⟨⟨?_, ?_, hhash.symm, fun hne => absurd (Nat.mul_mod_right 16 q) hne⟩, fun k => ?_, ?_,
      rfl, rfl, rfl⟩
    · rw [Nat.add_zero, Nat.mul_mod_right]
      exact hlength
    · rw [show (16 * q + 0 + 15) / 16 = q by omega]
      exact hctr
    · exact (if_neg (by omega)).symm
    · exact (List.append_nil _).symm
  · have hres : res = zeroCipherLeft key encDec inp len r ctx (ghashFrom h y (streamBlock c) q) s :=
      rfl
    rw [zeroCipherLeft, if_neg (Nat.ne_of_gt hpos), hctr, paddd_one,
      ← Function.iterate_succ_apply' inc32 q j, Nat.succ_eq_add_one] at hres
    dsimp only at hres
    rw [pshufb_shufMask (inc32^[q + 1] j)] at hres
    have hlast : ∀ k < r, byteAt (if len.slt 16#64 then
        readSmallDataInput inp s.dataOffset (BitVec.ofNat 64 r)
        else pshufb (ldQ inp (s.dataOffset + r - 16)) (ldQ shiftTable (16 - r))) k =
          m (16 * q + k) :=
      fun k hk => (byteAt_last hlen hn hr hend hk).trans (hinp k hk)
    generalize (if len.slt 16#64 then readSmallDataInput inp s.dataOffset (BitVec.ofNat 64 r)
      else pshufb (ldQ inp (s.dataOffset + r - 16)) (ldQ shiftTable (16 - r))) = xmm1 at hlast hres
    have hnew : ∀ k < 16, _ := fun k hk => @byteAt_new key j _ _ _ _ hlast hr k hk
    have henc : encDec = .enc → pshufb ((key.aes (byteSwap (inc32^[q + 1] j)) ^^^ xmm1) &&&
        ldQ shiftTable (16 - r + 16)) shufMask = streamRest c (16 * q + r) := fun he => by
      have hc : c = gctrAt key.aes (inc32 j) m := by rw [← EncDec.cipherText_enc, ← he]
      rw [hc]
      exact pshufb_streamRest hr hnew
    have hdec : encDec = .dec → pshufb (xmm1 &&& ldQ shiftTable (16 - r + 16)) shufMask =
        streamRest c (16 * q + r) := fun hd => by
      have hc : c = m := by rw [← EncDec.cipherText_dec key.aes j m, ← hd]
      rw [hc]
      exact pshufb_streamRest hr fun k hk => byteAt_and_keep (Nat.le_of_lt hr) hlast hk
    obtain ⟨w, hw, hres⟩ : ∃ w, (∀ k < r, byteAt w k = gctrAt key.aes (inc32 j) m (16 * q + k)) ∧
        res = ({ ctx with
          aadHash := ghashFrom h y (streamBlock c) q ^^^ streamRest c (16 * q + r)
          currentCounter := inc32^[q + 1] j
          partialBlockLength := BitVec.ofNat 64 r
          partialBlockEncKey := key.aes (byteSwap (inc32^[q + 1] j)) },
          storeSmall s.out s.dataOffset w r, s.encrypted ++ [byteSwap (inc32^[q + 1] j)]) := by
      have hbytes : ∀ k < r, _ := fun k hk => (hnew k (by omega)).trans (if_pos hk)
      cases encDec with
      | enc =>
        refine ⟨_, fun k hk => ?_, hres.trans (by rw [henc rfl])⟩
        rw [← henc rfl, pshufb_shufMask, pshufb_shufMask, byteSwap_byteSwap]
        exact hbytes k hk
      | dec => exact ⟨_, hbytes, hres.trans (by rw [hdec rfl])⟩
    rw [hres]
    refine ⟨⟨?_, ?_, ?_, fun _ => ?_⟩, fun k => ?_, ?_, rfl, rfl, rfl⟩
    · rw [show (16 * q + r) % 16 = r by omega]
    · rw [show (16 * q + r + 15) / 16 = q + 1 by omega]
    · dsimp only
      rw [ghashAt, show (16 * q + r) / 16 = q by omega]
    · rw [show (16 * q + r) / 16 = q by omega]
    · dsimp only
      rw [storeSmall_apply _ _ _ (by omega), hend]
      by_cases hk : s.dataOffset ≤ k ∧ k < n
      · rw [if_pos hk, if_pos hk]
        exact hw _ (by omega)
      · rw [if_neg hk, if_neg hk]
    · rw [show (r + 15) / 16 = 1 by omega]
      rfl

end Last

/-! ## The call -/

/-- What a call of `n` bytes at position `L` leaves. -/
structure Updated (key : KeyData) (h y j : BitVec 128) (m : ℕ → Byte) (encDec : EncDec) (L n : ℕ)
    (len : BitVec 64) (ctx : GcmContextData) (out : ℕ → Byte)
    (r : GcmContextData × (ℕ → Byte) × List (BitVec 128)) : Prop where
  after : r.1.After key.aes h y j (encDec.cipherText key.aes j m) (L + n)
  out : ∀ k, r.2.1 k = if k < n then gctrAt key.aes (inc32 j) m (L + k) else out k
  encrypted : r.2.2 = window (fun i => byteSwap (inc32^[i + 1] j)) ((L + 15) / 16)
    ((L + n + 15) / 16 - (L + 15) / 16)
  inLength : r.1.inLength = ctx.inLength + len
  aadLength : r.1.aadLength = ctx.aadLength
  origIV : r.1.origIV = ctx.origIV

section Call

variable {key : KeyData} {h y j : BitVec 128} {m inp out : ℕ → Byte} {encDec : EncDec} {L n : ℕ}
  {len : BitVec 64} {ctx : GcmContextData}

theorem wholeBlocks_zero (key : KeyData) (encDec : EncDec) (inp : ℕ → Byte) (hash : BitVec 128)
    (s : Bulk) : wholeBlocks key encDec inp (16 * 0) hash s = (hash, s) := rfl

theorem gcmEncDec_spec (encDec : EncDec) (out : ℕ → Byte) (hkey : key.For h)
    (hctx : ctx.After key.aes h y j (encDec.cipherText key.aes j m) L) (hlen : len.toNat = n)
    (hn : Signed n) (hinp : ∀ k < n, inp k = m (L + k)) :
    Updated key h y j m encDec L n len ctx out (gcmEncDec key encDec inp len ctx out) := by
  rw [gcmEncDec]
  split
  · next hzero =>
    have hn0 : n = 0 := by rw [← hlen, hzero]; rfl
    rw [hn0]
    refine ⟨hctx, fun k => (if_neg (Nat.not_lt_zero k)).symm, ?_, ?_, rfl, rfl⟩
    · rw [Nat.add_zero, Nat.sub_self]
      rfl
    · rw [hzero, BitVec.add_zero]
  · have hctx' : ({ ctx with inLength := ctx.inLength + len } : GcmContextData).After key.aes h y j
        (encDec.cipherText key.aes j m) L := ⟨hctx.1, hctx.2, hctx.3, hctx.4⟩
    have hfill := partialBlock_spec (s := ⟨{ ctx with inLength := ctx.inLength + len }, out, 0,
      ctx.aadHash⟩) hkey hctx' rfl rfl hlen hn hinp
    dsimp only at hfill ⊢
    generalize partialBlock key encDec inp len _ = p at hfill
    obtain ⟨t, ht⟩ : ∃ t, t = min n ((16 - L % 16) % 16) := ⟨_, rfl⟩
    rw [← ht] at hfill
    obtain ⟨hafter, hoff, hhash, hout, hframe⟩ := hfill
    have hin : p.ctx.inLength = ctx.inLength + len := by rw [hframe]
    have haadLength : p.ctx.aadLength = ctx.aadLength := by rw [hframe]
    have horigIV : p.ctx.origIV = ctx.origIV := by rw [hframe]
    rw [hoff, hlen]
    rcases Nat.lt_or_ge t n with hlt | hge
    · obtain ⟨q, hq⟩ : ∃ q, L + t = 16 * q := ⟨(L + t) / 16, by omega⟩
      have hcounter : p.ctx.currentCounter = inc32^[q] j := by
        rw [hafter.currentCounter, hq, show (16 * q + 15) / 16 = q by omega]
      have haad : p.aadHash = ghashFrom h y (streamBlock (encDec.cipherText key.aes j m)) q := by
        rw [hhash, hafter.aadHash, hq, ghashAt_of_mod (Nat.mul_mod_right 16 q),
          Nat.mul_div_cancel_left q (by decide)]
      have hnext : ∀ k < n - t, inp (t + k) = m (16 * q + k) := fun k hk => by
        rw [hinp _ (by omega), ← hq, Nat.add_assoc]
      obtain ⟨hwhole, hcrypted⟩ := @wholeBlocks_spec key j h y m inp encDec q ((n - t) / 16)
        ⟨p.out, t, p.ctx.currentCounter, []⟩ hkey _ rfl (fun k hk => hnext k (by omega)) hcounter
      rw [haad, hwhole]
      generalize (wholeBlocks key encDec inp (16 * ((n - t) / 16)) _ _).2 = b at hcrypted
      have hboff : b.dataOffset = t + 16 * ((n - t) / 16) := hcrypted.dataOffset
      obtain ⟨hlast, hlastOut, hlastEnc, h1, h2, h3⟩ := @zeroCipherLeft_spec key h y j m inp encDec
        (q + (n - t) / 16) n ((n - t) % 16) len p.ctx b hlen hn (Nat.mod_lt _ (by decide))
        (by omega) hcrypted.ctr
          (by rw [hafter.partialBlockLength, hq, Nat.mul_mod_right]) fun k hk => by
          rw [hboff, Nat.add_assoc, hnext _ (by omega)]
          exact congrArg m (by omega)
      refine ⟨?_, fun k => ?_, ?_, h1.trans hin, h2.trans haadLength, h3.trans horigIV⟩
      · rwa [show 16 * (q + (n - t) / 16) + (n - t) % 16 = L + n by omega] at hlast
      · rw [hlastOut, hcrypted.out]
        dsimp only
        rw [hboff, hout]
        by_cases hlastPart : t + 16 * ((n - t) / 16) ≤ k ∧ k < n
        · rw [if_pos hlastPart, if_pos hlastPart.2]
          exact congrArg _ (by omega)
        · rw [if_neg hlastPart]
          by_cases hwholePart : t ≤ k ∧ k < t + 16 * ((n - t) / 16)
          · rw [if_pos hwholePart, if_pos (by omega)]
            exact congrArg _ (by omega)
          · rw [if_neg hwholePart]
            exact if_congr (by omega) rfl rfl
      · rw [hlastEnc, hcrypted.encrypted]
        dsimp only
        rw [List.nil_append, ← window_add]
        exact congrArg₂ (window _) (by omega) (by omega)
    · -- the call ends in the block that was begun
      have htn : t = n := by omega
      rw [htn, Nat.sub_self, Nat.zero_div, wholeBlocks_zero, zeroCipherLeft,
        if_pos (Nat.zero_mod 16)]
      rw [htn] at hafter hout
      refine ⟨⟨hafter.1, hafter.2, ?_, hafter.4⟩, hout, ?_, hin, haadLength, horigIV⟩
      · exact hhash.trans hafter.3
      · rw [show (L + n + 15) / 16 - (L + 15) / 16 = 0 by omega]
        rfl

end Call

end IsalCrypto.Aes.GcmSse
