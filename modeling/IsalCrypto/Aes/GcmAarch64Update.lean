import IsalCrypto.Aes.GcmAarch64Aad
import IsalCrypto.Aes.GcmAarch64Blocks
import IsalCrypto.Aes.GcmSseUpdate

/-!
# One call of the update functions on AArch64

`aes_gcm_enc_update` and `aes_gcm_dec_update` for a call at any position `L` of a text.

* `writeSmallDataStart_apply`: a short block is written.
* `genericLoadPartialBlock_done`: the block that an earlier call has begun is filled, or filled
  further.
* `aesGcmUpdate_spec`: after the call the context is that of the position behind it, whatever calls
  led there.
-/

namespace IsalCrypto.Aes.GcmAarch64

open IsalCrypto.Lib
open IsalCrypto.Aes.GcmSse (GcmContextData EncDec)

/-! ## Small data -/

section SmallData

variable {v w src dest : BitVec 128} {out : ℕ → Byte} {a b k n p : ℕ}

theorem byteAt_tbx (hk : k < 16) : byteAt (tbx dest v w) k =
    if (byteAt w k).toNat < 16 then byteAt v (byteAt w k).toNat else byteAt dest k := by
  rw [tbx, byteAt_ofBytes (by simp), List.getD_eq_getElem?_getD, List.getElem?_map,
    List.getElem?_range hk]
  rfl

theorem writeSmallDataTable_eq : ∀ n < 16, 0 < n → (writeSmallDataTable.getD n []).length = 16 ∧
    ∀ k < n, lanePos n k < 16 ∧ (writeSmallDataTable.getD n []).getD (lanePos n k) 0#8 =
      BitVec.ofNat 8 k := by
  decide

theorem tbxStartSmallDataTable_eq : ∀ n < 16, 0 < n →
    (tbxStartSmallDataTable.getD n []).length = 16 ∧
    ∀ k < 16, (tbxStartSmallDataTable.getD n []).getD k 0#8 =
      if k < n then 0xff#8 else BitVec.ofNat 8 k := by
  decide

theorem shiftSmallDataTable_eq :
    ∀ n < 16, ((shiftSmallDataTable.drop (16 - n)).take 16).length = 16 ∧
    ∀ k < 16, ((shiftSmallDataTable.drop (16 - n)).take 16).getD k 0#8 =
      if k < n then 0xff#8 else BitVec.ofNat 8 (k - n) := by
  decide

theorem toNat_ofNat_index (hk : k < 16) : (BitVec.ofNat 8 k).toNat = k := by
  rw [BitVec.toNat_ofNat]
  omega

/-- The bytes behind the first `n` are replaced. -/
theorem byteAt_tbxSmallDataStart (hpos : 0 < n) (hn : n < 16) (hk : k < 16) :
    byteAt (tbxSmallDataStart src dest n) k = if k < n then byteAt dest k else byteAt src k := by
  obtain ⟨hlen, htable⟩ := tbxStartSmallDataTable_eq n hn hpos
  rw [tbxSmallDataStart, byteAt_tbx hk, byteAt_ofBytes (Nat.le_of_eq hlen), htable k hk]
  split
  · rfl
  · rw [toNat_ofNat_index hk, if_pos hk]

/-- The bytes behind the first `n` are cleared. -/
theorem byteAt_clearSmallData (hn : n < 16) (hk : k < 16) :
    byteAt (clearSmallData dest n) k = if k < n then byteAt dest k else 0#8 := by
  obtain ⟨hlen, htable⟩ := shiftSmallDataTable_eq n hn
  rw [clearSmallData, byteAt_tbx hk, byteAt_ofBytes (Nat.le_of_eq hlen), htable k hk]
  split
  · rfl
  · rw [toNat_ofNat_index (by omega), if_pos (by omega)]
    exact byteAt_zero

/-- One element: its bytes follow those already written. -/
theorem writeSmallLane_spec (v : BitVec 128) (p : ℕ) {s : (ℕ → Byte) × ℕ}
    (hs : s.2 = a + n / (2 * 2 ^ b) * (2 * 2 ^ b)) :
    (writeSmallLane v n b p s).2 = a + n / 2 ^ b * 2 ^ b ∧
      ∀ k, (writeSmallLane v n b p s).1 k =
        if s.2 ≤ k ∧ k < a + n / 2 ^ b * 2 ^ b then byteAt v (p + (k - s.2)) else s.1 k := by
  have hsplit : n / 2 ^ b * 2 ^ b = n / (2 * 2 ^ b) * (2 * 2 ^ b) + n / 2 ^ b % 2 * 2 ^ b := by
    rw [Nat.mul_comm 2 (2 ^ b), ← Nat.div_div_eq_div_mul, ← Nat.mul_assoc, Nat.mul_right_comm,
      ← Nat.add_mul, Nat.div_add_mod']
  have hbit : n.testBit b = decide (n / 2 ^ b % 2 = 1) := Nat.testBit_eq_decide_div_mod_eq
  unfold writeSmallLane
  generalize 2 ^ b = w at *
  rcases Nat.mod_two_eq_zero_or_one (n / w) with hzero | hone
  · rw [hzero, Nat.zero_mul, Nat.add_zero] at hsplit
    rw [hbit, hzero, hsplit]
    refine ⟨hs, fun k => ?_⟩
    have hnone : ¬ (s.2 ≤ k ∧ k < s.2) := fun hk => absurd hk.2 (Nat.not_lt.mpr hk.1)
    rw [← hs, if_neg hnone]
    rfl
  · rw [hone, Nat.one_mul] at hsplit
    rw [hbit, hone, hsplit, ← Nat.add_assoc, ← hs]
    exact ⟨rfl, fun k => rfl⟩

/-- A short block is written. -/
theorem writeSmallDataStart_apply (src : BitVec 128) (out : ℕ → Byte) (a : ℕ) (hpos : 0 < n)
    (hn : n < 16) (k : ℕ) : writeSmallDataStart src out a n k =
      if a ≤ k ∧ k < a + n then byteAt src (k - a) else out k := by
  obtain ⟨hlen, htable⟩ := writeSmallDataTable_eq n hn hpos
  -- every byte is in its element
  have htbl : ∀ k < n, byteAt (tbl src (ofBytes (writeSmallDataTable.getD n []))) (lanePos n k) =
      byteAt src k := fun k hk => by
    obtain ⟨hlane, hentry⟩ := htable k hk
    rw [byteAt_tbl hlane, byteAt_ofBytes (Nat.le_of_eq hlen), hentry, toNat_ofNat_index (by omega),
      if_pos (by omega)]
  unfold writeSmallDataStart
  generalize tbl src (ofBytes (writeSmallDataTable.getD n [])) = v at htbl
  obtain ⟨hadr₃, hlane₃⟩ := writeSmallLane_spec v 0 (s := (out, a)) (a := a) (n := n) (b := 3) (by
    dsimp only
    omega)
  generalize writeSmallLane v n 3 0 (out, a) = s₃ at *
  obtain ⟨hadr₂, hlane₂⟩ := writeSmallLane_spec v 8 (b := 2) hadr₃
  generalize writeSmallLane v n 2 8 s₃ = s₂ at *
  obtain ⟨hadr₁, hlane₁⟩ := writeSmallLane_spec v 12 (b := 1) hadr₂
  generalize writeSmallLane v n 1 12 s₂ = s₁ at *
  obtain ⟨-, hlane₀⟩ := writeSmallLane_spec v 14 (b := 0) hadr₁
  rw [hlane₀, hlane₁, hlane₂, hlane₃, hadr₁, hadr₂, hadr₃]
  dsimp only
  by_cases hin : a ≤ k ∧ k < a + n
  · obtain ⟨i, rfl⟩ : ∃ i, k = a + i := ⟨k - a, by omega⟩
    have hi : i < n := by omega
    rw [if_pos hin, Nat.add_sub_cancel_left, ← htbl i hi]
    unfold lanePos
    by_cases h2 : n / 2 * 2 ≤ i
    · rw [if_pos (by omega), if_neg (by omega), if_neg (by omega), if_neg (by omega)]
      exact congrArg (byteAt v) (by omega)
    rw [if_neg (by omega)]
    by_cases h4 : n / 4 * 4 ≤ i
    · rw [if_pos (by omega), if_neg (by omega), if_neg (by omega), if_pos (by omega)]
      exact congrArg (byteAt v) (by omega)
    rw [if_neg (by omega)]
    by_cases h8 : n / 8 * 8 ≤ i
    · rw [if_pos (by omega), if_neg (by omega), if_pos (by omega)]
      exact congrArg (byteAt v) (by omega)
    · rw [if_neg (by omega), if_pos (by omega), if_pos (by omega)]
      exact congrArg (byteAt v) (by omega)
  · rw [if_neg hin, if_neg (by omega), if_neg (by omega), if_neg (by omega), if_neg (by omega)]

end SmallData

/-! ## The block of the context -/

section Partial

variable {encDec : EncDec} {inp out pb : ℕ → Byte} {a b k n p t w : ℕ} {s : PartialRegs}

theorem zipWith_window {f : Byte → Byte → Byte} (x y : ℕ → Byte) (a b w : ℕ) :
    List.zipWith f (window x a w) (window y b w) =
      window (fun k => f (x (a + k)) (y (b + k))) 0 w := by
  rw [window, window, List.zipWith_map, List.zipWith_self, window]
  exact List.map_congr_left fun k _ => by rw [Nat.zero_add]

theorem stBytes_window (mem x : ℕ → Byte) (a t w k : ℕ) :
    stBytes mem a (window x t w) k = if a ≤ k ∧ k < a + w then x (t + (k - a)) else mem k := by
  rw [stBytes, length_window]
  split
  · rw [getD_window, if_pos (by omega)]
  · rfl

/-- What is kept of a byte of the input over a byte of the key stream: the one of the ciphertext. -/
def keptByte (encDec : EncDec) (b ks : Byte) : Byte :=
  match encDec with
  | .enc => b ^^^ ks
  | .dec => b

/-- The first `t` bytes of the input are done, from byte `p` of the block `pb` on. -/
structure PartialRegs.Done (encDec : EncDec) (inp out pb : ℕ → Byte) (p t : ℕ) (s : PartialRegs) :
    Prop where
  inAdr : s.inAdr = t
  outAdr : s.outAdr = t
  out : ∀ k, s.out k = if k < t then inp k ^^^ pb (p + k) else out k
  partialAdr : s.partialAdr = p + t
  partialBlock : ∀ k, s.partialBlock k =
    if p ≤ k ∧ k < p + t then keptByte encDec (inp (k - p)) (pb k) else pb k

/-- The bytes of one bit of the length. -/
theorem PartialRegs.Done.load
    (hs : PartialRegs.Done encDec inp out pb p (n / (2 * 2 ^ b) * (2 * 2 ^ b)) s) :
    PartialRegs.Done encDec inp out pb p (n / 2 ^ b * 2 ^ b)
      (genericLoadSmallData encDec inp n b s) := by
  have hsplit : n / 2 ^ b * 2 ^ b = n / (2 * 2 ^ b) * (2 * 2 ^ b) + n / 2 ^ b % 2 * 2 ^ b := by
    rw [Nat.mul_comm 2 (2 ^ b), ← Nat.div_div_eq_div_mul, ← Nat.mul_assoc, Nat.mul_right_comm,
      ← Nat.add_mul, Nat.div_add_mod']
  have hbit : n.testBit b = decide (n / 2 ^ b % 2 = 1) := Nat.testBit_eq_decide_div_mod_eq
  unfold genericLoadSmallData
  generalize 2 ^ b = w at *
  rw [hsplit, hbit]
  generalize n / (2 * w) * (2 * w) = t at *
  rcases Nat.mod_two_eq_zero_or_one (n / w) with hzero | hone
  · rw [hzero, Nat.zero_mul, Nat.add_zero]
    exact hs
  · rw [hone, Nat.one_mul, decide_eq_true rfl, if_pos rfl]
    dsimp only
    have htemp1 : List.zipWith (· ^^^ ·) (window inp s.inAdr w)
      (window s.partialBlock s.partialAdr w) =
        window (fun k => inp (t + k) ^^^ pb (p + (t + k))) 0 w := by
      rw [zipWith_window]
      refine window_congr fun k _ _ => ?_
      rw [hs.inAdr, hs.partialAdr, hs.partialBlock, if_neg (by omega), Nat.add_assoc]
    rw [htemp1]
    refine ⟨?_, ?_, fun k => ?_, ?_, fun k => ?_⟩
    · exact congrArg (· + w) hs.inAdr
    · exact congrArg (· + w) hs.outAdr
    · dsimp only
      rw [stBytes_window, hs.out, hs.outAdr]
      by_cases hnew : t ≤ k ∧ k < t + w
      · rw [if_pos hnew, if_pos hnew.2, show t + (0 + (k - t)) = k by omega]
      · rw [if_neg hnew]
        exact if_congr (by omega) rfl rfl
    · dsimp only
      rw [hs.partialAdr, Nat.add_assoc]
    · dsimp only
      have hkept : ∀ kept : List Byte,
          kept = window (fun k => keptByte encDec (inp (t + k)) (pb (p + (t + k)))) 0 w →
          stBytes s.partialBlock s.partialAdr kept k =
            if p ≤ k ∧ k < p + (t + w) then keptByte encDec (inp (k - p)) (pb k) else pb k := by
        rintro kept rfl
        rw [stBytes_window, hs.partialBlock, hs.partialAdr]
        by_cases hnew : p + t ≤ k ∧ k < p + t + w
        · rw [if_pos hnew, if_pos (by omega), show p + (t + (0 + (k - (p + t)))) = k by omega,
            show t + (0 + (k - (p + t))) = k - p by omega]
        · rw [if_neg hnew]
          exact if_congr (by omega) rfl rfl
      cases encDec with
      | enc => exact hkept _ rfl
      | dec =>
        refine hkept _ (window_eq_window fun i _ => ?_)
        rw [hs.inAdr, Nat.zero_add]
        rfl

theorem genericLoadPartialBlock_done (encDec : EncDec) (inp out pb : ℕ → Byte) (p : ℕ)
    (hn : n < 16) :
    PartialRegs.Done encDec inp out pb p n
      (genericLoadPartialBlock encDec inp n ⟨0, 0, out, p, pb⟩) := by
  have hstart : PartialRegs.Done encDec inp out pb p (n / (2 * 2 ^ 3) * (2 * 2 ^ 3))
      ⟨0, 0, out, p, pb⟩ := by
    rw [show n / (2 * 2 ^ 3) * (2 * 2 ^ 3) = 0 by omega]
    exact ⟨rfl, rfl, fun k => rfl, rfl, fun k => (if_neg (by omega)).symm⟩
  have hend := (((hstart.load).load (b := 2)).load (b := 1)).load (b := 0)
  rw [Nat.pow_zero, Nat.div_one, Nat.mul_one] at hend
  exact hend

end Partial

/-! ## The context between two calls -/

/-- The context after `L` bytes of a text with the ciphertext `c`: the hash has the whole blocks,
the last one not multiplied, and the block that is kept has the ciphertext of an incomplete block,
and key stream behind it. -/
structure ContextAfter (aes : BitVec 128 → BitVec 128) (h x j : BitVec 128) (c : ℕ → Byte) (L : ℕ)
    (context : GcmContextData) : Prop where
  partialBlockLength : context.partialBlockLength = BitVec.ofNat 64 (L % 16)
  currentCounter : context.currentCounter = ctrReg (inc32^[(L + 15) / 16] j)
  aadHash : ev context.aadHash = gfEl (ghashLag h x (streamBlock c) (L / 16))
  partialBlockEncKey : L % 16 ≠ 0 → ∀ k < 16, byteAt context.partialBlockEncKey k =
    if k < L % 16 then c (16 * (L / 16) + k) else keyStream aes (inc32 j) (16 * (L / 16) + k)

namespace TextCall

variable {C : TextCall} {s : CryptRegs} {q r t : ℕ} {context : GcmContextData} {len : BitVec 64}

/-- What a call leaves. -/
structure Updated (C : TextCall) (context : GcmContextData) (r : GcmContextData × (ℕ → Byte)) :
    Prop where
  after : ContextAfter C.aes C.h C.x C.j C.cipher (C.L + C.n) r.1
  out : ∀ k, r.2 k = if k < C.n then gctrAt C.aes (inc32 C.j) C.m (C.L + k) else C.out k
  inLength : r.1.inLength = context.inLength
  aadLength : r.1.aadLength = context.aadLength
  origIV : r.1.origIV = context.origIV

/-- Only the fields that a call keeps count of the context before it. -/
theorem Updated.of_fields {context' : GcmContextData} {r : GcmContextData × (ℕ → Byte)}
    (h : C.Updated context' r) (hin : context'.inLength = context.inLength)
    (haad : context'.aadLength = context.aadLength) (hiv : context'.origIV = context.origIV) :
    C.Updated context r :=
  ⟨h.after, h.out, h.inLength.trans hin, h.aadLength.trans haad, h.origIV.trans hiv⟩

/-- What is kept of a byte of the text is its byte of the ciphertext. -/
theorem keptByte_eq (C : TextCall) (i : ℕ) :
    keptByte C.encDec (C.m i) (keyStream C.aes (inc32 C.j) i) = C.cipher i := by
  rw [cipher]
  cases C.encDec with
  | enc => rfl
  | dec => rfl

/-- The next bytes of the key stream. -/
theorem Position.byteAt_key (hs : C.Position q s) {k : ℕ} (hk : k < 16) :
    byteAt (C.aes (rev32 (add4s s.ctr one))) k = keyStream C.aes (inc32 C.j) (16 * q + k) := by
  rw [keyStream_block hk, hs.add4s_ctr, rev32_ctrReg, Function.iterate_succ_apply]

/-- The last bytes of the input. -/
theorem Position.byteAt_read (hs : C.Position q s) (hend : C.L + C.n = 16 * q + r) (hpos : 0 < r)
    (hr : r < 16) (partialBlock : BitVec 128) (k : ℕ) :
    byteAt (readSmallDataStart C.inp s.hash.datAdr r partialBlock) k =
      if k < r then C.m (16 * q + k) else 0#8 := by
  have hdat := hs.datAdr
  rw [readSmallDataStart_eq C.inp _ hpos hr, byteAt_ofBytes_window (by omega)]
  split
  · next hk =>
    rw [C.inp_eq _ (by omega)]
    exact congrArg C.m (by omega)
  · rfl

/-- The last bytes of the output. -/
theorem Position.writeSmall (hs : C.Position q s) (hend : C.L + C.n = 16 * q + r) (hpos : 0 < r)
    (hr : r < 16) {v : BitVec 128}
    (hv : ∀ k < r, byteAt v k = gctrAt C.aes (inc32 C.j) C.m (16 * q + k)) (k : ℕ) :
    writeSmallDataStart v s.out s.outAdr r k =
      if k < C.n then gctrAt C.aes (inc32 C.j) C.m (C.L + k) else C.out k := by
  have hdat := hs.datAdr
  rw [writeSmallDataStart_apply _ _ _ hpos hr, hs.outAdr, hs.out]
  by_cases hin : s.hash.datAdr ≤ k ∧ k < s.hash.datAdr + r
  · rw [if_pos hin, if_pos (by omega), hv _ (by omega),
      show 16 * q + (k - s.hash.datAdr) = C.L + k by omega]
  · rw [if_neg hin]
    exact if_congr (by omega) rfl rfl

/-- A new block is begun. -/
theorem Hashed.partialBlockEnd (hs : C.Hashed q s) (context : GcmContextData)
    (hend : C.L + C.n = 16 * q + r) (hpos : 0 < r) (hr : r < 16)
    (haad : context.aadHash = s.hash.aadhash) (partialBlock : BitVec 128) :
    C.Updated context (partialBlockEnd C.aes C.inp C.encDec r partialBlock s.hash.datAdr s.outAdr
      s.ctr context s.out) := by
  have hctr := hs.add4s_ctr
  have hread := hs.byteAt_read hend hpos hr partialBlock
  have hkey := fun k => hs.byteAt_key (k := k)
  have hwrite := fun v => hs.writeSmall hend hpos hr (v := v)
  unfold GcmAarch64.partialBlockEnd
  dsimp only
  generalize readSmallDataStart C.inp s.hash.datAdr r partialBlock = dat at hread ⊢
  generalize C.aes (rev32 (add4s s.ctr one)) = ks at hkey ⊢
  have hcrypt : ∀ k < 16, byteAt (dat ^^^ ks) k =
      if k < r then gctrAt C.aes (inc32 C.j) C.m (16 * q + k)
      else keyStream C.aes (inc32 C.j) (16 * q + k) := fun k hk => by
    rw [byteAt_xor, hread, hkey k hk]
    split
    · rfl
    · rw [BitVec.zero_xor]
  refine ⟨⟨?_, ?_, ?_, fun _ k hk => ?_⟩, hwrite _ fun k hk => ?_, rfl, rfl, rfl⟩
  · dsimp only
    rw [show (C.L + C.n) % 16 = r by omega]
  · dsimp only
    rw [hctr, show (C.L + C.n + 15) / 16 = q + 1 by omega]
  · dsimp only
    rw [haad, hs.aadhash, lag, show (C.L + C.n) / 16 = q by omega]
  · dsimp only
    rw [show (C.L + C.n) / 16 = q by omega, show (C.L + C.n) % 16 = r by omega, cipher]
    cases C.encDec with
    | enc => exact hcrypt k hk
    | dec =>
      dsimp only
      rw [byteAt_tbxSmallDataStart hpos hr hk, hread, hcrypt k hk]
      split
      · rfl
      · rfl
  · rw [hcrypt k (by omega), if_pos hk]

/-- The whole blocks are done. -/
theorem Hashed.wholeBlocksEnd (hs : C.Hashed q s) (context : GcmContextData)
    (hend : C.L + C.n = 16 * q + r) (hr : r < 16) (hlength : context.partialBlockLength = 0#64)
    (partialBlock : BitVec 128) :
    C.Updated context (wholeBlocksEnd C.aes C.inp C.encDec r partialBlock context s) := by
  unfold GcmAarch64.wholeBlocksEnd
  dsimp only
  split
  · next hzero =>
    have hdat := hs.datAdr
    refine ⟨⟨?_, ?_, ?_, fun hne => absurd ?_ hne⟩, fun k => ?_, rfl, rfl, rfl⟩
    · rw [show (C.L + C.n) % 16 = 0 by omega]
      exact hlength
    · rw [show (C.L + C.n + 15) / 16 = q by omega]
      exact hs.ctr
    · rw [show (C.L + C.n) / 16 = q by omega]
      exact hs.aadhash
    · omega
    · rw [show C.n = s.hash.datAdr by omega]
      exact hs.out k
  · next hne =>
    exact (hs.partialBlockEnd { context with aadHash := s.hash.aadhash, currentCounter := s.ctr }
      hend (by omega) hr rfl partialBlock).of_fields rfl rfl rfl

/-- `start_of_mainloop`, with a byte at least to go. -/
theorem Hashed.startOfMainloop (hs : C.Hashed q s) (context : GcmContextData) (len : BitVec 64)
    (hlen : len.toNat + s.hash.datAdr = C.n) (hpos : 0 < len.toNat)
    (hlength : context.partialBlockLength = 0#64) (partialBlock : BitVec 128) :
    C.Updated context
      (startOfMainloop C.aes C.keys C.inp C.encDec len partialBlock context s) := by
  have hdat := hs.datAdr
  have hne : len ≠ 0#64 := by
    rintro rfl
    exact absurd hpos (Nat.lt_irrefl 0)
  have hblocks : (len >>> 4).toNat = len.toNat / 16 := by
    rw [BitVec.toNat_ushiftRight, Nat.shiftRight_eq_div_pow]
  have hrest : (len &&& 15#64).toNat = len.toNat % 16 := by
    rw [BitVec.toNat_and]
    exact Nat.and_two_pow_sub_one_eq_mod _ 4
  unfold GcmAarch64.startOfMainloop
  rw [if_neg hne, hblocks, hrest]
  exact (hs.wholeBlocks (b := len.toNat / 16) (by omega)).wholeBlocksEnd context (by omega)
    (Nat.mod_lt _ (by decide)) hlength partialBlock

/-- What is left of the call once the kept block is in the hash. -/
theorem Hashed.rest (hs : C.Hashed q s) (context : GcmContextData) (len : BitVec 64)
    (hlen : len.toNat + s.hash.datAdr = C.n) (hlength : context.partialBlockLength = 0#64)
    (haad : context.aadHash = s.hash.aadhash) (partialBlock : BitVec 128) :
    C.Updated context
      (if len = 0#64 then GcmAarch64.wholeBlocksEnd C.aes C.inp C.encDec 0 partialBlock context s
      else if 15#64 < len then
        GcmAarch64.startOfMainloop C.aes C.keys C.inp C.encDec len partialBlock context s
      else
        GcmAarch64.partialBlockEnd C.aes C.inp C.encDec len.toNat partialBlock s.hash.datAdr
          s.outAdr s.ctr context s.out) := by
  have hdat := hs.datAdr
  split
  · next hlast =>
    rw [hlast, BitVec.toNat_ofNat] at hlen
    exact hs.wholeBlocksEnd context (r := 0) (by omega) (by decide) hlength partialBlock
  · next hmore =>
    have hpos : 0 < len.toNat := by
      rw [Nat.pos_iff_ne_zero]
      exact fun h => hmore (BitVec.eq_of_toNat_eq h)
    split
    · exact hs.startOfMainloop context len hlen hpos hlength partialBlock
    · next hshort =>
      rw [BitVec.lt_def, BitVec.toNat_ofNat] at hshort
      exact hs.partialBlockEnd context (by omega) hpos (by omega) haad partialBlock

end TextCall

/-! ## The whole call -/

section Call

variable {C : TextCall} {s : CryptRegs} {t : ℕ} {context : GcmContextData} {len : BitVec 64}

/-- The block and the output after `t` bytes more. -/
theorem ContextAfter.filled (hctx : ContextAfter C.aes C.h C.x C.j C.cipher C.L context)
    (hp : C.L % 16 ≠ 0) (ht : t ≤ C.n) (hfit : C.L % 16 + t ≤ 16) {u : PartialRegs}
    (hu : PartialRegs.Done C.encDec C.inp C.out (byteAt context.partialBlockEncKey)
      (C.L % 16) t u) :
    (∀ k < 16, byteAt (ldQ u.partialBlock 0) k =
      if k < C.L % 16 + t then C.cipher (16 * (C.L / 16) + k)
      else keyStream C.aes (inc32 C.j) (16 * (C.L / 16) + k)) ∧
    ∀ k, u.out k = if k < t then gctrAt C.aes (inc32 C.j) C.m (C.L + k) else C.out k := by
  have hblock := hctx.partialBlockEncKey hp
  constructor
  · intro k hk
    rw [ldQ, byteAt_ofBytes_window (Nat.le_refl 16), if_pos hk, Nat.zero_add, hu.partialBlock]
    by_cases hnew : C.L % 16 ≤ k ∧ k < C.L % 16 + t
    · rw [if_pos hnew, if_pos hnew.2, hblock k hk, if_neg (by omega), C.inp_eq _ (by omega),
        show C.L + (k - C.L % 16) = 16 * (C.L / 16) + k by omega, C.keptByte_eq]
    · rw [if_neg hnew, hblock k hk]
      exact if_congr (by omega) rfl rfl
  · intro k
    rw [hu.out]
    split
    · next hk =>
      rw [C.inp_eq k (by omega), hblock _ (by omega), if_neg (by omega), gctrAt,
        show 16 * (C.L / 16) + (C.L % 16 + k) = C.L + k by omega]
    · rfl

/-- The block is complete, and the hash takes it in. -/
theorem ContextAfter.hashed (hctx : ContextAfter C.aes C.h C.x C.j C.cipher C.L context)
    (hp : C.L % 16 ≠ 0) (ht : t ≤ C.n) (hfit : C.L % 16 + t = 16) {u : PartialRegs}
    (hu : PartialRegs.Done C.encDec C.inp C.out (byteAt context.partialBlockEncKey) (C.L % 16) t u)
    {v : HashRegs} (hhash : ev v.aadhash =
      ev context.aadHash * gfEl C.h + gfEl (byteSwap (ldQ u.partialBlock 0))) :
    C.Hashed (C.L / 16 + 1)
      ⟨{ v with datAdr := u.inAdr }, context.currentCounter, u.outAdr, u.out⟩ := by
  obtain ⟨hblock, hout⟩ := hctx.filled hp ht (Nat.le_of_eq hfit) hu
  have hfull : ldQ u.partialBlock 0 = ofBytes (window C.cipher (16 * (C.L / 16)) 16) :=
    eq_of_byteAt_eq fun k hk => by
      rw [hblock k hk, byteAt_ofBytes_window (Nat.le_refl 16), if_pos hk, if_pos (by omega)]
  refine ⟨⟨?_, ?_, ?_, fun k => ?_⟩, ?_⟩
  · dsimp only
    rw [hctx.currentCounter, show (C.L + 15) / 16 = C.L / 16 + 1 by omega]
  · dsimp only
    rw [hu.inAdr]
    omega
  · exact hu.outAdr.trans hu.inAdr.symm
  · dsimp only
    rw [hu.inAdr]
    exact hout k
  · dsimp only
    rw [hhash, hfull, hctx.aadHash, C.lag_succ]
    rfl

/-- The call ends inside the block. -/
theorem ContextAfter.inside (hctx : ContextAfter C.aes C.h C.x C.j C.cipher C.L context)
    (hp : C.L % 16 ≠ 0) (hfit : C.L % 16 + C.n < 16) {u : PartialRegs}
    (hu : PartialRegs.Done C.encDec C.inp C.out (byteAt context.partialBlockEncKey) (C.L % 16) C.n
      u)
    {length : BitVec 64} (hlength : length.toNat = C.L % 16 + C.n) :
    C.Updated context ({ context with
      partialBlockLength := length
      partialBlockEncKey := ldQ u.partialBlock 0 }, u.out) := by
  obtain ⟨hblock, hdone⟩ := hctx.filled hp (Nat.le_refl _) (Nat.le_of_lt hfit) hu
  refine ⟨⟨?_, ?_, ?_, fun _ k hk => ?_⟩, hdone, rfl, rfl, rfl⟩
  · refine BitVec.eq_of_toNat_eq ?_
    rw [hlength, BitVec.toNat_ofNat]
    omega
  · dsimp only
    rw [hctx.currentCounter, show (C.L + C.n + 15) / 16 = (C.L + 15) / 16 by omega]
  · dsimp only
    rw [hctx.aadHash, show (C.L + C.n) / 16 = C.L / 16 by omega]
  · dsimp only
    rw [hblock k hk, show (C.L + C.n) / 16 = C.L / 16 by omega,
      show (C.L + C.n) % 16 = C.L % 16 + C.n by omega]

/-- What is read fits into the block, and all is read if it does. -/
theorem smallReadLen_spec {context : GcmContextData} {p : ℕ}
    (hnat : context.partialBlockLength.toNat = p) (hp : p < 16) (len : BitVec 64) :
    let small := if len ≤ 16#64 - context.partialBlockLength then len
      else 16#64 - context.partialBlockLength
    small.toNat ≤ len.toNat ∧ p + small.toNat ≤ 16 ∧
      (p + small.toNat < 16 → small.toNat = len.toNat) := by
  have hleft : (16#64 - context.partialBlockLength).toNat = 16 - p := by
    rw [BitVec.toNat_sub, hnat, BitVec.toNat_ofNat]
    omega
  dsimp only
  split
  · next hle =>
    rw [BitVec.le_def, hleft] at hle
    omega
  · next hgt =>
    rw [BitVec.le_def, hleft] at hgt
    omega

/-- `partial_block_start`. -/
theorem ContextAfter.partialBlockStart (hctx : ContextAfter C.aes C.h C.x C.j C.cipher C.L context)
    (hp : C.L % 16 ≠ 0) (hlen : len.toNat = C.n) (hpos : 0 < C.n)
    (haad : s.hash.aadhash = context.aadHash) (hctr : s.ctr = context.currentCounter)
    (hout : s.out = C.out) :
    C.Updated context (partialBlockStart C.aes C.keys C.inp C.encDec len context s) := by
  have hnat : context.partialBlockLength.toNat = C.L % 16 := by
    rw [hctx.partialBlockLength, BitVec.toNat_ofNat]
    omega
  have hsmall := smallReadLen_spec hnat (Nat.mod_lt _ (by decide)) len
  unfold GcmAarch64.partialBlockStart
  dsimp only at hsmall ⊢
  generalize (if len ≤ 16#64 - context.partialBlockLength then len
    else 16#64 - context.partialBlockLength) = small at hsmall ⊢
  obtain ⟨ht, hfit, hall⟩ := hsmall
  have hrest : (len - small).toNat = C.n - small.toNat := by
    rw [BitVec.toNat_sub]
    omega
  have hlength : ((context.partialBlockLength + small) &&& 15#64).toNat =
      (C.L % 16 + small.toNat) % 16 := by
    rw [BitVec.toNat_and, BitVec.toNat_add, hnat, Nat.mod_eq_of_lt (by omega)]
    exact Nat.and_two_pow_sub_one_eq_mod _ 4
  have hu := genericLoadPartialBlock_done C.encDec C.inp C.out (byteAt context.partialBlockEncKey)
    (C.L % 16) (n := small.toNat) (by omega)
  rw [hnat, hout]
  generalize genericLoadPartialBlock C.encDec C.inp small.toNat _ = u at hu ⊢
  split
  · next hne =>
    have hlt : (C.L % 16 + small.toNat) % 16 ≠ 0 := fun hzero =>
      hne (BitVec.eq_of_toNat_eq (hlength.trans hzero))
    have hn : small.toNat = C.n := by omega
    rw [hn] at hu hlength
    exact hctx.inside hp (by omega) hu (by omega)
  · next heq =>
    have hzero : (context.partialBlockLength + small) &&& 15#64 = 0#64 := Decidable.not_not.mp heq
    have hend : C.L % 16 + small.toNat = 16 := by
      rw [hzero, BitVec.toNat_ofNat] at hlength
      omega
    have habs := ghashBlockReg_absorbs (s := { s.hash with
      hashkey := ldQ C.keys ((hashkeyTotalNum - 1) * 32)
      hashkeyExt := ldQ C.keys ((hashkeyTotalNum - 1) * 32 + 16) }) C.keysFor
        (ldQ u.partialBlock 0) rfl rfl
    dsimp only at habs
    generalize ghashBlockReg (ldQ u.partialBlock 0) _ = v at habs ⊢
    rw [haad] at habs
    have hhashed := hctx.hashed hp (hlen ▸ ht) hend hu habs
    rw [← hctr] at hhashed
    have hdat : u.inAdr = small.toNat := hu.inAdr
    exact (hhashed.rest { context with
      partialBlockLength := (context.partialBlockLength + small) &&& 15#64
      partialBlockEncKey := ldQ u.partialBlock 0
      aadHash := v.aadhash } (len - small) (by dsimp only; omega) hzero rfl
      (ldQ u.partialBlock 0)).of_fields rfl rfl rfl

/-- After the call the context is that of the position behind it. -/
theorem aesGcmUpdate_spec (hctx : ContextAfter C.aes C.h C.x C.j C.cipher C.L context)
    (hlen : len.toNat = C.n) (partialBlock : BitVec 128) (regs : HashRegs) :
    C.Updated { context with inLength := context.inLength + len }
      (aesGcmUpdate C.aes C.keys C.inp C.encDec len partialBlock regs context C.out) := by
  unfold aesGcmUpdate
  split
  · next hzero =>
    rw [hzero, BitVec.toNat_ofNat] at hlen
    have hn : C.n = 0 := hlen.symm
    refine ⟨?_, fun k => ?_, ?_, rfl, rfl⟩
    · rw [hn]
      exact hctx
    · rw [hn, if_neg (Nat.not_lt_zero k)]
    · rw [hzero]
      exact (BitVec.add_zero _).symm
  · next hne =>
    have hpos : 0 < C.n := by
      rw [← hlen, Nat.pos_iff_ne_zero]
      exact fun h => hne (BitVec.eq_of_toNat_eq h)
    have hctx' : ContextAfter C.aes C.h C.x C.j C.cipher C.L
        { context with inLength := context.inLength + len } :=
      ⟨hctx.partialBlockLength, hctx.currentCounter, hctx.aadHash, hctx.partialBlockEncKey⟩
    dsimp only
    split
    · next hwhole =>
      have hmod : C.L % 16 = 0 := by
        rw [hctx.partialBlockLength] at hwhole
        have hnat := congrArg BitVec.toNat hwhole
        rw [BitVec.toNat_ofNat, BitVec.toNat_ofNat] at hnat
        omega
      have hhashed : C.Hashed (C.L / 16) ⟨{ regs with aadhash := context.aadHash, datAdr := 0 },
          context.currentCounter, 0, C.out⟩ := by
        refine ⟨⟨?_, ?_, rfl, fun k => rfl⟩, ?_⟩
        · dsimp only
          rw [hctx.currentCounter, show (C.L + 15) / 16 = C.L / 16 by omega]
        · dsimp only
          omega
        · dsimp only
          exact hctx.aadHash
      exact hhashed.startOfMainloop { context with inLength := context.inLength + len } len
        hlen (by omega) hwhole partialBlock
    · next hpart =>
      have hmod : C.L % 16 ≠ 0 := fun h => hpart (by rw [hctx.partialBlockLength, h])
      exact hctx'.partialBlockStart (s := ⟨{ regs with aadhash := context.aadHash, datAdr := 0 },
        context.currentCounter, 0, C.out⟩) hmod hlen hpos rfl rfl rfl

end Call

end IsalCrypto.Aes.GcmAarch64
