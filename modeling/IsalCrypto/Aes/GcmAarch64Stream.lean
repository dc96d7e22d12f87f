import IsalCrypto.Aes.GcmAarch64Tag

/-!
# GCM on AArch64 and the standard

The init function, any number of updates and the finalization, and the functions that do all of it
in one go, against NIST SP 800-38D.

* `updates_spec`: the context and the output after a list of calls.
* `aesGcm_standard`: however a text is cut into calls, ciphertext, plaintext and tag are the
  standard's.
* `aesGcmEncDec_standard`: `aes_gcm_enc` and `aes_gcm_dec` do the same.
-/

namespace IsalCrypto.Aes.GcmAarch64

open IsalCrypto.Lib
open IsalCrypto.Aes.GcmSse (GcmContextData EncDec tagBlock)

/-! ## Streams of calls -/

/-- The arguments of one call: the input, its length and what the output buffer holds before, and
what the registers hold before. -/
structure UpdateCall where
  inp : ℕ → Byte
  len : BitVec 64
  out : ℕ → Byte
  partialBlock : BitVec 128
  regs : HashRegs

/-- The text of some calls. -/
def textOf (calls : List UpdateCall) : List Byte :=
  calls.flatMap fun call => window call.inp 0 call.len.toNat

/-- `aes_gcm_enc_update` or `aes_gcm_dec_update`, one call after the other: the context and the
bytes written. -/
def updates (aes : BitVec 128 → BitVec 128) (keys : ℕ → Byte) (encDec : EncDec) :
    List UpdateCall → GcmContextData → GcmContextData × List Byte
  | [], context => (context, [])
  | call :: calls, context =>
    let r := aesGcmUpdate aes keys call.inp encDec call.len call.partialBlock call.regs context
      call.out
    let rest := updates aes keys encDec calls r.1
    (rest.1, window r.2 0 call.len.toNat ++ rest.2)

/-- What memory and registers hold before: the expanded keys with the place for the pairs, the
context, and the registers of the init function and of the finalization. -/
structure Before where
  mem : ℕ → Byte
  context : GcmContextData
  leftDat : BitVec 128
  regs : HashRegs
  partialBlock : BitVec 128
  lastRegs : HashRegs

/-- All calls for one text: the bytes written and the tag of `t` bytes. -/
def aesGcm (aes : BitVec 128 → BitVec 128) (encDec : EncDec) (iv aad : ℕ → Byte)
    (aadLen : BitVec 64) (t : ℕ) (b : Before) (calls : List UpdateCall) : List Byte × List Byte :=
  let keys := aesGcmPrecomp aes b.mem
  let r := updates aes keys encDec calls (aesGcmInit keys aad iv aadLen b.leftDat b.regs b.context)
  (r.2, aesGcmFinalize aes keys r.1 b.partialBlock b.lastRegs (BitVec.ofNat 64 t))

section Streams

variable {aes : BitVec 128 → BitVec 128} {encDec : EncDec} {keys m iv aad : ℕ → Byte}
  {h x j : BitVec 128}
  {aadLen : BitVec 64} {L t : ℕ} {calls : List UpdateCall} {context : GcmContextData}

theorem updates_spec (hkeys : KeysFor keys h)
    (hctx : ContextAfter aes h x j (encDec.cipherText aes j m) L context)
    (hin : context.inLength = BitVec.ofNat 64 L)
    (htext : textOf calls = window m L (textOf calls).length) :
    let r := updates aes keys encDec calls context
    ContextAfter aes h x j (encDec.cipherText aes j m) (L + (textOf calls).length) r.1 ∧
      r.1.inLength = BitVec.ofNat 64 (L + (textOf calls).length) ∧
      r.1.aadLength = context.aadLength ∧ r.1.origIV = context.origIV ∧
      r.2 = window (gctrAt aes (inc32 j) m) L (textOf calls).length := by
  induction calls generalizing L context with
  | nil => exact ⟨hctx, hin, rfl, rfl, rfl⟩
  | cons call calls ih =>
    have hlength : (textOf (call :: calls)).length = call.len.toNat + (textOf calls).length := by
      rw [textOf, List.flatMap_cons, List.length_append, length_window, textOf]
    rw [hlength, window_add, textOf, List.flatMap_cons] at htext
    obtain ⟨hfirst, hrest⟩ := List.append_inj htext (by rw [length_window, length_window])
    have hinp : ∀ k < call.len.toNat, call.inp k = m (L + k) := fun k hk => by
      have hbyte := congrArg (·.getD k 0#8) hfirst
      simpa only [getD_window, if_pos hk, Nat.zero_add] using hbyte
    obtain ⟨hafter, hout, hin', haad, hiv⟩ := aesGcmUpdate_spec
      (C := ⟨aes, encDec, keys, h, x, j, m, call.inp, call.out, L, call.len.toNat, hkeys, hinp⟩)
      hctx rfl call.partialBlock call.regs
    obtain ⟨ih1, ih2, ih3, ih4, ih5⟩ := ih hafter
      (hin'.trans (by rw [hin, BitVec.ofNat_add, BitVec.ofNat_toNat, BitVec.setWidth_eq])) hrest
    rw [hlength, ← Nat.add_assoc]
    refine ⟨ih1, ih2, ih3.trans haad, ih4.trans hiv, ?_⟩
    rw [updates]
    dsimp only
    rw [ih5, window_add]
    refine congrArg (· ++ _) (window_eq_window fun k hk => ?_)
    rw [Nat.zero_add, hout, if_pos hk]

/-- What the init function leaves is the context of position 0. -/
theorem aesGcmInit_contextAfter (aes : BitVec 128 → BitVec 128) (keys aad iv : ℕ → Byte)
    (aadLen : BitVec 64) (leftDat : BitVec 128) (s : HashRegs) (context : GcmContextData)
    (h : BitVec 128) (c : ℕ → Byte) :
    ContextAfter aes h (aadHash keys aad aadLen leftDat s).reverse (counter0 (window iv 0 12)) c 0
      (aesGcmInit keys aad iv aadLen leftDat s context) where
  partialBlockLength := rfl
  currentCounter := by
    dsimp only [aesGcmInit]
    rw [origIV_eq]
    rfl
  aadHash := by
    dsimp only [aesGcmInit]
    rw [ev_eq]
    rfl
  partialBlockEncKey := fun hne => absurd rfl hne

/-- The bytes written and the tag, for a text that is the beginning of `m`. -/
theorem aesGcm_eq (b : Before) (ht : t = 8 ∨ t = 12 ∨ t = 16)
    (htext : textOf calls = window m 0 (textOf calls).length) :
    aesGcm aes encDec iv aad aadLen t b calls =
      (window (gctrAt aes (inc32 (counter0 (window iv 0 12))) m) 0 (textOf calls).length,
        gcmTag aes (window iv 0 12) (window aad 0 aadLen.toNat) (window
          (encDec.cipherText aes (counter0 (window iv 0 12)) m) 0 (textOf calls).length) t) := by
  have hkeys := aesGcmPrecomp_keysFor aes b.mem
  have hstart :=
    aesGcmInit_contextAfter aes (aesGcmPrecomp aes b.mem) aad iv aadLen b.leftDat b.regs
    b.context (byteSwap (aes 0#128)) (encDec.cipherText aes (counter0 (window iv 0 12)) m)
  obtain ⟨hafter, hin, haad, hiv, hout⟩ := updates_spec hkeys hstart rfl htext
  rw [Nat.zero_add] at hafter hin
  rw [aesGcm]
  refine Prod.ext hout ((aesGcmFinalize_eq hkeys hafter hin ht ..).trans ?_)
  rw [GcmSse.gcmTag_eq aes _ _ aadLen.toNat t rfl, haad, hiv, gfMul_aadHash hkeys]
  dsimp only [aesGcmInit]
  rw [origIV_eq, counter0, byteSwap_byteSwap]
  rfl

/-- Encryption is that of the standard for every key, every IV, every additional data and every cut
of every text; decryption is its inverse and computes the tag of the ciphertext it is given. -/
theorem aesGcm_standard (aes : BitVec 128 → BitVec 128) (iv aad : ℕ → Byte) (aadLen : BitVec 64)
    (b : Before) (calls : List UpdateCall) (ht : t = 8 ∨ t = 12 ∨ t = 16) :
    let iv' := window iv 0 12
    let aad' := window aad 0 aadLen.toNat
    let r := gcmEncrypt aes iv' aad' (textOf calls) t
    aesGcm aes .enc iv aad aadLen t b calls = r ∧
    aesGcm aes .dec iv aad aadLen t b calls =
      (gctr aes (inc32 (counter0 iv')) (textOf calls), gcmTag aes iv' aad' (textOf calls) t) ∧
    ∀ b' calls', textOf calls' = r.1 →
      aesGcm aes .dec iv aad aadLen t b' calls' = (textOf calls, r.2) := by
  intro iv' aad' r
  have hstream := (window_stream (textOf calls)).symm
  have hctr : gctr aes (inc32 (counter0 iv')) (textOf calls) =
      window (gctrAt aes (inc32 (counter0 iv')) (stream (textOf calls))) 0
        (textOf calls).length := by
    rw [← gctr_window, ← hstream]
  have henc : r = (window (gctrAt aes (inc32 (counter0 iv')) (stream (textOf calls))) 0
      (textOf calls).length, gcmTag aes iv' aad' (window (gctrAt aes (inc32 (counter0 iv'))
        (stream (textOf calls))) 0 (textOf calls).length) t) := by
    rw [← hctr]
    rfl
  refine ⟨?_, ?_, fun b' calls' htext' => ?_⟩
  · rw [aesGcm_eq b ht hstream, henc]
    rfl
  · rw [aesGcm_eq b ht hstream, hctr, EncDec.cipherText_dec, ← hstream]
  · rw [henc] at htext' ⊢
    have hlength : (textOf calls').length = (textOf calls).length := by rw [htext', length_window]
    rw [aesGcm_eq b' ht (htext'.trans (by rw [hlength])), EncDec.cipherText_dec, hlength,
      gctrAt_gctrAt, ← hstream]

/-- Thirty-five bytes as pieces of 5, 0 and 30 bytes, with a tag of 12 bytes. -/
theorem aesGcm_standard_three_calls :
    let text : ℕ → Byte := fun k => BitVec.ofNat 8 k
    let aes := GcmSse.encryptSingleBlock 9 (aesKeyexp128 text text text).1
    let regs : HashRegs := ⟨0#128, 0#128, 0#128, 0#128, 0#128, 0#128, 0, 0⟩
    let b : Before :=
      ⟨text, ⟨0#128, 0#64, 0#64, 0#128, 0#128, 0#128, 0#64⟩, 0#128, regs, 0#128, regs⟩
    let call : ℕ → ℕ → UpdateCall := fun k n =>
      ⟨fun i => text (k + i), BitVec.ofNat 64 n, fun _ => 0#8, b.partialBlock, b.regs⟩
    aesGcm aes .enc text text 20#64 12 b [call 0 5, call 5 0, call 5 30] =
      gcmEncrypt aes (window text 0 12) (window text 0 20) (window text 0 35) 12 := by
  intro text aes regs b call
  exact (aesGcm_standard aes text text 20#64 b [call 0 5, call 5 0, call 5 30] (.inr (.inl rfl))).1

end Streams

/-! ## In one go -/

namespace TextCall

variable {C : TextCall} {s : CryptRegs} {q r t : ℕ} {iv : ℕ → Byte}

/-- The bytes written and the tag after a call from position 0, which is the whole text. -/
structure Completed (C : TextCall) (inLen aadLen authTagLen : BitVec 64)
    (r : (ℕ → Byte) × List Byte) : Prop where
  out : ∀ k, r.1 k = if k < C.n then gctrAt C.aes (inc32 C.j) C.m k else C.out k
  tag : r.2 = outputAuthTag (tagBlock C.aes C.h (byteSwap C.j)
    (ghashPadded C.h (gfMul C.x C.h) C.cipher C.n)
    (GcmSse.standardLengths aadLen.toNat inLen.toNat)) authTagLen

/-- The last bytes of the ciphertext. -/
theorem Position.byteSwap_last (hs : C.Position q s) (hend : C.L + C.n = 16 * q + r) (hpos : 0 < r)
    (hr : r < 16) (leftDat : BitVec 128) :
    byteSwap (match C.encDec with
      | .enc => clearSmallData (C.aes (rev32 (add4s s.ctr one)) ^^^
          readSmallDataStart C.inp s.hash.datAdr r leftDat) r
      | .dec => readSmallDataStart C.inp s.hash.datAdr r leftDat) =
        streamRest C.cipher (C.L + C.n) := by
  rw [streamRest, show (C.L + C.n) / 16 = q by omega, show (C.L + C.n) % 16 = r by omega, cipher]
  refine congrArg byteSwap (eq_of_byteAt_eq fun k hk => ?_)
  rw [byteAt_ofBytes_window (Nat.le_of_lt hr)]
  cases C.encDec with
  | enc =>
    dsimp only
    rw [byteAt_clearSmallData hr hk, byteAt_xor, hs.byteAt_key hk, hs.byteAt_read hend hpos hr]
    split
    · exact BitVec.xor_comm ..
    · rfl
  | dec => exact hs.byteAt_read hend hpos hr leftDat k

/-- `complete part`. -/
theorem Hashed.completePart (hs : C.Hashed q s) (hL : C.L = 0) (hend : C.n = 16 * q + r)
    (hr : r < 16) (hj : C.j = counter0 (window iv 0 12)) (leftDat : BitVec 128)
    (inLen aadLen authTagLen : BitVec 64) :
    C.Completed inLen aadLen authTagLen
      (completePart C.aes C.keys C.inp C.encDec r leftDat (inLen ++ aadLen) authTagLen s) := by
  have hdat := hs.datAdr
  have hend' : C.L + C.n = 16 * q + r := by omega
  have hlag : ev s.hash.aadhash = gfEl (ghashLag C.h C.x (streamBlock C.cipher) (C.n / 16)) := by
    rw [hs.aadhash, lag, show C.n / 16 = q by omega]
  have hfirst : ∀ n, C.aes (rev32 (insS3 (ctrReg (inc32^[n] C.j)) 1#32)) = C.aes (byteSwap C.j) :=
    fun n => by
    rw [hj, insS3_iterate]
  have hout := hs.out
  rw [hL] at hdat hout
  unfold GcmAarch64.completePart
  split
  · next hzero =>
    obtain ⟨hpair, hsum⟩ := tagStart_whole C.keys (show C.n % 16 = 0 by omega) hlag s.hash
    refine ⟨fun k => ?_, ?_⟩
    · dsimp only
      rw [hout k, Nat.zero_add]
      exact if_congr (by omega) rfl rfl
    · dsimp only
      rw [lengthsAndTag_eq C.keysFor hpair hsum, hs.ctr, hfirst]
      rfl
  · next hne =>
    have hlast := hs.byteSwap_last hend' (Nat.pos_of_ne_zero hne) hr leftDat
    rw [hL, Nat.zero_add] at hlast
    obtain ⟨hpair, hsum⟩ :=
      tagStart_partial C.keysFor (show C.n % 16 ≠ 0 by omega) hlag hlast s.hash
    refine ⟨fun k => ?_, ?_⟩
    · dsimp only
      rw [hs.writeSmall hend' (Nat.pos_of_ne_zero hne) hr (fun i hi => ?_) k, hL, Nat.zero_add]
      rw [byteAt_xor, hs.byteAt_key (by omega), hs.byteAt_read hend' (Nat.pos_of_ne_zero hne) hr,
        if_pos hi]
      exact BitVec.xor_comm ..
    · refine (lengthsAndTag_eq C.keysFor hpair hsum ..).trans ?_
      rw [hs.add4s_ctr, hfirst]
      rfl

end TextCall

section OneShot

variable {aes : BitVec 128 → BitVec 128} {iv aad inp : ℕ → Byte} {len aadLen : BitVec 64} {t : ℕ}

/-- The bytes written and the tag of `aes_gcm_enc` or `aes_gcm_dec`, and that nothing is written
behind the text. -/
theorem aesGcmEncDec_eq (aes : BitVec 128 → BitVec 128) (encDec : EncDec)
    (mem inp iv aad out : ℕ → Byte) (len aadLen : BitVec 64) (ht : t = 8 ∨ t = 12 ∨ t = 16)
    (ctr leftDat : BitVec 128) (s : HashRegs) (context : GcmContextData) :
    let r := aesGcmEncDec aes (aesGcmPrecomp aes mem) inp aad encDec len iv aadLen
      (BitVec.ofNat 64 t) ctr
      leftDat s context out
    let j := counter0 (window iv 0 12)
    (∀ k, r.2.1 k = if k < len.toNat then gctrAt aes (inc32 j) inp k else out k) ∧
      r.2.2 = gcmTag aes (window iv 0 12) (window aad 0 aadLen.toNat)
        (window (encDec.cipherText aes j inp) 0 len.toNat) t := by
  intro r j
  have hkeys := aesGcmPrecomp_keysFor aes mem
  have haad := @aadHashOneShot_eq _ aad _ hkeys aadLen leftDat leftDat s s
  have hpadded := gfMul_aadHash hkeys aad aadLen leftDat s
  rw [← haad] at hpadded
  revert r
  unfold aesGcmEncDec
  generalize aesGcmPrecomp aes mem = keys at *
  dsimp only
  rw [insS3_ld1]
  generalize aadHashOneShot keys aad aadLen leftDat s = u at *
  obtain ⟨x, leftDat'⟩ := u
  dsimp only at *
  let C : TextCall :=
    ⟨aes, encDec, keys, byteSwap (aes 0#128), x.reverse, j, inp, inp, out, 0, len.toNat, hkeys,
      fun k _ => congrArg inp (Nat.zero_add k).symm⟩
  have hstart : C.Hashed 0 ⟨{ s with aadhash := x, datAdr := 0 }, ctrReg j, 0, out⟩ :=
    ⟨⟨rfl, rfl, rfl, fun k => rfl⟩, ev_eq x⟩
  have hshift : (len >>> 4).toNat = len.toNat / 16 := by
    rw [BitVec.toNat_ushiftRight, Nat.shiftRight_eq_div_pow]
  have hrest : (len &&& 15#64).toNat = len.toNat % 16 := by
    rw [BitVec.toNat_and]
    exact Nat.and_two_pow_sub_one_eq_mod _ 4
  have hblocks :
      C.Hashed (len.toNat / 16)
        (if len = 0#64 then ⟨{ s with aadhash := x, datAdr := 0 }, ctrReg j, 0, out⟩
          else wholeBlocks aes keys inp encDec (len >>> 4).toNat
        ⟨{ s with aadhash := x, datAdr := 0 }, ctrReg j, 0, out⟩) := by
    split
    · next hzero =>
      rw [hzero]
      exact hstart
    · have hall := hstart.wholeBlocks (b := len.toNat / 16) (by
        rw [Nat.zero_add]
        exact (Nat.mul_div_le len.toNat 16).trans (Nat.le_add_left ..))
      rw [Nat.zero_add] at hall
      rw [hshift]
      exact hall
  rw [hrest]
  generalize (if len = 0#64 then _ else _ : CryptRegs) = s' at *
  obtain ⟨hout, htag⟩ := hblocks.completePart rfl (Nat.div_add_mod len.toNat 16).symm
    (Nat.mod_lt _ (by decide)) rfl leftDat' len aadLen (BitVec.ofNat 64 t)
  refine ⟨hout, htag.trans ?_⟩
  rw [GcmSse.gcmTag_eq aes _ _ aadLen.toNat t rfl, outputAuthTag_eq _ ht]
  dsimp only [C]
  rw [hpadded]
  dsimp only [j]
  rw [counter0, byteSwap_byteSwap]
  rfl

/-- The two functions are encryption and decryption of the standard, and write nothing behind the
text. -/
theorem aesGcmEncDec_standard (aes : BitVec 128 → BitVec 128) (mem inp iv aad out : ℕ → Byte)
    (len aadLen : BitVec 64) (ht : t = 8 ∨ t = 12 ∨ t = 16) (ctr leftDat : BitVec 128)
    (s : HashRegs) (context : GcmContextData) :
    let run := fun encDec inp =>
      aesGcmEncDec aes (aesGcmPrecomp aes mem) inp aad encDec len iv aadLen
      (BitVec.ofNat 64 t) ctr leftDat s context out
    let text := fun m : ℕ → Byte => window m 0 len.toNat
    let iv' := window iv 0 12
    let aad' := window aad 0 aadLen.toNat
    let r := gcmEncrypt aes iv' aad' (text inp) t
    (text (run .enc inp).2.1, (run .enc inp).2.2) = r ∧
    (text (run .dec inp).2.1, (run .dec inp).2.2) =
      (gctr aes (inc32 (counter0 iv')) (text inp), gcmTag aes iv' aad' (text inp) t) ∧
    (∀ inp', text inp' = r.1 → (text (run .dec inp').2.1, (run .dec inp').2.2) = (text inp, r.2)) ∧
    ∀ encDec inp' k, len.toNat ≤ k → (run encDec inp').2.1 k = out k := by
  intro run text iv' aad' r
  have hrun : ∀ encDec inp', (text (run encDec inp').2.1, (run encDec inp').2.2) =
      (text (gctrAt aes (inc32 (counter0 iv')) inp'),
        gcmTag aes iv' aad' (text (encDec.cipherText aes (counter0 iv') inp')) t) :=
          fun encDec inp' => by
    obtain ⟨hout, htag⟩ :=
      aesGcmEncDec_eq aes encDec mem inp' iv aad out len aadLen ht ctr leftDat s context
    refine Prod.ext (window_congr fun k _ hk => ?_) htag
    rw [Nat.zero_add] at hk
    exact (hout k).trans (if_pos hk)
  have hctr : ∀ inp', gctr aes (inc32 (counter0 iv')) (text inp') =
      text (gctrAt aes (inc32 (counter0 iv')) inp') := fun inp' => gctr_window inp' len.toNat
  have hr : r = (text (gctrAt aes (inc32 (counter0 iv')) inp),
      gcmTag aes iv' aad' (text (gctrAt aes (inc32 (counter0 iv')) inp)) t) := by
    rw [← hctr]
    rfl
  refine ⟨?_, ?_, fun inp' hinp' => ?_, fun encDec inp' k hk => ?_⟩
  · rw [hrun, hr]
    rfl
  · rw [hrun, hctr]
    rfl
  · rw [hr] at hinp' ⊢
    rw [hrun, ← hctr, EncDec.cipherText_dec, hinp', hctr, gctrAt_gctrAt]
  · exact ((aesGcmEncDec_eq aes encDec mem inp' iv aad out len aadLen ht ctr leftDat s context).1
      k).trans
      (if_neg (Nat.not_lt.mpr hk))

/-- Thirty-seven bytes with 20 bytes of additional data and a tag of 12 bytes. -/
theorem aesGcmEncDec_standard_short :
    let text : ℕ → Byte := fun k => BitVec.ofNat 8 k
    let aes := GcmSse.encryptSingleBlock 9 (aesKeyexp128 text text text).1
    let regs : HashRegs := ⟨0#128, 0#128, 0#128, 0#128, 0#128, 0#128, 0, 0⟩
    let context : GcmContextData := ⟨0#128, 0#64, 0#64, 0#128, 0#128, 0#128, 0#64⟩
    let r := aesGcmEncDec aes (aesGcmPrecomp aes text) text text .enc 37#64 text 20#64 12#64 0#128
      0#128 regs
      context text
    (window r.2.1 0 37, r.2.2) =
      gcmEncrypt aes (window text 0 12) (window text 0 20) (window text 0 37) 12 := by
  intro text aes regs context r
  exact (aesGcmEncDec_standard aes text text text text text 37#64 20#64 (t := 12)
    (.inr (.inl rfl)) 0#128
    0#128 regs context).1

end OneShot

end IsalCrypto.Aes.GcmAarch64
