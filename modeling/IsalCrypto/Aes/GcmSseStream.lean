import IsalCrypto.Aes.GcmSseUpdate

/-!
# Streams of GCM calls on x86

* `gcmEncDec_counters`: the blocks that one call encrypts are the counters in order.
* `updates_cut`: however a text is cut into calls of `_aes_gcm_enc_128_update_sse` or
  `_aes_gcm_dec_128_update_sse`, output, tag and the fields of the context come out the same, and
  the text comes back from its ciphertext.
-/

namespace IsalCrypto.Aes.GcmSse

open IsalCrypto.Lib

/-! ## Counters -/

section Counters

/-- The counters of one call. -/
theorem gcmEncDec_encrypted (aes : BitVec 128 → BitVec 128) (encDec : EncDec) (inp out : ℕ → Byte)
    {len : BitVec 64} (hlen : Signed len.toNat) {ctx : GcmContextData}
    (hctx : ctx.partialBlockLength = 0#64) :
    let r := gcmEncDec (precomp aes) encDec inp len ctx out
    let n := (len.toNat + 15) / 16
    r.2.2 = (List.range n).map (fun i => byteSwap (inc32^[i + 1] ctx.currentCounter)) ∧
      r.1.currentCounter = inc32^[n] ctx.currentCounter := by
  intro r n
  have hstart : ctx.After aes (byteSwap (aes 0#128)) ctx.aadHash ctx.currentCounter
      (encDec.cipherText aes ctx.currentCounter inp) 0 := by
    refine ⟨hctx, rfl, ?_, fun hne => absurd rfl hne⟩
    rw [ghashAt_of_mod (Nat.zero_mod 16)]
    rfl
  obtain ⟨hafter, -, hencrypted, -, -, -⟩ :=
    gcmEncDec_spec encDec out (precomp_for aes) hstart rfl hlen
    fun k _ => congrArg inp (Nat.zero_add k).symm
  constructor
  · rw [hencrypted, show (0 + len.toNat + 15) / 16 - (0 + 15) / 16 = n by omega, window]
    simp only [Nat.zero_add, Nat.reduceDiv]
  · rw [hafter.currentCounter, Nat.zero_add]

/-- Two counters are the same just when their distance is a multiple of `2^32`. -/
theorem getElem?_counters {n i i' : ℕ} (x : BitVec 128) (hi : i < n) (hi' : i' < n) :
    let l := (List.range n).map fun i => byteSwap (inc32^[i + 1] x)
    l[i]? = l[i']? ↔ i % 2 ^ 32 = i' % 2 ^ 32 := by
  intro l
  rw [List.getElem?_map, List.getElem?_map, List.getElem?_range hi, List.getElem?_range hi',
    Option.map_some, Option.map_some, Option.some.injEq, byteSwap_injective.eq_iff,
    iterate_inc32_eq_iff]
  omega

/-- For the text of one call, one counter is encrypted for each block, each the next one of the one
before it, and the context keeps the last one. Two of them are the same just when their distance is
a multiple of `2^32`. -/
theorem gcmEncDec_counters (aes : BitVec 128 → BitVec 128) (encDec : EncDec) (inp out : ℕ → Byte)
    {len : BitVec 64} (hlen : Signed len.toNat) {ctx : GcmContextData}
    (hctx : ctx.partialBlockLength = 0#64) :
    let r := gcmEncDec (precomp aes) encDec inp len ctx out
    let n := (len.toNat + 15) / 16
    r.2.2 = (List.range n).map (fun i => byteSwap (inc32^[i + 1] ctx.currentCounter)) ∧
      r.1.currentCounter = inc32^[n] ctx.currentCounter ∧
      ∀ i < n, ∀ i' < n, r.2.2[i]? = r.2.2[i']? ↔ i % 2 ^ 32 = i' % 2 ^ 32 := by
  intro r n
  obtain ⟨hlist, hctr⟩ := gcmEncDec_encrypted aes encDec inp out hlen hctx
  refine ⟨hlist, hctr, fun i hi i' hi' => ?_⟩
  rw [hlist]
  exact getElem?_counters _ hi hi'

/-- Twenty-four blocks from a counter that overflows: eight at first, a batch in which the low byte
overflows, and one that adds to the top byte. -/
theorem gcmEncDec_counters_overflow :
    let zeros : ℕ → Byte := fun _ => 0#8
    let ctx : GcmContextData := ⟨0#128, 0#64, 0#64, 0#128, 0#128, 0x5fffffff0#128, 0#64⟩
    let blocks : BitVec 128 → ℕ → List (BitVec 128) := fun x n =>
      (List.range n).map fun i => byteSwap (x + BitVec.ofNat 128 i)
    (gcmEncDec (precomp zeroKeyAes) .enc zeros 384#64 ctx zeros).2.2 =
      blocks 0x5fffffff1#128 15 ++ blocks 0x500000000#128 9 := by
  intro zeros ctx blocks
  refine (@gcmEncDec_counters zeroKeyAes .enc zeros zeros 384#64 (by unfold Signed; decide) ctx
    rfl).1.trans ?_
  decide +kernel

/-- A call of `2^36 + 16` bytes, which the API lets through, encrypts the first counter twice. -/
theorem gcmEncDec_counters_again :
    let zeros : ℕ → Byte := fun _ => 0#8
    let ctx : GcmContextData := ⟨0#128, 0#64, 0#64, 0#128, 0#128, 1#128, 0#64⟩
    ¬ (gcmEncDec (precomp zeroKeyAes) .enc zeros (BitVec.ofNat 64 (2 ^ 36 + 16)) ctx
      zeros).2.2.Nodup := by
  intro zeros ctx hnodup
  have hlen : (BitVec.ofNat 64 (2 ^ 36 + 16)).toNat = 2 ^ 36 + 16 := by decide
  obtain ⟨hlist, -⟩ := @gcmEncDec_encrypted zeroKeyAes .enc zeros zeros
    (BitVec.ofNat 64 (2 ^ 36 + 16)) (by rw [hlen]; unfold Signed; decide) ctx rfl
  rw [hlist, hlen] at hnodup
  refine List.nodup_iff_getElem?_ne_getElem?.mp hnodup 0 (2 ^ 32) (by decide) ?_
    ((getElem?_counters _ (by decide) (by decide)).mpr (by decide))
  rw [List.length_map, List.length_range]
  decide

end Counters

/-! ## Streams of calls -/

/-- The arguments of one call: the input, its length and what the output buffer holds before. -/
structure UpdateCall where
  inp : ℕ → Byte
  len : BitVec 64
  out : ℕ → Byte

/-- The bytes of the input. -/
def UpdateCall.text (call : UpdateCall) : List Byte := window call.inp 0 call.len.toNat

/-- `_aes_gcm_enc_128_update_sse` and `_aes_gcm_dec_128_update_sse`, one call after the other: the
context and the bytes written. -/
def updates (key : KeyData) (encDec : EncDec) :
    List UpdateCall → GcmContextData → GcmContextData × List Byte
  | [], ctx => (ctx, [])
  | call :: calls, ctx =>
    let r := gcmEncDec key encDec call.inp call.len ctx call.out
    let rest := updates key encDec calls r.1
    (rest.1, window r.2.1 0 call.len.toNat ++ rest.2)

/-- The text of some calls. -/
def textOf (calls : List UpdateCall) : List Byte := calls.flatMap UpdateCall.text

/-- A cut: no call is longer than the code can tell. -/
def Cut (calls : List UpdateCall) : Prop := ∀ call ∈ calls, Signed call.len.toNat

section Updates

variable {key : KeyData} {h y j : BitVec 128} {m : ℕ → Byte} {encDec : EncDec} {L : ℕ}
  {calls : List UpdateCall} {ctx : GcmContextData}

theorem updates_spec (hkey : key.For h) (hcut : Cut calls)
    (hctx : ctx.After key.aes h y j (encDec.cipherText key.aes j m) L)
    (hin : ctx.inLength = BitVec.ofNat 64 L)
    (htext : textOf calls = window m L (textOf calls).length) :
    let r := updates key encDec calls ctx
    r.1.After key.aes h y j (encDec.cipherText key.aes j m) (L + (textOf calls).length) ∧
      r.1.inLength = BitVec.ofNat 64 (L + (textOf calls).length) ∧
      r.1.aadLength = ctx.aadLength ∧ r.1.origIV = ctx.origIV ∧
      r.2 = window (gctrAt key.aes (inc32 j) m) L (textOf calls).length := by
  induction calls generalizing L ctx with
  | nil => exact ⟨hctx, hin, rfl, rfl, rfl⟩
  | cons call calls ih =>
    have hlength : (textOf (call :: calls)).length = call.len.toNat + (textOf calls).length := by
      rw [textOf, List.flatMap_cons, List.length_append, UpdateCall.text, length_window, textOf]
    rw [hlength, window_add, textOf, List.flatMap_cons, UpdateCall.text] at htext
    obtain ⟨hfirst, hrest⟩ := List.append_inj htext (by rw [length_window, length_window])
    have hinp : ∀ k < call.len.toNat, call.inp k = m (L + k) := fun k hk => by
      have hbyte := congrArg (·.getD k 0#8) hfirst
      simpa only [getD_window, if_pos hk, Nat.zero_add] using hbyte
    obtain ⟨hafter, hout, -, hin', haad, hiv⟩ := gcmEncDec_spec encDec call.out hkey hctx
      rfl (hcut call List.mem_cons_self) hinp
    obtain ⟨ih1, ih2, ih3, ih4, ih5⟩ := ih (fun c hc => hcut c (List.mem_cons_of_mem _ hc)) hafter
      (by rw [hin', hin, BitVec.ofNat_add, BitVec.ofNat_toNat, BitVec.setWidth_eq]) hrest
    rw [hlength, ← Nat.add_assoc]
    refine ⟨ih1, ih2, ih3.trans haad, ih4.trans hiv, ?_⟩
    rw [updates]
    dsimp only
    rw [ih5, window_add]
    refine congrArg (· ++ _) (window_eq_window fun k hk => ?_)
    rw [Nat.zero_add, hout, if_pos hk]

/-- The fields that do not depend on what a block was padded with. -/
structure GcmContextData.Same (ctx ctx' : GcmContextData) : Prop where
  inLength : ctx.inLength = ctx'.inLength
  partialBlockLength : ctx.partialBlockLength = ctx'.partialBlockLength
  currentCounter : ctx.currentCounter = ctx'.currentCounter
  aadHash : ctx.aadHash = ctx'.aadHash

theorem GcmContextData.After.same {c : ℕ → Byte} {aes : BitVec 128 → BitVec 128}
    {ctx' : GcmContextData} (h₁ : ctx.After aes h y j c L) (h₂ : ctx'.After aes h y j c L)
    (hin : ctx.inLength = BitVec.ofNat 64 L) (hin' : ctx'.inLength = BitVec.ofNat 64 L) :
    ctx.Same ctx' where
  inLength := hin.trans hin'.symm
  partialBlockLength := h₁.partialBlockLength.trans h₂.partialBlockLength.symm
  currentCounter := h₁.currentCounter.trans h₂.currentCounter.symm
  aadHash := h₁.aadHash.trans h₂.aadHash.symm

/-- The tag depends on these fields and on what the init function leaves. -/
theorem GcmContextData.Same.gcmComplete {ctx' : GcmContextData} (h : ctx.Same ctx')
    (haad : ctx.aadLength = ctx'.aadLength) (hiv : ctx.origIV = ctx'.origIV) (t : BitVec 64) :
    (gcmComplete key ctx t).2 = (GcmSse.gcmComplete key ctx' t).2 := by
  unfold GcmSse.gcmComplete
  rw [h.partialBlockLength, h.aadHash, h.inLength, haad, hiv]

end Updates

section Cuts

variable {aes : BitVec 128 → BitVec 128} {iv aIn : ℕ → Byte} {aLen : BitVec 64} {encDec : EncDec}
  {calls calls' : List UpdateCall} {tmp tmp' : BitVec 128}

/-- What the init function and some calls lead to. -/
abbrev started (aes : BitVec 128 → BitVec 128) (encDec : EncDec) (iv aIn : ℕ → Byte)
    (aLen : BitVec 64) (tmp : BitVec 128) (calls : List UpdateCall) : GcmContextData × List Byte :=
  updates (precomp aes) encDec calls (gcmInit (precomp aes) iv aIn aLen tmp)

/-- The stream of the text tells everything. -/
theorem started_spec (aes : BitVec 128 → BitVec 128) (encDec : EncDec) (iv aIn : ℕ → Byte)
    (aLen : BitVec 64) (tmp : BitVec 128) (hcut : Cut calls) {m : ℕ → Byte}
    (htext : textOf calls = window m 0 (textOf calls).length) :
    let ctx := gcmInit (precomp aes) iv aIn aLen 0#128
    let r := started aes encDec iv aIn aLen tmp calls
    r.1.After aes (byteSwap (aes 0#128)) ctx.aadHash ctx.currentCounter
        (encDec.cipherText aes ctx.currentCounter m) (textOf calls).length ∧
      r.1.inLength = BitVec.ofNat 64 (textOf calls).length ∧ r.1.aadLength = aLen ∧
      r.1.origIV = ctx.origIV ∧
      r.2 = window (gctrAt aes (inc32 ctx.currentCounter) m) 0 (textOf calls).length := by
  intro ctx r
  have hstart : (gcmInit (precomp aes) iv aIn aLen tmp).After aes (byteSwap (aes 0#128)) ctx.aadHash
      ctx.currentCounter (encDec.cipherText aes ctx.currentCounter m) 0 := by
    refine ⟨rfl, rfl, ?_, fun hne => absurd rfl hne⟩
    rw [ghashAt_of_mod (Nat.zero_mod 16)]
    rfl
  have hspec := updates_spec (precomp_for aes) hcut hstart rfl htext
  rw [Nat.zero_add] at hspec
  exact hspec

/-- Two ways to cut one text, and a way to cut the ciphertext, give the same. -/
structure SameOutcome (aes : BitVec 128 → BitVec 128) (encDec : EncDec) (iv aIn : ℕ → Byte)
    (aLen : BitVec 64) (tmp tmp' : BitVec 128) (calls calls' : List UpdateCall) : Prop where
  output : (started aes encDec iv aIn aLen tmp calls).2 =
    (started aes encDec iv aIn aLen tmp' calls').2
  tag : ∀ t, (gcmComplete (precomp aes) (started aes encDec iv aIn aLen tmp calls).1 t).2 =
    (gcmComplete (precomp aes) (started aes encDec iv aIn aLen tmp' calls').1 t).2
  prefixes : ∀ n n', (textOf (calls.take n)).length = (textOf (calls'.take n')).length →
    (started aes encDec iv aIn aLen tmp (calls.take n)).1.Same
      (started aes encDec iv aIn aLen tmp' (calls'.take n')).1
  back : encDec = .enc → ∀ calls'' tmp'', Cut calls'' →
    textOf calls'' = (started aes .enc iv aIn aLen tmp calls).2 →
      (started aes .dec iv aIn aLen tmp'' calls'').2 = textOf calls ∧
        ∀ t, (gcmComplete (precomp aes) (started aes .dec iv aIn aLen tmp'' calls'').1 t).2 =
          (gcmComplete (precomp aes) (started aes .enc iv aIn aLen tmp calls).1 t).2

theorem textOf_take (calls : List UpdateCall) (n : ℕ) :
    ∃ rest, textOf calls = textOf (calls.take n) ++ rest :=
  ⟨textOf (calls.drop n), by rw [textOf, textOf, textOf, ← List.flatMap_append,
    List.take_append_drop]⟩

theorem Cut.take (h : Cut calls) (n : ℕ) : Cut (calls.take n) :=
  fun call hc => h call (List.mem_of_mem_take hc)

/-- Beginnings of one text of one length are the same. -/
theorem textOf_take_eq (htext : textOf calls = textOf calls') {n n' : ℕ}
    (hlen : (textOf (calls.take n)).length = (textOf (calls'.take n')).length) :
    textOf (calls.take n) = textOf (calls'.take n') := by
  obtain ⟨rest, hrest⟩ := textOf_take calls n
  obtain ⟨rest', hrest'⟩ := textOf_take calls' n'
  rw [hrest, hrest'] at htext
  exact (List.append_inj htext hlen).1

/-- For every key, IV and AAD and any two ways to cut a text into calls. -/
theorem updates_cut (aes : BitVec 128 → BitVec 128) (encDec : EncDec) (iv aIn : ℕ → Byte)
    (aLen : BitVec 64) (tmp tmp' : BitVec 128) (hcut : Cut calls) (hcut' : Cut calls')
    (htext : textOf calls = textOf calls') :
    SameOutcome aes encDec iv aIn aLen tmp tmp' calls calls' := by
  have hstream := (window_stream (textOf calls)).symm
  obtain ⟨hafter, hin, haad, hiv, hout⟩ := started_spec aes encDec iv aIn aLen tmp hcut hstream
  obtain ⟨hafter', hin', haad', hiv', hout'⟩ := started_spec aes encDec iv aIn aLen tmp' hcut'
    (htext ▸ hstream)
  rw [← htext] at hafter' hin' hout'
  constructor
  case output => rw [hout, hout']
  case tag =>
    exact (hafter.same hafter' hin hin').gcmComplete (haad.trans haad'.symm) (hiv.trans hiv'.symm)
  case prefixes =>
    intro n n' hlen
    have htake := textOf_take_eq htext hlen
    have hstream := (window_stream (textOf (calls.take n))).symm
    obtain ⟨h₁, h₂, -⟩ := started_spec aes encDec iv aIn aLen tmp (hcut.take n) hstream
    obtain ⟨h₁', h₂', -⟩ :=
      started_spec aes encDec iv aIn aLen tmp' (hcut'.take n') (htake ▸ hstream)
    rw [← htake] at h₁' h₂'
    exact h₁.same h₁' h₂ h₂'
  case back =>
    intro henc calls'' tmp'' hcut'' htext''
    subst henc
    rw [hout] at htext''
    have hlength : (textOf calls'').length = (textOf calls).length := by rw [htext'', length_window]
    obtain ⟨hafter'', hin'', haad'', hiv'', hout''⟩ :=
      started_spec aes .dec iv aIn aLen tmp'' hcut''
      (hlength.symm ▸ htext'')
    rw [EncDec.cipherText_dec, hlength] at hafter''
    rw [hlength] at hin'' hout''
    refine ⟨?_, (hafter''.same hafter hin'' hin).gcmComplete (haad''.trans haad.symm)
      (hiv''.trans hiv.symm)⟩
    rw [hout'', gctrAt_gctrAt, ← hstream]

/-- Thirty-five bytes as pieces of 5, 0 and 30 bytes, and in one piece. -/
theorem updates_cut_three_calls :
    let text : ℕ → Byte := fun k => BitVec.ofNat 8 k
    let call : ℕ → ℕ → UpdateCall := fun k n =>
      ⟨fun i => text (k + i), BitVec.ofNat 64 n, fun _ => 0#8⟩
    SameOutcome zeroKeyAes .enc text text 20#64 0#128 1#128 [call 0 5, call 5 0, call 5 30]
      [call 0 35] := by
  intro text call
  exact updates_cut zeroKeyAes .enc text text 20#64 0#128 1#128
    (by unfold Cut Signed; decide) (by unfold Cut Signed; decide) (by decide)

end Cuts

end IsalCrypto.Aes.GcmSse
