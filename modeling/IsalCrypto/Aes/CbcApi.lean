import IsalCrypto.Aes.CbcDecSse
import IsalCrypto.Aes.KeyexpAarch64
import IsalCrypto.Aes.XtsApi

/-!
# The CBC API on x86

`aes/aes_cbc.c` and `aes/aes_keyexp.c`: the checks of `isal_aes_cbc_enc_128` and the five functions
like it over the functions for SSE, with the arrays that `isal_aes_keyexp_128` and its siblings
fill.

* `isalAesCbc_standard`: encryption and decryption are those of NIST SP 800-38A with the AES of FIPS
  197, and decryption gives the plaintext back, in place or not.
* `isalAesCbc_zero`: what the checks let through with the length 0.
* `aesKeyexp_schedules`: the arrays on both architectures.
-/

namespace IsalCrypto.Aes

open IsalCrypto.Lib IsalCrypto.Lib.Aes
open IsalCrypto.Aes.GcmSse (encryptSingleBlock)
open IsalCrypto.Aes.KeyexpAarch64 (aesKeyexp128Aes aesKeyexp192Aes aesKeyexp256Aes)

/-! ## The functions -/

/-- The sizes of keys. -/
inductive KeySize
  | bits128
  | bits192
  | bits256
deriving DecidableEq, Repr

/-- The words of a key. -/
def KeySize.words : KeySize → ℕ
  | .bits128 => 4
  | .bits192 => 6
  | .bits256 => 8

/-- `isal_aes_keyexp_192`. -/
def isalAesKeyexp192 := isalAesKeyexp aesKeyexp192

/-- `isal_aes_keyexp_128`, `isal_aes_keyexp_192` and `isal_aes_keyexp_256`. -/
def KeySize.isalAesKeyexp : KeySize → Build → IsalCryptoError → Option (ℕ → Byte) →
    Option (ℕ → Byte) → Option (ℕ → Byte) → IsalCryptoError × Option ((ℕ → Byte) × (ℕ → Byte))
  | .bits128 => isalAesKeyexp128
  | .bits192 => isalAesKeyexp192
  | .bits256 => isalAesKeyexp256

/-- The parameters of every CBC function; `none` is a null pointer. -/
structure CbcArgs where
  input : Option ℕ
  iv : Option (BitVec 128)
  keys : Option (ℕ → Byte)
  out : Option ℕ
  lenBytes : BitVec 64

/-- The parameter checks under `SAFE_PARAM`. -/
def CbcArgs.check (a : CbcArgs) : IsalCryptoError :=
  if a.keys.isNone then .errNullExpKey
  else if a.input.isNone then .errNullSrc
  else if a.out.isNone then .errNullDst
  else if a.iv.isNone then .errNullIv
  else if a.lenBytes &&& 0xf#64 ≠ 0#64 then .errCiphLen
  else .errNone

/-- The functions over the assembly: keys, input, output, IV, length, fuel and memory. -/
abbrev CbcCrypt := (ℕ → Byte) → ℕ → ℕ → BitVec 128 → BitVec 64 → ℕ → (ℕ → Byte) → Option (ℕ → Byte)

/-- The body of every CBC function: the code and the memory, or nothing where a null pointer is
followed or the fuel does not last. -/
def isalAesCbc (crypt : CbcCrypt) (b : Build) (selfTests : IsalCryptoError) (a : CbcArgs) (fuel : ℕ)
    (mem : ℕ → Byte) : Option (IsalCryptoError × (ℕ → Byte)) :=
  if b.safeParam = true ∧ a.check ≠ .errNone then some (a.check, mem)
  else if b.fipsMode = true ∧ selfTests ≠ .errNone then some (.errSelfTest, mem)
  else do
    let mem ← crypt (← a.keys) (← a.input) (← a.out) (← a.iv) a.lenBytes fuel mem
    return (.errNone, mem)

/-- `isal_aes_cbc_enc_128`. -/
def isalAesCbcEnc128 := isalAesCbc aesCbcEnc128

/-- `isal_aes_cbc_enc_192`. -/
def isalAesCbcEnc192 := isalAesCbc aesCbcEnc192

/-- `isal_aes_cbc_enc_256`. -/
def isalAesCbcEnc256 := isalAesCbc aesCbcEnc256

/-- `isal_aes_cbc_dec_128`. -/
def isalAesCbcDec128 := isalAesCbc aesCbcDec128

/-- `isal_aes_cbc_dec_192`. -/
def isalAesCbcDec192 := isalAesCbc aesCbcDec192

/-- `isal_aes_cbc_dec_256`. -/
def isalAesCbcDec256 := isalAesCbc aesCbcDec256

/-- The function for encryption with keys of a size. -/
def KeySize.isalAesCbcEnc : KeySize → Build → IsalCryptoError → CbcArgs → ℕ → (ℕ → Byte) →
    Option (IsalCryptoError × (ℕ → Byte))
  | .bits128 => isalAesCbcEnc128
  | .bits192 => isalAesCbcEnc192
  | .bits256 => isalAesCbcEnc256

/-- And for decryption. -/
def KeySize.isalAesCbcDec : KeySize → Build → IsalCryptoError → CbcArgs → ℕ → (ℕ → Byte) →
    Option (IsalCryptoError × (ℕ → Byte))
  | .bits128 => isalAesCbcDec128
  | .bits192 => isalAesCbcDec192
  | .bits256 => isalAesCbcDec256

/-! ## The arrays of a key -/

section Keys

variable {size : KeySize} {b : Build} {selfTests : IsalCryptoError} {enc dec : ℕ → Byte}

/-- The two arrays make the rounds AES and its inverse, on x86 and on AArch64. -/
structure IsSchedule (size : KeySize) (key enc dec : ℕ → Byte) : Prop where
  encryptSingleBlock : ∀ v,
    encryptSingleBlock (size.words + 5) enc v = (aes size.words).enc (keyOf key) v
  decryptSingleBlock : ∀ v,
    decryptSingleBlock (size.words + 5) dec v = (aes size.words).dec (keyOf key) v
  aesEncryptRounds : ∀ v, aesEncryptRounds (size.words + 6) (fun q => ldQ enc (16 * q)) v =
    (aes size.words).enc (keyOf key) v
  aesDecryptRounds : ∀ v, aesDecryptRounds (size.words + 6) (fun q => ldQ dec (16 * q)) v =
    (aes size.words).dec (keyOf key) v

theorem Exported.isSchedule {key : ℕ → Byte}
    (h : Exported (size.words + 6) size.words (keyOf key) (size.words + 7) enc dec) :
    IsSchedule size key enc dec where
  encryptSingleBlock := h.enc
  decryptSingleBlock := h.dec
  aesEncryptRounds v := by
    rw [aesEncryptRounds_eq]
    exact cipher_congr (Nat.succ_pos _) (fun q hq => h.ldQ_encKeys hq) v
  aesDecryptRounds v := by
    rw [aesDecryptRounds_eq, eqInvCipher_congr (Nat.succ_pos _) (fun q hq => h.ldQ_decKeys hq) v]
    exact eqInvCipher_eq (Nat.succ_pos _) _ v

/-- The assembly that fills the arrays, on x86. -/
def KeySize.keyexpSse : KeySize → (ℕ → Byte) → (ℕ → Byte) → (ℕ → Byte) → (ℕ → Byte) × (ℕ → Byte)
  | .bits128 => aesKeyexp128
  | .bits192 => aesKeyexp192
  | .bits256 => aesKeyexp256

/-- And on AArch64. -/
def KeySize.keyexpAes : KeySize → (ℕ → Byte) → (ℕ → Byte) → (ℕ → Byte) → (ℕ → Byte) × (ℕ → Byte)
  | .bits128 => aesKeyexp128Aes
  | .bits192 => aesKeyexp192Aes
  | .bits256 => aesKeyexp256Aes

theorem KeySize.keyexpSse_exported (size : KeySize) (key m m' : ℕ → Byte) :
    Exported (size.words + 6) size.words (keyOf key) (size.words + 7) (size.keyexpSse key m m').1
      (size.keyexpSse key m m').2 := by
  cases size with
  | bits128 => exact aesKeyexp128_exported key m m'
  | bits192 => exact aesKeyexp192_exported key m m'
  | bits256 => exact aesKeyexp256_exported key m m'

theorem KeySize.keyexpAes_exported (size : KeySize) (key m m' : ℕ → Byte) :
    Exported (size.words + 6) size.words (keyOf key) (size.words + 7) (size.keyexpAes key m m').1
      (size.keyexpAes key m m').2 := by
  cases size with
  | bits128 => exact KeyexpAarch64.aesKeyexp128Aes_exported key m m'
  | bits192 => exact KeyexpAarch64.aesKeyexp192Aes_exported key m m'
  | bits256 => exact KeyexpAarch64.aesKeyexp256Aes_exported key m m'

/-- For every key the functions of both architectures leave the same two arrays, whatever is there
before, and with these the rounds of both architectures are the AES of FIPS 197 and its inverse. -/
theorem aesKeyexp_schedules (size : KeySize) (key m m' n n' : ℕ → Byte) :
    let sse := size.keyexpSse key m m'
    let arm := size.keyexpAes key n n'
    IsSchedule size key sse.1 sse.2 ∧ IsSchedule size key arm.1 arm.2 ∧
      ∀ i < 16 * (size.words + 7), sse.1 i = arm.1 i ∧ sse.2 i = arm.2 i := by
  intro sse arm
  have hsse := size.keyexpSse_exported key m m'
  have harm := size.keyexpAes_exported key n n'
  refine ⟨hsse.isSchedule, harm.isSchedule, fun i hi => ⟨?_, ?_⟩⟩
  · refine eq_of_ldQ_eq ?_
    rw [hsse.ldQ_encKeys (by omega), harm.ldQ_encKeys (by omega)]
  · refine eq_of_ldQ_eq ?_
    rw [hsse.ldQ_decKeys (by omega), harm.ldQ_decKeys (by omega)]

/-- No check fails: the arrays are those of the assembly. -/
theorem isalAesKeyexp_eq (size : KeySize) (b : Build)
    (hself : b.fipsMode = true → selfTests = .errNone) (key m m' : ℕ → Byte) :
    size.isalAesKeyexp b selfTests (some key) (some m) (some m') =
      (.errNone, some (size.keyexpSse key m m')) := by
  have hself' : ¬ (b.fipsMode = true ∧ selfTests ≠ .errNone) := fun h => h.2 (hself h.1)
  have hbody : ∀ keyexp : (ℕ → Byte) → (ℕ → Byte) → (ℕ → Byte) → (ℕ → Byte) × (ℕ → Byte),
      isalAesKeyexp keyexp b selfTests (some key) (some m) (some m') =
        (.errNone, some (keyexp key m m')) := fun keyexp => by
    unfold isalAesKeyexp
    rw [if_neg (by simp), if_neg (by simp), if_neg hself']
    rfl
  cases size with
  | bits128 => exact hbody aesKeyexp128
  | bits192 => exact hbody aesKeyexp192
  | bits256 => exact hbody aesKeyexp256

end Keys

/-! ## Encryption and decryption -/

section Calls

variable {size : KeySize} {b : Build} {selfTests : IsalCryptoError} {crypt : CbcCrypt}
  {keys mem mem' : ℕ → Byte}
  {e d : BitVec 128 → BitVec 128} {inp out m fuel : ℕ} {iv : BitVec 128} {len : BitVec 64}

/-- No check fails. -/
theorem isalAesCbc_eq (hself : b.fipsMode = true → selfTests = .errNone) (hlen : len.toNat % 16 = 0)
    (hcrypt : crypt keys inp out iv len fuel mem = some mem') :
    isalAesCbc crypt b selfTests ⟨some inp, some iv, some keys, some out, len⟩ fuel mem =
      some (.errNone, mem') := by
  have hself' : ¬ (b.fipsMode = true ∧ selfTests ≠ .errNone) := fun h => h.2 (hself h.1)
  have hand : len &&& 0xf#64 = 0#64 := by
    refine BitVec.eq_of_toNat_eq ?_
    rw [BitVec.toNat_and]
    exact (Nat.and_two_pow_sub_one_eq_mod _ 4).trans hlen
  have hcheck : CbcArgs.check ⟨some inp, some iv, some keys, some out, len⟩ = .errNone := by
    unfold CbcArgs.check
    simp [hand]
  unfold isalAesCbc
  rw [hcheck, if_neg (by simp), if_neg hself']
  dsimp only [Option.bind_eq_bind, Option.bind_some]
  rw [hcrypt]
  rfl

theorem KeySize.isalAesCbcEnc_eq (hself : b.fipsMode = true → selfTests = .errNone)
    (hkeys : ∀ v, encryptSingleBlock (size.words + 5) keys v = e v) (hbuf : Ahead inp out m)
    (hm : 0 < m) (hlen : len.toNat = 16 * m) (hfuel : m ≤ fuel) :
    size.isalAesCbcEnc b selfTests ⟨some inp, some iv, some keys, some out, len⟩ fuel mem =
      some (.errNone, written mem out (cbcEncrypt e iv (inputBlock mem inp)) m) := by
  have hcbc : ∀ e', e' = e → cbcEnc e' inp out iv len fuel mem =
      some (written mem out (cbcEncrypt e iv (inputBlock mem inp)) m) := fun e' he => by
    rw [he]
    exact cbcEnc_eq e iv mem hbuf hm hlen hfuel
  have hmod : len.toNat % 16 = 0 := by omega
  cases size with
  | bits128 => exact isalAesCbc_eq hself hmod (hcbc _ (funext hkeys))
  | bits192 => exact isalAesCbc_eq hself hmod (hcbc _ (funext hkeys))
  | bits256 => exact isalAesCbc_eq hself hmod (hcbc _ (funext hkeys))

theorem KeySize.isalAesCbcDec_eq (hself : b.fipsMode = true → selfTests = .errNone)
    (hkeys : ∀ v, decryptSingleBlock (size.words + 5) keys v = d v) (hbuf : Ahead inp out m)
    (hlen : len.toNat % 16 = 0) (hm : m = max 1 (len.toNat / 16)) (hfuel : m ≤ fuel) :
    size.isalAesCbcDec b selfTests ⟨some inp, some iv, some keys, some out, len⟩ fuel mem =
      some (.errNone, written mem out (cbcDecrypt d iv (inputBlock mem inp)) m) := by
  have hcbc : ∀ d', d' = d → cbcDec d' inp out iv len fuel mem =
      some (written mem out (cbcDecrypt d iv (inputBlock mem inp)) m) := fun d' hd => by
    rw [hd]
    exact cbcDec_eq d iv mem hbuf hm hfuel
  cases size with
  | bits128 => exact isalAesCbc_eq hself hlen (hcbc _ (funext hkeys))
  | bits192 => exact isalAesCbc_eq hself hlen (hcbc _ (funext hkeys))
  | bits256 => exact isalAesCbc_eq hself hlen (hcbc _ (funext hkeys))

/-- What a call that ends writes: the blocks of a function of the input's blocks, and nothing
else. -/
structure Wrote (mem : ℕ → Byte) (inp out m : ℕ) (f : (ℕ → BitVec 128) → ℕ → BitVec 128)
    (r : Option (IsalCryptoError × (ℕ → Byte))) (mem' : ℕ → Byte) : Prop where
  ended : r = some (.errNone, mem')
  output : window mem' out (16 * m) = blocksOf (f (block (window mem inp (16 * m)))) m
  frame : ∀ a, ¬ (out ≤ a ∧ a < out + 16 * m) → mem' a = mem a

theorem wrote_written {f : (ℕ → BitVec 128) → ℕ → BitVec 128}
    {r : Option (IsalCryptoError × (ℕ → Byte))} (hf : ∀ c c' : ℕ → BitVec 128, ∀ q < m,
      (∀ i < m, c i = c' i) → f c q = f c' q)
    (hr : r = some (.errNone, written mem out (f (inputBlock mem inp)) m)) :
    Wrote mem inp out m f r (written mem out (f (inputBlock mem inp)) m) where
  ended := hr
  output := (window_written ..).trans <| blocksOf_congr fun q hq =>
    hf _ _ q hq fun _ hi => (block_window_eq hi).symm
  frame := fun _ ha => written_of_not ha

end Calls

/-- Encryption and decryption are CBC with AES for every key, every IV and every text of one block
at least, in place or into another buffer, and nothing else is written; decryption gives the
plaintext back. -/
theorem isalAesCbc_standard (size : KeySize) (b : Build) (selfTests : IsalCryptoError)
    (hself : b.fipsMode = true → selfTests = .errNone) (key m m' : ℕ → Byte) (iv : BitVec 128)
    (n : ℕ) (len : BitVec 64) (hn : 0 < n) (hlen : len.toNat = 16 * n) (fuel : ℕ)
    (hfuel : n ≤ fuel) :
    ∃ encKeys decKeys, size.isalAesKeyexp b selfTests (some key) (some m) (some m') =
        (.errNone, some (encKeys, decKeys)) ∧
      let encrypt := fun mem inp out =>
        size.isalAesCbcEnc b selfTests ⟨some inp, some iv, some encKeys, some out, len⟩ fuel mem
      let decrypt := fun mem inp out =>
        size.isalAesCbcDec b selfTests ⟨some inp, some iv, some decKeys, some out, len⟩ fuel mem
      (∀ mem inp out, Ahead inp out n → ∃ mem', Wrote mem inp out n
        (cbcEncrypt ((aes size.words).enc (keyOf key)) iv) (encrypt mem inp out) mem') ∧
      (∀ mem inp out, Ahead inp out n → ∃ mem', Wrote mem inp out n
        (cbcDecrypt ((aes size.words).dec (keyOf key)) iv) (decrypt mem inp out) mem') ∧
      ∀ mem inp out back, Ahead inp out n → Ahead out back n → ∃ mem₁ mem₂,
        encrypt mem inp out = some (.errNone, mem₁) ∧
          decrypt mem₁ out back = some (.errNone, mem₂) ∧
          window mem₂ back (16 * n) = window mem inp (16 * n) := by
  refine ⟨_, _, isalAesKeyexp_eq size b hself key m m', ?_⟩
  have hschedule := (size.keyexpSse_exported key m m').isSchedule
  intro encrypt decrypt
  have henc : ∀ mem inp out, Ahead inp out n → ∃ mem', Wrote mem inp out n
      (cbcEncrypt ((aes size.words).enc (keyOf key)) iv) (encrypt mem inp out) mem' :=
    fun mem inp out hbuf => ⟨_, wrote_written
      (fun _ _ q hq h => cbcEncrypt_congr fun r hr => h r (Nat.lt_of_le_of_lt hr hq))
      (size.isalAesCbcEnc_eq hself hschedule.encryptSingleBlock hbuf hn hlen hfuel)⟩
  have hdec : ∀ mem inp out, Ahead inp out n → ∃ mem', Wrote mem inp out n
      (cbcDecrypt ((aes size.words).dec (keyOf key)) iv) (decrypt mem inp out) mem' :=
    fun mem inp out hbuf => ⟨_, wrote_written
      (fun _ _ q hq h => cbcDecrypt_congr fun r hr => h r (Nat.lt_of_le_of_lt hr hq))
      (size.isalAesCbcDec_eq hself hschedule.decryptSingleBlock hbuf (by omega) (by omega) hfuel)⟩
  refine ⟨henc, hdec, fun mem inp out back hio hob => ?_⟩
  obtain ⟨mem₁, hmem₁⟩ := henc mem inp out hio
  obtain ⟨mem₂, hmem₂⟩ := hdec mem₁ out back hob
  refine ⟨mem₁, mem₂, hmem₁.ended, hmem₂.ended, ?_⟩
  rw [hmem₂.output, hmem₁.output]
  exact blocksOf_cbcDecrypt ((aes size.words).dec_enc (keyOf key)) (length_window ..) rfl

/-- Three blocks in place. -/
theorem isalAesCbc_standard_in_place :
    let text : ℕ → Byte := fun k => BitVec.ofNat 8 k
    ∃ encKeys decKeys mem₁ mem₂,
      isalAesCbcEnc256 ⟨true, false⟩ .errNone
          ⟨some 0, some 5#128, some encKeys, some 0, 48#64⟩ 3 text = some (.errNone, mem₁) ∧
      isalAesCbcDec256 ⟨true, false⟩ .errNone
          ⟨some 0, some 5#128, some decKeys, some 0, 48#64⟩ 3 mem₁ = some (.errNone, mem₂) ∧
      window mem₂ 0 48 = window text 0 48 := by
  intro text
  obtain ⟨encKeys, decKeys, -, -, -, hback⟩ := isalAesCbc_standard .bits256 ⟨true, false⟩ .errNone
    (fun h => absurd h (by decide)) text text text 5#128 3 48#64 (by decide) rfl 3 (Nat.le_refl 3)
  obtain ⟨mem₁, mem₂, h⟩ := hback text 0 0 0 (.inl (by decide)) (.inl (by decide))
  exact ⟨encKeys, decKeys, mem₁, mem₂, h⟩

/-- The checks let the length 0 through. Encryption then goes on for `2 ^ 60` blocks, and decryption
writes one. -/
theorem isalAesCbc_zero (size : KeySize) (b : Build) (selfTests : IsalCryptoError)
    (hself : b.fipsMode = true → selfTests = .errNone) (keys mem : ℕ → Byte) (iv : BitVec 128)
    (inp out : ℕ) :
    let a : CbcArgs := ⟨some inp, some iv, some keys, some out, 0#64⟩
    a.check = .errNone ∧ (∀ fuel, 3 * fuel < 2 ^ 60 →
      size.isalAesCbcEnc b selfTests a fuel mem = none) ∧
      ∀ fuel, 0 < fuel → size.isalAesCbcDec b selfTests a fuel mem = some (.errNone,
        stQ mem out (decryptSingleBlock (size.words + 5) keys (ldQ mem inp) ^^^ iv)) := by
  intro a
  have hself' : ¬ (b.fipsMode = true ∧ selfTests ≠ .errNone) := fun h => h.2 (hself h.1)
  have hcheck : a.check = .errNone := by
    unfold CbcArgs.check
    simp [a]
  have henc : ∀ e : (ℕ → Byte) → BitVec 128 → BitVec 128, ∀ fuel, 3 * fuel < 2 ^ 60 →
      isalAesCbc (fun keys => cbcEnc (e keys)) b selfTests a fuel mem =
        none := fun e fuel hfuel => by
    unfold isalAesCbc
    rw [hcheck, if_neg (by simp), if_neg hself']
    dsimp only [a, Option.bind_eq_bind, Option.bind_some]
    rw [cbcEnc_zero _ _ _ _ _ hfuel]
    rfl
  refine ⟨hcheck, fun fuel hfuel => ?_, fun fuel hfuel => ?_⟩
  · cases size with
    | bits128 => exact henc (encryptSingleBlock 9) fuel hfuel
    | bits192 => exact henc (encryptSingleBlock 11) fuel hfuel
    | bits256 => exact henc (encryptSingleBlock 13) fuel hfuel
  · have hbuf : Ahead inp out 1 := by
      unfold Ahead
      omega
    refine (size.isalAesCbcDec_eq (m := 1) hself (fun _ => rfl) hbuf rfl rfl hfuel).trans ?_
    unfold inputBlock
    rfl

/-- Encryption in place, a thousand iterations of the loop. -/
theorem isalAesCbc_zero_thousand :
    isalAesCbcEnc128 ⟨true, true⟩ .errNone ⟨some 64, some 0#128, some fun _ => 0, some 64,
      0#64⟩ 1000
      (fun k => BitVec.ofNat 8 k) = none :=
  (isalAesCbc_zero .bits128 ⟨true, true⟩ .errNone (fun _ => rfl) (fun _ => 0)
    (fun k => BitVec.ofNat 8 k)
    0#128 64 64).2.1 1000 (by decide)

end IsalCrypto.Aes
