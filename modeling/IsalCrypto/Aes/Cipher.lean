import IsalCrypto.Aes.GcmSse
import IsalCrypto.Lib.AesCipher

/-!
# The AES instructions

The instructions of x86 and AArch64 and the rounds that the code makes of them, against FIPS 197.

* `encryptSingleBlock_eq`, `decryptSingleBlock_eq`: the rounds on x86 are `CIPHER` and
  `EQINVCIPHER`.
* `aesEncryptRounds_eq`, `aesDecryptRounds_eq`: so are those on AArch64, where the key is added
  first.
* `Exported.enc`, `Exported.dec`: with the two arrays that a key expansion leaves they are AES and
  its inverse.
-/

namespace IsalCrypto.Aes

open IsalCrypto.Lib IsalCrypto.Lib.Aes
open IsalCrypto.Aes.GcmSse (subShift aesenc aesenclast encryptSingleBlock)

/-! ## x86 -/

/-- `aesdec`. -/
def aesdec (v k : BitVec 128) : BitVec 128 := invMixColumns (invSubBytes (invShiftRows v)) ^^^ k

/-- `aesdeclast`. -/
def aesdeclast (v k : BitVec 128) : BitVec 128 := invSubBytes (invShiftRows v) ^^^ k

/-- `ARK`, `num_rounds` times `aesdec` and `aesdeclast`, as `DO_AES_DEC` does it with one block. -/
def decryptSingleBlock (numRounds : ℕ) (keys : ℕ → Byte) (st : BitVec 128) : BitVec 128 :=
  let st := (List.range numRounds).foldl (fun st i => aesdec st (ldQ keys (16 * (i + 1))))
    (st ^^^ ldQ keys 0)
  aesdeclast st (ldQ keys (16 * (numRounds + 1)))

/-! ## AArch64 -/

/-- `aese`. -/
def aese (v k : BitVec 128) : BitVec 128 := subBytes (shiftRows (v ^^^ k))

/-- `aesmc`. -/
def aesmc (v : BitVec 128) : BitVec 128 := mixColumns v

/-- `aesd`. -/
def aesd (v k : BitVec 128) : BitVec 128 := invSubBytes (invShiftRows (v ^^^ k))

/-- Keys 0 to `rounds - 2` with `aese` and `aesmc`, the next one with `aese`, the last one with
`eor`. -/
def aesEncryptRounds (rounds : ℕ) (keys : ℕ → BitVec 128) (v : BitVec 128) : BitVec 128 :=
  aese ((List.range (rounds - 1)).foldl (fun v i => aesmc (aese v (keys i))) v)
    (keys (rounds - 1)) ^^^ keys rounds

/-- The same with `aesd` and `aesimc`. -/
def aesDecryptRounds (rounds : ℕ) (keys : ℕ → BitVec 128) (v : BitVec 128) : BitVec 128 :=
  aesd ((List.range (rounds - 1)).foldl (fun v i => aesimc (aesd v (keys i))) v)
    (keys (rounds - 1)) ^^^ keys rounds

/-! ## Against the standard -/

section Rounds

variable {n rounds : ℕ} {keys : ℕ → Byte} {w : ℕ → BitVec 128}

theorem subShift_eq (v : BitVec 128) : subShift v = substitute v := by
  have hsub : substitute v = ofState fun r c => sbox (stateByte v r ((c + r) % 4)) :=
    by
      unfold substitute shiftRows subBytes
      exact ofState_eq fun r hr c _ => stateByte_ofState _ hr (Nat.mod_lt _ (by decide))
  rw [hsub]
  refine eq_of_column_eq fun c hc => (dword_packDwords _ hc).trans ?_
  have hfirst : (c + 0) % 4 = c := Nat.mod_eq_of_lt hc
  refine Eq.trans ?_ (column_ofColumns _ hc).symm
  unfold packBytes
  dsimp only
  rw [hfirst]
  rfl

theorem aesenc_eq (v k : BitVec 128) : aesenc v k = mixColumns (substitute v) ^^^ k := by
  unfold aesenc
  rw [subShift_eq]
  rfl

theorem aesenclast_eq (v k : BitVec 128) : aesenclast v k = substitute v ^^^ k := by
  unfold aesenclast
  rw [subShift_eq]

theorem aesdec_eq (v k : BitVec 128) : aesdec v k = invMixColumns (eqUnsubstitute v) ^^^ k := by
  rw [eqUnsubstitute_eq]
  rfl

theorem aesdeclast_eq (v k : BitVec 128) : aesdeclast v k = eqUnsubstitute v ^^^ k := by
  rw [eqUnsubstitute_eq]
  rfl

theorem aese_eq (v k : BitVec 128) : aese v k = substitute (v ^^^ k) := (shiftRows_subBytes _).symm

theorem aesd_eq (v k : BitVec 128) : aesd v k = eqUnsubstitute (v ^^^ k) :=
  (eqUnsubstitute_eq _).symm

/-- Rounds that add their key last. -/
theorem foldl_keyLast {sub mix : BitVec 128 → BitVec 128} {f : BitVec 128 → BitVec 128 → BitVec 128}
    (hf : ∀ v k, f v k = mix (sub v) ^^^ k) (w : ℕ → BitVec 128) (v : BitVec 128) (n : ℕ) :
    (List.range n).foldl (fun v i => f v (w (i + 1))) (v ^^^ w 0) = keyedRounds sub mix w v n := by
  induction n with
  | zero => rfl
  | succ n ih =>
    rw [List.range_succ, List.foldl_append, ih, List.foldl_cons, List.foldl_nil, hf, keyedRounds]

/-- Rounds that add their key first: the next key is still to be added. -/
theorem foldl_keyFirst {sub mix : BitVec 128 → BitVec 128}
    {f : BitVec 128 → BitVec 128 → BitVec 128} (hf : ∀ v k, f v k = mix (sub (v ^^^ k)))
    (w : ℕ → BitVec 128) (v : BitVec 128) (n : ℕ) :
    (List.range n).foldl (fun v i => f v (w i)) v ^^^ w n = keyedRounds sub mix w v n := by
  induction n with
  | zero => rfl
  | succ n ih =>
    rw [List.range_succ, List.foldl_append, List.foldl_cons, List.foldl_nil, hf, ih, keyedRounds]

theorem encryptSingleBlock_eq (h : ∀ q ≤ n + 1, ldQ keys (16 * q) = w q) (v : BitVec 128) :
    encryptSingleBlock n keys v = cipher (n + 1) w v := by
  have hrounds := foldl_keyLast aesenc_eq (fun q => ldQ keys (16 * q)) v n
  have hcongr : cipher (n + 1) (fun q => ldQ keys (16 * q)) v = cipher (n + 1) w v :=
    cipher_congr (Nat.succ_pos n) h v
  rw [← hcongr]
  unfold encryptSingleBlock cipher keyAlternating
  rw [aesenclast_eq, Nat.add_sub_cancel, ← hrounds]

theorem decryptSingleBlock_eq (h : ∀ q ≤ n + 1, ldQ keys (16 * q) = w q) (v : BitVec 128) :
    decryptSingleBlock n keys v = eqInvCipher (n + 1) w v := by
  have hrounds := foldl_keyLast aesdec_eq (fun q => ldQ keys (16 * q)) v n
  have hcongr : eqInvCipher (n + 1) (fun q => ldQ keys (16 * q)) v = eqInvCipher (n + 1) w v :=
    eqInvCipher_congr (Nat.succ_pos n) h v
  rw [← hcongr]
  unfold decryptSingleBlock eqInvCipher keyAlternating
  rw [aesdeclast_eq, Nat.add_sub_cancel, ← hrounds]

theorem aesEncryptRounds_eq (rounds : ℕ) (w : ℕ → BitVec 128) (v : BitVec 128) :
    aesEncryptRounds (rounds + 1) w v = cipher (rounds + 1) w v := by
  have hstep : ∀ v k, aesmc (aese v k) = mixColumns (substitute (v ^^^ k)) := fun v k => by
    rw [aese_eq]
    rfl
  have hrounds := foldl_keyFirst (f := fun v k => aesmc (aese v k)) hstep w v rounds
  unfold aesEncryptRounds cipher keyAlternating
  rw [aese_eq, Nat.add_sub_cancel, hrounds]

theorem aesDecryptRounds_eq (rounds : ℕ) (w : ℕ → BitVec 128) (v : BitVec 128) :
    aesDecryptRounds (rounds + 1) w v = eqInvCipher (rounds + 1) w v := by
  have hstep : ∀ v k, aesimc (aesd v k) = invMixColumns (eqUnsubstitute (v ^^^ k)) := fun v k => by
    rw [aesd_eq]
    rfl
  have hrounds := foldl_keyFirst (f := fun v k => aesimc (aesd v k)) hstep w v rounds
  unfold aesDecryptRounds eqInvCipher keyAlternating
  rw [aesd_eq, Nat.add_sub_cancel, hrounds]

end Rounds

/-! ## With the arrays of a key expansion -/

section Keys

variable {nk : ℕ} {key : ℕ → BitVec 32} {encKeys decKeys : ℕ → Byte}

theorem Exported.ldQ_encKeys (h : Exported rounds nk key (rounds + 1) encKeys decKeys) {q : ℕ}
    (hq : q ≤ rounds) : ldQ encKeys (16 * q) = scheduleKey nk key q :=
  (h q (Nat.lt_succ_of_le hq)).1

theorem Exported.ldQ_decKeys (h : Exported rounds nk key (rounds + 1) encKeys decKeys) {q : ℕ}
    (hq : q ≤ rounds) :
    ldQ decKeys (16 * q) = invKeys invMixColumns rounds (scheduleKey nk key) q := by
  have hdec := (h (rounds - q) (by omega)).2
  rw [Nat.sub_sub_self hq] at hdec
  rw [hdec]
  exact if_congr (by omega) rfl rfl

/-- The encryption schedule makes the rounds the block cipher. -/
theorem Exported.enc (h : Exported (nk + 6) nk key (nk + 7) encKeys decKeys) (v : BitVec 128) :
    encryptSingleBlock (nk + 5) encKeys v = (aes nk).enc key v :=
  encryptSingleBlock_eq (fun _ hq => h.ldQ_encKeys hq) v

/-- And the decryption schedule its inverse. -/
theorem Exported.dec (h : Exported (nk + 6) nk key (nk + 7) encKeys decKeys) (v : BitVec 128) :
    decryptSingleBlock (nk + 5) decKeys v = (aes nk).dec key v :=
  (decryptSingleBlock_eq (fun _ hq => h.ldQ_decKeys hq) v).trans
    (eqInvCipher_eq (Nat.succ_pos _) _ v)

end Keys

end IsalCrypto.Aes
