import IsalCrypto.Api

/-!
# The AES-GCM entry points

`aes/aes_gcm.c`: what each `isal_aes_gcm_*` function checks before it calls the implementation
`_aes_gcm_*`. The implementations are taken as any functions on memory.

* `runGcm_gated_iff`: in a FIPS build whose self tests fail, every call of a run is refused and
  leaves memory alone exactly when no call is an `isal_aes_gcm_dec_256_update` that passes its
  parameter checks: that function alone does not ask for the self tests.
-/

namespace IsalCrypto.Aes

/-- `uint8_t *` and the other pointers, as addresses. -/
abbrev Ptr := BitVec 64

/-- `NULL`. -/
abbrev null : Ptr := 0#64

/-- Everything the functions can read and write: key data, contexts, buffers and tags. -/
abbrev Memory := Ptr → Byte

/-- `ISAL_GCM_MAX_LEN`. -/
def gcmMaxLen : ℕ := 2 ^ 39 - 256 - 1

/-- `ISAL_GCM_MAX_TAG_LEN`. -/
def gcmMaxTagLen : ℕ := 16

/-- The parameters of a one-shot function. -/
structure OneShotArgs where
  keyData : Ptr
  contextData : Ptr
  out : Ptr
  input : Ptr
  len : BitVec 64
  iv : Ptr
  aad : Ptr
  aadLen : BitVec 64
  authTag : Ptr
  authTagLen : BitVec 64

/-- The parameters of an init function. -/
structure InitArgs where
  keyData : Ptr
  contextData : Ptr
  iv : Ptr
  aad : Ptr
  aadLen : BitVec 64

/-- The parameters of an update function. -/
structure UpdateArgs where
  keyData : Ptr
  contextData : Ptr
  out : Ptr
  input : Ptr
  len : BitVec 64

/-- The parameters of a finalize function. -/
structure FinalizeArgs where
  keyData : Ptr
  contextData : Ptr
  authTag : Ptr
  authTagLen : BitVec 64

/-- The parameters of a key expansion. -/
structure PreArgs where
  key : Ptr
  keyData : Ptr

/-! ## The parameter checks under `SAFE_PARAM` -/

/-- `auth_tag_len != ISAL_GCM_MAX_TAG_LEN && auth_tag_len != 12 && auth_tag_len != 8`. -/
def badTagLen (n : BitVec 64) : Bool := n.toNat ≠ gcmMaxTagLen && n.toNat ≠ 12 && n.toNat ≠ 8

def OneShotArgs.check (a : OneShotArgs) : IsalCryptoError :=
  if a.keyData = null then .errNullExpKey
  else if a.contextData = null then .errNullCtx
  else if a.out = null ∧ a.len ≠ 0#64 then .errNullDst
  else if a.input = null ∧ a.len ≠ 0#64 then .errNullSrc
  else if a.len.toNat > gcmMaxLen then .errCiphLen
  else if a.iv = null then .errNullIv
  else if a.aad = null ∧ a.aadLen.toNat > 0 then .errNullAad
  else if a.authTag = null then .errNullAuth
  else if badTagLen a.authTagLen then .errAuthTagLen
  else .errNone

def InitArgs.check (a : InitArgs) : IsalCryptoError :=
  if a.keyData = null then .errNullExpKey
  else if a.contextData = null then .errNullCtx
  else if a.iv = null then .errNullIv
  else if a.aad = null ∧ a.aadLen.toNat > 0 then .errNullAad
  else .errNone

def UpdateArgs.check (a : UpdateArgs) : IsalCryptoError :=
  if a.keyData = null then .errNullExpKey
  else if a.contextData = null then .errNullCtx
  else if a.input = null ∧ a.len.toNat > 0 then .errNullSrc
  else if a.out = null ∧ a.len.toNat > 0 then .errNullDst
  else if a.len.toNat > gcmMaxLen then .errCiphLen
  else .errNone

def FinalizeArgs.check (a : FinalizeArgs) : IsalCryptoError :=
  if a.keyData = null then .errNullExpKey
  else if a.contextData = null then .errNullCtx
  else if a.authTag = null then .errNullAuth
  else if badTagLen a.authTagLen then .errAuthTagLen
  else .errNone

def PreArgs.check (a : PreArgs) : IsalCryptoError :=
  if a.key = null then .errNullKey
  else if a.keyData = null then .errNullExpKey
  else .errNone

/-! ## The entry points -/

/-- A call: the function and its parameters. -/
inductive GcmCall
  | enc128 (a : OneShotArgs)
  | enc256 (a : OneShotArgs)
  | dec128 (a : OneShotArgs)
  | dec256 (a : OneShotArgs)
  | enc128Nt (a : OneShotArgs)
  | enc256Nt (a : OneShotArgs)
  | dec128Nt (a : OneShotArgs)
  | dec256Nt (a : OneShotArgs)
  | init128 (a : InitArgs)
  | init256 (a : InitArgs)
  | enc128Update (a : UpdateArgs)
  | enc256Update (a : UpdateArgs)
  | dec128Update (a : UpdateArgs)
  | dec256Update (a : UpdateArgs)
  | enc128UpdateNt (a : UpdateArgs)
  | enc256UpdateNt (a : UpdateArgs)
  | dec128UpdateNt (a : UpdateArgs)
  | dec256UpdateNt (a : UpdateArgs)
  | enc128Finalize (a : FinalizeArgs)
  | enc256Finalize (a : FinalizeArgs)
  | dec128Finalize (a : FinalizeArgs)
  | dec256Finalize (a : FinalizeArgs)
  | pre128 (a : PreArgs)
  | pre256 (a : PreArgs)

/-- The `_aes_gcm_*` functions: what the one under the entry point of a call does to memory. -/
abbrev AesGcm := GcmCall → Memory → Memory

/-- The body of an entry point: the parameter checks, the self-test gate and the call. -/
def gated (b : Build) (selfTests check : IsalCryptoError) (body : Memory → Memory) (mem : Memory) :
    IsalCryptoError × Memory :=
  if b.safeParam = true ∧ check ≠ .errNone then (check, mem)
  else if b.fipsMode = true ∧ selfTests ≠ .errNone then (.errSelfTest, mem)
  else (.errNone, body mem)

/-- The body of an entry point that lacks the self-test gate. -/
def ungated (b : Build) (check : IsalCryptoError) (body : Memory → Memory) (mem : Memory) :
    IsalCryptoError × Memory :=
  if b.safeParam = true ∧ check ≠ .errNone then (check, mem) else (.errNone, body mem)

section EntryPoints

variable (b : Build) (g : AesGcm) (selfTests : IsalCryptoError)

/-- `isal_aes_gcm_enc_128`. -/
def isalAesGcmEnc128 (a : OneShotArgs) : Memory → IsalCryptoError × Memory :=
  gated b selfTests a.check (g (.enc128 a))

/-- `isal_aes_gcm_enc_256`. -/
def isalAesGcmEnc256 (a : OneShotArgs) : Memory → IsalCryptoError × Memory :=
  gated b selfTests a.check (g (.enc256 a))

/-- `isal_aes_gcm_dec_128`. -/
def isalAesGcmDec128 (a : OneShotArgs) : Memory → IsalCryptoError × Memory :=
  gated b selfTests a.check (g (.dec128 a))

/-- `isal_aes_gcm_dec_256`. -/
def isalAesGcmDec256 (a : OneShotArgs) : Memory → IsalCryptoError × Memory :=
  gated b selfTests a.check (g (.dec256 a))

/-- `isal_aes_gcm_enc_128_nt`. -/
def isalAesGcmEnc128Nt (a : OneShotArgs) : Memory → IsalCryptoError × Memory :=
  gated b selfTests a.check (g (.enc128Nt a))

/-- `isal_aes_gcm_enc_256_nt`. -/
def isalAesGcmEnc256Nt (a : OneShotArgs) : Memory → IsalCryptoError × Memory :=
  gated b selfTests a.check (g (.enc256Nt a))

/-- `isal_aes_gcm_dec_128_nt`. -/
def isalAesGcmDec128Nt (a : OneShotArgs) : Memory → IsalCryptoError × Memory :=
  gated b selfTests a.check (g (.dec128Nt a))

/-- `isal_aes_gcm_dec_256_nt`. -/
def isalAesGcmDec256Nt (a : OneShotArgs) : Memory → IsalCryptoError × Memory :=
  gated b selfTests a.check (g (.dec256Nt a))

/-- `isal_aes_gcm_init_128`. -/
def isalAesGcmInit128 (a : InitArgs) : Memory → IsalCryptoError × Memory :=
  gated b selfTests a.check (g (.init128 a))

/-- `isal_aes_gcm_init_256`. -/
def isalAesGcmInit256 (a : InitArgs) : Memory → IsalCryptoError × Memory :=
  gated b selfTests a.check (g (.init256 a))

/-- `isal_aes_gcm_enc_128_update`. -/
def isalAesGcmEnc128Update (a : UpdateArgs) : Memory → IsalCryptoError × Memory :=
  gated b selfTests a.check (g (.enc128Update a))

/-- `isal_aes_gcm_enc_256_update`. -/
def isalAesGcmEnc256Update (a : UpdateArgs) : Memory → IsalCryptoError × Memory :=
  gated b selfTests a.check (g (.enc256Update a))

/-- `isal_aes_gcm_dec_128_update`. -/
def isalAesGcmDec128Update (a : UpdateArgs) : Memory → IsalCryptoError × Memory :=
  gated b selfTests a.check (g (.dec128Update a))

/-- `isal_aes_gcm_dec_256_update`, which has no `FIPS_MODE` section. -/
def isalAesGcmDec256Update (a : UpdateArgs) : Memory → IsalCryptoError × Memory :=
  ungated b a.check (g (.dec256Update a))

/-- `isal_aes_gcm_enc_128_update_nt`. -/
def isalAesGcmEnc128UpdateNt (a : UpdateArgs) : Memory → IsalCryptoError × Memory :=
  gated b selfTests a.check (g (.enc128UpdateNt a))

/-- `isal_aes_gcm_enc_256_update_nt`. -/
def isalAesGcmEnc256UpdateNt (a : UpdateArgs) : Memory → IsalCryptoError × Memory :=
  gated b selfTests a.check (g (.enc256UpdateNt a))

/-- `isal_aes_gcm_dec_128_update_nt`. -/
def isalAesGcmDec128UpdateNt (a : UpdateArgs) : Memory → IsalCryptoError × Memory :=
  gated b selfTests a.check (g (.dec128UpdateNt a))

/-- `isal_aes_gcm_dec_256_update_nt`. -/
def isalAesGcmDec256UpdateNt (a : UpdateArgs) : Memory → IsalCryptoError × Memory :=
  gated b selfTests a.check (g (.dec256UpdateNt a))

/-- `isal_aes_gcm_enc_128_finalize`. -/
def isalAesGcmEnc128Finalize (a : FinalizeArgs) : Memory → IsalCryptoError × Memory :=
  gated b selfTests a.check (g (.enc128Finalize a))

/-- `isal_aes_gcm_enc_256_finalize`. -/
def isalAesGcmEnc256Finalize (a : FinalizeArgs) : Memory → IsalCryptoError × Memory :=
  gated b selfTests a.check (g (.enc256Finalize a))

/-- `isal_aes_gcm_dec_128_finalize`. -/
def isalAesGcmDec128Finalize (a : FinalizeArgs) : Memory → IsalCryptoError × Memory :=
  gated b selfTests a.check (g (.dec128Finalize a))

/-- `isal_aes_gcm_dec_256_finalize`. -/
def isalAesGcmDec256Finalize (a : FinalizeArgs) : Memory → IsalCryptoError × Memory :=
  gated b selfTests a.check (g (.dec256Finalize a))

/-- `isal_aes_gcm_pre_128`. -/
def isalAesGcmPre128 (a : PreArgs) : Memory → IsalCryptoError × Memory :=
  gated b selfTests a.check (g (.pre128 a))

/-- `isal_aes_gcm_pre_256`. -/
def isalAesGcmPre256 (a : PreArgs) : Memory → IsalCryptoError × Memory :=
  gated b selfTests a.check (g (.pre256 a))

end EntryPoints

/-- The call, when `isal_self_tests` returns `selfTests` if asked. -/
def GcmCall.exec (b : Build) (g : AesGcm) (selfTests : IsalCryptoError) :
    GcmCall → Memory → IsalCryptoError × Memory
  | .enc128 a => isalAesGcmEnc128 b g selfTests a
  | .enc256 a => isalAesGcmEnc256 b g selfTests a
  | .dec128 a => isalAesGcmDec128 b g selfTests a
  | .dec256 a => isalAesGcmDec256 b g selfTests a
  | .enc128Nt a => isalAesGcmEnc128Nt b g selfTests a
  | .enc256Nt a => isalAesGcmEnc256Nt b g selfTests a
  | .dec128Nt a => isalAesGcmDec128Nt b g selfTests a
  | .dec256Nt a => isalAesGcmDec256Nt b g selfTests a
  | .init128 a => isalAesGcmInit128 b g selfTests a
  | .init256 a => isalAesGcmInit256 b g selfTests a
  | .enc128Update a => isalAesGcmEnc128Update b g selfTests a
  | .enc256Update a => isalAesGcmEnc256Update b g selfTests a
  | .dec128Update a => isalAesGcmDec128Update b g selfTests a
  | .dec256Update a => isalAesGcmDec256Update b g a
  | .enc128UpdateNt a => isalAesGcmEnc128UpdateNt b g selfTests a
  | .enc256UpdateNt a => isalAesGcmEnc256UpdateNt b g selfTests a
  | .dec128UpdateNt a => isalAesGcmDec128UpdateNt b g selfTests a
  | .dec256UpdateNt a => isalAesGcmDec256UpdateNt b g selfTests a
  | .enc128Finalize a => isalAesGcmEnc128Finalize b g selfTests a
  | .enc256Finalize a => isalAesGcmEnc256Finalize b g selfTests a
  | .dec128Finalize a => isalAesGcmDec128Finalize b g selfTests a
  | .dec256Finalize a => isalAesGcmDec256Finalize b g selfTests a
  | .pre128 a => isalAesGcmPre128 b g selfTests a
  | .pre256 a => isalAesGcmPre256 b g selfTests a

/-- A run of calls, each with what `isal_self_tests` returns during it: what each call returned and
the memory it left. -/
def runGcm (b : Build) (g : AesGcm) : Memory → List (GcmCall × IsalCryptoError) →
    List (IsalCryptoError × Memory)
  | _, [] => []
  | mem, (c, selfTests) :: cs =>
    let r := c.exec b g selfTests mem
    r :: runGcm b g r.2 cs

/-! ## The gate -/

/-- A call that is refused: a non-zero code, and nothing written. -/
def Refused (mem : Memory) (r : IsalCryptoError × Memory) : Prop := r.1.code ≠ 0 ∧ r.2 = mem

/-- The call is an `isal_aes_gcm_dec_256_update` that passes its parameter checks. -/
def GcmCall.SkipsGate (b : Build) (c : GcmCall) : Prop :=
  ∃ a, c = .dec256Update a ∧ ¬ (b.safeParam = true ∧ a.check ≠ .errNone)

theorem gated_refused {b : Build} {selfTests : IsalCryptoError} (hfips : b.fipsMode = true)
    (hfail : selfTests ≠ .errNone) (check : IsalCryptoError) (body : Memory → Memory)
    (mem : Memory) : Refused mem (gated b selfTests check body mem) := by
  unfold gated
  split
  · next h => exact ⟨fun hz => h.2 (IsalCryptoError.code_eq_zero.mp hz), rfl⟩
  · rw [if_pos ⟨hfips, hfail⟩]
    exact ⟨by simp, rfl⟩

theorem ungated_refused_iff (b : Build) (check : IsalCryptoError) (body : Memory → Memory)
    (mem : Memory) :
    Refused mem (ungated b check body mem) ↔ (b.safeParam = true ∧ check ≠ .errNone) := by
  unfold ungated
  constructor
  · intro h
    split at h
    · next hbad => exact hbad
    · exact absurd rfl h.1
  · intro h
    rw [if_pos h]
    exact ⟨fun hz => h.2 (IsalCryptoError.code_eq_zero.mp hz), rfl⟩

/-- With failing self tests a call is refused exactly when it does not skip the gate. -/
theorem GcmCall.exec_refused_iff {b : Build} {selfTests : IsalCryptoError}
    (hfips : b.fipsMode = true) (hfail : selfTests ≠ .errNone) (g : AesGcm) (c : GcmCall)
    (mem : Memory) : Refused mem (c.exec b g selfTests mem) ↔ ¬ c.SkipsGate b := by
  have hgated : ∀ (check : IsalCryptoError) (body : Memory → Memory),
      (∀ a, c ≠ .dec256Update a) → (Refused mem (gated b selfTests check body mem) ↔
        ¬ c.SkipsGate b) := by
    intro check body hne
    refine iff_of_true (gated_refused hfips hfail check body mem) ?_
    rintro ⟨a, rfl, -⟩
    exact hne a rfl
  cases c with
  | dec256Update a =>
    refine (ungated_refused_iff b a.check (g (.dec256Update a)) mem).trans ⟨?_, ?_⟩
    · rintro h ⟨a', ha, hpass⟩
      cases ha
      exact hpass h
    · intro h
      by_contra hpass
      exact h ⟨a, rfl, hpass⟩
  | _ => exact hgated _ _ fun _ h => by cases h

/-- In a FIPS build whose self tests fail, every call of a run returns a non-zero code and leaves
memory as the run found it, exactly when no call skips the gate. -/
theorem runGcm_gated_iff (b : Build) (hfips : b.fipsMode = true) (g : AesGcm) (mem : Memory)
    (calls : List (GcmCall × IsalCryptoError)) (hfail : ∀ c ∈ calls, c.2 ≠ .errNone) :
    (∀ r ∈ runGcm b g mem calls, Refused mem r) ↔ ∀ c ∈ calls, ¬ c.1.SkipsGate b := by
  induction calls with
  | nil => exact iff_of_true (fun _ h => by cases h) fun _ h => by cases h
  | cons c cs ih =>
    obtain ⟨call, selfTests⟩ := c
    have hone := GcmCall.exec_refused_iff hfips (hfail _ List.mem_cons_self) g call mem
    have ih := ih fun c hc => hfail c (List.mem_cons_of_mem _ hc)
    rw [runGcm, List.forall_mem_cons, List.forall_mem_cons, hone]
    refine and_congr_right fun hgate => ?_
    -- a refused call hands the memory on unchanged
    rw [(hone.mpr hgate).2]
    exact ih

/-- Memory of zeros. -/
def zeroMemory : Memory := fun _ => 0#8

/-- Implementations that write one byte at address 32. -/
def writeOne : AesGcm := fun _ mem => Function.update mem 32#64 1#8

/-- A key expansion and an init with failing self tests. -/
theorem runGcm_gated_iff_pre_init :
    (∀ r ∈ runGcm ⟨true, true⟩ writeOne zeroMemory
        [(.pre128 ⟨8#64, 16#64⟩, .errSelfTest),
          (.init128 ⟨16#64, 24#64, 32#64, null, 0#64⟩, .errSelfTest)], Refused zeroMemory r) ↔
      ∀ c ∈ [((.pre128 ⟨8#64, 16#64⟩ : GcmCall), IsalCryptoError.errSelfTest),
          (.init128 ⟨16#64, 24#64, 32#64, null, 0#64⟩, .errSelfTest)],
        ¬ c.1.SkipsGate ⟨true, true⟩ :=
  runGcm_gated_iff ⟨true, true⟩ rfl writeOne zeroMemory _ (by simp)

/-- With failing self tests `isal_aes_gcm_dec_256_update` returns `0` and writes its output. -/
theorem dec256Update_ungated :
    let r := isalAesGcmDec256Update ⟨true, true⟩ writeOne ⟨16#64, 24#64, 32#64, 40#64, 1#64⟩
      zeroMemory
    r.1.code = 0 ∧ r.2 32#64 ≠ zeroMemory 32#64 ∧
      ∃ c ∈ runGcm ⟨true, true⟩ writeOne zeroMemory
        [(.dec256Update ⟨16#64, 24#64, 32#64, 40#64, 1#64⟩, .errSelfTest)],
        ¬ Refused zeroMemory c := by
  refine ⟨by decide, by decide, _, List.mem_cons_self, fun h => h.1 (by decide)⟩

end IsalCrypto.Aes
