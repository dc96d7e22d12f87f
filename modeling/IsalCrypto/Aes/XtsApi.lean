import IsalCrypto.Aes.Gcm
import IsalCrypto.Aes.Keyexp

/-!
# The XTS entry points

`aes/aes_xts.c` and the `isal_aes_keyexp_*` functions of `aes/aes_keyexp.c`. The implementations
`_XTS_AES_*` are taken as any functions on memory.

* `exec_sameKeys_iff`: in a FIPS build a valid call is refused for equal keys exactly when the keys
  are equal, except for the `dec_*_expanded_key` functions, which accept equal keys: they compare a
  decryption schedule with an encryption schedule, and these differ for every pair of keys.
-/

namespace IsalCrypto.Aes

open IsalCrypto.Lib.Aes

/-! ## Key expansion -/

/-- The body of `isal_aes_keyexp_128` and `isal_aes_keyexp_256`: the code, and the two arrays if
they are written. `none` is a null pointer. -/
def isalAesKeyexp (keyexp : (ℕ → Byte) → (ℕ → Byte) → (ℕ → Byte) → (ℕ → Byte) × (ℕ → Byte))
    (b : Build) (selfTests : IsalCryptoError) (key encKeys decKeys : Option (ℕ → Byte)) :
    IsalCryptoError × Option ((ℕ → Byte) × (ℕ → Byte)) :=
  if b.safeParam = true ∧ key.isNone then (.errNullKey, none)
  else if b.safeParam = true ∧ (encKeys.isNone ∨ decKeys.isNone) then (.errNullExpKey, none)
  else if b.fipsMode = true ∧ selfTests ≠ .errNone then (.errSelfTest, none)
  else (.errNone, do return keyexp (← key) (← encKeys) (← decKeys))

/-- `isal_aes_keyexp_128`. -/
def isalAesKeyexp128 := isalAesKeyexp aesKeyexp128

/-- `isal_aes_keyexp_256`. -/
def isalAesKeyexp256 := isalAesKeyexp aesKeyexp256

/-! ## The functions -/

/-- `ISAL_AES_XTS_MIN_LEN`. -/
def xtsMinLen : ℕ := 16

/-- `ISAL_AES_XTS_MAX_LEN`. -/
def xtsMaxLen : ℕ := 1 <<< 24

/-- The parameters of every function. -/
structure XtsArgs where
  k2 : Ptr
  k1 : Ptr
  initialTweak : Ptr
  lenBytes : BitVec 64
  input : Ptr
  out : Ptr

/-- The parameter checks under `SAFE_PARAM`; `nullKey` is the code for a null key pointer. -/
def XtsArgs.check (a : XtsArgs) (nullKey : IsalCryptoError) : IsalCryptoError :=
  if a.k2 = null ∨ a.k1 = null then nullKey
  else if a.initialTweak = null then .errXtsNullTweak
  else if a.input = null then .errNullSrc
  else if a.out = null then .errNullDst
  else if a.lenBytes.toNat < xtsMinLen ∨ a.lenBytes.toNat > xtsMaxLen then .errCiphLen
  else .errNone

/-- A call: the function and its parameters. -/
inductive XtsCall
  | enc128 (a : XtsArgs)
  | enc128ExpandedKey (a : XtsArgs)
  | dec128 (a : XtsArgs)
  | dec128ExpandedKey (a : XtsArgs)
  | enc256 (a : XtsArgs)
  | enc256ExpandedKey (a : XtsArgs)
  | dec256 (a : XtsArgs)
  | dec256ExpandedKey (a : XtsArgs)

/-- The `_XTS_AES_*` functions: what the one under the entry point of a call does to memory. -/
abbrev XtsAes := XtsCall → Memory → Memory

/-- `memcmp(p, q, n) == 0`. -/
def memcmp (mem : Memory) (p q : Ptr) (n : ℕ) : Bool :=
  (List.range n).all fun i => mem (p + BitVec.ofNat 64 i) == mem (q + BitVec.ofNat 64 i)

/-- The body of an entry point that compares `n` bytes of the keys. -/
def comparing (b : Build) (selfTests check : IsalCryptoError) (a : XtsArgs) (n : ℕ)
    (body : Memory → Memory) (mem : Memory) : IsalCryptoError × Memory :=
  if b.safeParam = true ∧ check ≠ .errNone then (check, mem)
  else if b.fipsMode = true ∧ memcmp mem a.k1 a.k2 n = true then (.errXtsSameKeys, mem)
  else if b.fipsMode = true ∧ selfTests ≠ .errNone then (.errSelfTest, mem)
  else (.errNone, body mem)

section EntryPoints

variable (b : Build) (x : XtsAes) (selfTests : IsalCryptoError) (a : XtsArgs)

/-- `isal_aes_xts_enc_128`. -/
def isalAesXtsEnc128 : Memory → IsalCryptoError × Memory :=
  comparing b selfTests (a.check .errNullKey) a 16 (x (.enc128 a))

/-- `isal_aes_xts_enc_128_expanded_key`. -/
def isalAesXtsEnc128ExpandedKey : Memory → IsalCryptoError × Memory :=
  comparing b selfTests (a.check .errNullExpKey) a (16 * 11) (x (.enc128ExpandedKey a))

/-- `isal_aes_xts_dec_128`. -/
def isalAesXtsDec128 : Memory → IsalCryptoError × Memory :=
  comparing b selfTests (a.check .errNullKey) a 16 (x (.dec128 a))

/-- `isal_aes_xts_dec_128_expanded_key`. -/
def isalAesXtsDec128ExpandedKey : Memory → IsalCryptoError × Memory :=
  comparing b selfTests (a.check .errNullExpKey) a (16 * 11) (x (.dec128ExpandedKey a))

/-- `isal_aes_xts_enc_256`. -/
def isalAesXtsEnc256 : Memory → IsalCryptoError × Memory :=
  comparing b selfTests (a.check .errNullKey) a (16 * 2) (x (.enc256 a))

/-- `isal_aes_xts_enc_256_expanded_key`. -/
def isalAesXtsEnc256ExpandedKey : Memory → IsalCryptoError × Memory :=
  comparing b selfTests (a.check .errNullExpKey) a (16 * 15) (x (.enc256ExpandedKey a))

/-- `isal_aes_xts_dec_256`. -/
def isalAesXtsDec256 : Memory → IsalCryptoError × Memory :=
  comparing b selfTests (a.check .errNullKey) a (16 * 2) (x (.dec256 a))

/-- `isal_aes_xts_dec_256_expanded_key`. -/
def isalAesXtsDec256ExpandedKey : Memory → IsalCryptoError × Memory :=
  comparing b selfTests (a.check .errNullExpKey) a (16 * 15) (x (.dec256ExpandedKey a))

end EntryPoints

/-- The entry point of a call. -/
def XtsCall.exec (b : Build) (x : XtsAes) (selfTests : IsalCryptoError) :
    XtsCall → Memory → IsalCryptoError × Memory
  | .enc128 a => isalAesXtsEnc128 b x selfTests a
  | .enc128ExpandedKey a => isalAesXtsEnc128ExpandedKey b x selfTests a
  | .dec128 a => isalAesXtsDec128 b x selfTests a
  | .dec128ExpandedKey a => isalAesXtsDec128ExpandedKey b x selfTests a
  | .enc256 a => isalAesXtsEnc256 b x selfTests a
  | .enc256ExpandedKey a => isalAesXtsEnc256ExpandedKey b x selfTests a
  | .dec256 a => isalAesXtsDec256 b x selfTests a
  | .dec256ExpandedKey a => isalAesXtsDec256ExpandedKey b x selfTests a

/-! ## What a call has at its key pointers -/

/-- The parameters of a call. -/
def XtsCall.args : XtsCall → XtsArgs
  | .enc128 a | .enc128ExpandedKey a | .dec128 a | .dec128ExpandedKey a
  | .enc256 a | .enc256ExpandedKey a | .dec256 a | .dec256ExpandedKey a => a

/-- The parameters pass the checks. -/
def XtsArgs.Valid (a : XtsArgs) : Prop := a.check .errNullKey = .errNone

instance (a : XtsArgs) : Decidable a.Valid := inferInstanceAs (Decidable (_ = _))

/-- The bytes of a raw key. -/
def XtsCall.keyBytes : XtsCall → ℕ
  | .enc128 _ | .enc128ExpandedKey _ | .dec128 _ | .dec128ExpandedKey _ => 16
  | .enc256 _ | .enc256ExpandedKey _ | .dec256 _ | .dec256ExpandedKey _ => 32

/-- The call is to a `dec_*_expanded_key` function. -/
def XtsCall.decExpanded : XtsCall → Bool
  | .dec128ExpandedKey _ | .dec256ExpandedKey _ => true
  | _ => false

/-- `n` bytes of memory. -/
def InMemory (mem : Memory) (p : Ptr) (bytes : ℕ → Byte) (n : ℕ) : Prop :=
  ∀ i < n, mem (p + BitVec.ofNat 64 i) = bytes i

/-- The arrays that a key expansion made of a key, in a build, whatever was in them. -/
def Expanded (keyexp : Build → IsalCryptoError → Option (ℕ → Byte) → Option (ℕ → Byte) →
    Option (ℕ → Byte) → IsalCryptoError × Option ((ℕ → Byte) × (ℕ → Byte))) (b : Build)
    (key encKeys decKeys : ℕ → Byte) : Prop :=
  ∃ enc dec, keyexp b .errNone (some key) (some enc) (some dec) =
    (.errNone, some (encKeys, decKeys))

/-- The key pointers point to schedules of the two keys: the encryption schedule of the tweak key
and, to decrypt, the decryption schedule of the data key. -/
def XtsArgs.PresentsExpanded (a : XtsArgs) (keyexp : Build → IsalCryptoError →
    Option (ℕ → Byte) → Option (ℕ → Byte) → Option (ℕ → Byte) →
      IsalCryptoError × Option ((ℕ → Byte) × (ℕ → Byte))) (n : ℕ) (decrypt : Bool) (b : Build)
    (mem : Memory) (key2 key1 : ℕ → Byte) : Prop :=
  ∃ enc2 dec2 enc1 dec1, Expanded keyexp b key2 enc2 dec2 ∧ Expanded keyexp b key1 enc1 dec1 ∧
    InMemory mem a.k2 enc2 n ∧ InMemory mem a.k1 (if decrypt then dec1 else enc1) n

/-- The key pointers of a call point to the two keys in the form the function takes. -/
def XtsCall.Presents (b : Build) (mem : Memory) (key2 key1 : ℕ → Byte) : XtsCall → Prop
  | .enc128 a | .dec128 a => InMemory mem a.k2 key2 16 ∧ InMemory mem a.k1 key1 16
  | .enc256 a | .dec256 a => InMemory mem a.k2 key2 32 ∧ InMemory mem a.k1 key1 32
  | .enc128ExpandedKey a => a.PresentsExpanded isalAesKeyexp128 (16 * 11) false b mem key2 key1
  | .dec128ExpandedKey a => a.PresentsExpanded isalAesKeyexp128 (16 * 11) true b mem key2 key1
  | .enc256ExpandedKey a => a.PresentsExpanded isalAesKeyexp256 (16 * 15) false b mem key2 key1
  | .dec256ExpandedKey a => a.PresentsExpanded isalAesKeyexp256 (16 * 15) true b mem key2 key1

/-- The two raw keys are equal. -/
def XtsCall.SameKeys (c : XtsCall) (key2 key1 : ℕ → Byte) : Prop :=
  ∀ i < c.keyBytes, key1 i = key2 i

/-! ## Equal keys -/

section SameKeys

variable {b : Build} {mem : Memory} {a : XtsArgs} {key2 key1 : ℕ → Byte} {n : ℕ}

/-- A valid call of a FIPS build whose self tests pass is refused by the comparison only. -/
theorem comparing_sameKeys {check : IsalCryptoError} (hfips : b.fipsMode = true)
    (hcheck : check = .errNone) (body : Memory → Memory) :
    (comparing b .errNone check a n body mem).1 = .errXtsSameKeys ↔
      memcmp mem a.k1 a.k2 n = true := by
  rw [comparing, if_neg fun h => h.2 hcheck]
  constructor
  · intro h
    by_contra hne
    rw [if_neg fun heq => hne heq.2, if_neg fun hself => hself.2 rfl] at h
    cases h
  · intro h
    rw [if_pos ⟨hfips, h⟩]

theorem memcmp_iff {bytes2 bytes1 : ℕ → Byte} (h2 : InMemory mem a.k2 bytes2 n)
    (h1 : InMemory mem a.k1 bytes1 n) :
    memcmp mem a.k1 a.k2 n = true ↔ ∀ i < n, bytes1 i = bytes2 i := by
  rw [memcmp, List.all_eq_true]
  refine ⟨fun h i hi => ?_, fun h i hi => ?_⟩
  · have hi' := eq_of_beq (h i (List.mem_range.mpr hi))
    rwa [h1 i hi, h2 i hi] at hi'
  · have hi' := List.mem_range.mp hi
    rw [h1 i hi', h2 i hi', h i hi']
    exact beq_self_eq_true _

/-- The null-key code plays no part in whether the checks pass. -/
theorem XtsArgs.Valid.check (h : a.Valid) : a.check .errNullExpKey = .errNone := by
  rw [XtsArgs.Valid, XtsArgs.check] at h
  rw [XtsArgs.check]
  split at h
  · cases h
  · next hnull =>
    rw [if_neg hnull]
    exact h

/-- What a successful key expansion leaves in the arrays. -/
theorem expanded_isalAesKeyexp {keyexp : (ℕ → Byte) → (ℕ → Byte) → (ℕ → Byte) →
    (ℕ → Byte) × (ℕ → Byte)} {key encKeys decKeys : ℕ → Byte}
    (h : Expanded (isalAesKeyexp keyexp) b key encKeys decKeys) :
    ∃ enc dec, keyexp key enc dec = (encKeys, decKeys) := by
  obtain ⟨enc, dec, heq⟩ := h
  refine ⟨enc, dec, ?_⟩
  rw [isalAesKeyexp, if_neg (by simp), if_neg (by simp), if_neg fun hself => hself.2 rfl] at heq
  exact Option.some.inj (Prod.mk.inj heq).2

theorem expanded_exported128 {key encKeys decKeys : ℕ → Byte}
    (h : Expanded isalAesKeyexp128 b key encKeys decKeys) :
    Exported 10 (4 * 1) (keyOf key) (10 + 1) encKeys decKeys := by
  obtain ⟨enc, dec, heq⟩ := expanded_isalAesKeyexp h
  have hexp := aesKeyexp128_exported key enc dec
  rwa [heq] at hexp

theorem expanded_exported256 {key encKeys decKeys : ℕ → Byte}
    (h : Expanded isalAesKeyexp256 b key encKeys decKeys) :
    Exported 14 (4 * 2) (keyOf key) (14 + 1) encKeys decKeys := by
  obtain ⟨enc, dec, heq⟩ := expanded_isalAesKeyexp h
  have hexp := aesKeyexp256_exported key enc dec
  rwa [heq] at hexp

/-- Two encryption schedules of the key expansion compare as the raw keys do. -/
theorem presentsExpanded_enc {keyexp : Build → IsalCryptoError → Option (ℕ → Byte) →
    Option (ℕ → Byte) → Option (ℕ → Byte) → IsalCryptoError × Option ((ℕ → Byte) × (ℕ → Byte))}
    {rounds m : ℕ} (hm : 0 < m) (hrounds : 4 * m < rounds)
    (hexp : ∀ key encKeys decKeys, Expanded keyexp b key encKeys decKeys →
      Exported rounds (4 * m) (keyOf key) (rounds + 1) encKeys decKeys)
    (h : a.PresentsExpanded keyexp (16 * (rounds + 1)) false b mem key2 key1) :
    memcmp mem a.k1 a.k2 (16 * (rounds + 1)) = true ↔ ∀ i < 16 * m, key1 i = key2 i := by
  obtain ⟨enc2, dec2, enc1, dec1, hk2, hk1, hmem2, hmem1⟩ := h
  exact (memcmp_iff hmem2 hmem1).trans
    (encKeys_eq_iff hm (by omega) (hexp _ _ _ hk1) (hexp _ _ _ hk2))

/-- A decryption schedule and an encryption schedule never compare equal. -/
theorem presentsExpanded_dec {keyexp : Build → IsalCryptoError → Option (ℕ → Byte) →
    Option (ℕ → Byte) → Option (ℕ → Byte) → IsalCryptoError × Option ((ℕ → Byte) × (ℕ → Byte))}
    {rounds m : ℕ} (hm : 0 < m) (hrounds : 4 * m < rounds)
    (hexp : ∀ key encKeys decKeys, Expanded keyexp b key encKeys decKeys →
      Exported rounds (4 * m) (keyOf key) (rounds + 1) encKeys decKeys)
    (h : a.PresentsExpanded keyexp (16 * (rounds + 1)) true b mem key2 key1) :
    memcmp mem a.k1 a.k2 (16 * (rounds + 1)) ≠ true := by
  obtain ⟨enc2, dec2, enc1, dec1, hk2, hk1, hmem2, hmem1⟩ := h
  exact fun heq => decKeys_ne_encKeys hm hrounds (hexp _ _ _ hk1) (hexp _ _ _ hk2)
    ((memcmp_iff hmem2 hmem1).mp heq)

end SameKeys

/-- What the comparison of a call finds. -/
theorem XtsCall.exec_sameKeys {b : Build} (hfips : b.fipsMode = true) (x : XtsAes) {c : XtsCall}
    {mem : Memory} {key2 key1 : ℕ → Byte} (hvalid : c.args.Valid)
    (hkeys : c.Presents b mem key2 key1) :
    (c.exec b x .errNone mem).1 = .errXtsSameKeys ↔
      c.decExpanded = false ∧ c.SameKeys key2 key1 := by
  have hexp128 : ∀ key encKeys decKeys, Expanded isalAesKeyexp128 b key encKeys decKeys →
      Exported 10 (4 * 1) (keyOf key) (10 + 1) encKeys decKeys := fun _ _ _ => expanded_exported128
  have hexp256 : ∀ key encKeys decKeys, Expanded isalAesKeyexp256 b key encKeys decKeys →
      Exported 14 (4 * 2) (keyOf key) (14 + 1) encKeys decKeys := fun _ _ _ => expanded_exported256
  cases c with
  | enc128 a | dec128 a | enc256 a | dec256 a =>
    exact ((comparing_sameKeys hfips hvalid _).trans (memcmp_iff hkeys.1 hkeys.2)).trans
      (and_iff_right rfl).symm
  | enc128ExpandedKey a =>
    exact ((comparing_sameKeys hfips hvalid.check _).trans
      (presentsExpanded_enc (m := 1) (by omega) (by omega) hexp128 hkeys)).trans
        (and_iff_right rfl).symm
  | enc256ExpandedKey a =>
    exact ((comparing_sameKeys hfips hvalid.check _).trans
      (presentsExpanded_enc (m := 2) (by omega) (by omega) hexp256 hkeys)).trans
        (and_iff_right rfl).symm
  | dec128ExpandedKey a =>
    exact (comparing_sameKeys hfips hvalid.check _).trans (iff_of_false
      (presentsExpanded_dec (m := 1) (by omega) (by omega) hexp128 hkeys) fun h => nomatch h.1)
  | dec256ExpandedKey a =>
    exact (comparing_sameKeys hfips hvalid.check _).trans (iff_of_false
      (presentsExpanded_dec (m := 2) (by omega) (by omega) hexp256 hkeys) fun h => nomatch h.1)

/-- In a FIPS build whose self tests pass, a valid call refuses equal keys, and only those, unless
it is a `dec_*_expanded_key` call with equal keys. -/
theorem exec_sameKeys_iff (b : Build) (hfips : b.fipsMode = true) (x : XtsAes) (c : XtsCall)
    (mem : Memory) (key2 key1 : ℕ → Byte) (hvalid : c.args.Valid)
    (hkeys : c.Presents b mem key2 key1) :
    ((c.exec b x .errNone mem).1 = .errXtsSameKeys ↔ c.SameKeys key2 key1) ↔
      ¬ (c.decExpanded = true ∧ c.SameKeys key2 key1) := by
  rw [c.exec_sameKeys hfips x hvalid hkeys]
  cases c.decExpanded with
  | false => simp
  | true => simp

/-- What `isal_aes_keyexp_128` makes of two keys: the encryption schedule of `key2` at 16 and the
decryption schedule of `key1` at 256. -/
def decSchedules (key2 key1 : ℕ → Byte) : Memory := fun p =>
  if p.toNat < 256 then (aesKeyexp128 key2 (fun _ => 0#8) fun _ => 0#8).1 (p.toNat - 16)
  else (aesKeyexp128 key1 (fun _ => 0#8) fun _ => 0#8).2 (p.toNat - 256)

/-- A call that decrypts with them. -/
def decSchedulesCall : XtsCall := .dec128ExpandedKey ⟨16#64, 256#64, 512#64, 16#64, 528#64, 544#64⟩

theorem decSchedulesCall_presents (key2 key1 : ℕ → Byte) :
    decSchedulesCall.Presents ⟨true, true⟩ (decSchedules key2 key1) key2 key1 := by
  refine ⟨_, _, _, _, ⟨fun _ => 0#8, fun _ => 0#8, rfl⟩, ⟨fun _ => 0#8, fun _ => 0#8, rfl⟩,
    fun i hi => ?_, fun i hi => ?_⟩
  · have hp : (16#64 + BitVec.ofNat 64 i).toNat = 16 + i := by
      rw [BitVec.toNat_add, BitVec.toNat_ofNat, BitVec.toNat_ofNat]
      omega
    rw [decSchedules, hp, if_pos (by omega), Nat.add_sub_cancel_left]
    rfl
  · have hp : (256#64 + BitVec.ofNat 64 i).toNat = 256 + i := by
      rw [BitVec.toNat_add, BitVec.toNat_ofNat, BitVec.toNat_ofNat]
      omega
    rw [decSchedules, hp, if_neg (by omega), Nat.add_sub_cancel_left]
    rfl

/-- Two keys that differ, in a call that has the schedules. -/
theorem exec_sameKeys_iff_schedules :
    let key2 : ℕ → Byte := fun _ => 0#8
    let key1 : ℕ → Byte := fun k => BitVec.ofNat 8 k
    (decSchedulesCall.exec ⟨true, true⟩ (fun _ mem => mem) .errNone (decSchedules key2 key1)).1 =
      .errXtsSameKeys ↔ decSchedulesCall.SameKeys key2 key1 := by
  intro key2 key1
  refine (exec_sameKeys_iff ⟨true, true⟩ rfl (fun _ mem => mem) decSchedulesCall
    (decSchedules key2 key1)
    key2 key1 (by decide) (decSchedulesCall_presents key2 key1)).mpr fun h => ?_
  exact absurd (h.2 1 (by decide)) (by decide)

/-- `isal_aes_xts_dec_128_expanded_key` accepts two equal keys. -/
theorem dec128ExpandedKey_same_keys :
    let key : ℕ → Byte := fun _ => 0#8
    let r := decSchedulesCall.exec ⟨true, true⟩ (fun _ mem => mem) .errNone (decSchedules key key)
    decSchedulesCall.args.Valid ∧
      decSchedulesCall.Presents ⟨true, true⟩ (decSchedules key key) key key ∧
      decSchedulesCall.SameKeys key key ∧ r.1 ≠ .errXtsSameKeys := by
  intro key r
  have hvalid : decSchedulesCall.args.Valid := by decide
  have hkeys := decSchedulesCall_presents key key
  refine ⟨hvalid, hkeys, fun _ _ => rfl, fun h => ?_⟩
  have hdec := ((decSchedulesCall.exec_sameKeys rfl (fun _ mem => mem) hvalid hkeys).mp h).1
  exact absurd hdec (by decide)

end IsalCrypto.Aes
