import IsalCrypto.Lib.Gf8
import IsalCrypto.Lib.KeyAlternating
import IsalCrypto.Lib.Xts
import Mathlib.Data.Fintype.Card

/-!
# AES

FIPS 197 on blocks with their first byte lowest: the state's byte in row `r` and column `c` is byte
`4 * c + r` of the block.

* `invCipher_cipher`, `cipher_invCipher`: `INVCIPHER` is the inverse of `CIPHER`.
* `eqInvCipher_eq`: `EQINVCIPHER` over the mixed key schedule is `INVCIPHER`.
* `aes`: the block cipher.
-/

namespace IsalCrypto.Lib.Aes

/-! ## The state -/

/-- The word with these bytes. -/
def packBytes (f : ℕ → BitVec 8) : BitVec 32 := f 3 ++ f 2 ++ f 1 ++ f 0

/-- A column of the state. -/
def column (s : BitVec 128) (c : ℕ) : BitVec 32 := s.extractLsb' (32 * c) 32

/-- The state with these columns. -/
def ofColumns (f : ℕ → BitVec 32) : BitVec 128 := f 3 ++ f 2 ++ f 1 ++ f 0

/-- `s[r, c]`. -/
def stateByte (s : BitVec 128) (r c : ℕ) : BitVec 8 := wordByte (column s c) r

/-- The state with these bytes. -/
def ofState (f : ℕ → ℕ → BitVec 8) : BitVec 128 := ofColumns fun c => packBytes fun r => f r c

section State

variable {s t : BitVec 128} {f g : ℕ → ℕ → BitVec 8} {r c : ℕ}

theorem wordByte_packBytes (f : ℕ → BitVec 8) (hr : r < 4) : wordByte (packBytes f) r = f r := by
  refine BitVec.eq_of_getLsbD_eq fun j hj => ?_
  unfold wordByte packBytes
  simp only [BitVec.getLsbD_extractLsb', BitVec.getLsbD_append, hj, decide_true, Bool.true_and]
  obtain rfl | rfl | rfl | rfl : r = 0 ∨ r = 1 ∨ r = 2 ∨ r = 3 := by omega
  all_goals grind

theorem column_ofColumns (f : ℕ → BitVec 32) (hc : c < 4) : column (ofColumns f) c = f c := by
  refine BitVec.eq_of_getLsbD_eq fun j hj => ?_
  unfold column ofColumns
  simp only [BitVec.getLsbD_extractLsb', BitVec.getLsbD_append, hj, decide_true, Bool.true_and]
  obtain rfl | rfl | rfl | rfl : c = 0 ∨ c = 1 ∨ c = 2 ∨ c = 3 := by omega
  all_goals grind

theorem stateByte_ofState (f : ℕ → ℕ → BitVec 8) (hr : r < 4) (hc : c < 4) :
    stateByte (ofState f) r c = f r c := by
  unfold stateByte ofState
  rw [column_ofColumns _ hc, wordByte_packBytes _ hr]

/-- A state is its columns. -/
theorem eq_of_column_eq (h : ∀ c < 4, column s c = column t c) : s = t := by
  refine BitVec.eq_of_getLsbD_eq fun j hj => ?_
  have hbit : (column s (j / 32)).getLsbD (j % 32) = (column t (j / 32)).getLsbD (j % 32) := by
    rw [h _ (by omega)]
  unfold column at hbit
  rw [BitVec.getLsbD_extractLsb', BitVec.getLsbD_extractLsb', decide_eq_true (by omega),
    Bool.true_and, Bool.true_and, Nat.div_add_mod] at hbit
  exact hbit

/-- A word is its bytes. -/
theorem eq_of_wordByte_eq {v w : BitVec 32} (h : ∀ r < 4, wordByte v r = wordByte w r) : v = w := by
  refine BitVec.eq_of_getLsbD_eq fun j hj => ?_
  have hbit : (wordByte v (j / 8)).getLsbD (j % 8) = (wordByte w (j / 8)).getLsbD (j % 8) := by
    rw [h _ (by omega)]
  unfold wordByte at hbit
  rw [BitVec.getLsbD_extractLsb', BitVec.getLsbD_extractLsb', decide_eq_true (by omega),
    Bool.true_and, Bool.true_and, Nat.div_add_mod] at hbit
  exact hbit

/-- A state is its bytes. -/
theorem eq_of_stateByte_eq (h : ∀ r < 4, ∀ c < 4, stateByte s r c = stateByte t r c) : s = t :=
  eq_of_column_eq fun c hc => eq_of_wordByte_eq fun r hr => h r hr c hc

theorem ofState_eq (h : ∀ r < 4, ∀ c < 4, f r c = g r c) : ofState f = ofState g :=
  eq_of_stateByte_eq
    fun r hr c hc => by rw [stateByte_ofState f hr hc, stateByte_ofState g hr hc, h r hr c hc]

theorem column_xor (s t : BitVec 128) (c : ℕ) : column (s ^^^ t) c = column s c ^^^ column t c :=
  BitVec.extractLsb'_xor

theorem ofColumns_xor (f g : ℕ → BitVec 32) : ofColumns f ^^^ ofColumns g = ofColumns fun c =>
    f c ^^^ g c :=
  eq_of_column_eq fun c hc => by
    rw [column_xor, column_ofColumns _ hc, column_ofColumns _ hc, column_ofColumns _ hc]

end State

/-! ## The transformations -/

/-- `SUBBYTES`. -/
def subBytes (s : BitVec 128) : BitVec 128 := ofState fun r c => sbox (stateByte s r c)

/-- `INVSUBBYTES`. -/
def invSubBytes (s : BitVec 128) : BitVec 128 := ofState fun r c => invSbox (stateByte s r c)

/-- `SHIFTROWS`. -/
def shiftRows (s : BitVec 128) : BitVec 128 := ofState fun r c => stateByte s r ((c + r) % 4)

/-- `INVSHIFTROWS`. -/
def invShiftRows (s : BitVec 128) : BitVec 128 :=
  ofState fun r c => stateByte s r ((c + (4 - r)) % 4)

/-- What a round of `CIPHER` does before `MIXCOLUMNS`. -/
def substitute (s : BitVec 128) : BitVec 128 := shiftRows (subBytes s)

/-- What a round of `INVCIPHER` does before `ADDROUNDKEY`. -/
def unsubstitute (s : BitVec 128) : BitVec 128 := invSubBytes (invShiftRows s)

/-- The same in the order of `EQINVCIPHER`. -/
def eqUnsubstitute (s : BitVec 128) : BitVec 128 := invShiftRows (invSubBytes s)

/-- `MIXCOLUMNS`. -/
def mixColumns (s : BitVec 128) : BitVec 128 := ofColumns fun c => mixColumn (column s c)

/-- `INVMIXCOLUMNS`. -/
def invMixColumns (s : BitVec 128) : BitVec 128 := ofColumns fun c => invMixColumn (column s c)

section Transformations

variable {s : BitVec 128}

theorem shiftRows_subBytes (s : BitVec 128) : shiftRows (subBytes s) = subBytes (shiftRows s) := by
  unfold shiftRows subBytes
  refine ofState_eq fun r hr c hc => ?_
  rw [stateByte_ofState _ hr (Nat.mod_lt _ (by decide)), stateByte_ofState _ hr hc]

theorem eqUnsubstitute_eq (s : BitVec 128) : eqUnsubstitute s = unsubstitute s := by
  unfold eqUnsubstitute unsubstitute invShiftRows invSubBytes
  refine ofState_eq fun r hr c hc => ?_
  rw [stateByte_ofState _ hr (Nat.mod_lt _ (by decide)), stateByte_ofState _ hr hc]

theorem unsubstitute_substitute (s : BitVec 128) : unsubstitute (substitute s) = s := by
  unfold unsubstitute substitute invSubBytes invShiftRows shiftRows subBytes
  refine eq_of_stateByte_eq fun r hr c hc => ?_
  have hback : ((c + (4 - r)) % 4 + r) % 4 = c := by omega
  have hlt : (c + (4 - r)) % 4 < 4 := Nat.mod_lt _ (by decide)
  rw [stateByte_ofState _ hr hc, stateByte_ofState _ hr hc, stateByte_ofState _ hr hlt, hback,
    stateByte_ofState _ hr hc, invSbox_sbox]

theorem substitute_unsubstitute (s : BitVec 128) : substitute (unsubstitute s) = s := by
  unfold unsubstitute substitute invSubBytes invShiftRows shiftRows subBytes
  refine eq_of_stateByte_eq fun r hr c hc => ?_
  have hback : ((c + r) % 4 + (4 - r)) % 4 = c := by omega
  have hlt : (c + r) % 4 < 4 := Nat.mod_lt _ (by decide)
  rw [stateByte_ofState _ hr hc, stateByte_ofState _ hr hlt, stateByte_ofState _ hr hlt,
    stateByte_ofState _ hr hlt, hback, sbox_invSbox]

/-- A left inverse on finitely many words is a right inverse. -/
theorem invMixColumn_mixColumn (w : BitVec 32) : invMixColumn (mixColumn w) = w := by
  have hfinite : Finite (BitVec 32) := Finite.of_injective BitVec.toFin fun _ _ h =>
    BitVec.toFin_inj.mp h
  have hinj : Function.Injective invMixColumn := fun _ _ => invMixColumn_injective
  obtain ⟨v, rfl⟩ := Finite.injective_iff_surjective.mp hinj w
  rw [mixColumn_invMixColumn]

theorem mixColumns_invMixColumns (s : BitVec 128) : mixColumns (invMixColumns s) = s := by
  unfold mixColumns invMixColumns
  refine eq_of_column_eq fun c hc => ?_
  rw [column_ofColumns _ hc, column_ofColumns _ hc, mixColumn_invMixColumn]

theorem invMixColumns_mixColumns (s : BitVec 128) : invMixColumns (mixColumns s) = s := by
  unfold mixColumns invMixColumns
  refine eq_of_column_eq fun c hc => ?_
  rw [column_ofColumns _ hc, column_ofColumns _ hc, invMixColumn_mixColumn]

theorem linear_mixColumns : Linear mixColumns := fun s t => by
  unfold mixColumns
  rw [ofColumns_xor]
  exact eq_of_column_eq fun c hc => by
    rw [column_ofColumns _ hc, column_ofColumns _ hc, column_xor, linear_mixColumn]

theorem linear_invMixColumns : Linear invMixColumns := fun s t => by
  unfold invMixColumns
  rw [ofColumns_xor]
  exact eq_of_column_eq fun c hc => by
    rw [column_ofColumns _ hc, column_ofColumns _ hc, column_xor, linear_invMixColumn]

end Transformations

/-! ## The ciphers -/

/-- The round keys of a key schedule, as blocks. -/
def scheduleKey (nk : ℕ) (key : ℕ → BitVec 32) (q : ℕ) : BitVec 128 :=
  ofColumns fun c => keyWord nk key (4 * q + c)

/-- `CIPHER` with `nr` rounds and the round keys `w`. -/
def cipher (nr : ℕ) (w : ℕ → BitVec 128) : BitVec 128 → BitVec 128 :=
  keyAlternating substitute mixColumns (nr - 1) w

/-- `INVCIPHER`. -/
def invCipher (nr : ℕ) (w : ℕ → BitVec 128) : BitVec 128 → BitVec 128 :=
  invKeyAlternating unsubstitute invMixColumns (nr - 1) w

/-- `EQINVCIPHER` over the round keys in the order in which it uses them. -/
def eqInvCipher (nr : ℕ) (dw : ℕ → BitVec 128) : BitVec 128 → BitVec 128 :=
  keyAlternating eqUnsubstitute invMixColumns (nr - 1) dw

section Ciphers

variable {nr : ℕ} {w w' : ℕ → BitVec 128}

theorem cipher_congr (hnr : 0 < nr) (h : ∀ q ≤ nr, w q = w' q) (s : BitVec 128) :
    cipher nr w s = cipher nr w' s :=
  keyAlternating_congr fun q hq => h q (by omega)

theorem eqInvCipher_congr (hnr : 0 < nr) (h : ∀ q ≤ nr, w q = w' q) (s : BitVec 128) :
    eqInvCipher nr w s = eqInvCipher nr w' s :=
  keyAlternating_congr fun q hq => h q (by omega)

/-- The two inverse ciphers are the same. -/
theorem eqInvCipher_eq (hnr : 0 < nr) (w : ℕ → BitVec 128) (s : BitVec 128) :
    eqInvCipher nr (invKeys invMixColumns nr w) s = invCipher nr w s := by
  have hrounds : nr - 1 + 1 = nr := Nat.sub_add_cancel hnr
  have h := invKeyAlternating_eq linear_invMixColumns unsubstitute (nr - 1) w s
  rw [hrounds] at h
  unfold eqInvCipher invCipher
  rw [h]
  exact congrArg (fun f => keyAlternating f invMixColumns (nr - 1) (invKeys invMixColumns nr w) s)
    (funext eqUnsubstitute_eq)

theorem invCipher_cipher (nr : ℕ) (w : ℕ → BitVec 128) (s : BitVec 128) :
    invCipher nr w (cipher nr w s) = s := by
  unfold invCipher cipher
  rw [invKeyAlternating_eq linear_invMixColumns]
  exact keyAlternating_invKeys unsubstitute_substitute invMixColumns_mixColumns linear_invMixColumns
    (nr - 1) w s

theorem cipher_invCipher (nr : ℕ) (w : ℕ → BitVec 128) (s : BitVec 128) :
    cipher nr w (invCipher nr w s) = s := by
  unfold invCipher cipher
  rw [invKeyAlternating_eq linear_invMixColumns]
  exact keyAlternating_of_invKeys substitute_unsubstitute mixColumns_invMixColumns linear_mixColumns
    (nr - 1) w s

end Ciphers

/-- AES with keys of `nk` words. -/
def aes (nk : ℕ) : BlockCipher (ℕ → BitVec 32) where
  enc key := cipher (nk + 6) (scheduleKey nk key)
  dec key := invCipher (nk + 6) (scheduleKey nk key)
  dec_enc key := invCipher_cipher (nk + 6) (scheduleKey nk key)
  enc_dec key := cipher_invCipher (nk + 6) (scheduleKey nk key)

end IsalCrypto.Lib.Aes
