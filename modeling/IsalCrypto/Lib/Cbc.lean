import IsalCrypto.Lib.Blocks

/-!
# CBC

The mode of NIST SP 800-38A on the blocks of a message, for any two functions of which one undoes
the other.
-/

namespace IsalCrypto.Lib

/-- The block before block `q`; before the first one is the IV. -/
def chained (iv : BitVec 128) (c : ℕ → BitVec 128) : ℕ → BitVec 128
  | 0 => iv
  | q + 1 => c q

/-- CBC encryption: block `q` of the ciphertext. -/
def cbcEncrypt (enc : BitVec 128 → BitVec 128) (iv : BitVec 128) (p : ℕ → BitVec 128) :
    ℕ → BitVec 128
  | 0 => enc (p 0 ^^^ iv)
  | q + 1 => enc (p (q + 1) ^^^ cbcEncrypt enc iv p q)

/-- CBC decryption: block `q` of the plaintext. -/
def cbcDecrypt (dec : BitVec 128 → BitVec 128) (iv : BitVec 128) (c : ℕ → BitVec 128) (q : ℕ) :
    BitVec 128 :=
  dec (c q) ^^^ chained iv c q

section Cbc

variable {enc dec : BitVec 128 → BitVec 128} {iv : BitVec 128} {p p' c c' : ℕ → BitVec 128}
  {m q : ℕ}

theorem cbcEncrypt_eq (enc : BitVec 128 → BitVec 128) (iv : BitVec 128) (p : ℕ → BitVec 128)
    (q : ℕ) :
    cbcEncrypt enc iv p q = enc (p q ^^^ chained iv (cbcEncrypt enc iv p) q) := by
  cases q with
  | zero => rfl
  | succ q => rfl

theorem cbcEncrypt_congr (h : ∀ r ≤ q, p r = p' r) :
    cbcEncrypt enc iv p q = cbcEncrypt enc iv p' q := by
  induction q with
  | zero => rw [cbcEncrypt, cbcEncrypt, h 0 (Nat.le_refl 0)]
  | succ q ih =>
    rw [cbcEncrypt, cbcEncrypt, ih fun r hr => h r (Nat.le_succ_of_le hr),
      h (q + 1) (Nat.le_refl _)]

theorem cbcDecrypt_congr (h : ∀ r ≤ q, c r = c' r) :
    cbcDecrypt dec iv c q = cbcDecrypt dec iv c' q := by
  unfold cbcDecrypt
  rw [h q (Nat.le_refl q)]
  cases q with
  | zero => rfl
  | succ q => exact congrArg _ (h q (Nat.le_succ q))

/-- Decryption undoes encryption. -/
theorem cbcDecrypt_cbcEncrypt (h : ∀ x, dec (enc x) = x) (iv : BitVec 128) (p : ℕ → BitVec 128)
    (q : ℕ) :
    cbcDecrypt dec iv (cbcEncrypt enc iv p) q = p q := by
  unfold cbcDecrypt
  rw [cbcEncrypt_eq, h, BitVec.xor_assoc, BitVec.xor_self, BitVec.xor_zero]

/-- On the blocks of messages. -/
theorem blocksOf_cbcDecrypt (h : ∀ x, dec (enc x) = x) {msg cipher : List (BitVec 8)}
    (hmsg : msg.length = 16 * m) (hcipher : cipher = blocksOf (cbcEncrypt enc iv (block msg)) m) :
    blocksOf (cbcDecrypt dec iv (block cipher)) m = msg := by
  have hblocks : blocksOf (cbcDecrypt dec iv (block cipher)) m = blocksOf (block msg) m :=
    blocksOf_congr fun q hq => by
      have hsame : ∀ r ≤ q, block cipher r = cbcEncrypt enc iv (block msg) r := fun r hr => by
        rw [hcipher, block_blocksOf (Nat.lt_of_le_of_lt hr hq)]
      rw [cbcDecrypt_congr hsame, cbcDecrypt_cbcEncrypt h]
  rw [hblocks, blocksOf_block (Nat.le_of_eq hmsg.symm), ← hmsg, List.take_length]

end Cbc

end IsalCrypto.Lib
