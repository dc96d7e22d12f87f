import IsalCrypto.Lib.Aes

/-!
# Ciphers that alternate between rounds and keys

A round substitutes and mixes; the last one only substitutes. The inverse cipher runs the rounds
backwards; where mixing is linear it can be written as the same cipher over the mixed keys in the
other order, the *equivalent* inverse cipher.

* `keyAlternating_invKeys`: the equivalent inverse cipher undoes the cipher.
* `keyAlternating_of_invKeys`: and the cipher undoes it.
* `invKeyAlternating_eq`: it is the inverse cipher.
-/

namespace IsalCrypto.Lib

open IsalCrypto.Lib.Aes

section KeyAlternating

variable {n : ℕ}

/-- All rounds but the last one. -/
def keyedRounds (sub mix : BitVec n → BitVec n) (keys : ℕ → BitVec n) (x : BitVec n) : ℕ → BitVec n
  | 0 => x ^^^ keys 0
  | r + 1 => mix (sub (keyedRounds sub mix keys x r)) ^^^ keys (r + 1)

/-- The cipher with `r` rounds that mix and one that does not. -/
def keyAlternating (sub mix : BitVec n → BitVec n) (r : ℕ) (keys : ℕ → BitVec n) (x : BitVec n) :
    BitVec n :=
  sub (keyedRounds sub mix keys x r) ^^^ keys (r + 1)

/-- The rounds from `r` down. -/
def unkeyedRounds (unsub unmix : BitVec n → BitVec n) (keys : ℕ → BitVec n) :
    ℕ → BitVec n → BitVec n
  | 0, x => unsub x ^^^ keys 0
  | r + 1, x => unkeyedRounds unsub unmix keys r (unmix (unsub x ^^^ keys (r + 1)))

/-- The inverse cipher, over the keys of the cipher. -/
def invKeyAlternating (unsub unmix : BitVec n → BitVec n) (r : ℕ) (keys : ℕ → BitVec n)
    (x : BitVec n) : BitVec n :=
  unkeyedRounds unsub unmix keys r (x ^^^ keys (r + 1))

/-- The keys of the equivalent inverse cipher, for keys 0 to `rounds`. -/
def invKeys (unmix : BitVec n → BitVec n) (rounds : ℕ) (keys : ℕ → BitVec n) (q : ℕ) : BitVec n :=
  if q = 0 ∨ q = rounds then keys (rounds - q) else unmix (keys (rounds - q))

variable {sub mix unsub unmix : BitVec n → BitVec n} {r : ℕ} {keys keys' : ℕ → BitVec n}
  {x : BitVec n}

theorem invKeys_inner {rounds q : ℕ} (hpos : 0 < q) (hlt : q < rounds) :
    invKeys unmix rounds keys q = unmix (keys (rounds - q)) := by
  unfold invKeys
  rw [if_neg (by omega)]

theorem keyedRounds_congr (h : ∀ q ≤ r, keys q = keys' q) :
    keyedRounds sub mix keys x r = keyedRounds sub mix keys' x r := by
  induction r with
  | zero => rw [keyedRounds, keyedRounds, h 0 (Nat.le_refl 0)]
  | succ r ih =>
    rw [keyedRounds, keyedRounds, ih fun q hq => h q (Nat.le_succ_of_le hq),
      h (r + 1) (Nat.le_refl _)]

/-- Only the keys 0 to `r + 1` matter. -/
theorem keyAlternating_congr (h : ∀ q ≤ r + 1, keys q = keys' q) :
    keyAlternating sub mix r keys x = keyAlternating sub mix r keys' x := by
  rw [keyAlternating, keyAlternating, keyedRounds_congr fun q hq => h q (Nat.le_succ_of_le hq),
    h (r + 1) (Nat.le_refl _)]

/-- After `i` rounds of the equivalent inverse cipher, what is left is the substitution of what the
cipher had `i` rounds before its last one. -/
theorem keyedRounds_invKeys (hsub : ∀ x, unsub (sub x) = x) (hmix : ∀ x, unmix (mix x) = x)
    (hlinear : Linear unmix) {i : ℕ} (hi : i ≤ r) :
    keyedRounds unsub unmix (invKeys unmix (r + 1) keys) (keyAlternating sub mix r keys x) i =
      sub (keyedRounds sub mix keys x (r - i)) := by
  induction i with
  | zero =>
    rw [keyedRounds, invKeys, if_pos (.inl rfl), keyAlternating, BitVec.xor_assoc]
    exact (congrArg _ BitVec.xor_self).trans BitVec.xor_zero
  | succ i ih =>
    have hcount : r - i = r - (i + 1) + 1 := by omega
    have hkey : r + 1 - (i + 1) = r - (i + 1) + 1 := by omega
    rw [keyedRounds, ih (Nat.le_of_succ_le hi), hsub, hcount, keyedRounds, hlinear, hmix,
      invKeys_inner (Nat.succ_pos i) (by omega), hkey, BitVec.xor_assoc, BitVec.xor_self,
      BitVec.xor_zero]

/-- The equivalent inverse cipher undoes the cipher. -/
theorem keyAlternating_invKeys (hsub : ∀ x, unsub (sub x) = x) (hmix : ∀ x, unmix (mix x) = x)
    (hlinear : Linear unmix) (r : ℕ) (keys : ℕ → BitVec n) (x : BitVec n) :
    keyAlternating unsub unmix r (invKeys unmix (r + 1) keys) (keyAlternating sub mix r keys x) =
      x := by
  rw [keyAlternating, keyedRounds_invKeys hsub hmix hlinear (Nat.le_refl r), hsub, Nat.sub_self,
    keyedRounds, invKeys, if_pos (.inr rfl), Nat.sub_self, BitVec.xor_assoc, BitVec.xor_self,
    BitVec.xor_zero]

/-- The keys of the equivalent inverse cipher of the equivalent inverse cipher. -/
theorem invKeys_invKeys (hmix : ∀ x, mix (unmix x) = x) {rounds q : ℕ} (hq : q ≤ rounds) :
    invKeys mix rounds (invKeys unmix rounds keys) q = keys q := by
  have hback : rounds - (rounds - q) = q := Nat.sub_sub_self hq
  by_cases hend : q = 0 ∨ q = rounds
  · have hend' : rounds - q = 0 ∨ rounds - q = rounds := by omega
    rw [invKeys, if_pos hend, invKeys, if_pos hend', hback]
  · rw [invKeys_inner (by omega) (by omega), invKeys_inner (by omega) (by omega), hback, hmix]

/-- The cipher undoes its equivalent inverse cipher. -/
theorem keyAlternating_of_invKeys (hsub : ∀ x, sub (unsub x) = x) (hmix : ∀ x, mix (unmix x) = x)
    (hlinear : Linear mix) (r : ℕ) (keys : ℕ → BitVec n) (x : BitVec n) :
    keyAlternating sub mix r keys (keyAlternating unsub unmix r (invKeys unmix (r + 1) keys) x) =
      x := by
  have h := keyAlternating_invKeys hsub hmix hlinear r (invKeys unmix (r + 1) keys) x
  rwa [keyAlternating_congr fun q hq => invKeys_invKeys hmix hq] at h

/-- One round of the inverse cipher, with the keys of the equivalent one. -/
theorem unkeyedRounds_keyedRounds (hlinear : Linear unmix) {i : ℕ} (hi : i ≤ r) :
    unkeyedRounds unsub unmix keys r (x ^^^ keys (r + 1)) =
      unkeyedRounds unsub unmix keys (r - i)
        (keyedRounds unsub unmix (invKeys unmix (r + 1) keys) x i) := by
  induction i with
  | zero => rw [keyedRounds, invKeys, if_pos (.inl rfl), Nat.sub_zero, Nat.sub_zero]
  | succ i ih =>
    have hcount : r - i = r - (i + 1) + 1 := by omega
    have hkey : r + 1 - (i + 1) = r - (i + 1) + 1 := by omega
    rw [ih (Nat.le_of_succ_le hi), hcount, unkeyedRounds, hlinear, keyedRounds,
      invKeys_inner (Nat.succ_pos i) (by omega), hkey]

/-- The equivalent inverse cipher is the inverse cipher. -/
theorem invKeyAlternating_eq (hlinear : Linear unmix) (unsub : BitVec n → BitVec n) (r : ℕ)
    (keys : ℕ → BitVec n) (x : BitVec n) :
    invKeyAlternating unsub unmix r keys x =
      keyAlternating unsub unmix r (invKeys unmix (r + 1) keys) x := by
  rw [invKeyAlternating, unkeyedRounds_keyedRounds hlinear (Nat.le_refl r), Nat.sub_self,
    unkeyedRounds, keyAlternating, invKeys, if_pos (.inr rfl), Nat.sub_self]

end KeyAlternating

end IsalCrypto.Lib
