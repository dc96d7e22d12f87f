import IsalCrypto.Lib.Blocks

/-!
# XTS

The tweakable mode of IEEE 1619 with ciphertext stealing over any keyed permutation of blocks, and
that decryption undoes encryption (`xtsDecrypt_xtsEncrypt`).
-/

namespace IsalCrypto.Lib

/-- A permutation of blocks for every key. -/
structure BlockCipher (K : Type*) where
  enc : K → BitVec 128 → BitVec 128
  dec : K → BitVec 128 → BitVec 128
  dec_enc : ∀ k x, dec k (enc k x) = x
  enc_dec : ∀ k x, enc k (dec k x) = x

/-- Multiplication by `α` in GF(2^128): the coefficient of `α^i` is bit `i`. -/
def mulAlpha (t : BitVec 128) : BitVec 128 := t <<< 1 ^^^ (if t.msb then 0x87#128 else 0#128)

/-- The tweak of block `q`. -/
def tweak (t : BitVec 128) : ℕ → BitVec 128
  | 0 => t
  | q + 1 => mulAlpha (tweak t q)

/-- One block, with its tweak. -/
def xex (aes : BitVec 128 → BitVec 128) (t x : BitVec 128) : BitVec 128 := aes (x ^^^ t) ^^^ t

/-- A message with a last part of less than a block: the last whole block is processed with the
tweak `t₁`, and with `t₂` the block that its end fills up from that part. -/
def xtsStealing (aes : BitVec 128 → BitVec 128) (t : ℕ → BitVec 128) (t₁ t₂ : BitVec 128)
    (msg : List (BitVec 8)) : List (BitVec 8) :=
  let m := msg.length / 16
  let b := msg.length % 16
  let cc := toBytes (xex aes t₁ (block msg (m - 1)))
  let pp := msg.drop (16 * m) ++ cc.drop b
  blocksOf (fun q => xex aes (t q) (block msg q)) (m - 1) ++
    (toBytes (xex aes t₂ (ofBytes pp)) ++ cc.take b)

/-- XTS encryption of a message of at least one block, with the first tweak `t`. -/
def xtsEncrypt (aes : BitVec 128 → BitVec 128) (t : BitVec 128) (msg : List (BitVec 8)) :
    List (BitVec 8) :=
  let m := msg.length / 16
  if msg.length % 16 = 0 then blocksOf (fun q => xex aes (tweak t q) (block msg q)) m
  else xtsStealing aes (tweak t) (tweak t (m - 1)) (tweak t m) msg

/-- XTS decryption. The last two tweaks change places. -/
def xtsDecrypt (aes : BitVec 128 → BitVec 128) (t : BitVec 128) (msg : List (BitVec 8)) :
    List (BitVec 8) :=
  let m := msg.length / 16
  if msg.length % 16 = 0 then blocksOf (fun q => xex aes (tweak t q) (block msg q)) m
  else xtsStealing aes (tweak t) (tweak t m) (tweak t (m - 1)) msg

section RoundTrip

variable {aes aes' : BitVec 128 → BitVec 128} {t : ℕ → BitVec 128} {t₁ t₂ : BitVec 128}
  {msg : List (BitVec 8)}

theorem xex_xex (h : ∀ x, aes' (aes x) = x) (t x : BitVec 128) : xex aes' t (xex aes t x) = x := by
  rw [xex, xex, BitVec.xor_assoc, BitVec.xor_self, BitVec.xor_zero, h, BitVec.xor_assoc,
    BitVec.xor_self, BitVec.xor_zero]

/-- The parts of a stolen ciphertext. -/
theorem length_xtsStealing (hm : 16 ≤ msg.length) (aes : BitVec 128 → BitVec 128)
    (t : ℕ → BitVec 128) (t₁ t₂ : BitVec 128) :
    (xtsStealing aes t t₁ t₂ msg).length = msg.length := by
  simp only [xtsStealing, List.length_append, List.length_take, length_blocksOf, length_toBytes]
  omega

theorem xtsStealing_xtsStealing (hm : 16 ≤ msg.length) (h : ∀ x, aes' (aes x) = x) :
    xtsStealing aes' t t₂ t₁ (xtsStealing aes t t₁ t₂ msg) = msg := by
  have hlen := length_xtsStealing hm aes t t₁ t₂
  generalize hout : xtsStealing aes t t₁ t₂ msg = out at hlen
  obtain ⟨m, hm'⟩ : ∃ m, msg.length / 16 = m + 1 := ⟨msg.length / 16 - 1, by omega⟩
  have hb : msg.length % 16 ≤ 16 := by omega
  rw [xtsStealing] at hout ⊢
  rw [hlen]
  generalize hr : msg.length % 16 = b at hout hb ⊢
  simp only [hm', Nat.add_sub_cancel] at hout ⊢
  generalize hcc : toBytes (xex aes t₁ (block msg m)) = cc at hout
  have hcclen : cc.length = 16 := by rw [← hcc, length_toBytes]
  have hpplen : (msg.drop (16 * (m + 1)) ++ cc.drop b).length = 16 := by
    rw [List.length_append, List.length_drop, List.length_drop]
    omega
  -- the block that was filled up
  have hlast : block out m = xex aes t₂ (ofBytes (msg.drop (16 * (m + 1)) ++ cc.drop b)) := by
    rw [← hout, block_append_right (length_blocksOf _ _) (length_toBytes _), ofBytes_toBytes]
  have hpp : toBytes (xex aes' t₂ (block out m)) = msg.drop (16 * (m + 1)) ++ cc.drop b := by
    rw [hlast, xex_xex h, toBytes_ofBytes hpplen]
  -- what it was filled up with comes back behind the end of the message
  have htail : out.drop (16 * (m + 1)) = cc.take b := by
    rw [← hout, ← List.append_assoc]
    refine List.drop_left' ?_
    rw [List.length_append, length_blocksOf, length_toBytes, Nat.mul_succ]
  have hdroplen : (msg.drop (16 * (m + 1))).length = b := by
    rw [List.length_drop]
    omega
  have hcc' : out.drop (16 * (m + 1)) ++ (toBytes (xex aes' t₂ (block out m))).drop b = cc := by
    rw [htail, hpp, List.drop_left' hdroplen, List.take_append_drop]
  have hfirst : blocksOf (fun q => xex aes' (t q) (block out q)) m = msg.take (16 * m) := by
    rw [← blocksOf_block (by omega)]
    refine blocksOf_congr fun q hq => ?_
    rw [← hout, block_append_left (by rw [length_blocksOf]; omega), block_blocksOf hq, xex_xex h]
  rw [hcc', hfirst, hpp, List.take_left' hdroplen, ← hcc, ofBytes_toBytes, xex_xex h]
  have hblock : toBytes (block msg m) = (msg.drop (16 * m)).take 16 := by
    refine toBytes_ofBytes ?_
    rw [List.length_take, List.length_drop]
    omega
  rw [hblock, ← List.append_assoc, ← List.take_add, ← Nat.mul_succ, List.take_append_drop]

theorem length_xtsEncrypt (hm : 16 ≤ msg.length) (aes : BitVec 128 → BitVec 128)
    (t : BitVec 128) : (xtsEncrypt aes t msg).length = msg.length := by
  rw [xtsEncrypt]
  split
  · rw [length_blocksOf]
    omega
  · exact length_xtsStealing hm ..

/-- Decryption undoes encryption, for every length of at least one block. -/
theorem xtsDecrypt_xtsEncrypt (hm : 16 ≤ msg.length) (h : ∀ x, aes' (aes x) = x) (t : BitVec 128) :
    xtsDecrypt aes' t (xtsEncrypt aes t msg) = msg := by
  have hlen := length_xtsEncrypt hm aes t
  rw [xtsDecrypt, hlen]
  split
  · next hzero =>
    rw [xtsEncrypt, if_pos hzero]
    have hblocks : blocksOf (fun q => xex aes' (tweak t q)
        (block (blocksOf (fun q => xex aes (tweak t q) (block msg q)) (msg.length / 16)) q))
          (msg.length / 16) = blocksOf (block msg) (msg.length / 16) :=
      blocksOf_congr fun q hq => by rw [block_blocksOf hq, xex_xex h]
    rw [hblocks, blocksOf_block (by omega), List.take_of_length_le (by omega)]
  · next hne =>
    rw [xtsEncrypt, if_neg hne]
    exact xtsStealing_xtsStealing hm h

end RoundTrip

end IsalCrypto.Lib
