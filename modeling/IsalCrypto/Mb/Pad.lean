import IsalCrypto.Mb.Ctx

/-!
# `hash_pad`

`hash_pad` puts the padding of the message behind its last bytes (`hashPad_bytes`) and counts the
blocks they make (`hashPad_blocks`).
-/

namespace IsalCrypto.Mb

open IsalCrypto.Lib

variable {D : Type*} {p : HashParams D}

theorem HashParams.blockSize_mem (p : HashParams D) : p.blockSize = 64 ∨ p.blockSize = 128 := by
  rcases p.log2BlockSize_mem with h | h <;> simp [HashParams.blockSize, h]

theorem HashParams.blockSize_pos (p : HashParams D) : 0 < p.blockSize := by
  rcases p.blockSize_mem with h | h <;> omega

/-- A length that the padding field can hold: the code stores 64 bits of it. -/
def HashParams.Fits (p : HashParams D) (len : ℕ) : Prop :=
  p.padLengthFieldSize = 8 ∨ len < 2 ^ 61

theorem toNat_and_blockMask (p : HashParams D) (x : BitVec 64) :
    (x &&& BitVec.ofNat 64 (p.blockSize - 1)).toNat = x.toNat % p.blockSize := by
  rw [BitVec.toNat_and, BitVec.toNat_ofNat, Nat.mod_eq_of_lt, HashParams.blockSize,
    Nat.and_two_pow_sub_one_eq_mod]
  rcases p.blockSize_mem with h | h <;> omega

theorem toNat_low (p : HashParams D) (len : ℕ) :
    ((BitVec.ofNat 64 len &&& BitVec.ofNat 64 (p.blockSize - 1)).setWidth 32).toNat =
      len % p.blockSize := by
  rw [BitVec.toNat_setWidth, toNat_and_blockMask, BitVec.toNat_ofNat]
  rcases p.blockSize_mem with h | h <;> rw [h] <;> omega

/-- Where the padding ends: the value of `i` that `hash_pad` computes. -/
theorem padEnd_eq (p : HashParams D) (len : ℕ) :
    ((BitVec.ofNat 64 len &&& BitVec.ofNat 64 (p.blockSize - 1)).setWidth 32 +
      ((BitVec.ofNat 64 (p.blockSize - 1) &&&
          (0#64 - (BitVec.ofNat 64 len + BitVec.ofNat 64 (p.padLengthFieldSize + 1)))) +
        1#64 + BitVec.ofNat 64 p.padLengthFieldSize).setWidth 32).toNat =
      len % p.blockSize + 1 + mdZeros p.blockSize p.padLengthFieldSize len +
        p.padLengthFieldSize := by
  have hpos := p.blockSize_pos
  have hzeros := mdZeros_lt p.blockSize p.padLengthFieldSize len hpos
  have hr := Nat.mod_lt len hpos
  have hneg : (BitVec.ofNat 64 (p.blockSize - 1) &&&
      (0#64 - (BitVec.ofNat 64 len + BitVec.ofNat 64 (p.padLengthFieldSize + 1)))).toNat =
      mdZeros p.blockSize p.padLengthFieldSize len := by
    rw [BitVec.and_comm, toNat_and_blockMask, mdZeros]
    simp only [BitVec.toNat_sub, BitVec.toNat_add, BitVec.toNat_ofNat]
    rcases p.blockSize_mem with h | h <;> rcases p.padLengthFieldSize_mem with h' | h' <;>
      rw [h, h'] <;> omega
  rw [BitVec.toNat_add, toNat_low]
  simp only [BitVec.toNat_add, BitVec.toNat_setWidth, hneg, BitVec.toNat_ofNat]
  rcases p.blockSize_mem with h | h <;> rcases p.padLengthFieldSize_mem with h' | h' <;>
    rw [h] at hr hzeros ⊢ <;> rw [h'] at hzeros ⊢ <;> omega

/-- The end of the padding of the bytes left over: one or two whole blocks. -/
theorem padEnd_blocks (p : HashParams D) (len : ℕ) :
    p.blockSize * mdBlocks p.blockSize p.padLengthFieldSize (len % p.blockSize) =
      len % p.blockSize + 1 + mdZeros p.blockSize p.padLengthFieldSize len +
        p.padLengthFieldSize := by
  rw [mdBlocks_mul _ _ _ p.blockSize_pos, mdZeros_mod]

theorem hashPad_blocks (p : HashParams D) (buf : Fin (2 * p.blockSize) → Byte) (len : ℕ) :
    (hashPad p buf (BitVec.ofNat 64 len)).2.toNat =
      mdBlocks p.blockSize p.padLengthFieldSize (len % p.blockSize) := by
  simp only [hashPad]
  rw [BitVec.toNat_ushiftRight, padEnd_eq, ← padEnd_blocks, Nat.shiftRight_eq_div_pow]
  exact Nat.mul_div_cancel_left _ p.blockSize_pos

/-- There is at least one block to hash and there are at most two. -/
theorem padBlocks_bounds (p : HashParams D) (len : ℕ) :
    0 < mdBlocks p.blockSize p.padLengthFieldSize (len % p.blockSize) ∧
      mdBlocks p.blockSize p.padLengthFieldSize (len % p.blockSize) ≤ 2 := by
  have h := padEnd_blocks p len
  have hzeros := mdZeros_lt p.blockSize p.padLengthFieldSize len p.blockSize_pos
  have hr := Nat.mod_lt len p.blockSize_pos
  have hB := p.blockSize_mem
  have hL := p.padLengthFieldSize_mem
  generalize mdBlocks p.blockSize p.padLengthFieldSize (len % p.blockSize) = e at h ⊢
  generalize p.blockSize = B at *
  rcases hB with rfl | rfl <;> rcases hL with hL | hL <;> rw [hL] at h hzeros <;> omega

theorem be64Bytes_length (len k : ℕ) (hk : k < 8) :
    be64Bytes (BitVec.ofNat 64 len <<< 3) k = BitVec.ofNat 8 ((8 * len) >>> (8 * (7 - k))) := by
  have hshl : BitVec.ofNat 64 len <<< 3 = BitVec.ofNat 64 (8 * len) := by
    apply BitVec.eq_of_toNat_eq
    rw [BitVec.toNat_shiftLeft, BitVec.toNat_ofNat, BitVec.toNat_ofNat, Nat.shiftLeft_eq]
    omega
  rw [hshl, be64Bytes_ofNat _ hk]

/-- The one bit and the zeros behind the bytes left over. -/
theorem padHead_bytes (buf : Fin (2 * p.blockSize) → Byte) (len : ℕ) {i : ℕ}
    (hi : i < len % p.blockSize + 1 + mdZeros p.blockSize p.padLengthFieldSize len) :
    arrayBytes (memcpyAt (memcpyAt buf (len % p.blockSize) (fun _ => 0#8) p.blockSize)
        (len % p.blockSize) (fun _ => 0x80#8) 1) i =
      if i < len % p.blockSize then arrayBytes buf i
      else stream (mdPadding p.blockSize p.padLengthFieldSize len) (i - len % p.blockSize) := by
  have hzeros := mdZeros_lt p.blockSize p.padLengthFieldSize len p.blockSize_pos
  have hr := Nat.mod_lt len p.blockSize_pos
  generalize hrr : len % p.blockSize = r at *
  rcases lt_trichotomy i r with h | rfl | h
  · rw [if_pos h, arrayBytes_memcpyAt_lt h, arrayBytes_memcpyAt_lt h]
  · rw [if_neg (Nat.lt_irrefl i), Nat.sub_self, stream_mdPadding_zero,
      arrayBytes_memcpyAt (Nat.le_refl i) (Nat.lt_succ_self i) (by omega)]
  · rw [if_neg (by omega), arrayBytes_memcpyAt_ge (by omega),
      arrayBytes_memcpyAt (by omega) (by omega) (by omega),
      stream_mdPadding_zeros (by omega) (by omega)]

/-- The padded buffer: the bytes left over, then the padding. -/
theorem hashPad_bytes (buf : Fin (2 * p.blockSize) → Byte) {len i : ℕ} (hfits : p.Fits len)
    (hi : i < p.blockSize * mdBlocks p.blockSize p.padLengthFieldSize (len % p.blockSize)) :
    arrayBytes (hashPad p buf (BitVec.ofNat 64 len)).1 i =
      if i < len % p.blockSize then arrayBytes buf i
      else stream (mdPadding p.blockSize p.padLengthFieldSize len) (i - len % p.blockSize) := by
  have hend := padEnd_blocks p len
  have hsize : i < 2 * p.blockSize :=
    Nat.lt_of_lt_of_le hi (by
      rw [Nat.mul_comm]
      exact Nat.mul_le_mul_right _ (padBlocks_bounds p len).2)
  have hhead := padHead_bytes buf len (i := i)
  have hfield : ∀ k, k < p.padLengthFieldSize →
      stream (mdPadding p.blockSize p.padLengthFieldSize len)
          (1 + mdZeros p.blockSize p.padLengthFieldSize len + k) =
        BitVec.ofNat 8 ((8 * len) >>> (8 * (p.padLengthFieldSize - 1 - k))) :=
    fun k hk => stream_mdPadding_length hk
  rw [hend] at hi
  simp only [hashPad, padEnd_eq, toNat_low]
  have hL := p.padLengthFieldSize_mem
  unfold HashParams.Fits at hfits
  generalize mdZeros p.blockSize p.padLengthFieldSize len = z at *
  generalize len % p.blockSize = r at *
  generalize p.padLengthFieldSize = L at *
  rcases Nat.lt_or_ge i (r + 1 + z + L - 8) with hlast | hlast
  · rw [arrayBytes_memcpyAt_lt hlast]
    split
    · next h16 =>
      rcases Nat.lt_or_ge i (r + 1 + z + L - 16) with hlow | hlow
      · rw [arrayBytes_memcpyAt_lt hlow]
        exact hhead (by omega)
      · -- the high half of a sixteen-byte length is zero
        have hfield := hfield (i - (r + 1 + z)) (by omega)
        rw [show 1 + z + (i - (r + 1 + z)) = i - r by omega] at hfield
        rw [arrayBytes_memcpyAt hlow (by omega) hsize, if_neg (by omega), hfield,
          Nat.shiftRight_eq_zero]
        refine Nat.lt_of_lt_of_le (by omega : 8 * len < 2 ^ 64) ?_
        exact Nat.pow_le_pow_right (by decide) (by omega)
    · exact hhead (by omega)
  · have hfield := hfield (i - (r + 1 + z)) (by omega)
    rw [show 1 + z + (i - (r + 1 + z)) = i - r by omega] at hfield
    rw [arrayBytes_memcpyAt hlast (by omega) hsize, be64Bytes_length _ _ (by omega),
      if_neg (by omega), hfield]
    congr 3
    omega

end IsalCrypto.Mb
