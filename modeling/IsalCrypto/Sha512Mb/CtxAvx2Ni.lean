import IsalCrypto.Mb.Base
import IsalCrypto.Sha256Mb.Params
import IsalCrypto.Sha512Mb.CtxSse

/-!
# `hash_pad`, store by store

`sha512_mb/sha512_ctx_avx2_ni.c` and `sha256_mb/sha256_ctx_sse.c`. The two `hash_pad` differ in
where the clear starts: at the one bit, or behind it. Here a store outside the two blocks has no
result.

* `hashPad_padsTail`: both leave the last bytes of the message with their padding behind them, and
  `sha256_final` makes the same blocks.
-/

namespace IsalCrypto.Sha512Mb

open IsalCrypto.Lib IsalCrypto.Mb

/-! ## The code -/

/-- Stores of `n` bytes from `d` on, inside the array. -/
def storeAt {size : ℕ} (dst : Fin size → Byte) (d : ℕ) (src : ℕ → Byte) (n : ℕ) :
    Option (Fin size → Byte) :=
  if d + n ≤ size then some (memcpyAt dst d src n) else none

section Model

variable {D : Type*} (p : HashParams D)

/-- `hash_pad`, for the first byte of the clear counted from the end of the message. -/
def hashPadFrom (clear : BitVec 32) (padblock : Fin (2 * p.blockSize) → Byte)
    (totalLen : BitVec 64) : Option ((Fin (2 * p.blockSize) → Byte) × BitVec 32) := do
  let blockMask := BitVec.ofNat 64 (p.blockSize - 1)
  let i := (totalLen &&& blockMask).setWidth 32
  let padblock ← storeAt padblock (i + clear).toNat (fun _ => 0#8) p.blockSize
  let padblock ← storeAt padblock i.toNat (fun _ => 0x80#8) 1
  let i := i + ((blockMask &&& (0#64 - (totalLen + BitVec.ofNat 64 (p.padLengthFieldSize + 1)))) +
    1#64 + BitVec.ofNat 64 p.padLengthFieldSize).setWidth 32
  let padblock ←
    if p.padLengthFieldSize = 16 then storeAt padblock (i - 16#32).toNat (fun _ => 0#8) 8
    else some padblock
  let padblock ← storeAt padblock (i - 8#32).toNat (be64Bytes (totalLen <<< 3)) 8
  return (padblock, i >>> p.log2BlockSize)

end Model

/-- `hash_pad` of `sha256_ctx_sse.c`. -/
def sha256HashPad (padblock : Fin (2 * Sha256Mb.sha256Params.blockSize) → Byte)
    (totalLen : BitVec 64) :
    Option ((Fin (2 * Sha256Mb.sha256Params.blockSize) → Byte) × BitVec 32) :=
  hashPadFrom Sha256Mb.sha256Params 0#32 padblock totalLen

/-- `hash_pad` of `sha512_ctx_avx2_ni.c`. -/
def sha512HashPadAvx2Ni (padblock : Fin (2 * sha512Params.blockSize) → Byte)
    (totalLen : BitVec 64) :
    Option ((Fin (2 * sha512Params.blockSize) → Byte) × BitVec 32) :=
  hashPadFrom sha512Params 1#32 padblock totalLen

/-! ## No store is outside -/

section Stores

variable {D : Type*} {p : HashParams D}

theorem storeAt_eq {size : ℕ} (dst : Fin size → Byte) {d n : ℕ} (src : ℕ → Byte)
    (h : d + n ≤ size) : storeAt dst d src n = some (memcpyAt dst d src n) :=
  if_pos h

/-- Arrays that agree at a byte still do after the same store. -/
theorem arrayBytes_memcpyAt_congr {size : ℕ} {a b : Fin size → Byte} (d : ℕ) (src : ℕ → Byte)
    (n : ℕ) {k : ℕ} (h : arrayBytes a k = arrayBytes b k) :
    arrayBytes (memcpyAt a d src n) k = arrayBytes (memcpyAt b d src n) k := by
  rcases Nat.lt_or_ge k size with hk | hk
  · simp only [arrayBytes, dif_pos hk, memcpyAt] at h ⊢
    split
    · rfl
    · exact h
  · simp only [arrayBytes, dif_neg (Nat.not_lt.mpr hk)]

/-- Where the clear starts decides one byte, which the length field covers or which is behind the
padding. -/
theorem clear_bytes (buf : Fin (2 * p.blockSize) → Byte) {r c k : ℕ} (hc : c ≤ 1)
    (hr : r < p.blockSize) (hk : k ≠ r + p.blockSize) :
    arrayBytes (memcpyAt (memcpyAt buf (r + c) (fun _ => 0#8) p.blockSize) r
        (fun _ => 0x80#8) 1) k =
      arrayBytes (memcpyAt (memcpyAt buf r (fun _ => 0#8) p.blockSize) r
        (fun _ => 0x80#8) 1) k := by
  rcases lt_trichotomy k r with h | rfl | h
  · rw [arrayBytes_memcpyAt_lt h, arrayBytes_memcpyAt_lt (by omega), arrayBytes_memcpyAt_lt h,
      arrayBytes_memcpyAt_lt h]
  · rw [arrayBytes_memcpyAt (Nat.le_refl k) (Nat.lt_succ_self k) (by omega),
      arrayBytes_memcpyAt (Nat.le_refl k) (Nat.lt_succ_self k) (by omega)]
  · rw [arrayBytes_memcpyAt_ge (d := r) (n := 1) h, arrayBytes_memcpyAt_ge (d := r) (n := 1) h]
    rcases Nat.lt_or_ge k (r + p.blockSize) with hlt | hge
    · rw [arrayBytes_memcpyAt (by omega) (by omega) (by omega),
        arrayBytes_memcpyAt (Nat.le_of_lt h) hlt (by omega)]
    · rw [arrayBytes_memcpyAt_ge (by omega), arrayBytes_memcpyAt_ge hge]

/-- The stores are all inside, and they leave what `hashPad` does in the blocks to hash. -/
theorem hashPadFrom_eq (buf : Fin (2 * p.blockSize) → Byte) {clear : BitVec 32}
    (hclear : clear.toNat ≤ 1) (len : ℕ) :
    ∃ buf', hashPadFrom p clear buf (BitVec.ofNat 64 len) =
        some (buf', (hashPad p buf (BitVec.ofNat 64 len)).2) ∧
      ∀ k, k < p.blockSize * mdBlocks p.blockSize p.padLengthFieldSize (len % p.blockSize) →
        arrayBytes buf' k = arrayBytes (hashPad p buf (BitVec.ofNat 64 len)).1 k := by
  have hend := padEnd_blocks p len
  have hpad := padEnd_eq p len
  have hlow := toNat_low p len
  have hbounds := (padBlocks_bounds p len).2
  have hr := Nat.mod_lt len p.blockSize_pos
  have hB := p.blockSize_mem
  have hL := p.padLengthFieldSize_mem
  have hzeros := mdZeros_lt p.blockSize p.padLengthFieldSize len p.blockSize_pos
  have hle : p.blockSize * mdBlocks p.blockSize p.padLengthFieldSize (len % p.blockSize) ≤
      2 * p.blockSize := by
    rw [Nat.mul_comm]
    exact Nat.mul_le_mul_right _ hbounds
  rw [hend] at hle ⊢
  simp only [hashPadFrom, hashPad]
  rw [← hend] at hpad
  generalize (BitVec.ofNat 64 len &&& BitVec.ofNat 64 (p.blockSize - 1)).setWidth 32 = i at *
  generalize i + ((BitVec.ofNat 64 (p.blockSize - 1) &&&
      (0#64 - (BitVec.ofNat 64 len + BitVec.ofNat 64 (p.padLengthFieldSize + 1)))) +
        1#64 + BitVec.ofNat 64 p.padLengthFieldSize).setWidth 32 = e at *
  rw [hend] at hpad
  generalize mdZeros p.blockSize p.padLengthFieldSize len = z at *
  have hclr : (i + clear).toNat = i.toNat + clear.toNat := by
    rw [BitVec.toNat_add]
    omega
  have h8 : (e - 8#32).toNat = e.toNat - 8 := by
    rw [BitVec.toNat_sub, BitVec.toNat_ofNat]
    omega
  have h16 : p.padLengthFieldSize = 16 → (e - 16#32).toNat = e.toNat - 16 := by
    intro h16
    rw [BitVec.toNat_sub, BitVec.toNat_ofNat]
    omega
  have hhead : ∀ k, k ≠ len % p.blockSize + p.blockSize →
      arrayBytes (memcpyAt (memcpyAt buf (i + clear).toNat (fun _ => 0#8) p.blockSize) i.toNat
          (fun _ => 0x80#8) 1) k =
        arrayBytes (memcpyAt (memcpyAt buf i.toNat (fun _ => 0#8) p.blockSize) i.toNat
          (fun _ => 0x80#8) 1) k := fun k hk => by
    rw [hclr]
    exact clear_bytes buf hclear (by omega) (by omega)
  rw [storeAt_eq _ _ (by omega)]
  simp only [Option.bind_eq_bind, Option.bind_some]
  rw [storeAt_eq _ _ (by omega)]
  simp only [Option.bind_some]
  split
  · next hsize =>
    have h16 := h16 hsize
    rw [storeAt_eq _ _ (by omega)]
    simp only [Option.bind_some]
    rw [storeAt_eq _ _ (by omega)]
    refine ⟨_, rfl, fun k hk => ?_⟩
    rw [h8, h16]
    by_cases hlast : k = len % p.blockSize + p.blockSize
    · rcases Nat.lt_or_ge k (e.toNat - 8) with hlow | hhigh
      · rw [arrayBytes_memcpyAt_lt hlow, arrayBytes_memcpyAt_lt hlow,
          arrayBytes_memcpyAt (by omega) (by omega) (by omega),
          arrayBytes_memcpyAt (by omega) (by omega) (by omega)]
      · rw [arrayBytes_memcpyAt hhigh (by omega) (by omega),
          arrayBytes_memcpyAt hhigh (by omega) (by omega)]
    · exact arrayBytes_memcpyAt_congr _ _ _ (arrayBytes_memcpyAt_congr _ _ _ (hhead k hlast))
  · next hsize =>
    rw [storeAt_eq _ _ (by omega)]
    refine ⟨_, rfl, fun k hk => ?_⟩
    rw [h8]
    by_cases hlast : k = len % p.blockSize + p.blockSize
    · rw [arrayBytes_memcpyAt (by omega) (by omega) (by omega),
        arrayBytes_memcpyAt (by omega) (by omega) (by omega)]
    · exact arrayBytes_memcpyAt_congr _ _ _ (hhead k hlast)

/-- The number of blocks is the least that holds the tail, the one bit and the length. -/
theorem isLeast_mdBlocks (p : HashParams D) (len : ℕ) :
    IsLeast {n | len % p.blockSize + 1 + p.padLengthFieldSize ≤ n * p.blockSize}
      (mdBlocks p.blockSize p.padLengthFieldSize (len % p.blockSize)) := by
  have hend := padEnd_blocks p len
  have hzeros := mdZeros_lt p.blockSize p.padLengthFieldSize len p.blockSize_pos
  rw [Nat.mul_comm] at hend
  refine ⟨?_, fun n hn => ?_⟩
  · change len % p.blockSize + 1 + p.padLengthFieldSize ≤ _ * p.blockSize
    omega
  · -- one block less than the code has would end before the length does
    by_contra hlt
    have hmul := Nat.mul_le_mul_right p.blockSize (Nat.lt_of_not_le hlt)
    rw [Nat.succ_mul] at hmul
    have hn' : len % p.blockSize + 1 + p.padLengthFieldSize ≤ n * p.blockSize := hn
    omega

end Stores

/-- `pad` leaves the last bytes of a message of `totalLen` bytes, which the buffer begins with, and
puts their padding behind them, in the least number of blocks that holds it. -/
def PadsTail {D : Type*} (p : HashParams D)
    (pad : (Fin (2 * p.blockSize) → Byte) → BitVec 64 →
      Option ((Fin (2 * p.blockSize) → Byte) × BitVec 32)) : Prop :=
  ∀ (padblock : Fin (2 * p.blockSize) → Byte) (totalLen : BitVec 64), totalLen.toNat < 2 ^ 61 →
    ∃ padblock' n, pad padblock totalLen = some (padblock', n) ∧
      IsLeast {n | totalLen.toNat % p.blockSize + 1 + p.padLengthFieldSize ≤ n * p.blockSize}
        n.toNat ∧
      window (arrayBytes padblock') 0 (n.toNat * p.blockSize) =
        window (arrayBytes padblock) 0 (totalLen.toNat % p.blockSize) ++
          mdPadding p.blockSize p.padLengthFieldSize totalLen.toNat

theorem hashPadFrom_padsTail {D : Type*} (p : HashParams D) {clear : BitVec 32}
    (hclear : clear.toNat ≤ 1) : PadsTail p (hashPadFrom p clear) := by
  intro padblock totalLen hlen
  have htotal : BitVec.ofNat 64 totalLen.toNat = totalLen := by
    rw [BitVec.ofNat_toNat, BitVec.setWidth_eq]
  obtain ⟨padblock', hrun, hbytes⟩ := hashPadFrom_eq padblock hclear totalLen.toNat
  have hblocks := hashPad_blocks p padblock totalLen.toNat
  have hfinal := fun {i : ℕ} => hashPad_bytes (i := i) padblock (.inr hlen)
  rw [htotal] at hrun hbytes hblocks hfinal
  refine ⟨padblock', _, hrun, hblocks ▸ isLeast_mdBlocks p totalLen.toNat, ?_⟩
  have hend := padEnd_blocks p totalLen.toNat
  have hsize : (mdPadding p.blockSize p.padLengthFieldSize totalLen.toNat).length =
      1 + mdZeros p.blockSize p.padLengthFieldSize totalLen.toNat + p.padLengthFieldSize :=
    length_mdPadding ..
  have hbyte : ∀ i, i < totalLen.toNat % p.blockSize +
      (mdPadding p.blockSize p.padLengthFieldSize totalLen.toNat).length →
      arrayBytes padblock' i = if i < totalLen.toNat % p.blockSize then arrayBytes padblock i
        else stream (mdPadding p.blockSize p.padLengthFieldSize totalLen.toNat)
          (i - totalLen.toNat % p.blockSize) := fun i hi => by
    rw [hbytes i (by omega), hfinal (by omega)]
  have hcount : mdBlocks p.blockSize p.padLengthFieldSize (totalLen.toNat % p.blockSize) *
      p.blockSize = totalLen.toNat % p.blockSize +
        (mdPadding p.blockSize p.padLengthFieldSize totalLen.toNat).length := by
    rw [Nat.mul_comm, hend, hsize]
    omega
  rw [hblocks, hcount, window_add]
  congr 1
  · refine window_congr fun k _ hk => ?_
    rw [hbyte k (by omega), if_pos (by omega)]
  · calc window (arrayBytes padblock') (0 + totalLen.toNat % p.blockSize) _
        = window (stream (mdPadding p.blockSize p.padLengthFieldSize totalLen.toNat)) 0 _ := by
          refine window_eq_window fun k hk => ?_
          rw [hbyte _ (by omega), if_neg (by omega)]
          congr 1
          omega
      _ = _ := window_stream _

/-- `sha256_final` hashes the tail in the extra block with its padding. -/
theorem finalPad_window {D : Type*} {p : HashParams D} {ctx : HashCtx p}
    (buf : Fin (2 * p.blockSize) → Byte) (hlen : ctx.totalLength.toNat < 2 ^ 61)
    (hpart : ctx.partialBlockBufferLength.toNat = ctx.totalLength.toNat % p.blockSize) :
    window (arrayBytes (ctx.finalPad buf).1) 0 (ctx.finalPad buf).2 =
      window (arrayBytes ctx.partialBlockBuffer) 0 (ctx.totalLength.toNat % p.blockSize) ++
        mdPadding p.blockSize p.padLengthFieldSize ctx.totalLength.toNat := by
  have htotal : ctx.totalLength = BitVec.ofNat 64 ctx.totalLength.toNat := by
    rw [BitVec.ofNat_toNat, BitVec.setWidth_eq]
  have hzero : (0#32).toNat ≤ 1 := by decide
  obtain ⟨x, n, hx, _, hwin⟩ := hashPadFrom_padsTail p hzero ctx.partialBlockBuffer _ hlen
  obtain ⟨y, hy, hbytes⟩ := hashPadFrom_eq ctx.partialBlockBuffer hzero ctx.totalLength.toNat
  have hblocks := hashPad_blocks p ctx.partialBlockBuffer ctx.totalLength.toNat
  obtain ⟨hsize, hfinal⟩ := finalPad_eq buf htotal hpart
  rw [← htotal] at hy hbytes hblocks
  rw [hx] at hy
  cases hy
  have hcount : (ctx.finalPad buf).2 =
      (hashPad p ctx.partialBlockBuffer ctx.totalLength).2.toNat * p.blockSize :=
    hsize.trans (Nat.mul_comm ..)
  rw [← hwin, ← hcount]
  refine window_congr fun k _ hk => ?_
  rw [Nat.zero_add] at hk
  rw [hfinal k hk, hbytes k (by rwa [← hblocks, ← hsize])]

/-- Both variants pad the message, without a store outside the two blocks, and `sha256_final` of the
C manager hashes the blocks that `hash_pad` of SHA-256 makes: whatever its stack holds, for any
context that has counted as many bytes and has the same last ones. -/
theorem hashPad_padsTail :
    PadsTail Sha256Mb.sha256Params sha256HashPad ∧ PadsTail sha512Params sha512HashPadAvx2Ni ∧
      ∀ (padblock : Fin (2 * Sha256Mb.sha256Params.blockSize) → Byte)
        (ctx : HashCtx Sha256Mb.sha256Params) (buf : Fin (2 * Sha256Mb.sha256Params.blockSize) →
          Byte),
        ctx.totalLength.toNat < 2 ^ 61 →
          ctx.partialBlockBufferLength.toNat = ctx.totalLength.toNat % 64 →
          window (arrayBytes ctx.partialBlockBuffer) 0 (ctx.totalLength.toNat % 64) =
            window (arrayBytes padblock) 0 (ctx.totalLength.toNat % 64) →
          (sha256HashPad padblock ctx.totalLength).map
              (fun r => window (arrayBytes r.1) 0 (r.2.toNat * 64)) =
            some (window (arrayBytes (ctx.finalPad buf).1) 0 (ctx.finalPad buf).2) := by
  refine ⟨hashPadFrom_padsTail _ (by decide), hashPadFrom_padsTail _ (by decide), ?_⟩
  intro padblock ctx buf hlen hpart htail
  obtain ⟨x, n, hx, _, hwin⟩ := hashPadFrom_padsTail Sha256Mb.sha256Params
    (show (0#32).toNat ≤ 1 by decide) padblock _ hlen
  rw [finalPad_window buf hlen hpart, sha256HashPad, hx]
  refine congrArg some (hwin.trans ?_)
  exact congrArg (· ++ _) htail.symm

/-- The longest tail whose padding fits the first block. -/
theorem hashPad_padsTail_fifty_five :
    ∃ padblock n, sha256HashPad (fun _ => 7#8) 55#64 = some (padblock, n) ∧
      IsLeast {n | 55 % 64 + 1 + 8 ≤ n * 64} n.toNat ∧
      window (arrayBytes padblock) 0 (n.toNat * 64) =
        window (arrayBytes fun _ : Fin (2 * 64) => 7#8) 0 (55 % 64) ++ mdPadding 64 8 55 :=
  hashPad_padsTail.1 (fun _ => 7#8) 55#64 (by decide)

end IsalCrypto.Sha512Mb
