import IsalCrypto.Aes.GcmAarch64Hash

/-!
# Additional data on AArch64

`aes_gcm_init` reads the additional data as a first block, batches of 24 blocks, the blocks that are
left, and a last block that may be short.

* `readSmallDataStart_eq`: a short block is read with zeros behind it.
* `aadBlocks_eq`: the hash of the blocks times the hash key, and the last block.
* `aesGcmInit_aadHash`: the stored hash, for additional data of every length.
-/

namespace IsalCrypto.Aes.GcmAarch64

open IsalCrypto.Lib
open IsalCrypto.Aes.GcmSse (GcmContextData)

/-! ## Small data -/

section SmallData

variable {v m : BitVec 128} {src : ℕ → Byte} {a b k n p : ℕ}

theorem byteAt_ld1 (hk : k < 16) : byteAt (ld1 v p n src a) k =
    if p ≤ k ∧ k < p + n then src (a + (k - p)) else byteAt v k := by
  rw [ld1, byteAt_ofBytes (by simp), List.getD_eq_getElem?_getD, List.getElem?_map,
    List.getElem?_range hk]
  rfl

theorem byteAt_tbl (hk : k < 16) : byteAt (tbl v m) k =
    if (byteAt m k).toNat < 16 then byteAt v (byteAt m k).toNat else 0#8 := by
  rw [tbl, toBytes_eq_map, List.map_map, byteAt_ofBytes (by simp), List.getD_eq_getElem?_getD,
    List.getElem?_map, List.getElem?_range hk]
  rfl

/-- Where `read_small_data` leaves byte `k` of `n`. -/
def lanePos (n k : ℕ) : ℕ :=
  if k < n / 8 * 8 then k
  else if k < n / 4 * 4 then 8 + (k - n / 8 * 8)
  else if k < n / 2 * 2 then 12 + (k - n / 4 * 4)
  else 14 + (k - n / 2 * 2)

theorem length_readSmallDataTable : ∀ n < 16, (readSmallDataTable.getD n []).length = 16 := by
  decide

theorem readSmallDataTable_eq : ∀ n < 16, 0 < n → ∀ k < 16,
    (readSmallDataTable.getD n []).getD k 0#8 =
      if k < n then BitVec.ofNat 8 (lanePos n k) else 0xff#8 := by
  decide

/-- One element: its bytes follow those already read, and the elements before it are kept. -/
theorem readSmallLane_spec (src : ℕ → Byte) (hp : p + 2 * 2 ^ b = 16) {s : BitVec 128 × ℕ}
    (hs : s.2 = a + n / (2 * 2 ^ b) * (2 * 2 ^ b)) :
    (readSmallLane src n b p s).2 = a + n / 2 ^ b * 2 ^ b ∧
      (∀ k, n / (2 * 2 ^ b) * (2 * 2 ^ b) ≤ k → k < n / 2 ^ b * 2 ^ b →
        byteAt (readSmallLane src n b p s).1 (p + (k - n / (2 * 2 ^ b) * (2 * 2 ^ b))) =
          src (a + k)) ∧
      ∀ k < p, byteAt (readSmallLane src n b p s).1 k = byteAt s.1 k := by
  have hsplit : n / 2 ^ b * 2 ^ b = n / (2 * 2 ^ b) * (2 * 2 ^ b) + n / 2 ^ b % 2 * 2 ^ b := by
    rw [Nat.mul_comm 2 (2 ^ b), ← Nat.div_div_eq_div_mul, ← Nat.mul_assoc, Nat.mul_right_comm,
      ← Nat.add_mul, Nat.div_add_mod']
  have hbit : n.testBit b = decide (n / 2 ^ b % 2 = 1) := Nat.testBit_eq_decide_div_mod_eq
  unfold readSmallLane
  generalize 2 ^ b = w at *
  rcases Nat.mod_two_eq_zero_or_one (n / w) with hzero | hone
  · rw [hzero, Nat.zero_mul, Nat.add_zero] at hsplit
    rw [hbit, hzero, hsplit]
    exact ⟨hs, fun k hk hk' => absurd hk (Nat.not_le.mpr hk'), fun _ _ => rfl⟩
  · rw [hone, Nat.one_mul] at hsplit
    rw [hbit, hone, hsplit]
    refine ⟨?_, fun k hk hk' => ?_, fun k hk => ?_⟩
    · exact (congrArg (· + w) hs).trans (Nat.add_assoc ..)
    · refine (byteAt_ld1 (by omega)).trans ?_
      rw [if_pos (by omega), hs]
      exact congrArg src (by omega)
    · exact (byteAt_ld1 (by omega)).trans (if_neg (by omega))

/-- A short block is read with zeros behind it, whatever the register held. -/
theorem readSmallDataStart_eq (src : ℕ → Byte) (a : ℕ) (hpos : 0 < n) (hn : n < 16)
    (dest : BitVec 128) : readSmallDataStart src a n dest = ofBytes (window src a n) := by
  have hzero : n / (2 * 2 ^ 3) * (2 * 2 ^ 3) = 0 := by omega
  obtain ⟨hadr₃, hlane₃, -⟩ := readSmallLane_spec src (a := a) (n := n) (b := 3) (p := 0) rfl
    (s := (dest, a)) (by rw [hzero]; rfl)
  unfold readSmallDataStart
  dsimp only
  generalize readSmallLane src n 3 0 (dest, a) = s₃ at *
  obtain ⟨hadr₂, hlane₂, hkeep₂⟩ := readSmallLane_spec src (b := 2) (p := 8) rfl hadr₃
  generalize readSmallLane src n 2 8 s₃ = s₂ at *
  obtain ⟨hadr₁, hlane₁, hkeep₁⟩ := readSmallLane_spec src (b := 1) (p := 12) rfl hadr₂
  generalize readSmallLane src n 1 12 s₂ = s₁ at *
  obtain ⟨-, hlane₀, hkeep₀⟩ := readSmallLane_spec src (b := 0) (p := 14) rfl hadr₁
  generalize readSmallLane src n 0 14 s₁ = s₀ at *
  -- every byte is in its element
  have hbytes : ∀ k < n, lanePos n k < 16 ∧
      byteAt s₀.1 (lanePos n k) = src (a + k) := fun k hk => by
    unfold lanePos
    split
    · next h8 =>
      refine ⟨by omega, ?_⟩
      rw [hkeep₀ k (by omega), hkeep₁ k (by omega), hkeep₂ k (by omega), ← hlane₃ k (by omega) h8]
      exact congrArg _ (by omega)
    split
    · next h8 h4 =>
      refine ⟨by omega, ?_⟩
      rw [hkeep₀ _ (by omega), hkeep₁ _ (by omega), ← hlane₂ k (by omega) h4]
      exact congrArg _ (by omega)
    split
    · next h4 h2 =>
      refine ⟨by omega, ?_⟩
      rw [hkeep₀ _ (by omega), ← hlane₁ k (by omega) h2]
      exact congrArg _ (by omega)
    · next h2 =>
      refine ⟨by omega, ?_⟩
      rw [← hlane₀ k (by omega) (by omega)]
      exact congrArg _ (by omega)
  refine eq_of_byteAt_eq fun k hk => ?_
  have hlen := length_readSmallDataTable n hn
  rw [byteAt_tbl hk, byteAt_ofBytes (Nat.le_of_eq hlen), readSmallDataTable_eq n hn hpos k hk,
    byteAt_ofBytes_window (Nat.le_of_lt hn)]
  split
  · next hlt =>
    obtain ⟨hpos16, hbyte⟩ := hbytes k hlt
    have hnat : (BitVec.ofNat 8 (lanePos n k)).toNat = lanePos n k := by
      rw [BitVec.toNat_ofNat]
      omega
    rw [hnat, if_pos hpos16, hbyte]
  · rfl

end SmallData

/-! ## The hash of the additional data -/

section Aad

variable {keys aad : ℕ → Byte} {h : BitVec 128} {s : HashRegs} {m n q : ℕ}

/-- The registers hold the hash key itself. -/
structure HoldsKey (keys : ℕ → Byte) (s : HashRegs) : Prop where
  hashkey : s.hashkey = ldQ keys (32 * (hashkeyTotalNum - 1))
  hashkeyExt : s.hashkeyExt = ldQ keys (32 * (hashkeyTotalNum - 1) + 16)

theorem HoldsPair.holdsKey (hpair : HoldsPair keys (hashkeyTotalNum - 1) s) : HoldsKey keys s :=
  ⟨hpair.hashkey, hpair.hashkeyExt⟩

/-- The loop over the batches: what a batch keeps holds after it, for the blocks that are done
then. -/
theorem ghashLoop_induct {p : ℕ → HashRegs → Prop}
    (hstep : ∀ q s, p q s → p (q + hashkeyTotalNum) (ghashBlockN keys aad hashkeyTotalNum s))
    (hs : p q s) : (ghashLoop keys aad m s).1 < hashkeyTotalNum ∧
      ∃ r, r + (ghashLoop keys aad m s).1 = q + m ∧ p r (ghashLoop keys aad m s).2 := by
  induction m using Nat.strongRecOn generalizing q s with
  | _ m ih =>
    unfold ghashLoop
    split
    · next hle => exact ⟨Nat.lt_of_le_of_lt hle (by decide), q, rfl, hs⟩
    · next hgt =>
      have hge : hashkeyTotalNum ≤ m := by
        unfold hashkeyTotalNum at *
        omega
      obtain ⟨hlt, r, hr, hloop⟩ :=
        ih (m - hashkeyTotalNum) (Nat.sub_lt (by omega) (by decide)) (hstep q s hs)
      exact ⟨hlt, r, by omega, hloop⟩

theorem ghashLoop_spec (hkeys : KeysFor keys h) (habs : Absorbed aad h 0#128 q s)
    (hkey : HoldsKey keys s) :
    (ghashLoop keys aad m s).1 < hashkeyTotalNum ∧
      ∃ r, r + (ghashLoop keys aad m s).1 = q + m ∧
        Absorbed aad h 0#128 r (ghashLoop keys aad m s).2 ∧
          HoldsKey keys (ghashLoop keys aad m s).2 :=
  ghashLoop_induct (p := fun q s => Absorbed aad h 0#128 q s ∧ HoldsKey keys s) (fun _ _ hs =>
    (ghashBlockN_absorbs hkeys hs.1).imp_right HoldsPair.holdsKey) ⟨habs, hkey⟩

/-- The blocks after the batches, and the last one. -/
theorem leftBlocks_eq (hkeys : KeysFor keys h) (habs : Absorbed aad h 0#128 q s)
    (hadr : s.hashkeyAdr = 32 * (hashkeyTotalNum - 1 - (m + 1))) (hm : m + 1 < hashkeyTotalNum)
    (leftDat : BitVec 128) :
    ev (ghashMultFinalRound { ghashMultRoundNoload
      (leftLoop keys aad m (ghashMultInitRound keys aad 2 s))
      with aadhash := rbit leftDat }).aadhash =
        gfEl (ghashFrom h 0#128 (streamBlock aad) (q + m + 2) ^^^ byteSwap leftDat) := by
  obtain ⟨hsums, hpair⟩ := habs.initRound (p := m + 1) (c := 2) hkeys hadr (by omega) (by decide)
  obtain ⟨hlast, hlastPair⟩ := hsums.leftLoop hkeys hpair (by omega)
  generalize leftLoop keys aad m (ghashMultInitRound keys aad 2 s) = s₁ at *
  have hlt : hashkeyTotalNum - 1 < hashkeyTotalNum := by decide
  have hparts := parts_roundNoload (hlastPair.ext_eq hkeys hlt)
  have hsum := hlast.parts
  rw [hlastPair.hashkey, hkeys.ev_hashkey hlt, Nat.sub_sub_self (by decide), hsum, pow_one]
    at hparts
  rw [ev_finalRound, parts_congr (s := ghashMultRoundNoload s₁) (by dsimp only) (by dsimp only)
    (by dsimp only), hparts, ev_rbit, gfEl_xor, ghashFrom_succ_eq, gfEl_gfMul,
    show q + 1 + m = q + m + 1 by omega, add_comm]

/-- All blocks before the last one are multiplied by the hash key. -/
theorem aadBlocks_eq (hkeys : KeysFor keys h) (hkey : HoldsKey keys s) (hm : 0 < m)
    (leftDat : BitVec 128) : ev (aadBlocks keys aad m leftDat s) =
      gfEl (ghashFrom h 0#128 (streamBlock aad) m ^^^ byteSwap leftDat) := by
  unfold aadBlocks
  dsimp only
  generalize hs : nextDat aad { s with datAdr := 0 } = s₁
  have habs : Absorbed aad h 0#128 0 s₁ := by
    subst hs
    constructor
    · rw [aadhash_nextDat, ev_rbit, ghashDeferred, ghashFrom, BitVec.zero_xor, streamBlock, ldQ]
    · rw [datAdr_nextDat]
  have hkey₁ : HoldsKey keys s₁ := by
    subst hs
    constructor
    · dsimp only [nextDat]
      exact hkey.hashkey
    · dsimp only [nextDat]
      exact hkey.hashkeyExt
  obtain ⟨hlt, r, hr, hloop, hkey₂⟩ := ghashLoop_spec (m := m - 1) hkeys habs hkey₁
  generalize ghashLoop keys aad (m - 1) s₁ = t at *
  obtain ⟨left, s₂⟩ := t
  dsimp only at *
  split
  · next hzero =>
    rw [ghashBlockReg_absorbs hkeys leftDat hkey₂.hashkey hkey₂.hashkeyExt, hloop.aadhash, gfEl_xor,
      show m = r + 1 by omega, ghashFrom_succ_eq, gfEl_gfMul]
  · next hne =>
    obtain ⟨k, rfl⟩ : ∃ k, left = k + 1 := ⟨left - 1, by omega⟩
    rw [Nat.add_sub_cancel]
    generalize hreset :
      ({ s₂ with hashkeyAdr := (hashkeyTotalNum - 1 - (k + 1)) <<< 5 } : HashRegs) = s₃
    have habs₃ : Absorbed aad h 0#128 r s₃ := by
      subst hreset
      exact ⟨hloop.aadhash, hloop.datAdr⟩
    have hadr : s₃.hashkeyAdr = 32 * (hashkeyTotalNum - 1 - (k + 1)) := by
      subst hreset
      dsimp only
      rw [Nat.shiftLeft_eq, Nat.mul_comm]
    rw [leftBlocks_eq hkeys habs₃ hadr hlt, show m = r + k + 2 by omega]

/-- What is stored: the blocks before the last one are multiplied, and the last one is added. -/
theorem aadHash_eq (hkeys : KeysFor keys h) (aadLen : BitVec 64) (hn : aadLen.toNat = n)
    (hpos : 0 < n) (leftDat : BitVec 128) (s : HashRegs) :
    aadHash keys aad aadLen leftDat s =
      (ghashFrom h 0#128 (streamBlock aad) ((n - 1) / 16) ^^^
        byteSwap
          (ofBytes (window aad (16 * ((n - 1) / 16)) (n - 16 * ((n - 1) / 16))))).reverse := by
  have hne : aadLen ≠ 0#64 := by
    rintro rfl
    rw [BitVec.toNat_ofNat] at hn
    omega
  have hleft : (aadLen &&& 15#64).toNat = n % 16 := by
    rw [BitVec.toNat_and, hn]
    exact Nat.and_two_pow_sub_one_eq_mod n 4
  have hshift : (aadLen >>> 4).toNat = n / 16 := by
    rw [BitVec.toNat_ushiftRight, hn, Nat.shiftRight_eq_div_pow]
  have hmul : ∀ j : ℕ, j <<< 4 = 16 * j := fun j => by rw [Nat.shiftLeft_eq, Nat.mul_comm]
  unfold aadHash
  dsimp only
  rw [if_neg hne, hleft, hshift, hmul, hmul]
  generalize hs : ({ s with
    hashkey := ldQ keys ((hashkeyTotalNum - 1) * 32)
    hashkeyExt := ldQ keys ((hashkeyTotalNum - 1) * 32 + 16) } : HashRegs) = s₁
  have hkey : HoldsKey keys s₁ := by
    subst hs
    exact ⟨rfl, rfl⟩
  -- the blocks before the last one, whatever the last one is
  have hblocks : ∀ m d, (if m = 0 then rbit d else aadBlocks keys aad m d s₁) =
      (ghashFrom h 0#128 (streamBlock aad) m ^^^ byteSwap d).reverse := fun m d => by
    split
    · next hzero => rw [hzero, ghashFrom, BitVec.zero_xor, rbit_eq]
    · next hpos => exact ev_injective (by rw [aadBlocks_eq hkeys hkey (by omega), ev_reverse])
  rw [hblocks, hblocks]
  split
  · next hzero =>
    rw [ldQ, show n / 16 - 1 = (n - 1) / 16 by omega, show n - 16 * ((n - 1) / 16) = 16 by omega]
  · next hne =>
    rw [readSmallDataStart_eq aad _ (by omega) (by omega), show (n - 1) / 16 = n / 16 by omega,
      show n - 16 * (n / 16) = n % 16 by omega]

theorem aadHash_zero (keys aad : ℕ → Byte) (leftDat : BitVec 128) (s : HashRegs) :
    aadHash keys aad 0#64 leftDat s = 0#128 := by
  unfold aadHash
  dsimp only
  rw [if_pos rfl]

/-- The padded message is the blocks before the last one, and the last one. -/
theorem ghash_pad16_window (h : BitVec 128) (c : ℕ → Byte) (hpos : 0 < n) :
    ghash h (pad16 (window c 0 n)) = gfMul (ghashFrom h 0#128 (streamBlock c) ((n - 1) / 16) ^^^
      byteSwap (ofBytes (window c (16 * ((n - 1) / 16)) (n - 16 * ((n - 1) / 16))))) h := by
  rw [ghash, ghash_window_pad16, ghashPadded]
  split
  · next hmod =>
    rw [ghashAt_of_mod hmod,
      show n / 16 = (n - 1) / 16 + 1 by omega, ghashFrom_succ_eq, ghashDeferred, streamBlock,
      show n - 16 * ((n - 1) / 16) = 16 by omega]
  · next hmod =>
    rw [ghashAt, streamRest, show (n - 1) / 16 = n / 16 by omega,
      show n - 16 * (n / 16) = n % 16 by omega]

theorem ghash_window_blocks (h : BitVec 128) (c : ℕ → Byte) (q : ℕ) :
    ghash h (window c 0 (16 * q)) = ghashFrom h 0#128 (streamBlock c) q := by
  rw [ghash, length_window, Nat.mul_div_cancel_left q (by decide)]
  refine ghashFrom_congr fun j hj => ?_
  have hwindow := byteSwap_block_window (c := c) (n := 16 * q) (q := j) (by omega) []
  rwa [List.append_nil] at hwindow

end Aad

/-- `aes_gcm_init` on the pairs that `aes_gcm_precomp` stores leaves the hash of the padded
additional data with the multiplication for the last block to come, bit-reflected. -/
theorem aesGcmInit_aadHash (aes : BitVec 128 → BitVec 128) (mem aad iv : ℕ → Byte)
    (aadLen : BitVec 64) (leftDat : BitVec 128) (s : HashRegs) (context : GcmContextData) :
    let h := byteSwap (aes 0#128)
    let keys := aesGcmPrecomp aes mem
    let x := (aesGcmInit keys aad iv aadLen leftDat s context).aadHash.reverse
    let n := aadLen.toNat
    let q := (n - 1) / 16
    (∀ k < 24, ldQ keys (32 * k) = (gfPow h (24 - k)).reverse ∧
      ldQ keys (32 * k + 16) = ext8 (ldQ keys (32 * k)) (ldQ keys (32 * k))) ∧
    gfMul x h = ghash h (pad16 (window aad 0 n)) ∧
    (n = 0 → x = 0#128) ∧
    (0 < n → x = ghash h (window aad 0 (16 * q)) ^^^
      byteSwap (ofBytes (window aad (16 * q) (n - 16 * q)))) := by
  have hkeys := aesGcmPrecomp_keysFor aes mem
  dsimp only [aesGcmInit]
  generalize byteSwap (aes 0#128) = h at *
  generalize aesGcmPrecomp aes mem = keys at *
  refine ⟨fun k hk => ⟨hkeys.hashkey k hk, hkeys.hashkeyExt k hk⟩, ?_, fun hzero => ?_,
    fun hpos => ?_⟩
  · rcases Nat.eq_zero_or_pos aadLen.toNat with hzero | hpos
    · have hlen : aadLen = 0#64 := BitVec.eq_of_toNat_eq hzero
      have hempty : ghash h (pad16 (window aad 0 0)) = 0#128 := by
        rw [ghash, ghash_window_pad16, ghashPadded, if_pos rfl, ghashAt_of_mod rfl]
        rfl
      rw [hzero, hempty, hlen, aadHash_zero]
      exact gfMul_eq_zero_iff.mpr (.inl (BitVec.reverse_eq_zero_iff.mpr rfl))
    · rw [aadHash_eq hkeys aadLen rfl hpos, BitVec.reverse_reverse_eq,
        ghash_pad16_window h aad hpos]
  · have hlen : aadLen = 0#64 := BitVec.eq_of_toNat_eq hzero
    rw [hlen, aadHash_zero]
    exact BitVec.reverse_eq_zero_iff.mpr rfl
  · rw [aadHash_eq hkeys aadLen rfl hpos, BitVec.reverse_reverse_eq, ghash_window_blocks]

end IsalCrypto.Aes.GcmAarch64
