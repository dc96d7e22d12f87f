import IsalCrypto.Aes.Keyexp192

/-!
# AES key expansion on AArch64

`aes/aarch64/keyexp_128_aarch64_aes.S`, `keyexp_192_aarch64_aes.S` and `keyexp_256_aarch64_aes.S`:
the words of a round are kept in general registers, and the S-box is `aese` of a vector whose four
words are equal.

* `aesKeyexp128Aes_exported`, `aesKeyexp192Aes_exported`, `aesKeyexp256Aes_exported`: the two arrays
  are those that the functions for x86 leave.
-/

namespace IsalCrypto.Aes.KeyexpAarch64

open IsalCrypto.Lib IsalCrypto.Lib.Aes

/-! ## Instructions -/

/-- `str` of a word register. -/
def strW (mem : ℕ → Byte) (a : ℕ) (w : BitVec 32) : ℕ → Byte := fun k =>
  if a ≤ k ∧ k < a + 4 then wordByte w (k - a) else mem k

/-- `stp` of two word registers. -/
def stpW (mem : ℕ → Byte) (a : ℕ) (w w' : BitVec 32) : ℕ → Byte := strW (strW mem a w) (a + 4) w'

/-- `stp` of two vectors. -/
def stpQ (mem : ℕ → Byte) (a : ℕ) (v v' : BitVec 128) : ℕ → Byte := stQ (stQ mem a v) (a + 16) v'

/-- `dup v.4s, w`. -/
def dup (w : BitVec 32) : BitVec 128 := packDwords fun _ => w

/-- `vdest.s[0]` after `dup vsrc.4s,w`, `mov vdest.16b,vzero.16b` and `aese vdest.16b,vsrc.16b`. -/
def subDup (w : BitVec 32) : BitVec 32 := dword (aese 0#128 (dup w)) 0

/-! ## The functions -/

/-- The assembler's symbol `rcon` in round `off`. -/
def rconSym : ℕ → ℕ
  | 0 => 1
  | off + 1 => (rconSym off <<< 1) ^^^ ((rconSym off >>> 7) * 0x11b)

/-- The registers `w_tmp0`, `w_tmp1` and so on, and the array. -/
structure KeyexpRegs where
  wTmp : List (BitVec 32)
  expKeyEnc : ℕ → Byte

/-- A word register. -/
def KeyexpRegs.tmp (s : KeyexpRegs) (i : ℕ) : BitVec 32 := s.wTmp.getD i 0#32

/-- What the macros do before the first round, for a key of `nk` words. -/
def keyexpStart (nk : ℕ) (key expKeyEnc : ℕ → Byte) : KeyexpRegs :=
  let w := fun i => load32 key (4 * i)
  { wTmp := (List.range nk).map w
    expKeyEnc :=
      (List.range (nk / 2)).foldl (fun mem i => stpW mem (8 * i) (w (2 * i)) (w (2 * i + 1)))
        expKeyEnc }

/-- `round_128`. -/
def round128 (off : ℕ) (s : KeyexpRegs) : KeyexpRegs :=
  let w0 := BitVec.ofNat 32 (rconSym off)
  let wTmp4 := subDup (s.tmp 3)
  let wTmp0 := s.tmp 0 ^^^ w0 ^^^ wTmp4.rotateRight 8
  let wTmp1 := wTmp0 ^^^ s.tmp 1
  let wTmp2 := wTmp1 ^^^ s.tmp 2
  let wTmp3 := wTmp2 ^^^ s.tmp 3
  { wTmp := [wTmp0, wTmp1, wTmp2, wTmp3]
    expKeyEnc := stpW (stpW s.expKeyEnc (16 * off + 16) wTmp0 wTmp1)
      (16 * off + 8 + 16) wTmp2 wTmp3 }

/-- `round_192`. -/
def round192 (off : ℕ) (s : KeyexpRegs) : KeyexpRegs :=
  let w0 := BitVec.ofNat 32 (rconSym off)
  let wTmp := subDup (s.tmp 5)
  let wTmp0 := s.tmp 0 ^^^ w0 ^^^ wTmp.rotateRight 8
  let wTmp1 := wTmp0 ^^^ s.tmp 1
  let wTmp2 := wTmp1 ^^^ s.tmp 2
  let wTmp3 := wTmp2 ^^^ s.tmp 3
  let mem := stpW (stpW s.expKeyEnc (24 * (off + 1)) wTmp0 wTmp1) (24 * (off + 1) + 8) wTmp2 wTmp3
  if off < 7 then
    let wTmp4 := s.tmp 4 ^^^ wTmp3
    let wTmp5 := s.tmp 5 ^^^ wTmp4
    ⟨[wTmp0, wTmp1, wTmp2, wTmp3, wTmp4, wTmp5], stpW mem (24 * (off + 1) + 16) wTmp4 wTmp5⟩
  else ⟨[wTmp0, wTmp1, wTmp2, wTmp3, s.tmp 4, s.tmp 5], mem⟩

/-- `round_256`. -/
def round256 (off : ℕ) (s : KeyexpRegs) : KeyexpRegs :=
  let w0 := BitVec.ofNat 32 (rconSym off)
  let wTmp := subDup (s.tmp 7)
  let wTmp0 := s.tmp 0 ^^^ w0 ^^^ wTmp.rotateRight 8
  let wTmp1 := wTmp0 ^^^ s.tmp 1
  let wTmp2 := wTmp1 ^^^ s.tmp 2
  let wTmp3 := wTmp2 ^^^ s.tmp 3
  let mem := stpW (stpW s.expKeyEnc (32 * (off + 1)) wTmp0 wTmp1) (32 * (off + 1) + 8) wTmp2 wTmp3
  if off < 6 then
    let wTmp4 := s.tmp 4 ^^^ subDup wTmp3
    let wTmp5 := s.tmp 5 ^^^ wTmp4
    let wTmp6 := s.tmp 6 ^^^ wTmp5
    let wTmp7 := s.tmp 7 ^^^ wTmp6
    ⟨[wTmp0, wTmp1, wTmp2, wTmp3, wTmp4, wTmp5, wTmp6, wTmp7],
      stpW (stpW mem (32 * (off + 1) + 16) wTmp4 wTmp5) (32 * (off + 1) + 24) wTmp6 wTmp7⟩
  else ⟨[wTmp0, wTmp1, wTmp2, wTmp3, s.tmp 4, s.tmp 5, s.tmp 6, s.tmp 7], mem⟩

/-- The rounds 0 to `n - 1`. -/
def keyexpRounds (round : ℕ → KeyexpRegs → KeyexpRegs) (s : KeyexpRegs) : ℕ → KeyexpRegs
  | 0 => s
  | off + 1 => round off (keyexpRounds round s off)

/-- Round keys `i` and `i + 1` in `export_dec_key`. -/
def exportPair (rounds : ℕ) (encKey decKey : ℕ → Byte) (i : ℕ) : ℕ → Byte :=
  stpQ decKey (16 * (rounds - 1 - (i + 1))) (aesimc (ldQ encKey (16 * (i + 1))))
    (aesimc (ldQ encKey (16 * i)))

/-- `export_dec_key` for an odd number of round keys. -/
def exportDecKey (rounds : ℕ) (encKey decKey : ℕ → Byte) : ℕ → Byte :=
  let decKey := stQ decKey (16 * (rounds - 1)) (ldQ encKey 0)
  let decKey := stQ decKey 0 (ldQ encKey (16 * (rounds - 1)))
  let pairs := (rounds - 3) / 2
  let decKey :=
    (List.range pairs).foldl (fun decKey j => exportPair rounds encKey decKey (2 * j + 1)) decKey
  stQ decKey (16 * (rounds - 1 - (2 * pairs + 1))) (aesimc (ldQ encKey (16 * (2 * pairs + 1))))

/-- The three functions: `n` rounds for a key of `nk` words, then the decryption keys. -/
def aesKeyexpAes (nk n : ℕ) (round : ℕ → KeyexpRegs → KeyexpRegs) (key encKeys decKeys : ℕ → Byte) :
    (ℕ → Byte) × (ℕ → Byte) :=
  let enc := (keyexpRounds round (keyexpStart nk key encKeys) n).expKeyEnc
  (enc, exportDecKey (nk + 7) enc decKeys)

/-- `aes_keyexp_128_aes`: the two arrays afterwards. -/
def aesKeyexp128Aes := aesKeyexpAes 4 10 round128

/-- `aes_keyexp_192_aes`. -/
def aesKeyexp192Aes := aesKeyexpAes 6 8 round192

/-- `aes_keyexp_256_aes`. -/
def aesKeyexp256Aes := aesKeyexpAes 8 7 round256

/-! ## The words of a round -/

section Words

variable {mem : ℕ → Byte} {i j : ℕ} {w w' : BitVec 32}

theorem subDup_eq (w : BitVec 32) : subDup w = subWord w := by
  have hcolumn : ∀ c < 4, column (dup w) c = w := fun c hc => dword_packDwords _ hc
  have hbyte : ∀ r < 4, ∀ c < 4, stateByte (shiftRows (dup w)) r c =
      wordByte w r := fun r hr c hc => by
    unfold shiftRows
    rw [stateByte_ofState _ hr hc, stateByte, hcolumn _ (Nat.mod_lt _ (by decide))]
  unfold subDup aese
  rw [BitVec.zero_xor]
  refine eq_of_wordByte_eq fun r hr => ?_
  have hsub : wordByte (subWord w) r = sbox (wordByte w r) :=
    wordByte_packBytes (fun r => sbox (wordByte w r)) hr
  rw [hsub, ← hbyte r hr 0 (by decide)]
  exact stateByte_ofState _ hr (by decide)

/-- Two words are stored at word `j`. -/
theorem load32_stpW (mem : ℕ → Byte) (w w' : BitVec 32) {a : ℕ} (ha : a = 4 * j) (i : ℕ) :
    load32 (stpW mem a w w') (4 * i) = if i = j then w else if i = j + 1 then w'
      else load32 mem (4 * i) := by
  refine eq_of_wordByte_eq fun r hr => ?_
  rw [wordByte_load32 _ _ hr]
  unfold stpW strW
  by_cases hfirst : i = j
  · rw [if_pos hfirst, if_neg (by omega), if_pos (by omega), show 4 * i + r - a = r by omega]
  · by_cases hsecond : i = j + 1
    · rw [if_neg hfirst, if_pos hsecond, if_pos (by omega), show 4 * i + r - (a + 4) = r by omega]
    · rw [if_neg hfirst, if_neg hsecond, if_neg (by omega), if_neg (by omega),
        wordByte_load32 _ _ hr]

end Words

section Rounds

variable {nk m k : ℕ} {key : ℕ → BitVec 32} {tmp t : ℕ → BitVec 32}

/-- The words that a round makes of those of the round before. -/
theorem keyWord_round (hnk : 0 < nk) (hm : m ≤ nk)
    (htmp : ∀ r < nk, tmp r = keyWord nk key (nk * k + r))
    (hzero : t 0 = tmp 0 ^^^ (subWord (rotWord (tmp (nk - 1))) ^^^ rcon (k + 1)))
    (hsucc : ∀ r, r + 1 < m →
      t (r + 1) = tmp (r + 1) ^^^ if 6 < nk ∧ r + 1 = 4 then subWord (t r) else t r)
    {r : ℕ} (hr : r < m) : t r = keyWord nk key (nk * (k + 1) + r) := by
  have hnext : nk * (k + 1) = nk * k + nk := Nat.mul_succ nk k
  induction r with
  | zero =>
    have h := keyWord_add key hnk (nk * k)
    rw [← hnext, keyTemp, Nat.mul_mod_right, if_pos rfl, Nat.mul_div_cancel_left _ hnk] at h
    rw [hzero, htmp 0 hnk, htmp (nk - 1) (by omega), Nat.add_zero (nk * (k + 1)), h,
      show nk * (k + 1) - 1 = nk * k + (nk - 1) by omega]
    rfl
  | succ r ih =>
    have h := keyWord_add key hnk (nk * k + (r + 1))
    have hindex : nk * k + (r + 1) + nk = nk * (k + 1) + (r + 1) := by omega
    have hmod : (nk * (k + 1) + (r + 1)) % nk = r + 1 := by
      rw [Nat.mul_add_mod, Nat.mod_eq_of_lt (by omega)]
    rw [hindex, keyTemp, hmod, if_neg (Nat.succ_ne_zero r)] at h
    rw [hsucc r hr, htmp (r + 1) (by omega), ih (by omega), h]
    rfl

theorem ofNat_rconSym : ∀ off < 10, BitVec.ofNat 32 (rconSym off) = rcon (off + 1) := by decide

/-- The first `n` words are in memory. -/
def Stored (nk : ℕ) (key : ℕ → BitVec 32) (n : ℕ) (mem : ℕ → Byte) : Prop :=
  ∀ i < n, load32 mem (4 * i) = keyWord nk key i

/-- The next two words are stored. -/
theorem Stored.stpW {mem : ℕ → Byte} {n a : ℕ} {w w' : BitVec 32} (h : Stored nk key n mem)
    (ha : a = 4 * n) (hw : w = keyWord nk key n) (hw' : w' = keyWord nk key (n + 1)) :
    Stored nk key (n + 2) (stpW mem a w w') := by
  intro i hi
  rw [load32_stpW mem w w' ha]
  split
  · next hfirst => rw [hfirst, hw]
  split
  · next hsecond => rw [hsecond, hw']
  · exact h i (by omega)

/-- What holds before round `k`: the last words in the registers, and all so far in memory. -/
structure RoundWords (nk : ℕ) (key : ℕ → BitVec 32) (k : ℕ) (s : KeyexpRegs) : Prop where
  tmp : ∀ r < nk, s.tmp r = keyWord nk key (nk * k + r)
  stored : Stored nk key (nk * k + nk) s.expKeyEnc

/-- The first word. -/
theorem firstWord (a x w : BitVec 32) :
    a ^^^ x ^^^ (subDup w).rotateRight 8 = a ^^^ (subWord (rotWord w) ^^^ x) := by
  rw [subDup_eq, subWord_rotWord, BitVec.xor_assoc, BitVec.xor_comm x]
  rfl

section Steps

variable {s : KeyexpRegs}

theorem RoundWords.start (nk : ℕ) (hnk : nk % 2 = 0) (key expKeyEnc : ℕ → Byte) :
    RoundWords nk (keyOf key) 0 (keyexpStart nk key expKeyEnc) := by
  have hstore : ∀ n ≤ nk / 2, Stored nk (keyOf key) (2 * n) ((List.range n).foldl (fun mem i =>
      stpW mem (8 * i) (load32 key (4 * (2 * i))) (load32 key (4 * (2 * i + 1)))) expKeyEnc) := by
    intro n
    induction n with
    | zero => exact fun _ i hi => absurd hi (Nat.not_lt_zero i)
    | succ n ih =>
      intro hn
      rw [List.range_succ, List.foldl_append, List.foldl_cons, List.foldl_nil]
      have hfirst : keyWord nk (keyOf key) (2 * n) = load32 key (4 * (2 * n)) :=
        keyWord_of_lt (by omega)
      have hsecond : keyWord nk (keyOf key) (2 * n + 1) = load32 key (4 * (2 * n + 1)) :=
        keyWord_of_lt (by omega)
      exact (ih (by omega)).stpW (by omega) hfirst.symm hsecond.symm
  refine ⟨fun r hr => ?_, ?_⟩
  · unfold KeyexpRegs.tmp keyexpStart
    dsimp only
    rw [Nat.mul_zero, Nat.zero_add, keyWord_of_lt hr, List.getD_eq_getElem?_getD, List.getElem?_map,
      List.getElem?_range hr]
    rfl
  · have h := hstore (nk / 2) (Nat.le_refl _)
    rw [show 2 * (nk / 2) = nk * 0 + nk by omega] at h
    exact h

theorem RoundWords.round128 (h : RoundWords 4 key k s) (hk : k < 10) :
    RoundWords 4 key (k + 1) (round128 k s) := by
  have hwords : ∀ r < 4, (KeyexpAarch64.round128 k s).tmp r = keyWord 4 key (4 * (k + 1) + r) :=
    fun r hr => by
    refine keyWord_round (by decide) (Nat.le_refl 4) h.tmp ?_ (fun r hr => ?_) hr
    · rw [← ofNat_rconSym k hk]
      exact firstWord ..
    · rw [if_neg (by omega), BitVec.xor_comm]
      obtain rfl | rfl | rfl : r = 0 ∨ r = 1 ∨ r = 2 := by omega
      all_goals rfl
  exact ⟨hwords, (h.stored.stpW (by omega) (hwords 0 (by decide)) (hwords 1 (by decide))).stpW
    (by omega)
    (hwords 2 (by decide)) (hwords 3 (by decide))⟩

theorem RoundWords.round192 (h : RoundWords 6 key k s) (hk : k < 7) :
    RoundWords 6 key (k + 1) (round192 k s) := by
  unfold KeyexpAarch64.round192
  rw [if_pos hk]
  dsimp only
  generalize hs' : KeyexpRegs.mk _ _ = s'
  have hwords : ∀ r < 6, s'.tmp r = keyWord 6 key (6 * (k + 1) + r) := fun r hr => by
    rw [← hs']
    refine keyWord_round (by decide) (Nat.le_refl 6) h.tmp ?_ (fun r hr => ?_) hr
    · rw [← ofNat_rconSym k (by omega)]
      exact firstWord ..
    · rw [if_neg (by omega), BitVec.xor_comm]
      obtain rfl | rfl | rfl | rfl | rfl : r = 0 ∨ r = 1 ∨ r = 2 ∨ r = 3 ∨ r = 4 := by omega
      all_goals first | rfl | exact BitVec.xor_comm ..
  refine ⟨hwords, ?_⟩
  rw [← hs'] at hwords ⊢
  exact ((h.stored.stpW (by omega) (hwords 0 (by decide)) (hwords 1 (by decide))).stpW (by omega)
    (hwords 2 (by decide)) (hwords 3 (by decide))).stpW (by omega) (hwords 4 (by decide))
      (hwords 5 (by decide))

/-- The last round of `round_192` makes four words only. -/
theorem RoundWords.round192_last (h : RoundWords 6 key 7 s) :
    Stored 6 key 52 (KeyexpAarch64.round192 7 s).expKeyEnc := by
  have hwords : ∀ r < 4, (KeyexpAarch64.round192 7 s).tmp r = keyWord 6 key (6 * (7 + 1) + r) :=
    fun r hr => by
    refine keyWord_round (by decide) (by decide) h.tmp ?_ (fun r hr => ?_) hr
    · rw [← ofNat_rconSym 7 (by decide)]
      exact firstWord ..
    · rw [if_neg (by omega), BitVec.xor_comm]
      obtain rfl | rfl | rfl : r = 0 ∨ r = 1 ∨ r = 2 := by omega
      all_goals rfl
  exact (h.stored.stpW (by omega) (hwords 0 (by decide)) (hwords 1 (by decide))).stpW (by omega)
    (hwords 2 (by decide)) (hwords 3 (by decide))

theorem RoundWords.round256 (h : RoundWords 8 key k s) (hk : k < 6) :
    RoundWords 8 key (k + 1) (round256 k s) := by
  unfold KeyexpAarch64.round256
  rw [if_pos hk]
  dsimp only
  generalize hs' : KeyexpRegs.mk _ _ = s'
  have hwords : ∀ r < 8, s'.tmp r = keyWord 8 key (8 * (k + 1) + r) := fun r hr => by
    rw [← hs']
    refine keyWord_round (by decide) (Nat.le_refl 8) h.tmp ?_ (fun r hr => ?_) hr
    · rw [← ofNat_rconSym k (by omega)]
      exact firstWord ..
    · by_cases hfour : r = 3
      · rw [if_pos (by omega), hfour, ← subDup_eq]
        rfl
      · rw [if_neg (by omega), BitVec.xor_comm]
        obtain rfl | rfl | rfl | rfl | rfl | rfl :
            r = 0 ∨ r = 1 ∨ r = 2 ∨ r = 4 ∨ r = 5 ∨ r = 6 := by omega
        all_goals first | rfl | exact BitVec.xor_comm ..
  refine ⟨hwords, ?_⟩
  rw [← hs'] at hwords ⊢
  exact (((h.stored.stpW (by omega) (hwords 0 (by decide)) (hwords 1 (by decide))).stpW (by omega)
    (hwords 2 (by decide)) (hwords 3 (by decide))).stpW (by omega) (hwords 4 (by decide))
    (hwords 5 (by decide))).stpW (by omega) (hwords 6 (by decide)) (hwords 7 (by decide))

/-- So does that of `round_256`. -/
theorem RoundWords.round256_last (h : RoundWords 8 key 6 s) :
    Stored 8 key 60 (KeyexpAarch64.round256 6 s).expKeyEnc := by
  have hwords : ∀ r < 4, (KeyexpAarch64.round256 6 s).tmp r = keyWord 8 key (8 * (6 + 1) + r) :=
    fun r hr => by
    refine keyWord_round (by decide) (by decide) h.tmp ?_ (fun r hr => ?_) hr
    · rw [← ofNat_rconSym 6 (by decide)]
      exact firstWord ..
    · rw [if_neg (by omega), BitVec.xor_comm]
      obtain rfl | rfl | rfl : r = 0 ∨ r = 1 ∨ r = 2 := by omega
      all_goals rfl
  exact (h.stored.stpW (by omega) (hwords 0 (by decide)) (hwords 1 (by decide))).stpW (by omega)
    (hwords 2 (by decide)) (hwords 3 (by decide))

/-- All rounds that keep the invariant. -/
theorem RoundWords.rounds {nk last : ℕ} {round : ℕ → KeyexpRegs → KeyexpRegs}
    (hround : ∀ k s, k < last → RoundWords nk key k s → RoundWords nk key (k + 1) (round k s))
    (h : RoundWords nk key 0 s) {n : ℕ} (hn : n ≤ last) :
    RoundWords nk key n (keyexpRounds round s n) := by
  induction n with
  | zero => exact h
  | succ n ih => exact hround n _ hn (ih (Nat.le_of_succ_le hn))

end Steps

end Rounds

/-! ## The two arrays -/

section Arrays

variable {rounds n : ℕ}

/-- The pairs before the last round key that goes through `aesimc`. -/
theorem exportPairs (hn : 2 * n + 1 < rounds) (encKey decKey : ℕ → Byte) :
    let r := (List.range n).foldl
      (fun decKey j => exportPair (rounds + 1) encKey decKey (2 * j + 1)) decKey
    (∀ q, 0 < q → q ≤ 2 * n → ldQ r (16 * (rounds - q)) = aesimc (ldQ encKey (16 * q))) ∧
      ldQ r 0 = ldQ decKey 0 ∧ ldQ r (16 * rounds) = ldQ decKey (16 * rounds) := by
  intro r
  induction n with
  | zero => exact ⟨fun q hpos hq => absurd hpos (by omega), rfl, rfl⟩
  | succ n ih =>
    obtain ⟨hinner, hfirst, hlast⟩ := ih (by omega)
    have hr : r = exportPair (rounds + 1) encKey
        ((List.range n).foldl
          (fun decKey j => exportPair (rounds + 1) encKey decKey (2 * j + 1)) decKey)
        (2 * n + 1) := by
      dsimp only [r]
      rw [List.range_succ, List.foldl_append]
      rfl
    rw [hr]
    unfold exportPair stpQ
    rw [Nat.add_sub_cancel]
    refine ⟨fun q hpos hq => ?_, ?_, ?_⟩
    · by_cases hone : q = 2 * n + 1
      · rw [show 16 * (rounds - q) = 16 * (rounds - (2 * n + 1 + 1)) + 16 by omega, ldQ_stQ_self,
          hone]
      by_cases htwo : q = 2 * n + 1 + 1
      · rw [ldQ_stQ_of_apart (by omega), htwo, ldQ_stQ_self]
      · rw [ldQ_stQ_of_apart (by omega), ldQ_stQ_of_apart (by omega)]
        exact hinner q hpos (by omega)
    · rw [ldQ_stQ_of_apart (by omega), ldQ_stQ_of_apart (by omega)]
      exact hfirst
    · rw [ldQ_stQ_of_apart (by omega), ldQ_stQ_of_apart (by omega)]
      exact hlast

/-- `export_dec_key` leaves the keys of the equivalent inverse cipher. -/
theorem exportDecKey_ldQ (n : ℕ) (encKey decKey : ℕ → Byte) {q : ℕ} (hq : q ≤ 2 * n + 2) :
    ldQ (exportDecKey (2 * n + 3) encKey decKey) (16 * (2 * n + 2 - q)) =
      if q = 0 ∨ q = 2 * n + 2 then ldQ encKey (16 * q) else aesimc (ldQ encKey (16 * q)) := by
  obtain ⟨hinner, hfirst, hlast⟩ := @exportPairs (2 * n + 2) n (by omega) encKey
    (stQ (stQ decKey (16 * (2 * n + 2)) (ldQ encKey 0)) 0 (ldQ encKey (16 * (2 * n + 2))))
  have hpairs : (2 * n + 3 - 3) / 2 = n := by omega
  have hrounds : 2 * n + 3 - 1 = 2 * n + 2 := rfl
  unfold exportDecKey
  rw [hpairs, hrounds]
  dsimp only
  generalize (List.range n).foldl _ _ = r at hinner hfirst hlast ⊢
  by_cases hzero : q = 0
  · rw [if_pos (.inl hzero), hzero, ldQ_stQ_of_apart (by omega)]
    refine hlast.trans ?_
    rw [ldQ_stQ_of_apart (by omega), ldQ_stQ_self]
  by_cases hend : q = 2 * n + 2
  · rw [if_pos (.inr hend), hend, Nat.sub_self, ldQ_stQ_of_apart (by omega)]
    exact hfirst.trans (ldQ_stQ_self ..)
  · rw [if_neg (by omega)]
    by_cases hover : q = 2 * n + 1
    · rw [hover, ldQ_stQ_self]
    · rw [ldQ_stQ_of_apart (by omega)]
      exact hinner q (by omega) (by omega)

/-- The words of the schedule and `export_dec_key` make the two arrays. -/
theorem Stored.exported {nk : ℕ} {key : ℕ → BitVec 32} {encKeys : ℕ → Byte} (n : ℕ)
    (hnk : nk = 2 * n) (h : Stored nk key (4 * (nk + 7)) encKeys) (decKeys : ℕ → Byte) :
    Exported (nk + 6) nk key (nk + 7) encKeys (exportDecKey (nk + 7) encKeys decKeys) := by
  have henc : ∀ q < nk + 7, ldQ encKeys (16 * q) = roundKey nk key q := fun q hq =>
    eq_of_dword_eq fun r hr => by
      rw [dword_ldQ hr, dword_roundKey hr, ← h (4 * q + r) (by omega)]
      congr 1
      omega
  intro q hq
  refine ⟨henc q hq, ?_⟩
  rw [← henc q hq]
  have hround := @exportDecKey_ldQ (n + 2) encKeys decKeys q (by omega)
  rw [show 2 * (n + 2) + 3 = nk + 7 by omega, show 2 * (n + 2) + 2 = nk + 6 by omega] at hround
  exact hround

variable (key encKeys decKeys : ℕ → Byte)

theorem aesKeyexp128Aes_exported :
    Exported 10 4 (keyOf key) 11 (aesKeyexp128Aes key encKeys decKeys).1
    (aesKeyexp128Aes key encKeys decKeys).2 :=
  Stored.exported 2 rfl (RoundWords.rounds (fun _ _ hk h => h.round128 hk)
    (RoundWords.start 4 (by decide) key encKeys) (Nat.le_refl 10)).stored decKeys

theorem aesKeyexp192Aes_exported :
    Exported 12 6 (keyOf key) 13 (aesKeyexp192Aes key encKeys decKeys).1
    (aesKeyexp192Aes key encKeys decKeys).2 :=
  Stored.exported 3 rfl (RoundWords.rounds (fun _ _ hk h => h.round192 hk)
    (RoundWords.start 6 (by decide) key encKeys) (Nat.le_refl 7)).round192_last decKeys

theorem aesKeyexp256Aes_exported :
    Exported 14 8 (keyOf key) 15 (aesKeyexp256Aes key encKeys decKeys).1
    (aesKeyexp256Aes key encKeys decKeys).2 :=
  Stored.exported 4 rfl (RoundWords.rounds (fun _ _ hk h => h.round256 hk)
    (RoundWords.start 8 (by decide) key encKeys) (Nat.le_refl 6)).round256_last decKeys

end Arrays

end IsalCrypto.Aes.KeyexpAarch64
