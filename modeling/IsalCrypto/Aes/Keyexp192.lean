import IsalCrypto.Aes.Cipher

/-!
# AES key expansion on x86, 192 bits

`aes/keyexp_192.asm`: `_aes_keyexp_192_sse`. Six words are made in a round: four in one register,
and two in the high half of another one, which are stored with two words of zeros behind them that
the next round overwrites.

* `aesKeyexp192_exported`: the two arrays are the schedule of FIPS 197 and that of the equivalent
  inverse cipher.
-/

namespace IsalCrypto.Aes

open IsalCrypto.Lib IsalCrypto.Lib.Aes
open IsalCrypto.Aes.GcmSse (pslldq)

/-- The registers that the function keeps, and the two arrays it fills. -/
structure Keyexp192Regs where
  xmm1 : BitVec 128
  xmm3 : BitVec 128
  xmm4 : BitVec 128
  xmm6 : BitVec 128
  expEncKeys : ℕ → Byte
  expDecKeys : ℕ → Byte

/-- `movq` of a register to memory. -/
def movqStore (mem : ℕ → Byte) (a : ℕ) (v : BitVec 128) : ℕ → Byte := fun k =>
  if a ≤ k ∧ k < a + 8 then byteAt v (k - a) else mem k

/-- `key_expansion_1_192_sse`. -/
def keyExpansion1 (off : ℕ) (xmm2 : BitVec 128) (s : Keyexp192Regs) : Keyexp192Regs :=
  let (xmm1, xmm3) := keyExpansion 0b11111111 s.xmm1 xmm2 s.xmm3
  { s with xmm1 := xmm1, xmm3 := xmm3, expEncKeys := stQ s.expEncKeys off xmm1 }

/-- `key_expansion_2_192_sse`. -/
def keyExpansion2 (off : ℕ) (s : Keyexp192Regs) : Keyexp192Regs :=
  let xmm5 := pslldq s.xmm4 4
  let xmm6 := shufps s.xmm6 s.xmm1 0b11110000
  let xmm6 := xmm6 ^^^ xmm5
  let xmm4 := s.xmm4 ^^^ xmm6
  let xmm7 := pshufd xmm4 0b00001110
  { s with xmm4 := xmm4, xmm6 := xmm6, expEncKeys := stQ s.expEncKeys off xmm7 }

/-- `_aes_keyexp_192_sse` up to the first macro. -/
def keyexp192Start (key encKeys decKeys : ℕ → Byte) : Keyexp192Regs :=
  let xmm7 := ofBytes (window key 16 8)
  let xmm4 := pshufd xmm7 0b01001111
  let xmm1 := ldQ key 0
  { xmm1 := xmm1
    xmm3 := 0#128
    xmm4 := xmm4
    xmm6 := 0#128
    expEncKeys := stQ (movqStore encKeys 16 xmm7) 0 xmm1
    expDecKeys := stQ (stQ decKeys 0 xmm1) (16 * 12) xmm1 }

/-- The first of the two macros with its `aeskeygenassist`. -/
def keyexp192First (k : ℕ) (s : Keyexp192Regs) : Keyexp192Regs :=
  keyExpansion1 (24 * (k + 1)) (aeskeygenassist s.xmm4 (roundConstants.getD k 0#8)) s

/-- `k` times the two macros. -/
def keyexp192Rounds (key encKeys decKeys : ℕ → Byte) : ℕ → Keyexp192Regs
  | 0 => keyexp192Start key encKeys decKeys
  | k + 1 =>
    keyExpansion2 (24 * (k + 1) + 16) (keyexp192First k (keyexp192Rounds key encKeys decKeys k))

/-- `key_dec_192_sse`. -/
def keyDec192 (encKeys : ℕ → Byte) (decKeys : ℕ → Byte) (i : ℕ) : ℕ → Byte :=
  stQ decKeys (16 * (12 - i)) (aesimc (ldQ encKeys (16 * i)))

/-- `_aes_keyexp_192_sse`: the two arrays afterwards. -/
def aesKeyexp192 (key encKeys decKeys : ℕ → Byte) : (ℕ → Byte) × (ℕ → Byte) :=
  let s := keyexp192First 7 (keyexp192Rounds key encKeys decKeys 7)
  let decKeys := stQ s.expDecKeys 0 (ldQ s.expEncKeys (16 * 12))
  (s.expEncKeys, (List.range 11).foldl (fun decKeys i => keyDec192 s.expEncKeys decKeys (i + 1))
    decKeys)

/-! ## Words in memory -/

section Words

variable {mem : ℕ → Byte} {v : BitVec 128} {a b i : ℕ}

theorem dword_eq_of_byteAt {w : BitVec 32} (h : ∀ j < 4, byteAt v (4 * i + j) = wordByte w j) :
    dword v i = w := by
  refine eq_of_wordByte_eq fun j hj => ?_
  rw [← h j hj]
  refine BitVec.eq_of_getLsbD_eq fun l hl => ?_
  unfold wordByte
  rw [BitVec.getLsbD_extractLsb', decide_eq_true hl, Bool.true_and, getLsbD_dword, getLsbD_byteAt,
    decide_eq_true hl, decide_eq_true (by omega), Bool.true_and, Bool.true_and]
  congr 1
  omega

theorem wordByte_load32 (mem : ℕ → Byte) (a : ℕ) {j : ℕ} (hj : j < 4) :
    wordByte (load32 mem a) j = mem (a + j) :=
  wordByte_packBytes (fun j => mem (a + j)) hj

theorem load32_congr {mem' : ℕ → Byte} {b' : ℕ} (h : ∀ j < 4, mem (b + j) = mem' (b' + j)) :
    load32 mem b = load32 mem' b' :=
  eq_of_wordByte_eq fun j hj => by rw [wordByte_load32 _ _ hj, wordByte_load32 _ _ hj, h j hj]

theorem load32_stQ (hi : i < 4) : load32 (stQ mem a v) (a + 4 * i) = dword v i := by
  rw [← dword_ldQ hi, ldQ_stQ_self]

theorem load32_stQ_of_apart (h : b + 4 ≤ a ∨ a + 16 ≤ b) : load32 (stQ mem a v) b = load32 mem b :=
  load32_congr fun j hj => stQ_of_not (by omega)

/-- Eight bytes from memory with zeros above. -/
theorem dword_ofBytes_window (mem : ℕ → Byte) (a : ℕ) (hi : i < 4) :
    dword (ofBytes (window mem a 8)) i = if i < 2 then load32 mem (a + 4 * i) else 0#32 := by
  refine dword_eq_of_byteAt fun j hj => ?_
  rw [byteAt_ofBytes_window (by decide)]
  split
  · next hlow => rw [if_pos (by omega), wordByte_load32 _ _ hj, Nat.add_assoc]
  · next hhigh =>
    rw [if_neg (by omega)]
    exact (BitVec.extractLsb'_zero ..).symm

theorem dword_pslldq_succ (hi : i + 1 < 4) : dword (pslldq v 4) (i + 1) = dword v i := by
  refine BitVec.eq_of_getLsbD_eq fun j hj => ?_
  have hin : 32 * (i + 1) + j < 128 := by omega
  have hhigh : ¬ 32 * (i + 1) + j < 8 * 4 := by omega
  rw [getLsbD_dword, getLsbD_dword, pslldq, BitVec.getLsbD_shiftLeft, decide_eq_true hin,
    decide_eq_false hhigh, show 32 * (i + 1) + j - 8 * 4 = 32 * i + j by omega]
  rfl

theorem dword_pslldq_zero (v : BitVec 128) : dword (pslldq v 4) 0 = 0#32 := by
  refine BitVec.eq_of_getLsbD_eq fun j hj => ?_
  rw [getLsbD_dword, pslldq, BitVec.getLsbD_shiftLeft,
    decide_eq_true (show 32 * 0 + j < 8 * 4 by omega)]
  simp

/-- The low half is the lowest element twice. -/
theorem dword_shufps_low {dst src : BitVec 128} (hi : i < 2) :
    dword (shufps dst src 0b11110000) i = dword dst 0 := by
  have himm : select 0b11110000 i = 0 := by
    obtain rfl | rfl : i = 0 ∨ i = 1 := by omega
    all_goals rfl
  rw [shufps, dword_packDwords _ (by omega), if_pos hi, himm]

/-- The high half is the highest element of the source twice. -/
theorem dword_shufps_high {dst src : BitVec 128} (hi : i < 2) :
    dword (shufps dst src 0b11110000) (i + 2) = dword src 3 := by
  have himm : select 0b11110000 (i + 2) = 3 := by
    obtain rfl | rfl : i = 0 ∨ i = 1 := by omega
    all_goals rfl
  rw [shufps, dword_packDwords _ (by omega), if_neg (by omega), himm]

end Words

/-! ## Against the key schedule -/

section Schedule

variable {key : ℕ → BitVec 32} {k : ℕ} {s : Keyexp192Regs}

/-- What holds between two runs of the macros: the last six words in the registers, and all so far
in memory. -/
structure Words192 (key : ℕ → BitVec 32) (k : ℕ) (s : Keyexp192Regs) : Prop where
  xmm1 : ∀ r < 4, dword s.xmm1 r = keyWord 6 key (6 * k + r)
  xmm4 : ∀ r < 2, dword s.xmm4 r = 0#32 ∧ dword s.xmm4 (r + 2) = keyWord 6 key (6 * k + 4 + r)
  xmm3 : dword s.xmm3 0 = 0#32
  xmm6 : dword s.xmm6 0 = 0#32
  stored : ∀ i < 6 * k + 6, load32 s.expEncKeys (4 * i) = keyWord 6 key i

/-- What holds after the first of the two macros. -/
structure FirstWords192 (key : ℕ → BitVec 32) (k : ℕ) (s s' : Keyexp192Regs) : Prop where
  xmm1 : ∀ r < 4, dword s'.xmm1 r = keyWord 6 key (6 * (k + 1) + r)
  xmm3 : dword s'.xmm3 0 = 0#32
  stored : ∀ i < 6 * (k + 1) + 4, load32 s'.expEncKeys (4 * i) = keyWord 6 key i
  xmm4 : s'.xmm4 = s.xmm4
  xmm6 : s'.xmm6 = s.xmm6
  expDecKeys : s'.expDecKeys = s.expDecKeys

/-- A word of a round after its first one. -/
theorem keyWord_six_succ (key : ℕ → BitVec 32) (k : ℕ) {r : ℕ} (hr : r + 1 < 6) :
    keyWord 6 key (6 * (k + 1) + (r + 1)) =
      keyWord 6 key (6 * k + (r + 1)) ^^^ keyWord 6 key (6 * (k + 1) + r) := by
  have h := keyWord_add key (show 0 < 6 by decide) (6 * k + (r + 1))
  rw [show 6 * k + (r + 1) + 6 = 6 * (k + 1) + (r + 1) by omega, keyTemp, if_neg (by omega),
    if_neg (by omega)] at h
  exact h

theorem keyWord_six_zero (key : ℕ → BitVec 32) (k : ℕ) :
    keyWord 6 key (6 * (k + 1)) =
      keyWord 6 key (6 * k) ^^^
        (subWord (rotWord (keyWord 6 key (6 * k + 5))) ^^^ rcon (k + 1)) := by
  have h := keyWord_add key (show 0 < 6 by decide) (6 * k)
  rw [show 6 * k + 6 = 6 * (k + 1) by omega, keyTemp, Nat.mul_mod_right, if_pos rfl,
    Nat.mul_div_cancel_left _ (by decide)] at h
  exact h

theorem Words192.first (h : Words192 key k s) (hk : k < 8) :
    FirstWords192 key k s (keyexp192First k s) := by
  have h2 : dword (aeskeygenassist s.xmm4 (roundConstants.getD k 0#8)) 3 =
      subWord (rotWord (keyWord 6 key (6 * k + 5))) ^^^ rcon (k + 1) := by
    rw [aeskeygenassist, dword_packDwords _ (by decide), if_neg (by decide), if_neg (by decide),
      (h.xmm4 1 (by decide)).2, roundConstants_getD (by omega), subWord_rotWord]
  have hwords : ∀ r < 4, dword (keyExpansion 0b11111111 s.xmm1
      (aeskeygenassist s.xmm4 (roundConstants.getD k 0#8)) s.xmm3).1 r =
        keyWord 6 key (6 * (k + 1) + r) := by
    intro r hr
    induction r with
    | zero =>
      rw [keyExpansion_zero h.xmm3 select_ff, h2, h.xmm1 0 hr]
      exact (keyWord_six_zero key k).symm
    | succ r ih =>
      rw [keyExpansion_succ h.xmm3 select_ff hr, ih (by omega), h.xmm1 _ hr]
      exact (keyWord_six_succ key k (by omega)).symm
  refine ⟨hwords, dword_xmm3 h.xmm3, fun i hi => ?_, rfl, rfl, rfl⟩
  unfold keyexp192First keyExpansion1
  dsimp only
  rcases Nat.lt_or_ge i (6 * (k + 1)) with hold | hnew
  · rw [load32_stQ_of_apart (by omega)]
    exact h.stored i (by omega)
  · obtain ⟨r, rfl⟩ := Nat.exists_eq_add_of_le hnew
    rw [show 4 * (6 * (k + 1) + r) = 24 * (k + 1) + 4 * r by omega, load32_stQ (by omega)]
    exact hwords r (by omega)

/-- The last two words of a round, in `xmm4` after the second macro. -/
theorem Words192.xmm4_second {s' : Keyexp192Regs} (h : Words192 key k s)
    (h' : FirstWords192 key k s s') (off : ℕ) {r : ℕ} (hr : r < 2) :
    dword (keyExpansion2 off s').xmm4 r = 0#32 ∧
      dword (keyExpansion2 off s').xmm4 (r + 2) = keyWord 6 key (6 * (k + 1) + 4 + r) := by
  obtain ⟨h40, h42⟩ := h.xmm4 0 (by decide)
  obtain ⟨h41, h43⟩ := h.xmm4 1 (by decide)
  rw [← h'.xmm4] at h40 h41 h42 h43
  have hlow : dword (shufps s'.xmm6 s'.xmm1 0b11110000) r = 0#32 := by
    rw [dword_shufps_low hr, h'.xmm6]
    exact h.xmm6
  have hhigh : dword (shufps s'.xmm6 s'.xmm1 0b11110000) (r + 2) =
      keyWord 6 key (6 * (k + 1) + 3) :=
    (dword_shufps_high hr).trans (h'.xmm1 3 (by decide))
  have hten := keyWord_six_succ key k (show 3 + 1 < 6 by decide)
  have heleven := keyWord_six_succ key k (show 4 + 1 < 6 by decide)
  unfold keyExpansion2
  dsimp only
  cases r with
  | zero =>
    constructor
    · rw [dword_xor, dword_xor, hlow, dword_pslldq_zero, h40]
      rfl
    · rw [dword_xor, dword_xor, hhigh, dword_pslldq_succ (i := 1) (by decide), h41, h42,
        BitVec.xor_zero]
      exact hten.symm
  | succ r =>
    obtain rfl : r = 0 := by omega
    constructor
    · rw [dword_xor, dword_xor, hlow, dword_pslldq_succ (by decide), h40, h41]
      rfl
    · rw [dword_xor, dword_xor, hhigh, dword_pslldq_succ (i := 2) (by decide), h42, h43,
        BitVec.xor_comm (keyWord 6 key (6 * (k + 1) + 3))]
      exact (congrArg _ hten.symm).trans heleven.symm

/-- The two words of zeros behind the new ones lie where the next round stores. -/
theorem Words192.second {s' : Keyexp192Regs} (h : Words192 key k s)
    (h' : FirstWords192 key k s s') :
    Words192 key (k + 1) (keyExpansion2 (24 * (k + 1) + 16) s') := by
  have hnew := fun r hr => h.xmm4_second h' (24 * (k + 1) + 16) (r := r) hr
  refine ⟨h'.xmm1, hnew, h'.xmm3, ?_, fun i hi => ?_⟩
  · unfold keyExpansion2
    dsimp only
    rw [dword_xor, dword_shufps_low (by decide), dword_pslldq_zero, h'.xmm6, h.xmm6]
    rfl
  · rcases Nat.lt_or_ge i (6 * (k + 1) + 4) with hold | hge
    · refine Eq.trans ?_ (h'.stored i hold)
      unfold keyExpansion2
      dsimp only
      rw [load32_stQ_of_apart (by omega)]
    · obtain ⟨r, rfl⟩ := Nat.exists_eq_add_of_le hge
      have hr : r < 2 := by omega
      rw [← (hnew r hr).2]
      unfold keyExpansion2
      dsimp only
      rw [show 4 * (6 * (k + 1) + 4 + r) = 24 * (k + 1) + 16 + 4 * r by omega,
        load32_stQ (by omega), pshufd, dword_packDwords _ (by omega)]
      cases r with
      | zero => rfl
      | succ r =>
        obtain rfl : r = 0 := by omega
        rfl

end Schedule

/-! ## The two arrays -/

section Arrays

variable (key encKeys decKeys : ℕ → Byte)

theorem keyexp192Start_words : Words192 (keyOf key) 0 (keyexp192Start key encKeys decKeys) := by
  have hkey : ∀ r < 4, dword (ldQ key 0) r = keyWord 6 (keyOf key) r := fun r hr => by
    rw [dword_ldQ hr, keyWord_of_lt (by omega), Nat.zero_add]
    rfl
  refine ⟨fun r hr => ?_, fun r hr => ?_, rfl, rfl, fun i hi => ?_⟩
  · rw [Nat.mul_zero, Nat.zero_add]
    exact hkey r hr
  · unfold keyexp192Start
    dsimp only
    rw [Nat.mul_zero, Nat.zero_add, keyWord_of_lt (by omega), pshufd, dword_packDwords _ (by omega),
      dword_packDwords _ (by omega)]
    cases r with
    | zero => exact ⟨dword_ofBytes_window key 16 (i := 3) (by decide),
        dword_ofBytes_window key 16 (i := 0) (by decide)⟩
    | succ r =>
      obtain rfl : r = 0 := by omega
      exact ⟨dword_ofBytes_window key 16 (i := 3) (by decide),
        dword_ofBytes_window key 16 (i := 1) (by decide)⟩
  · unfold keyexp192Start
    dsimp only
    rcases Nat.lt_or_ge i 4 with hlow | hhigh
    · rw [← hkey i hlow, ← load32_stQ hlow, Nat.zero_add]
    · rw [load32_stQ_of_apart (by omega), keyWord_of_lt (by omega), keyOf]
      refine load32_congr fun j hj => ?_
      unfold movqStore
      rw [if_pos (by omega), byteAt_ofBytes_window (by decide), if_pos (by omega),
        show 16 + (4 * i + j - 16) = 4 * i + j by omega]

theorem keyexp192Rounds_words {k : ℕ} (hk : k ≤ 7) :
    Words192 (keyOf key) k (keyexp192Rounds key encKeys decKeys k) := by
  induction k with
  | zero => exact keyexp192Start_words key encKeys decKeys
  | succ k ih =>
    have h := ih (by omega)
    exact h.second (h.first (by omega))

/-- The macros leave the other array as it is. -/
theorem keyexp192Rounds_expDecKeys (k : ℕ) :
    (keyexp192Rounds key encKeys decKeys k).expDecKeys = stQ (stQ decKeys 0 (ldQ key 0)) (16 * 12)
      (ldQ key 0) := by
  induction k with
  | zero => rfl
  | succ k ih => exact ih

/-- `key_dec_192_sse` for the first `n` round keys. -/
theorem keyDec192_foldl (encKeys decKeys : ℕ → Byte) {n : ℕ} (hn : n ≤ 11) :
    let r := (List.range n).foldl (fun decKeys i => keyDec192 encKeys decKeys (i + 1)) decKeys
    (∀ i < n, ldQ r (16 * (12 - (i + 1))) = aesimc (ldQ encKeys (16 * (i + 1)))) ∧
      ldQ r 0 = ldQ decKeys 0 ∧ ldQ r (16 * 12) = ldQ decKeys (16 * 12) := by
  intro r
  induction n with
  | zero => exact ⟨fun i hi => absurd hi (Nat.not_lt_zero i), rfl, rfl⟩
  | succ n ih =>
    obtain ⟨hinner, hfirst, hlast⟩ := ih (by omega)
    have hr : r = keyDec192 encKeys
        ((List.range n).foldl (fun decKeys i => keyDec192 encKeys decKeys (i + 1)) decKeys)
          (n + 1) := by
      dsimp only [r]
      rw [List.range_succ, List.foldl_append]
      rfl
    rw [hr]
    unfold keyDec192
    refine ⟨fun i hi => ?_, ?_, ?_⟩
    · rcases Nat.lt_succ_iff_lt_or_eq.mp hi with hlt | rfl
      · rw [ldQ_stQ_of_apart (by omega)]
        exact hinner i hlt
      · exact ldQ_stQ_self ..
    · rw [ldQ_stQ_of_apart (by omega)]
      exact hfirst
    · rw [ldQ_stQ_of_apart (by omega)]
      exact hlast

/-- The schedules of a 192-bit key. -/
theorem aesKeyexp192_exported :
    Exported 12 6 (keyOf key) 13 (aesKeyexp192 key encKeys decKeys).1
      (aesKeyexp192 key encKeys decKeys).2 := by
  have hfirst := (keyexp192Rounds_words key encKeys decKeys (Nat.le_refl 7)).first (by decide)
  have hdec := hfirst.expDecKeys.trans (keyexp192Rounds_expDecKeys key encKeys decKeys 7)
  unfold aesKeyexp192
  dsimp only
  generalize keyexp192First 7 (keyexp192Rounds key encKeys decKeys 7) = s at hfirst hdec ⊢
  have henc : ∀ q < 13, ldQ s.expEncKeys (16 * q) = roundKey 6 (keyOf key) q := fun q hq =>
    eq_of_dword_eq fun r hr => by
      rw [dword_ldQ hr, dword_roundKey hr, ← hfirst.stored (4 * q + r) (by omega)]
      congr 1
      omega
  obtain ⟨hinner, hstart, hend⟩ := keyDec192_foldl s.expEncKeys
    (stQ s.expDecKeys 0 (ldQ s.expEncKeys (16 * 12))) (Nat.le_refl 11)
  intro q hq
  refine ⟨henc q hq, ?_⟩
  cases q with
  | zero =>
    rw [if_pos (.inl rfl), ← henc 0 (by decide), Nat.sub_zero]
    refine hend.trans ?_
    rw [ldQ_stQ_of_apart (by decide), hdec, ldQ_stQ_self, henc 0 (by decide)]
    exact ldQ_roundKey key rfl (by decide)
  | succ i =>
    by_cases hlast : i + 1 = 12
    · rw [if_pos (.inr hlast), hlast, Nat.sub_self, Nat.mul_zero]
      exact hstart.trans ((ldQ_stQ_self ..).trans (henc 12 (by decide)))
    · rw [if_neg (by omega), hinner i (by omega), henc (i + 1) hq]

end Arrays

end IsalCrypto.Aes
