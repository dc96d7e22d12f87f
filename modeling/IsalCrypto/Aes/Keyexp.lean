import IsalCrypto.Aes.Vector
import IsalCrypto.Lib.Aes

/-!
# AES key expansion on x86

`aes/keyexp_128.asm` and `aes/keyexp_256.asm`: `_aes_keyexp_128_sse` and `_aes_keyexp_256_sse`, with
the instructions they use. The `avx` functions differ by the encoding of the instructions only.

* `aesKeyexp128_exported`, `aesKeyexp256_exported`: the encryption schedule is the one of FIPS 197,
  the decryption schedule has its round keys in the other order, the inner ones through
  `invMixColumn`.
-/

namespace IsalCrypto.Aes

open IsalCrypto.Lib IsalCrypto.Lib.Aes

/-! ## Instructions -/

/-- The 32-bit element at an index. -/
def dword (v : BitVec 128) (i : ℕ) : BitVec 32 := v.extractLsb' (32 * i) 32

/-- The vector with these elements. -/
def packDwords (f : ℕ → BitVec 32) : BitVec 128 := f 3 ++ f 2 ++ f 1 ++ f 0

/-- The index that two bits of an immediate select for element `i`. -/
def select (imm i : ℕ) : ℕ := imm >>> (2 * i) % 4

/-- `pshufd`. -/
def pshufd (src : BitVec 128) (imm : ℕ) : BitVec 128 := packDwords fun i => dword src (select imm i)

/-- `shufps`: the low half comes from the destination, the high half from the source. -/
def shufps (dst src : BitVec 128) (imm : ℕ) : BitVec 128 :=
  packDwords fun i => dword (if i < 2 then dst else src) (select imm i)

/-- `aeskeygenassist`. -/
def aeskeygenassist (src : BitVec 128) (imm : BitVec 8) : BitVec 128 :=
  packDwords fun i =>
    let x := subWord (dword src (if i < 2 then 1 else 3))
    if i % 2 = 0 then x else rotWord x ^^^ imm.setWidth 32

/-- `aesimc`. -/
def aesimc (src : BitVec 128) : BitVec 128 := packDwords fun i => invMixColumn (dword src i)

section Dwords

variable {v w : BitVec 128} {f : ℕ → BitVec 32} {i : ℕ}

theorem getLsbD_dword : (dword v i).getLsbD j = (decide (j < 32) && v.getLsbD (32 * i + j)) :=
  BitVec.getLsbD_extractLsb' ..

@[simp]
theorem dword_xor : dword (v ^^^ w) i = dword v i ^^^ dword w i := BitVec.extractLsb'_xor

theorem dword_packDwords (f : ℕ → BitVec 32) (hi : i < 4) : dword (packDwords f) i = f i := by
  refine BitVec.eq_of_getLsbD_eq fun j hj => ?_
  rw [getLsbD_dword, decide_eq_true hj, Bool.true_and, packDwords,
    getLsbD_append_dwords _ _ _ _ (by omega), show (32 * i + j) / 32 = i by omega,
    show (32 * i + j) % 32 = j by omega]
  obtain rfl | rfl | rfl | rfl : i = 0 ∨ i = 1 ∨ i = 2 ∨ i = 3 := by omega
  all_goals rfl

theorem eq_of_dword_eq (h : ∀ i < 4, dword v i = dword w i) : v = w := by
  refine BitVec.eq_of_getLsbD_eq fun j hj => ?_
  have hbit : (dword v (j / 32)).getLsbD (j % 32) = (dword w (j / 32)).getLsbD (j % 32) := by
    rw [h _ (by omega)]
  rw [getLsbD_dword, getLsbD_dword, decide_eq_true (by omega), Bool.true_and, Bool.true_and,
    show 32 * (j / 32) + j % 32 = j by omega] at hbit
  exact hbit

theorem dword_ldQ {mem : ℕ → Byte} {a : ℕ} (hi : i < 4) :
    dword (ldQ mem a) i = load32 mem (a + 4 * i) := by
  refine BitVec.eq_of_getLsbD_eq fun j hj => ?_
  have hbyte := getLsbD_byteAt (v := ldQ mem a) (k := 4 * i + j / 8) (i := j % 8)
  rw [byteAt_ldQ (by omega), decide_eq_true (by omega), Bool.true_and,
    show 8 * (4 * i + j / 8) + j % 8 = 32 * i + j by omega] at hbyte
  rw [getLsbD_dword, decide_eq_true hj, Bool.true_and, ← hbyte, getLsbD_load32 hj, Nat.add_assoc]

end Dwords

/-! ## The functions -/

/-- The registers that the functions keep, and the two arrays they fill. -/
structure KeyexpRegs where
  xmm1 : BitVec 128
  xmm3 : BitVec 128
  xmm4 : BitVec 128
  expEncKeys : ℕ → Byte
  expDecKeys : ℕ → Byte

/-- `key_expansion_128_sse` and `key_expansion_256_sse` with the immediate `11111111b`,
`key_expansion_256_sse_2` with `10101010b`: the round key `x` becomes the next one. The second value
is `xmm3`. -/
def keyExpansion (imm : ℕ) (x xmm2 xmm3 : BitVec 128) : BitVec 128 × BitVec 128 :=
  let xmm2 := pshufd xmm2 imm
  let xmm3 := shufps xmm3 x 0b00010000
  let x := x ^^^ xmm3
  let xmm3 := shufps xmm3 x 0b10001100
  let x := x ^^^ xmm3
  (x ^^^ xmm2, xmm3)

/-- Round key `q` is stored in both arrays; the one for decryption goes through `aesimc`, except
for the first and the last. -/
def exportKey (rounds q : ℕ) (x : BitVec 128) (s : KeyexpRegs) : KeyexpRegs :=
  { s with
    expEncKeys := stQ s.expEncKeys (16 * q) x
    expDecKeys := stQ s.expDecKeys (16 * (rounds - q))
      (if q = 0 ∨ q = rounds then x else aesimc x) }

/-- The immediates of `aeskeygenassist`, in order. -/
def roundConstants : List (BitVec 8) :=
  [0x01#8, 0x02#8, 0x04#8, 0x08#8, 0x10#8, 0x20#8, 0x40#8, 0x80#8, 0x1b#8, 0x36#8]

/-- `_aes_keyexp_128_sse` up to round key `q`. -/
def keyexp128Rounds (key encKeys decKeys : ℕ → Byte) : ℕ → KeyexpRegs
  | 0 =>
    let xmm1 := ldQ key 0
    exportKey 10 0 xmm1 ⟨xmm1, 0#128, 0#128, encKeys, decKeys⟩
  | q + 1 =>
    let s := keyexp128Rounds key encKeys decKeys q
    let xmm2 := aeskeygenassist s.xmm1 (roundConstants.getD q 0#8)
    let (xmm1, xmm3) := keyExpansion 0b11111111 s.xmm1 xmm2 s.xmm3
    exportKey 10 (q + 1) xmm1 { s with xmm1 := xmm1, xmm3 := xmm3 }

/-- `_aes_keyexp_128_sse`: the two arrays afterwards. -/
def aesKeyexp128 (key encKeys decKeys : ℕ → Byte) : (ℕ → Byte) × (ℕ → Byte) :=
  let s := keyexp128Rounds key encKeys decKeys 10
  (s.expEncKeys, s.expDecKeys)

/-- An even round key of `_aes_keyexp_256_sse`. -/
def keyexp256Even (q : ℕ) (s : KeyexpRegs) : KeyexpRegs :=
  let xmm2 := aeskeygenassist s.xmm4 (roundConstants.getD q 0#8)
  let (xmm1, xmm3) := keyExpansion 0b11111111 s.xmm1 xmm2 s.xmm3
  exportKey 14 (2 * (q + 1)) xmm1 { s with xmm1 := xmm1, xmm3 := xmm3 }

/-- An odd one. -/
def keyexp256Odd (q : ℕ) (s : KeyexpRegs) : KeyexpRegs :=
  let xmm2 := aeskeygenassist s.xmm1 (roundConstants.getD q 0#8)
  let (xmm4, xmm3) := keyExpansion 0b10101010 s.xmm4 xmm2 s.xmm3
  exportKey 14 (2 * (q + 1) + 1) xmm4 { s with xmm4 := xmm4, xmm3 := xmm3 }

/-- `_aes_keyexp_256_sse` up to the round keys `2 * q` and `2 * q + 1`. -/
def keyexp256Rounds (key encKeys decKeys : ℕ → Byte) : ℕ → KeyexpRegs
  | 0 =>
    let xmm1 := ldQ key 0
    let xmm4 := ldQ key 16
    exportKey 14 1 xmm4 (exportKey 14 0 xmm1 ⟨xmm1, 0#128, xmm4, encKeys, decKeys⟩)
  | q + 1 => keyexp256Odd q (keyexp256Even q (keyexp256Rounds key encKeys decKeys q))

/-- `_aes_keyexp_256_sse`: the two arrays afterwards. -/
def aesKeyexp256 (key encKeys decKeys : ℕ → Byte) : (ℕ → Byte) × (ℕ → Byte) :=
  let s := keyexp256Even 6 (keyexp256Rounds key encKeys decKeys 6)
  (s.expEncKeys, s.expDecKeys)

/-! ## Against the key schedule -/

/-- Round key `q` of the schedule. -/
def roundKey (nk : ℕ) (key : ℕ → BitVec 32) (q : ℕ) : BitVec 128 :=
  packDwords fun r => keyWord nk key (4 * q + r)

/-- The words of a key in memory. -/
def keyOf (key : ℕ → Byte) (i : ℕ) : BitVec 32 := load32 key (4 * i)

theorem select_ff : ∀ i < 4, select 0b11111111 i = 3 := by decide

theorem select_aa : ∀ i < 4, select 0b10101010 i = 2 := by decide

section Expansion

variable {x xmm2 xmm3 : BitVec 128} {imm p r : ℕ}

theorem dword_pshufd (himm : ∀ i < 4, select imm i = p) (hr : r < 4) :
    dword (pshufd xmm2 imm) r = dword xmm2 p := by
  rw [pshufd, dword_packDwords _ hr, himm r hr]

theorem dword_shufps_zero {dst src : BitVec 128} (hdst : dword dst 0 = 0#32)
    (himm : select imm 0 = 0) : dword (shufps dst src imm) 0 = 0#32 := by
  rw [shufps, dword_packDwords _ (by decide), if_pos (by decide), himm, hdst]

/-- The element of `xmm3` that has to be zero stays zero. -/
theorem dword_xmm3 {y : BitVec 128} (h3 : dword xmm3 0 = 0#32) :
    dword (shufps (shufps xmm3 x 0b00010000) y 0b10001100) 0 = 0#32 :=
  dword_shufps_zero (dword_shufps_zero h3 rfl) rfl

theorem keyExpansion_zero (h3 : dword xmm3 0 = 0#32) (himm : ∀ i < 4, select imm i = p) :
    dword (keyExpansion imm x xmm2 xmm3).1 0 = dword x 0 ^^^ dword xmm2 p := by
  have hlow : dword (shufps xmm3 x 0b00010000) 0 = 0#32 := dword_shufps_zero h3 rfl
  rw [keyExpansion, dword_xor, dword_xor, dword_xor, dword_pshufd himm (by decide), hlow,
    dword_xmm3 h3, BitVec.xor_zero, BitVec.xor_zero]

/-- Every further word is the old one and the new one before it. -/
theorem keyExpansion_succ (h3 : dword xmm3 0 = 0#32) (himm : ∀ i < 4, select imm i = p)
    (hr : r + 1 < 4) :
    dword (keyExpansion imm x xmm2 xmm3).1 (r + 1) =
      dword x (r + 1) ^^^ dword (keyExpansion imm x xmm2 xmm3).1 r := by
  obtain rfl | rfl | rfl : r = 0 ∨ r = 1 ∨ r = 2 := by omega
  all_goals
    simp only [keyExpansion, dword_xor, dword_pshufd himm, shufps, dword_packDwords, select, h3,
      Nat.reduceLT, Nat.reduceAdd, Nat.reduceMul, Nat.reduceMod, Nat.reduceShiftRight, if_true,
      if_false, Nat.lt_irrefl, BitVec.xor_zero]
    ac_rfl

end Expansion

section Rounds

variable {m : ℕ} {key : ℕ → BitVec 32} {p q r imm : ℕ} {xmm2 xmm3 : BitVec 128}

theorem dword_roundKey (hr : r < 4) (nk : ℕ) (key : ℕ → BitVec 32) (q : ℕ) :
    dword (roundKey nk key q) r = keyWord nk key (4 * q + r) :=
  dword_packDwords _ hr

/-- One run of the macro gives the round key that is `m` further, if the element that `pshufd`
selects is what the key schedule puts into the first word. -/
theorem keyExpansion_roundKey (hm : 0 < m) (h3 : dword xmm3 0 = 0#32)
    (himm : ∀ i < 4, select imm i = p)
    (h2 : dword xmm2 p =
      keyTemp (4 * m) (4 * (q + m)) (keyWord (4 * m) key (4 * (q + m) - 1))) :
    (keyExpansion imm (roundKey (4 * m) key q) xmm2 xmm3).1 = roundKey (4 * m) key (q + m) := by
  refine eq_of_dword_eq fun i hi => ?_
  rw [dword_roundKey hi]
  induction i with
  | zero =>
    have h := keyWord_add key (show 0 < 4 * m by omega) (4 * q)
    rw [show 4 * q + 4 * m = 4 * (q + m) by omega] at h
    rw [keyExpansion_zero h3 himm, dword_roundKey hi, h2]
    exact h.symm
  | succ i ih =>
    rw [keyExpansion_succ h3 himm hi, ih (by omega), dword_roundKey hi, keyWord_chain key hm hi]

/-- `aeskeygenassist` on the round key before, with the first immediate of the macro. -/
theorem dword_aeskeygenassist_three (hq : 0 < q) {c : BitVec 8} {i : ℕ} (hm : 0 < m)
    (hc : c.setWidth 32 = rcon i) (hi : q = i * m) :
    dword (aeskeygenassist (roundKey (4 * m) key (q - 1)) c) 3 =
      keyTemp (4 * m) (4 * q) (keyWord (4 * m) key (4 * q - 1)) := by
  have hmod : 4 * q = i * (4 * m) := by rw [hi, Nat.mul_left_comm]
  rw [aeskeygenassist, dword_packDwords _ (by decide), if_neg (by decide), if_neg (by decide),
    dword_roundKey (by decide), hc, keyTemp, hmod, Nat.mul_mod_left, if_pos rfl,
    Nat.mul_div_cancel _ (by omega), subWord_rotWord, ← hmod,
    show 4 * (q - 1) + 3 = 4 * q - 1 by omega]

/-- And with the second one, in the middle of a key of eight words. -/
theorem dword_aeskeygenassist_two (hq : q % 2 = 1) {c : BitVec 8} :
    dword (aeskeygenassist (roundKey 8 key (q - 1)) c) 2 =
      keyTemp 8 (4 * q) (keyWord 8 key (4 * q - 1)) := by
  rw [aeskeygenassist, dword_packDwords _ (by decide), if_pos (by decide), if_neg (by decide),
    dword_roundKey (by decide), keyTemp, if_neg (by omega), if_pos (by omega),
    show 4 * (q - 1) + 3 = 4 * q - 1 by omega]

theorem roundConstants_getD (hq : q < 10) :
    (roundConstants.getD q 0#8).setWidth 32 = rcon (q + 1) := by
  revert q
  decide

end Rounds

/-- The first `n` round keys are in both arrays. -/
def Exported (rounds nk : ℕ) (key : ℕ → BitVec 32) (n : ℕ) (encKeys decKeys : ℕ → Byte) : Prop :=
  ∀ q < n, ldQ encKeys (16 * q) = roundKey nk key q ∧
    ldQ decKeys (16 * (rounds - q)) =
      if q = 0 ∨ q = rounds then roundKey nk key q else aesimc (roundKey nk key q)

theorem Exported.store {rounds nk n : ℕ} {key : ℕ → BitVec 32} {s : KeyexpRegs}
    (h : Exported rounds nk key n s.expEncKeys s.expDecKeys) (hn : n ≤ rounds) :
    Exported rounds nk key (n + 1) (exportKey rounds n (roundKey nk key n) s).expEncKeys
      (exportKey rounds n (roundKey nk key n) s).expDecKeys := by
  intro q hq
  rcases Nat.lt_succ_iff_lt_or_eq.mp hq with hlt | rfl
  · obtain ⟨henc, hdec⟩ := h q hlt
    refine ⟨(ldQ_stQ_of_apart (by omega)).trans henc, (ldQ_stQ_of_apart (by omega)).trans hdec⟩
  · exact ⟨ldQ_stQ_self .., ldQ_stQ_self ..⟩

section Schedules

variable (key encKeys decKeys : ℕ → Byte)

theorem ldQ_roundKey {nk q a : ℕ} (ha : a = 16 * q) (hq : 4 * q + 4 ≤ nk) :
    ldQ key a = roundKey nk (keyOf key) q := by
  refine eq_of_dword_eq fun i hi => ?_
  rw [dword_ldQ hi, dword_roundKey hi, keyWord_of_lt (by omega), keyOf, ha,
    show 16 * q + 4 * i = 4 * (4 * q + i) by omega]

theorem keyexp128Rounds_spec (q : ℕ) (hq : q ≤ 10) :
    let s := keyexp128Rounds key encKeys decKeys q
    s.xmm1 = roundKey 4 (keyOf key) q ∧ dword s.xmm3 0 = 0#32 ∧
      Exported 10 4 (keyOf key) (q + 1) s.expEncKeys s.expDecKeys := by
  have hload : ldQ key 0 = roundKey 4 (keyOf key) 0 := ldQ_roundKey key rfl (by omega)
  induction q with
  | zero =>
    refine ⟨hload, rfl, ?_⟩
    rw [keyexp128Rounds, hload]
    exact Exported.store (fun q hq => absurd hq (Nat.not_lt_zero q)) (by omega)
  | succ q ih =>
    obtain ⟨h1, h3, hexp⟩ := ih (by omega)
    have h2 : dword (aeskeygenassist (roundKey 4 (keyOf key) q) (roundConstants.getD q 0#8)) 3 =
        keyTemp 4 (4 * (q + 1)) (keyWord 4 (keyOf key) (4 * (q + 1) - 1)) :=
      dword_aeskeygenassist_three (m := 1) (Nat.succ_pos q) (by omega)
        (roundConstants_getD (by omega)) (by omega)
    have hkey := keyExpansion_roundKey (m := 1) (by omega) h3 select_ff h2
    rw [← h1] at hkey
    refine ⟨hkey, dword_xmm3 h3, ?_⟩
    rw [keyexp128Rounds]
    dsimp only
    rw [hkey]
    exact Exported.store hexp hq

/-- The state of `_aes_keyexp_256_sse` between the pairs of round keys. -/
structure Pair256 (q : ℕ) (s : KeyexpRegs) : Prop where
  xmm1 : s.xmm1 = roundKey 8 (keyOf key) (2 * q)
  xmm4 : s.xmm4 = roundKey 8 (keyOf key) (2 * q + 1)
  xmm3 : dword s.xmm3 0 = 0#32
  exported : Exported 14 8 (keyOf key) (2 * q + 2) s.expEncKeys s.expDecKeys

theorem keyexp256Even_spec {q : ℕ} {s : KeyexpRegs} (h : Pair256 key q s) (hq : q < 7) :
    let s' := keyexp256Even q s
    s'.xmm1 = roundKey 8 (keyOf key) (2 * (q + 1)) ∧ s'.xmm4 = s.xmm4 ∧ dword s'.xmm3 0 = 0#32 ∧
      Exported 14 8 (keyOf key) (2 * (q + 1) + 1) s'.expEncKeys s'.expDecKeys := by
  have h2 :
      dword (aeskeygenassist (roundKey 8 (keyOf key) (2 * q + 1)) (roundConstants.getD q 0#8)) 3 =
      keyTemp 8 (4 * (2 * q + 2)) (keyWord 8 (keyOf key) (4 * (2 * q + 2) - 1)) :=
    dword_aeskeygenassist_three (m := 2) (Nat.succ_pos (2 * q + 1)) (by omega)
      (roundConstants_getD (by omega)) (by omega)
  have hkey := keyExpansion_roundKey (m := 2) (by omega) h.xmm3 select_ff h2
  rw [← h.xmm1, ← h.xmm4] at hkey
  refine ⟨hkey, rfl, dword_xmm3 h.xmm3, ?_⟩
  rw [keyexp256Even]
  dsimp only
  rw [hkey]
  exact Exported.store h.exported (by omega)

theorem keyexp256Odd_spec {q : ℕ} {s : KeyexpRegs}
    (h1 : s.xmm1 = roundKey 8 (keyOf key) (2 * (q + 1)))
    (h4 : s.xmm4 = roundKey 8 (keyOf key) (2 * q + 1)) (h3 : dword s.xmm3 0 = 0#32)
    (hexp : Exported 14 8 (keyOf key) (2 * (q + 1) + 1) s.expEncKeys s.expDecKeys) (hq : q < 6) :
    Pair256 key (q + 1) (keyexp256Odd q s) := by
  have h2 :
    dword (aeskeygenassist (roundKey 8 (keyOf key) (2 * (q + 1))) (roundConstants.getD q 0#8)) 2 =
      keyTemp 8 (4 * (2 * q + 1 + 2)) (keyWord 8 (keyOf key) (4 * (2 * q + 1 + 2) - 1)) :=
    dword_aeskeygenassist_two (q := 2 * q + 1 + 2) (by omega)
  have hkey := keyExpansion_roundKey (m := 2) (by omega) h3 select_aa h2
  rw [← h1, ← h4] at hkey
  refine ⟨h1, hkey, dword_xmm3 h3, ?_⟩
  rw [keyexp256Odd]
  dsimp only
  rw [hkey]
  exact Exported.store hexp (by omega)

theorem keyexp256Rounds_spec (q : ℕ) (hq : q ≤ 6) :
    Pair256 key q (keyexp256Rounds key encKeys decKeys q) := by
  have hload : ldQ key 0 = roundKey 8 (keyOf key) 0 := ldQ_roundKey key rfl (by omega)
  have hload' : ldQ key 16 = roundKey 8 (keyOf key) 1 := ldQ_roundKey key rfl (by omega)
  induction q with
  | zero =>
    refine ⟨hload, hload', rfl, ?_⟩
    rw [keyexp256Rounds, hload, hload']
    exact Exported.store
      (Exported.store (fun q hq => absurd hq (Nat.not_lt_zero q)) (by omega)) (by omega)
  | succ q ih =>
    obtain ⟨h1, h4, h3, hexp⟩ := keyexp256Even_spec key (ih (by omega)) (by omega)
    exact keyexp256Odd_spec key h1 (h4.trans (ih (by omega)).xmm4) h3 hexp (by omega)

/-- The schedules of a 128-bit key. -/
theorem aesKeyexp128_exported :
    Exported 10 4 (keyOf key) 11 (aesKeyexp128 key encKeys decKeys).1
      (aesKeyexp128 key encKeys decKeys).2 :=
  (keyexp128Rounds_spec key encKeys decKeys 10 (Nat.le_refl 10)).2.2

/-- The schedules of a 256-bit key. -/
theorem aesKeyexp256_exported :
    Exported 14 8 (keyOf key) 15 (aesKeyexp256 key encKeys decKeys).1
      (aesKeyexp256 key encKeys decKeys).2 :=
  (keyexp256Even_spec key (keyexp256Rounds_spec key encKeys decKeys 6 (Nat.le_refl 6))
    (by omega)).2.2.2

end Schedules

/-! ## Equal schedules -/

section Equal

variable {rounds m : ℕ} {key key' encKeys encKeys' decKeys decKeys' : ℕ → Byte}

/-- Equal bytes are equal vectors. -/
theorem ldQ_congr {mem mem' : ℕ → Byte} {a : ℕ} (h : ∀ k < 16, mem (a + k) = mem' (a + k)) :
    ldQ mem a = ldQ mem' a :=
  eq_of_byteAt_eq fun k hk => by rw [byteAt_ldQ hk, byteAt_ldQ hk, h k hk]

theorem eq_of_ldQ_eq {mem mem' : ℕ → Byte} {i : ℕ}
    (h : ldQ mem (16 * (i / 16)) = ldQ mem' (16 * (i / 16))) : mem i = mem' i := by
  have hbyte : byteAt (ldQ mem (16 * (i / 16))) (i % 16) = byteAt (ldQ mem' (16 * (i / 16)))
      (i % 16) :=
    by rw [h]
  rwa [byteAt_ldQ (by omega), byteAt_ldQ (by omega), Nat.div_add_mod] at hbyte

/-- Two encryption schedules are the same exactly for equal keys. -/
theorem encKeys_eq_iff (hm : 0 < m) (hmr : m ≤ rounds + 1)
    (h : Exported rounds (4 * m) (keyOf key) (rounds + 1) encKeys decKeys)
    (h' : Exported rounds (4 * m) (keyOf key') (rounds + 1) encKeys' decKeys') :
    (∀ i < 16 * (rounds + 1), encKeys i = encKeys' i) ↔ ∀ i < 16 * m, key i = key' i := by
  constructor
  · intro heq i hi
    refine eq_of_ldQ_eq ?_
    rw [ldQ_roundKey key rfl (show 4 * (i / 16) + 4 ≤ 4 * m by omega),
      ldQ_roundKey key' rfl (show 4 * (i / 16) + 4 ≤ 4 * m by omega), ← (h (i / 16) (by omega)).1,
      ← (h' (i / 16) (by omega)).1]
    exact ldQ_congr fun k hk => heq _ (by omega)
  · intro heq i hi
    have hkey : ∀ j < 4 * m, keyOf key j = keyOf key' j := fun j hj => by
      rw [keyOf, keyOf, load32, load32, heq _ (by omega), heq _ (by omega), heq _ (by omega),
        heq _ (by omega)]
    refine eq_of_ldQ_eq ?_
    rw [(h (i / 16) (by omega)).1, (h' (i / 16) (by omega)).1]
    exact eq_of_dword_eq fun r hr => by
      rw [dword_roundKey hr, dword_roundKey hr, keyWord_congr (by omega) hkey]

/-- A decryption schedule is not an encryption schedule, of whatever keys. -/
theorem decKeys_ne_encKeys (hm : 0 < m) (hrounds : 4 * m < rounds)
    (h : Exported rounds (4 * m) (keyOf key) (rounds + 1) encKeys decKeys)
    (h' : Exported rounds (4 * m) (keyOf key') (rounds + 1) encKeys' decKeys') :
    ¬ ∀ i < 16 * (rounds + 1), decKeys i = encKeys' i := by
  intro heq
  refine keyWord_reversed_ne hm hrounds (keyOf key) (keyOf key') fun q r hq hqr hr => ?_
  have hvec : ldQ decKeys (16 * q) = ldQ encKeys' (16 * q) := ldQ_congr fun k hk => heq _ (by omega)
  have hdec := (h (rounds - q) (by omega)).2
  rw [Nat.sub_sub_self (by omega), if_neg (by omega), hvec, (h' q (by omega)).1] at hdec
  rw [← dword_roundKey hr, hdec, aesimc, dword_packDwords _ hr, dword_roundKey hr]

end Equal

end IsalCrypto.Aes
