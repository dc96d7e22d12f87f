import IsalCrypto.Aes.CbcEncSse

/-!
# CBC decryption on x86

`intel-ipsec-mb/lib/include/aes_cbc_dec_by8_sse.inc`, which `aes/cbc_dec_128_x8_sse.asm` and its
siblings use: the macros `DO_AES_DEC` and `AES_CBC_DEC`. A first group of 1 to 7 blocks is followed
by groups of 8. The last block of a group is stored after the first block of the next group is
loaded.

* `cbcDec_eq`: the function ends and has written the blocks of CBC, nothing else, also where the
  output is the input or begins up to a block behind it; the number of blocks is that of the whole
  blocks in the length, and one for a length below a block.
-/

namespace IsalCrypto.Aes

open IsalCrypto.Lib IsalCrypto.Lib.Aes

/-! ## The function -/

/-- The parameter `type` of `DO_AES_DEC`. -/
inductive DecType
  | main
  | last
  | short
  | start
deriving DecidableEq, Repr

/-- The registers that the macros keep, the place `_IV` on the stack, and the memory. -/
structure CbcDecRegs where
  pIn : ℕ
  pOut : ℕ
  length : BitVec 64
  xdata0 : BitVec 128
  iv : BitVec 128
  mem : ℕ → Byte

/-- `by` is 1 to 7 with the type `short`, or 8 with the type `last`. -/
def isShortOrLast (count : ℕ) (type : DecType) : Bool :=
  (count < 8 && type = .short) || (count = 8 && type = .last)

/-- The cipher text, in `xdata` and copied to `xiv` or `_IV_new`; of eight blocks the first one is
there already. -/
def xiv (count : ℕ) (s : CbcDecRegs) (i : ℕ) : BitVec 128 :=
  if count = 8 ∧ i = 0 then s.xdata0 else ldQ s.mem (s.pIn + 16 * i)

section Function

variable (dec : BitVec 128 → BitVec 128)

/-- `xdata` after the rounds and `XOR IV`. -/
def xdata (count : ℕ) (s : CbcDecRegs) (i : ℕ) : BitVec 128 :=
  dec (xiv count s i) ^^^ if i = 0 then s.iv else xiv count s (i - 1)

/-- `DO_AES_DEC` with `by` equal to `count`. -/
def doAesDec (count : ℕ) (type : DecType) (s : CbcDecRegs) : CbcDecRegs :=
  let mem := written s.mem s.pOut (xdata dec count s) (count - 1)
  let stored := stQ mem (s.pOut + 16 * (count - 1)) (xdata dec count s (count - 1))
  let next := ldQ mem (s.pIn + 16 * count)
  let loads := type = .main ∨ type = .start ∧ ¬ s.length ≤ BitVec.ofNat 64 (16 * count)
  { pIn := if isShortOrLast count type then s.pIn else s.pIn + 16 * count
    pOut := if isShortOrLast count type then s.pOut else s.pOut + 16 * count
    length := if isShortOrLast count type then s.length
      else if count < 8 then s.length &&& ~~~(7 * 16#64) else s.length - 8 * 16#64
    xdata0 := if loads then next else xdata dec count s 0
    iv := if isShortOrLast count type then s.iv else xiv count s (count - 1)
    mem := stored }

/-- The number of blocks that the comparisons of `tmp` select. -/
def selectBlocks (tmp : BitVec 32) : ℕ :=
  if 4 * 16#32 < tmp then
    if 6 * 16#32 < tmp then 7 else if tmp = 6 * 16#32 then 6 else 5
  else if tmp = 4 * 16#32 then 4
  else if 2 * 16#32 < tmp then 3 else if tmp = 2 * 16#32 then 2 else 1

/-- `_main_loop`. -/
def cbcDecMainLoop : ℕ → CbcDecRegs → Option CbcDecRegs
  | 0, _ => none
  | fuel + 1, s =>
    if s.length < 2 * (8 * 16#64) then some (doAesDec dec 8 .last s)
    else cbcDecMainLoop fuel (doAesDec dec 8 .main s)

/-- `AES_CBC_DEC`: the memory afterwards. -/
def cbcDec (inp out : ℕ) (iv : BitVec 128) (length : BitVec 64) (fuel : ℕ) (mem : ℕ → Byte) :
    Option (ℕ → Byte) :=
  let s := ⟨inp, out, length, iv, iv, mem⟩
  let tmp := length.setWidth 32 &&& (7 * 16#32)
  if length < 8 * 16#64 then some (doAesDec dec (selectBlocks tmp) .short s).mem
  else if tmp = 0#32 then
    (cbcDecMainLoop dec fuel { s with xdata0 := ldQ mem inp }).map CbcDecRegs.mem
  else
    let s := doAesDec dec (selectBlocks tmp) .start s
    if s.length = 0#64 then some s.mem else (cbcDecMainLoop dec fuel s).map CbcDecRegs.mem

end Function

/-- `_aes_cbc_dec_128_sse`. -/
def aesCbcDec128 (keys : ℕ → Byte) := cbcDec (decryptSingleBlock 9 keys)

/-- `_aes_cbc_dec_192_sse`. -/
def aesCbcDec192 (keys : ℕ → Byte) := cbcDec (decryptSingleBlock 11 keys)

/-- `_aes_cbc_dec_256_sse`. -/
def aesCbcDec256 (keys : ℕ → Byte) := cbcDec (decryptSingleBlock 13 keys)

/-! ## Groups of blocks -/

section Groups

variable {dec : BitVec 128 → BitVec 128} {inp out m n count fuel : ℕ} {iv : BitVec 128}
  {length : BitVec 64}
  {mem : ℕ → Byte} {s : CbcDecRegs} {type : DecType}

/-- The state between two groups: the first `n` of `m` blocks are written, and the ciphertext before
the next block is kept. -/
structure DecAt (dec : BitVec 128 → BitVec 128) (inp out : ℕ) (iv : BitVec 128) (mem : ℕ → Byte)
    (n : ℕ) (s : CbcDecRegs) : Prop where
  pIn : s.pIn = inp + 16 * n
  pOut : s.pOut = out + 16 * n
  previous : s.iv = chained iv (inputBlock mem inp) n
  stored : s.mem = written mem out (cbcDecrypt dec iv (inputBlock mem inp)) n

/-- Blocks behind those that are there. -/
theorem written_add (mem : ℕ → Byte) (out : ℕ) (x y : ℕ → BitVec 128) (n count : ℕ)
    (h : ∀ i < count, y i = x (n + i)) :
    written (written mem out x n) (out + 16 * n) y count = written mem out x (n + count) := by
  induction count with
  | zero => rfl
  | succ count ih =>
    rw [written, ih fun i hi => h i (Nat.lt_succ_of_lt hi), h count (Nat.lt_succ_self count),
      Nat.add_assoc, ← Nat.mul_add, ← Nat.add_assoc, written]

/-- What holds before a group of `count` blocks; only groups of eight come behind others. -/
structure Group (dec : BitVec 128 → BitVec 128) (inp out m : ℕ) (iv : BitVec 128) (mem : ℕ → Byte)
    (n count : ℕ) (s : CbcDecRegs) : Prop extends DecAt dec inp out iv mem n s where
  pos : 0 < count
  le : n + count ≤ m
  xdata0 : count = 8 → s.xdata0 = inputBlock mem inp n
  first : count ≠ 8 → n = 0

theorem Group.xiv (h : Group dec inp out m iv mem n count s) (hbuf : Ahead inp out m) {i : ℕ}
    (hi : i < count) :
    xiv count s i = inputBlock mem inp (n + i) := by
  have hle := h.le
  unfold Aes.xiv
  by_cases hkept : count = 8 ∧ i = 0
  · rw [if_pos hkept, hkept.2]
    exact h.xdata0 hkept.1
  · have hn : n < n + i ∨ n = 0 := by
      by_cases height : count = 8
      · exact .inl (Nat.lt_add_of_pos_right (Nat.pos_of_ne_zero fun hzero => hkept ⟨height, hzero⟩))
      · exact .inr (h.first height)
    rw [if_neg hkept, h.stored, h.pIn, Nat.add_assoc, ← Nat.mul_add]
    exact inputBlock_written hbuf (by omega) hn

theorem Group.xdata (h : Group dec inp out m iv mem n count s) (hbuf : Ahead inp out m) {i : ℕ}
    (hi : i < count) : xdata dec count s i = cbcDecrypt dec iv (inputBlock mem inp) (n + i) := by
  unfold Aes.xdata cbcDecrypt
  rw [h.xiv hbuf hi]
  cases i with
  | zero => rw [if_pos rfl, h.previous, Nat.add_zero]
  | succ i =>
    rw [if_neg (Nat.succ_ne_zero i), Nat.add_sub_cancel, h.xiv hbuf (Nat.lt_of_succ_lt hi)]
    rfl

/-- The blocks of the group are written. -/
theorem Group.mem_eq (h : Group dec inp out m iv mem n count s) (hbuf : Ahead inp out m)
    (type : DecType) :
    (doAesDec dec count type s).mem = written mem out (cbcDecrypt dec iv (inputBlock mem inp))
      (n + count) := by
  obtain ⟨d, rfl⟩ := Nat.exists_eq_succ_of_ne_zero (Nat.ne_of_gt h.pos)
  have hmem : (doAesDec dec (d + 1) type s).mem = written s.mem s.pOut (Aes.xdata dec (d + 1) s)
      (d + 1) := rfl
  rw [hmem, h.stored, h.pOut]
  exact written_add _ _ _ _ _ _ fun i hi => h.xdata hbuf hi

/-- A group that does not end the message. -/
theorem Group.next (h : Group dec inp out m iv mem n count s) (hbuf : Ahead inp out m)
    {type : DecType} (hmore : n + count < m) (htype : isShortOrLast count type = false)
    (hloads : type = .main ∨ type = .start ∧ ¬ s.length ≤ BitVec.ofNat 64 (16 * count)) :
    DecAt dec inp out iv mem (n + count) (doAesDec dec count type s) ∧
      (doAesDec dec count type s).xdata0 = inputBlock mem inp (n + count) := by
  have hpos := h.pos
  have hlast := h.xiv hbuf (Nat.sub_lt hpos Nat.one_pos)
  refine ⟨⟨?_, ?_, ?_, h.mem_eq hbuf type⟩, ?_⟩
  · unfold doAesDec
    simp only [htype, Bool.false_eq_true, if_false]
    rw [h.pIn, Nat.mul_add, Nat.add_assoc]
  · unfold doAesDec
    simp only [htype, Bool.false_eq_true, if_false]
    rw [h.pOut, Nat.mul_add, Nat.add_assoc]
  · unfold doAesDec
    simp only [htype, Bool.false_eq_true, if_false]
    rw [hlast, show n + count = n + (count - 1) + 1 by omega]
    rfl
  · -- the first block of the next group is loaded before the last one of this group is stored
    have hbefore : written s.mem s.pOut (Aes.xdata dec count s) (count - 1) =
        written mem out (cbcDecrypt dec iv (inputBlock mem inp)) (n + (count - 1)) := by
      rw [h.stored, h.pOut]
      exact written_add _ _ _ _ _ _ fun i hi => h.xdata hbuf (by omega)
    unfold doAesDec
    dsimp only
    rw [if_pos hloads, hbefore, h.pIn, Nat.add_assoc, ← Nat.mul_add]
    exact inputBlock_written hbuf hmore (.inl (by omega))

/-- The loop over groups of eight blocks. -/
theorem DecAt.mainLoop {k : ℕ} (h : DecAt dec inp out iv mem n s)
    (hx : s.xdata0 = inputBlock mem inp n) (hbuf : Ahead inp out m) (hk : 0 < k)
    (hm : n + 8 * k = m) (hlen : s.length.toNat / 16 = 8 * k) (hfuel : k ≤ fuel) :
    ∃ s', cbcDecMainLoop dec fuel s = some s' ∧
      s'.mem = written mem out (cbcDecrypt dec iv (inputBlock mem inp)) m := by
  induction fuel generalizing n k s with
  | zero => exact absurd hfuel (by omega)
  | succ fuel ih =>
    have hgroup : Group dec inp out m iv mem n 8 s :=
      ⟨h, by decide, by omega, fun _ => hx, fun hne => absurd rfl hne⟩
    unfold cbcDecMainLoop
    split
    · next hlast =>
      rw [BitVec.lt_def] at hlast
      have hone : s.length.toNat < 256 := hlast
      refine ⟨_, rfl, ?_⟩
      rw [← hm, show 8 * k = 8 by omega]
      exact hgroup.mem_eq hbuf .last
    · next hmore =>
      rw [BitVec.lt_def] at hmore
      have htwo : ¬ s.length.toNat < 256 := hmore
      obtain ⟨hnext, hx'⟩ := hgroup.next hbuf (by omega) rfl (.inl rfl)
      have hsub : (doAesDec dec 8 .main s).length = s.length - 128#64 := rfl
      have hnat : (s.length - 128#64).toNat = s.length.toNat - 128 := by
        rw [BitVec.toNat_sub, BitVec.toNat_ofNat]
        omega
      have hrest : (s.length.toNat - 128) / 16 = 8 * (k - 1) := by omega
      exact @ih (n + 8) _ (k - 1) hnext hx' (by omega) (by omega) (by rw [hsub, hnat, hrest])
        (by omega)

end Groups

/-! ## The length -/

section Length

variable {length : BitVec 64}

/-- The bits 4 to 6. -/
theorem and_groupMask (x : ℕ) : x &&& 112 = 16 * (x / 16 % 8) := by
  refine Nat.eq_of_testBit_eq fun i => ?_
  have hmask : (112 : ℕ) = 2 ^ 4 * (2 ^ 3 - 1) := rfl
  have hdiv : x / 16 % 8 = x / 2 ^ 4 % 2 ^ 3 := rfl
  rw [Nat.testBit_and, hmask, hdiv, show (16 : ℕ) = 2 ^ 4 from rfl, Nat.testBit_two_pow_mul,
    Nat.testBit_two_pow_mul, Nat.testBit_mod_two_pow, Nat.testBit_two_pow_sub_one,
    Nat.testBit_div_two_pow]
  by_cases hi : 4 ≤ i
  · rw [decide_eq_true hi, Nat.sub_add_cancel hi, Bool.true_and, Bool.true_and, Bool.and_comm]
  · rw [decide_eq_false hi, Bool.false_and, Bool.false_and, Bool.and_false]

theorem groupLength_eq (length : BitVec 64) :
    length.setWidth 32 &&& (7 * 16#32) = BitVec.ofNat 32 (16 * (length.toNat / 16 % 8)) := by
  refine BitVec.eq_of_toNat_eq ?_
  have hmask : (7 * 16#32 : BitVec 32).toNat = 112 := rfl
  rw [BitVec.toNat_and, hmask, and_groupMask, BitVec.toNat_setWidth, BitVec.toNat_ofNat]
  omega

theorem selectBlocks_eq : ∀ b < 8, selectBlocks (BitVec.ofNat 32 (16 * b)) = max 1 b := by decide

/-- What is left of the length after the first group. -/
theorem restLength_eq (length : BitVec 64) :
    (length &&& ~~~(7 * 16#64)).toNat = length.toNat - 16 * (length.toNat / 16 % 8) := by
  have hand : (length &&& (7 * 16#64)).toNat = 16 * (length.toNat / 16 % 8) := by
    rw [BitVec.toNat_and]
    exact and_groupMask _
  have hzero : (length &&& (7 * 16#64)) &&& (length &&& ~~~(7 * 16#64)) = 0#64 := by
    refine BitVec.eq_of_getLsbD_eq fun i hi => ?_
    rw [BitVec.getLsbD_and, BitVec.getLsbD_and, BitVec.getLsbD_and, BitVec.getLsbD_not,
      decide_eq_true hi, BitVec.getLsbD_zero]
    cases length.getLsbD i with
    | false => rfl
    | true =>
      cases (7 * 16#64 : BitVec 64).getLsbD i with
      | false => rfl
      | true => rfl
  have hor : (length &&& (7 * 16#64)) ||| (length &&& ~~~(7 * 16#64)) = length := by
    refine BitVec.eq_of_getLsbD_eq fun i hi => ?_
    rw [BitVec.getLsbD_or, BitVec.getLsbD_and, BitVec.getLsbD_and, BitVec.getLsbD_not,
      decide_eq_true hi]
    cases length.getLsbD i with
    | false => rfl
    | true =>
      cases (7 * 16#64 : BitVec 64).getLsbD i with
      | false => rfl
      | true => rfl
  have hadd := congrArg BitVec.toNat ((BitVec.add_eq_or_of_and_eq_zero _ _ hzero).trans hor)
  rw [BitVec.toNat_add, hand] at hadd
  have hlt := length.isLt
  omega

end Length

/-! ## The whole function -/

section Whole

variable {inp out m fuel : ℕ} {length : BitVec 64}

/-- The function leaves the blocks of CBC in the output, and everything else as it was. A length of
less than a block is taken for one block. -/
theorem cbcDec_eq (dec : BitVec 128 → BitVec 128) (iv : BitVec 128) (mem : ℕ → Byte)
    (hbuf : Ahead inp out m) (hm : m = max 1 (length.toNat / 16)) (hfuel : m ≤ fuel) :
    cbcDec dec inp out iv length fuel mem =
      some (written mem out (cbcDecrypt dec iv (inputBlock mem inp)) m) := by
  have hstart : DecAt dec inp out iv mem 0 ⟨inp, out, length, iv, iv, mem⟩ := ⟨rfl, rfl, rfl, rfl⟩
  have hsmall : length.toNat / 16 % 8 < 8 := Nat.mod_lt _ (by decide)
  unfold cbcDec
  dsimp only
  rw [groupLength_eq, selectBlocks_eq _ hsmall]
  split
  · next hshort =>
    rw [BitVec.lt_def] at hshort
    have hlt : length.toNat < 128 := hshort
    have hcount : max 1 (length.toNat / 16 % 8) = m := by omega
    have hgroup : Group dec inp out m iv mem 0 m ⟨inp, out, length, iv, iv, mem⟩ :=
      ⟨hstart, by omega, by omega, fun height => absurd height (by omega), fun _ => rfl⟩
    rw [hcount, hgroup.mem_eq hbuf, Nat.zero_add]
  · next hlong =>
    rw [BitVec.lt_def] at hlong
    have hge : ¬ length.toNat < 128 := hlong
    have hm' : m = length.toNat / 16 := by omega
    split
    · next hzero =>
      have hnat := congrArg BitVec.toNat hzero
      rw [BitVec.toNat_ofNat, BitVec.toNat_ofNat] at hnat
      have hstart' : DecAt dec inp out iv mem 0 ⟨inp, out, length, ldQ mem inp, iv, mem⟩ :=
        ⟨rfl, rfl, rfl, rfl⟩
      obtain ⟨s', hs', hmem⟩ :=
        @DecAt.mainLoop dec inp out m 0 fuel iv mem _ (length.toNat / 128) hstart' rfl hbuf
        (by omega) (by omega) (by dsimp only; omega) (by omega)
      rw [hs', Option.map_some, hmem]
    · next hne =>
      have hpos : length.toNat / 16 % 8 ≠ 0 := fun hzero => hne (by rw [hzero])
      have hcount : max 1 (length.toNat / 16 % 8) = length.toNat / 16 % 8 := by omega
      rw [hcount]
      have hgroup : Group dec inp out m iv mem 0 (length.toNat / 16 % 8)
          ⟨inp, out, length, iv, iv, mem⟩ :=
        ⟨hstart, by omega, by omega, fun height => absurd height (by omega), fun _ => rfl⟩
      have htype : isShortOrLast (length.toNat / 16 % 8) .start = false := by
        unfold isShortOrLast
        simp
      have hloads : ¬ length ≤ BitVec.ofNat 64 (16 * (length.toNat / 16 % 8)) := by
        rw [BitVec.le_def, BitVec.toNat_ofNat]
        omega
      obtain ⟨hnext, hx⟩ := hgroup.next hbuf (by omega) htype (.inr ⟨rfl, hloads⟩)
      have hlength :
        (doAesDec dec (length.toNat / 16 % 8) .start ⟨inp, out, length, iv, iv, mem⟩).length =
          length &&& ~~~(7 * 16#64) := by
        unfold doAesDec
        simp only [htype, Bool.false_eq_true, if_false, if_pos hsmall]
      have hrest := restLength_eq length
      generalize doAesDec dec (length.toNat / 16 % 8) .start ⟨inp, out, length, iv, iv, mem⟩ = s
        at *
      rw [← hlength] at hrest
      rw [if_neg fun hzero => by
        rw [hzero, BitVec.toNat_ofNat] at hrest
        omega]
      obtain ⟨s', hs', hmem⟩ :=
        @DecAt.mainLoop dec inp out m _ fuel iv mem s (length.toNat / 128) hnext hx hbuf
        (by omega) (by omega) (by omega) (by omega)
      rw [hs', Option.map_some, hmem]

end Whole

end IsalCrypto.Aes
