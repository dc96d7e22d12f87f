import IsalCrypto.Aes.GcmSseHash

/-!
# What the parts of GCM on x86 do

Everything is about streams: `m` is the text of all calls, byte `L` of it the first byte of this
call, and the counter block of block `q` is the initial one incremented `q + 1` times.

* `readSmallDataInput_eq`, `storeSmall_apply`: the bytes of an incomplete block.
* `cryptBlocks_spec`: some whole blocks; `encryptBy8_spec`: the loop over batches of eight, which
  counts in the swapped register as long as its low byte does not overflow.
* `wholeBlocks_spec`: all whole blocks of a call.
-/

namespace IsalCrypto.Aes.GcmSse

open IsalCrypto.Lib

/-! ## Incomplete blocks -/

section Small

variable {inp out : ℕ → Byte} {a n i k : ℕ} {length : BitVec 64}

/-- The bytes are read from the last one to the first. -/
theorem getLsbD_byteLoop (inp : ℕ → Byte) (a n : ℕ) (tmp1 : BitVec 64) (hi : i < 64) :
    (byteLoop inp n (a + n) tmp1).getLsbD i =
      if i / 8 < n then (inp (a + i / 8)).getLsbD (i % 8) else tmp1.getLsbD (i - 8 * n) := by
  induction n generalizing tmp1 with
  | zero => rw [byteLoop, if_neg (Nat.not_lt_zero _), Nat.mul_zero, Nat.sub_zero]
  | succ n ih =>
    rw [byteLoop, show a + (n + 1) - 1 = a + n by omega, ih]
    rcases Nat.lt_trichotomy (i / 8) n with hlt | rfl | hgt
    · rw [if_pos hlt, if_pos (Nat.lt_succ_of_lt hlt)]
    · rw [if_neg (Nat.lt_irrefl _), if_pos (Nat.lt_succ_self _), BitVec.getLsbD_or,
        BitVec.getLsbD_shiftLeft, BitVec.getLsbD_setWidth, show i - 8 * (i / 8) = i % 8 by omega,
        decide_eq_true (show i % 8 < 8 by omega), decide_eq_true (show i % 8 < 64 by omega)]
      simp
    · rw [if_neg (by omega), if_neg (by omega), BitVec.getLsbD_or, BitVec.getLsbD_shiftLeft,
        BitVec.getLsbD_setWidth, BitVec.getLsbD_of_ge (inp _) _ (by omega),
        decide_eq_true (show i - 8 * n < 64 by omega),
        decide_eq_false (show ¬ i - 8 * n < 8 by omega),
        show i - 8 * n - 8 = i - 8 * (n + 1) by omega]
      simp

theorem iterations_eq (hn : length.toNat = n) (hpos : 0 < n) (hlt : n < 2 ^ 63) :
    iterations length = n := by
  rw [iterations, if_neg, hn]
  rw [BitVec.slt_eq_decide, decide_eq_true_eq, BitVec.toInt_eq_toNat_of_lt (by omega), hn]
  have hone : (1#64).toInt = 1 := by decide
  omega

theorem slt_iff {x y : BitVec 64} (hx : x.toNat < 2 ^ 63) (hy : y.toNat < 2 ^ 63) :
    x.slt y ↔ x.toNat < y.toNat := by
  rw [BitVec.slt_eq_decide, decide_eq_true_eq, BitVec.toInt_eq_toNat_of_lt (by omega),
    BitVec.toInt_eq_toNat_of_lt (by omega), Int.ofNat_lt]

/-- Up to fifteen bytes are read into a block. -/
theorem readSmallDataInput_eq (hn : length.toNat = n) (hlt : n < 16) :
    readSmallDataInput inp a length = ofBytes (window inp a n) := by
  have h8 : length.slt 8#64 ↔ n < 8 := hn ▸ slt_iff (by omega) (by decide)
  have hbyte : ∀ {m b : ℕ} {i : ℕ}, i < 64 → (byteLoop inp m (b + m) 0#64).getLsbD i =
      if i / 8 < m then (inp (b + i / 8)).getLsbD (i % 8) else false := fun hi => by
    rw [getLsbD_byteLoop inp _ _ _ hi, BitVec.getLsbD_zero]
  have hbits : ∀ i < 128, (readSmallDataInput inp a length).getLsbD i =
      if i / 8 < n then (inp (a + i / 8)).getLsbD (i % 8) else false := fun i hi => by
    rw [readSmallDataInput, hn]
    split
    · next hshort =>
      have hlt8 := h8.mp hshort
      split
      · next hzero =>
        have hn0 : n = 0 := by rw [← hn, hzero]; rfl
        rw [hn0, if_neg (Nat.not_lt_zero _), BitVec.getLsbD_zero]
      · next hne =>
        have hpos : 0 < n := Nat.pos_of_ne_zero fun h0 => hne (BitVec.eq_of_toNat_eq (hn.trans h0))
        rw [iterations_eq hn hpos (by omega), pinsrq0, BitVec.getLsbD_append]
        split
        · next hi64 => exact hbyte hi64
        · next hi64 =>
          rw [getLsbD_highQ (by omega), BitVec.getLsbD_zero, if_neg (by omega)]
    · next hlong =>
      have hge8 : 8 ≤ n := Nat.not_lt.mp fun h => hlong (h8.mpr h)
      have hlow : i < 64 → (pinsrq0 0#128 (load64 inp a)).getLsbD i =
          if i / 8 < n then (inp (a + i / 8)).getLsbD (i % 8) else false := fun hi64 => by
        rw [pinsrq0, BitVec.getLsbD_append, if_pos hi64, getLsbD_load64 hi64, if_pos (by omega)]
      split
      · next height =>
        have hn8 : n = 8 := by rw [← hn, height]; rfl
        rcases Nat.lt_or_ge i 64 with hi64 | hi64
        · exact hlow hi64
        · rw [pinsrq0, BitVec.getLsbD_append, if_neg (by omega), getLsbD_highQ (by omega),
            BitVec.getLsbD_zero, if_neg (by omega)]
      · next hne =>
        have hgt8 : 8 < n := Nat.lt_of_le_of_ne hge8 fun h =>
          hne (BitVec.eq_of_toNat_eq (hn.trans h.symm))
        have hrest : (length - 8#64).toNat = n - 8 := by
          rw [BitVec.toNat_sub_of_le (by rw [BitVec.le_def, hn]; exact hge8), hn]
          rfl
        rw [iterations_eq hrest (by omega) (by omega), pinsrq1, BitVec.getLsbD_append]
        split
        · next hi64 => rw [getLsbD_lowQ hi64, hlow hi64]
        · next hi64 =>
          rw [show a + n = a + 8 + (n - 8) by omega, hbyte (by omega),
            show a + 8 + (i - 64) / 8 = a + i / 8 by omega, show (i - 64) % 8 = i % 8 by omega]
          exact if_congr (by omega) rfl rfl
  refine eq_of_byteAt_eq fun k hk => ?_
  rw [byteAt_ofBytes_window (by omega)]
  refine BitVec.eq_of_getLsbD_eq fun b hb => ?_
  rw [getLsbD_byteAt, decide_eq_true hb, Bool.true_and, hbits _ (by omega),
    show (8 * k + b) / 8 = k by omega, show (8 * k + b) % 8 = b by omega]
  split
  · rfl
  · rw [BitVec.getLsbD_zero]

theorem storeBytes_apply (rax : BitVec 64) (r a : ℕ) (out : ℕ → Byte) (k : ℕ) :
    storeBytes rax r a out k =
      if a ≤ k ∧ k < a + r then (rax >>> (8 * (k - a))).setWidth 8 else out k := by
  induction r generalizing rax a out with
  | zero => rw [storeBytes, if_neg (by omega)]
  | succ r ih =>
    rw [storeBytes, ih]
    rcases Nat.lt_trichotomy k a with hlt | rfl | hgt
    · rw [if_neg (by omega), if_neg (by omega), Function.update_of_ne (by omega)]
    · rw [if_neg (by omega), if_pos (by omega), Function.update_self, Nat.sub_self, Nat.mul_zero,
        BitVec.ushiftRight_zero]
    · rw [Function.update_of_ne (by omega), ← BitVec.shiftRight_add,
        show 8 + 8 * (k - (a + 1)) = 8 * (k - a) by omega]
      exact if_congr (by omega) rfl rfl

theorem setWidth_ushiftRight_lowQ (v : BitVec 128) (hk : k < 8) :
    (lowQ v >>> (8 * k)).setWidth 8 = byteAt v k := by
  refine BitVec.eq_of_getLsbD_eq fun b hb => ?_
  rw [BitVec.getLsbD_setWidth, BitVec.getLsbD_ushiftRight, getLsbD_lowQ (by omega), getLsbD_byteAt]

theorem byteAt_psrldq_eight (v : BitVec 128) (k : ℕ) :
    byteAt (psrldq v 8) k = byteAt v (k + 8) := by
  refine BitVec.eq_of_getLsbD_eq fun b hb => ?_
  rw [getLsbD_byteAt, getLsbD_byteAt, psrldq, BitVec.getLsbD_ushiftRight,
    show 8 * 8 + (8 * k + b) = 8 * (k + 8) + b by omega]

/-- The first `r13` bytes are stored. -/
theorem storeSmall_apply (out : ℕ → Byte) (a : ℕ) (v : BitVec 128) {r13 : ℕ} (hr : r13 ≤ 16)
    (k : ℕ) :
    storeSmall out a v r13 k = if a ≤ k ∧ k < a + r13 then byteAt v (k - a) else out k := by
  rw [storeSmall]
  split
  · rw [storeBytes_apply]
    split
    · rw [setWidth_ushiftRight_lowQ v (by omega)]
    · rfl
  · dsimp only
    rw [storeBytes_apply, storeBytes_apply]
    rcases Nat.lt_or_ge k (a + 8) with hlow | hhigh
    · rw [if_neg (by omega)]
      split
      · rw [if_pos (by omega), setWidth_ushiftRight_lowQ v (by omega)]
      · rw [if_neg (by omega)]
    · rcases Nat.lt_or_ge k (a + r13) with hin | hout
      · rw [if_pos (by omega), if_pos (by omega), setWidth_ushiftRight_lowQ _ (by omega),
          byteAt_psrldq_eight, show k - (a + 8) + 8 = k - a by omega]
      · rw [if_neg (by omega), if_neg (by omega), if_neg (by omega)]

end Small

/-! ## Counters -/

section Counter

variable {x : BitVec 128} {i k n : ℕ}

theorem getLsbD_inc32 (x : BitVec 128) (hi : i < 128) :
    (inc32 x).getLsbD i =
      if i < 32 then (x.extractLsb' 0 32 + 1#32).getLsbD i else x.getLsbD i := by
  rw [inc32, BitVec.getLsbD_append]
  split
  · rfl
  · rw [BitVec.getLsbD_extractLsb', decide_eq_true (show i - 32 < 96 by omega), Bool.true_and,
      show 32 + (i - 32) = i by omega]

theorem getLsbD_paddd (v w : BitVec 128) (hi : i < 128) : (paddd v w).getLsbD i =
    (v.extractLsb' (32 * (i / 32)) 32 + w.extractLsb' (32 * (i / 32)) 32).getLsbD (i % 32) := by
  rw [paddd, zipDwords, getLsbD_append_dwords _ _ _ _ hi]
  have hcases : i / 32 = 0 ∨ i / 32 = 1 ∨ i / 32 = 2 ∨ i / 32 = 3 := by omega
  obtain hq | hq | hq | hq := hcases <;> rw [hq] <;> rfl

theorem paddd_one (x : BitVec 128) : paddd x one = inc32 x := by
  refine BitVec.eq_of_getLsbD_eq fun i hi => ?_
  have hzero : ∀ q < 4, q ≠ 0 → one.extractLsb' (32 * q) 32 = 0#32 := by decide
  rw [getLsbD_paddd _ _ hi, getLsbD_inc32 x hi]
  split
  · next hlow =>
    rw [show i / 32 = 0 by omega, Nat.mod_eq_of_lt hlow]
    rfl
  · rw [hzero (i / 32) (by omega) (by omega), BitVec.add_zero, BitVec.getLsbD_extractLsb',
      decide_eq_true (Nat.mod_lt i (by decide)), Bool.true_and, Nat.div_add_mod]

/-- Without a carry only the lowest byte changes. -/
theorem add_one_of_ne {e : BitVec 32} (he : e.setWidth 8 ≠ 255#8) :
    e + 1#32 = e.extractLsb' 8 24 ++ (e.setWidth 8 + 1#8) := by
  have hne : e.toNat % 256 ≠ 255 := fun h => he (BitVec.eq_of_toNat_eq (by
    rw [BitVec.toNat_setWidth]
    exact h))
  have hlt := e.isLt
  refine BitVec.eq_of_toNat_eq ?_
  rw [BitVec.toNat_append, ← Nat.shiftLeft_add_eq_or_of_lt (BitVec.isLt _), BitVec.toNat_add,
    BitVec.toNat_add, BitVec.extractLsb'_toNat, BitVec.toNat_setWidth, Nat.shiftRight_eq_div_pow,
    Nat.shiftLeft_eq]
  simp only [BitVec.toNat_ofNat]
  omega

/-- An addition to the highest byte. -/
theorem add_top (e : BitVec 32) :
    e + 0x01000000#32 = (e.extractLsb' 24 8 + 1#8) ++ e.extractLsb' 0 24 := by
  have hlt := e.isLt
  refine BitVec.eq_of_toNat_eq ?_
  rw [BitVec.toNat_append, ← Nat.shiftLeft_add_eq_or_of_lt (BitVec.isLt _), BitVec.toNat_add,
    BitVec.toNat_add, BitVec.extractLsb'_toNat, BitVec.extractLsb'_toNat, Nat.shiftRight_eq_div_pow,
    Nat.shiftRight_eq_div_pow, Nat.shiftLeft_eq]
  simp only [BitVec.toNat_ofNat]
  omega

theorem byteAt_inc32 (hx : byteAt x 0 ≠ 255#8) (hk : k < 16) :
    byteAt (inc32 x) k = if k = 0 then byteAt x 0 + 1#8 else byteAt x k := by
  have hlow : (x.extractLsb' 0 32).setWidth 8 = byteAt x 0 := by
    refine BitVec.eq_of_getLsbD_eq fun b hb => ?_
    rw [BitVec.getLsbD_setWidth, BitVec.getLsbD_extractLsb', getLsbD_byteAt, Nat.mul_zero]
    grind
  have hsum := add_one_of_ne (e := x.extractLsb' 0 32) (by rwa [hlow])
  rw [hlow] at hsum
  refine BitVec.eq_of_getLsbD_eq fun b hb => ?_
  rw [getLsbD_byteAt, getLsbD_inc32 x (by omega), hsum, BitVec.getLsbD_append,
    BitVec.getLsbD_extractLsb', BitVec.getLsbD_extractLsb', decide_eq_true hb, Bool.true_and]
  rcases Nat.eq_zero_or_pos k with rfl | hpos
  · rw [if_pos (by omega), if_pos (by omega), if_pos rfl, Nat.mul_zero, Nat.zero_add]
  · rw [if_neg (Nat.ne_of_gt hpos), getLsbD_byteAt, decide_eq_true hb, Bool.true_and]
    split
    · rw [if_neg (by omega), decide_eq_true (show 8 * k + b - 8 < 24 by omega),
        decide_eq_true (show 8 + (8 * k + b - 8) < 32 by omega),
        show 0 + (8 + (8 * k + b - 8)) = 8 * k + b by omega]
      rfl
    · rfl

theorem byteAt_paddd_onef (v : BitVec 128) (hk : k < 16) :
    byteAt (paddd v onef) k = if k = 15 then byteAt v 15 + 1#8 else byteAt v k := by
  have hzero : ∀ q < 4, q ≠ 3 → onef.extractLsb' (32 * q) 32 = 0#32 := by decide
  have htop : onef.extractLsb' (32 * 3) 32 = 0x01000000#32 := by decide
  have hbyte : (v.extractLsb' (32 * 3) 32).extractLsb' 24 8 = byteAt v 15 := by
    refine BitVec.eq_of_getLsbD_eq fun b hb => ?_
    rw [BitVec.getLsbD_extractLsb', BitVec.getLsbD_extractLsb', getLsbD_byteAt]
    grind
  refine BitVec.eq_of_getLsbD_eq fun b hb => ?_
  rw [getLsbD_byteAt, decide_eq_true hb, Bool.true_and, getLsbD_paddd _ _ (by omega)]
  rcases Nat.lt_or_ge (8 * k + b) 96 with hlow | hhigh
  · rw [hzero _ (by omega) (by omega), BitVec.add_zero, if_neg (by omega), getLsbD_byteAt,
      BitVec.getLsbD_extractLsb', Nat.div_add_mod, decide_eq_true hb,
      decide_eq_true (show (8 * k + b) % 32 < 32 by omega)]
  · rw [show (8 * k + b) / 32 = 3 by omega, htop, add_top, BitVec.getLsbD_append, hbyte]
    split
    · rw [if_neg (by omega), BitVec.getLsbD_extractLsb', BitVec.getLsbD_extractLsb', getLsbD_byteAt,
        decide_eq_true hb, decide_eq_true (show (8 * k + b) % 32 < 24 by omega),
        decide_eq_true (show 0 + (8 * k + b) % 32 < 32 by omega),
        show 32 * 3 + (0 + (8 * k + b) % 32) = 8 * k + b by omega]
      rfl
    · rw [if_pos (by omega), show (8 * k + b) % 32 - 24 = b by omega]

/-- The swapped counter is incremented in its highest byte as long as that does not overflow. -/
theorem paddd_byteSwap_onef (hx : byteAt x 0 ≠ 255#8) :
    paddd (byteSwap x) onef = byteSwap (inc32 x) :=
  eq_of_byteAt_eq fun k hk => by
    rw [byteAt_paddd_onef _ hk, byteAt_byteSwap (by decide), byteAt_byteSwap hk, byteAt_byteSwap hk,
      byteAt_inc32 hx (by omega), Nat.sub_self]
    exact if_congr (by omega) rfl rfl

theorem byteAt_zero_inc32 (x : BitVec 128) : byteAt (inc32 x) 0 = byteAt x 0 + 1#8 := by
  rcases eq_or_ne (byteAt x 0) 255#8 with heq | hne
  · refine BitVec.eq_of_toNat_eq ?_
    have hsum : byteAt (inc32 x) 0 = (x.extractLsb' 0 32 + 1#32).setWidth 8 := by
      refine BitVec.eq_of_getLsbD_eq fun b hb => ?_
      rw [getLsbD_byteAt, getLsbD_inc32 x (by omega), if_pos (by omega), BitVec.getLsbD_setWidth,
        Nat.mul_zero, Nat.zero_add]
    have hnat : x.toNat % 256 = 255 := by
      have h := congrArg BitVec.toNat heq
      rwa [byteAt, BitVec.extractLsb'_toNat, Nat.mul_zero, Nat.shiftRight_zero] at h
    rw [hsum, heq, BitVec.toNat_setWidth, BitVec.toNat_add, BitVec.extractLsb'_toNat,
      Nat.shiftRight_zero]
    simp only [BitVec.toNat_ofNat, BitVec.toNat_add]
    omega
  · rw [byteAt_inc32 hne (by decide), if_pos rfl]

theorem toNat_byteAt_iterate_inc32 (x : BitVec 128) (n : ℕ) :
    (byteAt (inc32^[n] x) 0).toNat = ((byteAt x 0).toNat + n) % 256 := by
  induction n with
  | zero => exact (Nat.mod_eq_of_lt (byteAt x 0).isLt).symm
  | succ n ih =>
    rw [Function.iterate_succ_apply', byteAt_zero_inc32, BitVec.toNat_add, ih]
    exact Nat.mod_add_mod ((byteAt x 0).toNat + n) 256 1

end Counter

/-! ## Whole blocks -/

/-- The ciphertext, which is what is hashed. -/
def EncDec.cipherText (encDec : EncDec) (aes : BitVec 128 → BitVec 128) (j : BitVec 128)
    (m : ℕ → Byte) : ℕ → Byte :=
  match encDec with
  | .enc => gctrAt aes (inc32 j) m
  | .dec => m

theorem EncDec.cipherText_enc (aes : BitVec 128 → BitVec 128) (j : BitVec 128) (m : ℕ → Byte) :
    EncDec.enc.cipherText aes j m = gctrAt aes (inc32 j) m := rfl

theorem EncDec.cipherText_dec (aes : BitVec 128 → BitVec 128) (j : BitVec 128) (m : ℕ → Byte) :
    EncDec.dec.cipherText aes j m = m := rfl

/-- The counter as the register has it. -/
def LoopIdx.reg : LoopIdx → BitVec 128 → BitVec 128
  | .inOrder, x => x
  | .outOrder, x => byteSwap x

/-- The blocks from `q` on, `n` of them, are written, and the counter is that of the last one. One
counter has been encrypted for each. -/
structure Bulk.Crypted (aes : BitVec 128 → BitVec 128) (j : BitVec 128) (m : ℕ → Byte)
    (loopIdx : LoopIdx) (q n : ℕ) (s s' : Bulk) : Prop where
  dataOffset : s'.dataOffset = s.dataOffset + 16 * n
  ctr : s'.ctr = loopIdx.reg (inc32^[q + n] j)
  out : ∀ k, s'.out k =
    if s.dataOffset ≤ k ∧ k < s.dataOffset + 16 * n then
      gctrAt aes (inc32 j) m (16 * q + (k - s.dataOffset))
    else s.out k
  encrypted : s'.encrypted = s.encrypted ++ window (fun i => byteSwap (inc32^[i + 1] j)) q n

section Blocks

variable {aes : BitVec 128 → BitVec 128} {j h y : BitVec 128} {m inp c : ℕ → Byte}
  {encDec : EncDec} {loopIdx : LoopIdx} {q n n' : ℕ} {s s' s'' : Bulk}

theorem Bulk.Crypted.trans (h : Bulk.Crypted aes j m loopIdx q n s s')
    (h' : Bulk.Crypted aes j m loopIdx (q + n) n' s' s'') :
    Bulk.Crypted aes j m loopIdx q (n + n') s s'' := by
  constructor
  case dataOffset => rw [h'.dataOffset, h.dataOffset, Nat.mul_add, Nat.add_assoc]
  case ctr => rw [h'.ctr, Nat.add_assoc]
  case out =>
    intro k
    rw [h'.out, h.out, h.dataOffset]
    by_cases hsecond : s.dataOffset + 16 * n ≤ k ∧ k < s.dataOffset + 16 * n + 16 * n'
    · rw [if_pos hsecond, if_pos (by omega)]
      congr 1
      omega
    · rw [if_neg hsecond]
      by_cases hfirst : s.dataOffset ≤ k ∧ k < s.dataOffset + 16 * n
      · rw [if_pos hfirst, if_pos (by omega)]
      · rw [if_neg hfirst, if_neg (by omega)]
  case encrypted => rw [h'.encrypted, h.encrypted, window_add, List.append_assoc]

/-- One step of the counter, unless it is swapped and its low byte overflows. -/
theorem LoopIdx.reg_inc32 (loopIdx : LoopIdx) (x : BitVec 128) :
    (loopIdx = .outOrder → byteAt x 0 ≠ 255#8) →
      (match loopIdx with
        | .inOrder => paddd (loopIdx.reg x) one
        | .outOrder => paddd (loopIdx.reg x) onef) = loopIdx.reg (inc32 x) ∧
      (match loopIdx with
        | .inOrder => pshufb (loopIdx.reg (inc32 x)) shufMask
        | .outOrder => loopIdx.reg (inc32 x)) = byteSwap (inc32 x) := by
  intro hcarry
  cases loopIdx with
  | inOrder => exact ⟨paddd_one x, pshufb_shufMask _⟩
  | outOrder => exact ⟨paddd_byteSwap_onef (hcarry rfl), rfl⟩

/-- A block of the key stream over a block of the text. -/
theorem ofBytes_window_gctrAt (aes : BitVec 128 → BitVec 128) (j : BitVec 128) (m : ℕ → Byte)
    (q : ℕ) :
    aes (byteSwap (inc32^[q + 1] j)) ^^^ ofBytes (window m (16 * q) 16) =
      ofBytes (window (gctrAt aes (inc32 j) m) (16 * q) 16) :=
  eq_of_byteAt_eq fun k hk => by
    rw [byteAt_xor, byteAt_ofBytes_window (Nat.le_refl 16), byteAt_ofBytes_window (Nat.le_refl 16),
      if_pos hk, if_pos hk, gctrAt, keyStream_block hk, BitVec.xor_comm,
      Function.iterate_succ_apply]

theorem cryptBlocks_succ (aes : BitVec 128 → BitVec 128) (encDec : EncDec) (loopIdx : LoopIdx)
    (inp : ℕ → Byte) (n : ℕ) (s : Bulk) :
    cryptBlocks aes encDec loopIdx inp (n + 1) s =
      let ctr := match loopIdx with
        | .inOrder => paddd s.ctr one
        | .outOrder => paddd s.ctr onef
      let reg := match loopIdx with
        | .inOrder => pshufb ctr shufMask
        | .outOrder => ctr
      let rest := cryptBlocks aes encDec loopIdx inp n
        ⟨stQ s.out s.dataOffset (aes reg ^^^ ldQ inp s.dataOffset), s.dataOffset + 16, ctr,
          s.encrypted ++ [reg]⟩
      (pshufb (match encDec with
        | .enc => aes reg ^^^ ldQ inp s.dataOffset
        | .dec => ldQ inp s.dataOffset) shufMask :: rest.1, rest.2) := rfl

/-- The block to be hashed is that of the ciphertext. -/
theorem EncDec.hashed_block (encDec : EncDec) (aes : BitVec 128 → BitVec 128) (j : BitVec 128)
    (m : ℕ → Byte) (q : ℕ) :
    pshufb (match encDec with
      | .enc => ofBytes (window (gctrAt aes (inc32 j) m) (16 * q) 16)
      | .dec => ofBytes (window m (16 * q) 16)) shufMask =
        streamBlock (encDec.cipherText aes j m) q := by
  rw [pshufb_shufMask, streamBlock]
  cases encDec with
  | enc => rfl
  | dec => rfl

theorem cryptBlocks_spec (hinp : ∀ k < 16 * n, inp (s.dataOffset + k) = m (16 * q + k))
    (hctr : s.ctr = loopIdx.reg (inc32^[q] j))
    (hcarry : loopIdx = .outOrder → (byteAt (inc32^[q] j) 0).toNat + n ≤ 255) :
    (cryptBlocks aes encDec loopIdx inp n s).1 =
      window (streamBlock (encDec.cipherText aes j m)) q n ∧
      Bulk.Crypted aes j m loopIdx q n s (cryptBlocks aes encDec loopIdx inp n s).2 := by
  induction n generalizing q s with
  | zero => exact ⟨rfl, rfl, hctr, fun k => (if_neg (by omega)).symm, (List.append_nil _).symm⟩
  | succ n ih =>
    have hstep : loopIdx = .outOrder → byteAt (inc32^[q] j) 0 ≠ 255#8 := fun hl he => by
      have hle := hcarry hl
      rw [he] at hle
      exact absurd hle (by simp)
    obtain ⟨hnext, hreg⟩ := loopIdx.reg_inc32 _ hstep
    have hload : ldQ inp s.dataOffset = ofBytes (window m (16 * q) 16) := by
      rw [ldQ, window_eq_window fun k hk => hinp k (by omega)]
    rw [← Function.iterate_succ_apply' inc32 q j] at hnext hreg
    rw [cryptBlocks_succ, hctr]
    dsimp only
    rw [hnext, hreg, hload, ofBytes_window_gctrAt]
    have hfirst : Bulk.Crypted aes j m loopIdx q 1 s
        ⟨stQ s.out s.dataOffset (ofBytes (window (gctrAt aes (inc32 j) m) (16 * q) 16)),
          s.dataOffset + 16, loopIdx.reg (inc32^[q + 1] j),
          s.encrypted ++ [byteSwap (inc32^[q + 1] j)]⟩ := by
      refine ⟨rfl, rfl, fun k => ?_, rfl⟩
      dsimp only
      rw [stQ_apply, Nat.mul_one]
      split
      · next hk => rw [byteAt_ofBytes_window (Nat.le_refl 16), if_pos (by omega)]
      · rfl
    obtain ⟨hblocks, hrest⟩ := @ih (q + 1)
      ⟨stQ s.out s.dataOffset (ofBytes (window (gctrAt aes (inc32 j) m) (16 * q) 16)),
        s.dataOffset + 16, loopIdx.reg (inc32^[q + 1] j),
        s.encrypted ++ [byteSwap (inc32^[q + 1] j)]⟩
      (fun k hk => by
        dsimp only
        rw [Nat.add_assoc, hinp _ (by omega)]
        congr 1
        omega)
      rfl
      (fun hl => by
        have hle := hcarry hl
        have hlow := toNat_byteAt_iterate_inc32 (inc32^[q] j) 1
        rw [← Function.iterate_add_apply, Nat.add_comm 1 q] at hlow
        rw [hlow]
        omega)
    refine ⟨?_, (Nat.add_comm n 1) ▸ hfirst.trans hrest⟩
    rw [hblocks, encDec.hashed_block, window_succ_left (streamBlock _)]

end Blocks

/-! ### Batches -/

section Batches

variable {key : KeyData} {j h y : BitVec 128} {m inp c : ℕ → Byte} {encDec : EncDec} {q n : ℕ}
  {s s' : Bulk}

theorem ghashFrom_window (h y : BitVec 128) (f : ℕ → BitVec 128) (q n : ℕ) :
    ghashFrom h y f (q + n) = ghashList h (ghashFrom h y f q) (window f q n) := by
  rw [ghashFrom_add, ghashFrom_eq_ghashList, window]

theorem window_ne_nil (f : ℕ → BitVec 128) (q : ℕ) {n : ℕ} (hn : 0 < n) : window f q n ≠ [] := by
  intro hnil
  have hlen := congrArg List.length hnil
  rw [length_window, List.length_nil] at hlen
  omega

/-- One batch: the hash takes in the last eight blocks while the next eight are encrypted. -/
theorem ghash8Encrypt8Parallel_spec (hkey : key.For h) {f : ℕ → BitVec 128} (loopIdx : LoopIdx)
    (hf : f = streamBlock (encDec.cipherText key.aes j m))
    (hinp : ∀ k < 16 * 8, inp (s.dataOffset + k) = m (16 * (q + 8) + k))
    (hctr : s.ctr = loopIdx.reg (inc32^[q + 8] j))
    (hcarry : loopIdx = .outOrder → (byteAt (inc32^[q + 8] j) 0).toNat + 8 ≤ 255) :
    (ghash8Encrypt8Parallel key encDec loopIdx inp
        (combine (ghashFrom h y f q) (window f q 8)) s).1 =
        combine (ghashFrom h y f (q + 8)) (window f (q + 8) 8) ∧
      Bulk.Crypted key.aes j m loopIdx (q + 8) 8 s
        (ghash8Encrypt8Parallel key encDec loopIdx inp
          (combine (ghashFrom h y f q) (window f q 8)) s).2 := by
  obtain ⟨hblocks, hcrypted⟩ := @cryptBlocks_spec key.aes j m inp encDec loopIdx (q + 8) 8 s hinp
    hctr hcarry
  refine ⟨?_, hcrypted⟩
  rw [ghash8Encrypt8Parallel]
  dsimp only
  rw [hblocks, ← hf, ghashLast8_eq hkey _ (window_ne_nil f q (by decide)), ← ghashFrom_window]

/-- The register counts in swapped order, or the counter itself is in it for one batch. -/
theorem Bulk.Crypted.swap (hc : Bulk.Crypted key.aes j m .inOrder q n s s') :
    Bulk.Crypted key.aes j m .outOrder q n s { s' with ctr := pshufb s'.ctr shufMask } := by
  refine ⟨hc.dataOffset, ?_, hc.out, hc.encrypted⟩
  rw [hc.ctr, pshufb_shufMask]
  rfl

theorem Bulk.Crypted.swap_left {ctr : BitVec 128}
    (hc : Bulk.Crypted key.aes j m .outOrder q n { s with ctr := ctr } s') :
    Bulk.Crypted key.aes j m .outOrder q n s s' :=
  ⟨hc.dataOffset, hc.ctr, hc.out, hc.encrypted⟩

theorem encryptBy8_spec (hkey : key.For h) {f : ℕ → BitVec 128}
    (hf : f = streamBlock (encDec.cipherText key.aes j m))
    (hinp : ∀ k < 16 * (8 * n), inp (s.dataOffset + k) = m (16 * (q + 8) + k))
    (hctr : s.ctr = byteSwap (inc32^[q + 8] j)) :
    (encryptBy8 key encDec inp n (byteAt (inc32^[q + 8] j) 0)
        (combine (ghashFrom h y f q) (window f q 8)) s).1 =
        combine (ghashFrom h y f (q + 8 * n)) (window f (q + 8 * n) 8) ∧
      Bulk.Crypted key.aes j m .inOrder (q + 8) (8 * n) s
        (encryptBy8 key encDec inp n (byteAt (inc32^[q + 8] j) 0)
          (combine (ghashFrom h y f q) (window f q 8)) s).2 := by
  have hmain : (encryptBy8 key encDec inp n (byteAt (inc32^[q + 8] j) 0)
        (combine (ghashFrom h y f q) (window f q 8)) s).1 =
        combine (ghashFrom h y f (q + 8 * n)) (window f (q + 8 * n) 8) ∧
      ∃ s', Bulk.Crypted key.aes j m .outOrder (q + 8) (8 * n) s s' ∧
        (encryptBy8 key encDec inp n (byteAt (inc32^[q + 8] j) 0)
          (combine (ghashFrom h y f q) (window f q 8)) s).2 =
          { s' with ctr := pshufb s'.ctr shufMask } := by
    induction n generalizing q s with
    | zero =>
      exact ⟨rfl, s, ⟨rfl, hctr, fun k => (if_neg (by omega)).symm, (List.append_nil _).symm⟩, rfl⟩
    | succ n ih =>
      have hlow : byteAt (inc32^[q + 8] j) 0 + 8#8 = byteAt (inc32^[q + 8 + 8] j) 0 := by
        have hnat := toNat_byteAt_iterate_inc32 (inc32^[q + 8] j) 8
        rw [← Function.iterate_add_apply, Nat.add_comm 8 (q + 8)] at hnat
        exact BitVec.eq_of_toNat_eq hnat.symm
      have hbatch : ∀ k < 16 * 8, inp (s.dataOffset + k) = m (16 * (q + 8) + k) :=
        fun k hk => hinp k (by omega)
      have hnext : ∀ {s' : Bulk}, s'.dataOffset = s.dataOffset + 16 * 8 →
          ∀ k < 16 * (8 * n), inp (s'.dataOffset + k) = m (16 * (q + 8 + 8) + k) :=
            fun hs' k hk => by
        rw [hs', Nat.add_assoc, hinp _ (by omega)]
        congr 1
        omega
      -- what the rest of the batches does from the state after this one
      have hrest : ∀ s', Bulk.Crypted key.aes j m .outOrder (q + 8) 8 s s' → _ := fun s' hs' =>
        @ih (q + 8) s' (hnext hs'.dataOffset) hs'.ctr
      have hindex : q + 8 + 8 * n = q + 8 * (n + 1) := by omega
      have hcount : 8 + 8 * n = 8 * (n + 1) := by omega
      rw [encryptBy8]
      split
      · obtain ⟨hblocks, hcrypted⟩ := @ghash8Encrypt8Parallel_spec _ _ h y _ _ _ _
          { s with ctr := pshufb s.ctr shufMask } hkey _ .inOrder hf hbatch
          (by rw [hctr, pshufb_shufMask, byteSwap_byteSwap]; rfl) nofun
        dsimp only
        rw [hblocks, hlow]
        obtain ⟨hlast, s'', hs'', heq⟩ := hrest _ hcrypted.swap.swap_left
        rw [hindex] at hlast
        refine ⟨hlast, s'', hcount ▸ hcrypted.swap.swap_left.trans hs'', heq⟩
      · next hsmall =>
        obtain ⟨hblocks, hcrypted⟩ := @ghash8Encrypt8Parallel_spec _ _ h y _ _ _ _ s hkey _
          .outOrder hf hbatch hctr (fun _ => by omega)
        dsimp only
        rw [hblocks, hlow]
        obtain ⟨hlast, s'', hs'', heq⟩ := hrest _ hcrypted
        rw [hindex] at hlast
        exact ⟨hlast, s'', hcount ▸ hcrypted.trans hs'', heq⟩
  obtain ⟨hlast, s', hs', heq⟩ := hmain
  refine ⟨hlast, ?_⟩
  rw [heq]
  refine ⟨hs'.dataOffset, ?_, hs'.out, hs'.encrypted⟩
  dsimp only
  rw [hs'.ctr, pshufb_shufMask]
  exact byteSwap_byteSwap _

/-- The first blocks are hashed one by one. -/
theorem foldl_ghashMul (hkey : key.For h) (l : List (BitVec 128)) (y : BitVec 128) :
    l.foldl (fun hash x => ghashMul (x ^^^ hash) (key.hashKey 0)) y = ghashList h y l := by
  have hstep : (fun hash x => ghashMul (x ^^^ hash) (key.hashKey 0)) =
      fun hash x => gfMul (hash ^^^ x) h := by
    funext hash x
    rw [hkey.ghashMul_eq, BitVec.xor_comm]
  rw [hstep, ghashList]

/-- All whole blocks: the hash takes in all of them. -/
theorem wholeBlocks_spec (hkey : key.For h) {f : ℕ → BitVec 128}
    (hf : f = streamBlock (encDec.cipherText key.aes j m))
    (hinp : ∀ k < 16 * n, inp (s.dataOffset + k) = m (16 * q + k))
    (hctr : s.ctr = inc32^[q] j) :
    (wholeBlocks key encDec inp (16 * n) (ghashFrom h y f q) s).1 = ghashFrom h y f (q + n) ∧
      Bulk.Crypted key.aes j m .inOrder q n s
        (wholeBlocks key encDec inp (16 * n) (ghashFrom h y f q) s).2 := by
  obtain ⟨hblocks, hinitial⟩ := @cryptBlocks_spec key.aes j m inp encDec .inOrder q (n % 8) s
    (fun k hk => hinp k (by omega)) hctr nofun
  rw [wholeBlocks, Nat.mul_div_cancel_left n (by decide)]
  dsimp only
  rw [foldl_ghashMul hkey, hblocks, ← hf, ← ghashFrom_window]
  generalize cryptBlocks key.aes encDec .inOrder inp (n % 8) s = initial at hinitial
  split
  · next hfew =>
    rw [show n % 8 = n by omega] at hinitial ⊢
    exact ⟨rfl, hinitial⟩
  · next hmany =>
    obtain ⟨a, b, ha, hb⟩ : ∃ a b, n % 8 = a ∧ n = a + 8 + 8 * b :=
      ⟨n % 8, n / 8 - 1, rfl, by omega⟩
    rw [ha] at hinitial ⊢
    obtain ⟨hfirst, hsecond⟩ := @cryptBlocks_spec key.aes j m inp encDec .inOrder (q + a) 8
      initial.2 (fun k hk => by
        rw [hinitial.dataOffset, Nat.add_assoc, hinp _ (by omega)]
        exact congrArg m (by omega)) hinitial.ctr nofun
    have htwo := hinitial.trans hsecond
    have hleft : 16 * n - 16 * a - 128 = 128 * b := by omega
    rw [hleft, hfirst, ← hf]
    generalize cryptBlocks key.aes encDec .inOrder inp 8 initial.2 = first at hsecond htwo
    split
    · next hnone =>
      rw [show n = a + 8 by omega]
      refine ⟨?_, htwo⟩
      rw [ghashLast8_eq hkey _ (window_ne_nil f _ (by decide)), ← ghashFrom_window, Nat.add_assoc]
    · have hlow : first.2.ctr.setWidth 8 = byteAt (inc32^[q + a + 8] j) 0 := by
        rw [hsecond.ctr, LoopIdx.reg]
        refine BitVec.eq_of_getLsbD_eq fun i hi => ?_
        rw [BitVec.getLsbD_setWidth, getLsbD_byteAt, Nat.mul_zero, Nat.zero_add]
      obtain ⟨hlast, hthird⟩ := @encryptBy8_spec key j h y m inp encDec (q + a) b
        { first.2 with ctr := pshufb first.2.ctr shufMask } hkey f hf (fun k hk => by
          have hk' : k < 16 * (8 * b) := hk
          dsimp only
          rw [htwo.dataOffset, Nat.add_assoc, hinp _ (by omega)]
          exact congrArg m (by omega)) (by
          dsimp only
          rw [hsecond.ctr, LoopIdx.reg, pshufb_shufMask])
      rw [Nat.mul_div_cancel_left b (by decide), hlow, hlast]
      generalize encryptBy8 key encDec inp b _ _ _ = last at hthird
      have hrest : Bulk.Crypted key.aes j m .inOrder (q + (a + 8)) (8 * b) first.2 last.2 := by
        rw [← Nat.add_assoc]
        exact ⟨hthird.dataOffset, hthird.ctr, hthird.out, hthird.encrypted⟩
      refine ⟨?_, hb ▸ htwo.trans hrest⟩
      rw [ghashLast8_eq hkey _ (window_ne_nil f _ (by decide)), ← ghashFrom_window]
      exact congrArg (ghashFrom h y f) (by omega)

end Batches

end IsalCrypto.Aes.GcmSse
