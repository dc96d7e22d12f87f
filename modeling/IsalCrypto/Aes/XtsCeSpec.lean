import IsalCrypto.Aes.XtsCe

/-!
# XTS on aarch64 is IEEE 1619

The loops of four blocks and of single blocks are one loop of steps (`step`), the last of which
swaps the tweaks in decryption when a tail follows (`lastStep`). `.checktail` then steals.

* `xtsAesCrypt_spec`: what the code computes, in place and for disjoint buffers.
* `xtsAesCrypt_round_trip`: decryption undoes encryption.
-/

namespace IsalCrypto.Aes

open IsalCrypto.Lib

/-! ## The tweak -/

theorem getLsbD_extr {n m : BitVec 64} {lsb i : ℕ} :
    (extr n m lsb).getLsbD i =
      (decide (i < 64) && if lsb + i < 64 then m.getLsbD (lsb + i)
        else n.getLsbD (lsb + i - 64)) := by
  rw [extr, BitVec.getLsbD_setWidth, BitVec.getLsbD_ushiftRight, BitVec.getLsbD_append]

/-- The mask `tmpw2, asr #31`: the top bit of the tweak in every bit. -/
theorem getLsbD_tweakMask (h : BitVec 64) {i : ℕ} (hi : i < 32) :
    (((extr h h 32).setWidth 32).sshiftRight 31).getLsbD i = h.getLsbD 63 := by
  rw [BitVec.getLsbD_sshiftRight]
  have hmsb : ((extr h h 32).setWidth 32).msb = h.getLsbD 63 := by
    rw [BitVec.msb_eq_getLsbD_last, BitVec.getLsbD_setWidth, getLsbD_extr]
    rfl
  rw [hmsb, decide_eq_false (Nat.not_le.mpr hi), Bool.not_false, Bool.true_and]
  split
  · next h0 =>
    obtain rfl : i = 0 := by omega
    rw [← hmsb, BitVec.msb_eq_getLsbD_last]
  · rfl

/-- `update_iv` multiplies by `α`. -/
theorem updateIv_eq (v : BitVec 128) : updateIv v = mulAlpha v := by
  refine BitVec.eq_of_getLsbD_eq fun i hi => ?_
  have hmsb : v.msb = v.getLsbD 127 := BitVec.msb_eq_getLsbD_last v
  have hpoly : (if v.msb then 0x87#128 else 0#128).getLsbD i =
      (v.getLsbD 127 && (0x87#128).getLsbD i) := by
    rw [hmsb]
    cases v.getLsbD 127 <;> simp
  rw [mulAlpha, BitVec.getLsbD_xor, hpoly, BitVec.getLsbD_shiftLeft, updateIv,
    BitVec.getLsbD_append]
  split
  · next hlow =>
    have hmask : ((0x87#32).getLsbD i && (((extr (v.extractLsb' 64 64) (v.extractLsb' 64 64)
        32).setWidth 32).sshiftRight 31).getLsbD i) = (v.getLsbD 127 && (0x87#128).getLsbD i) := by
      simp only [BitVec.getLsbD_ofNat, hi, decide_true, Bool.true_and]
      rcases Nat.lt_or_ge i 32 with h32 | h32
      · rw [getLsbD_tweakMask _ h32, BitVec.getLsbD_extractLsb', decide_eq_true h32]
        exact Bool.and_comm ..
      · have hpow : 0x87 < 2 ^ i :=
          Nat.lt_of_lt_of_le (by decide) (Nat.pow_le_pow_right (by decide) h32)
        rw [Nat.testBit_lt_two_pow hpow, Bool.and_false, Bool.false_and, Bool.and_false]
    rw [BitVec.getLsbD_xor, BitVec.getLsbD_setWidth, BitVec.getLsbD_and, hmask,
      BitVec.getLsbD_shiftLeft, BitVec.getLsbD_extractLsb', decide_eq_true hlow, Nat.zero_add,
      decide_eq_true hi, decide_eq_true (show i - 1 < 64 by omega)]
    simp only [Bool.true_and]
    exact Bool.xor_comm ..
  · next hhigh =>
    have hpow : 0x87 < 2 ^ i :=
      Nat.lt_of_lt_of_le (by decide) (Nat.pow_le_pow_right (by decide) (Nat.not_lt.mp hhigh))
    have hpoly' : (0x87#128).getLsbD i = false := by
      rw [BitVec.getLsbD_ofNat, Nat.testBit_lt_two_pow hpow, Bool.and_false]
    rw [getLsbD_extr, hpoly', Bool.and_false, Bool.xor_false, decide_eq_true hi,
      decide_eq_false (show ¬ i < 1 by omega), decide_eq_true (show i - 64 < 64 by omega)]
    simp only [Bool.true_and, Bool.not_false]
    split
    · next hlast =>
      rw [BitVec.getLsbD_extractLsb', decide_eq_true hlast, Bool.true_and]
      exact congrArg v.getLsbD (by omega)
    · next hnext =>
      rw [BitVec.getLsbD_extractLsb', decide_eq_true (show 63 + (i - 64) - 64 < 64 by omega),
        Bool.true_and]
      exact congrArg v.getLsbD (by omega)

/-! ## The loops -/

section Loops

variable {aes : BitVec 128 → BitVec 128} {mode : XtsMode} {tailcnt m : ℕ} {s : XtsRegs}

/-- One block, and the next tweak. -/
def step (aes : BitVec 128 → BitVec 128) (s : XtsRegs) : XtsRegs :=
  { single aes s with vIV0 := updateIv s.vIV0 }

/-- The last block before a tail in decryption, with the next tweak. -/
def lastStep (aes : BitVec 128 → BitVec 128) (s : XtsRegs) : XtsRegs :=
  single aes { s with vSavedIv := s.vIV0, vIV0 := updateIv s.vIV0 }

/-- Two buffers of `n` bytes are the same or disjoint. -/
def Apart (inp outp n : ℕ) : Prop := inp = outp ∨ inp + n ≤ outp ∨ outp + n ≤ inp

theorem Apart.sub {inp outp k n : ℕ} (h : Apart inp outp (k + n)) :
    Apart (inp + k) (outp + k) n := by
  unfold Apart at h ⊢
  omega

theorem Apart.of_le {inp outp k n : ℕ} (h : Apart inp outp n) (hk : k ≤ n) : Apart inp outp k := by
  unfold Apart at h ⊢
  omega

/-- Four blocks at once are four blocks one after the other. -/
theorem process4Blks_false (h : Apart s.inp s.outp 64) :
    process4Blks aes false s = step aes (step aes (step aes (step aes s))) := by
  unfold Apart at h
  simp only [process4Blks, step, single, process1Blk, Bool.false_eq_true, if_false]
  simp only [Nat.add_assoc, Nat.reduceAdd]
  rw [ldQ_stQ_of_apart (by omega), ldQ_stQ_of_apart (by omega), ldQ_stQ_of_apart (by omega),
    ldQ_stQ_of_apart (by omega), ldQ_stQ_of_apart (by omega), ldQ_stQ_of_apart (by omega)]

/-- The four blocks before a tail swap the tweaks of the last one. -/
theorem process4Blks_true (h : Apart s.inp s.outp 64) :
    process4Blks aes true s =
      { lastStep aes (step aes (step aes (step aes s))) with vIV0 := s.vIV0 } := by
  unfold Apart at h
  simp only [process4Blks, step, lastStep, single, process1Blk, if_true]
  simp only [Nat.add_assoc, Nat.reduceAdd]
  rw [ldQ_stQ_of_apart (by omega), ldQ_stQ_of_apart (by omega), ldQ_stQ_of_apart (by omega),
    ldQ_stQ_of_apart (by omega), ldQ_stQ_of_apart (by omega), ldQ_stQ_of_apart (by omega)]

/-- Without a tail, or in encryption, the single blocks are steps. -/
theorem singles_steps (h : mode = .enc ∨ tailcnt = 0) (m : ℕ) (s : XtsRegs) :
    singles aes mode tailcnt m s = (step aes)^[m] s := by
  induction m generalizing s with
  | zero => rfl
  | succ m ih =>
    have hcond : ¬ (mode = .dec ∧ ¬ 0 < m ∧ ¬ tailcnt < 1) := by
      rintro ⟨rfl, -, htail⟩
      exact htail (Nat.lt_one_iff.mpr (h.resolve_left nofun))
    rw [singles, if_neg hcond, Function.iterate_succ_apply]
    exact ih _

/-- Before a tail, decryption ends in a step that swaps the tweaks. -/
theorem singles_tail (h : 0 < tailcnt) (m : ℕ) (s : XtsRegs) :
    singles aes .dec tailcnt (m + 1) s = lastStep aes ((step aes)^[m] s) := by
  have htail : ¬ tailcnt < 1 := Nat.not_lt.mpr h
  induction m generalizing s with
  | zero => exact if_pos ⟨rfl, Nat.lt_irrefl 0, htail⟩
  | succ m ih =>
    have hcond : ¬ (XtsMode.dec = .dec ∧ ¬ 0 < m + 1 ∧ ¬ tailcnt < 1) := fun hc =>
      hc.2.1 m.succ_pos
    rw [singles, if_neg hcond, Function.iterate_succ_apply]
    exact ih _

theorem steps_regs (aes : BitVec 128 → BitVec 128) (q : ℕ) (s : XtsRegs) :
    ((step aes)^[q] s).inp = s.inp + 16 * q ∧ ((step aes)^[q] s).outp = s.outp + 16 * q ∧
      ((step aes)^[q] s).vIV0 = tweak s.vIV0 q ∧ ((step aes)^[q] s).vSavedIv = s.vSavedIv := by
  induction q with
  | zero => exact ⟨rfl, rfl, rfl, rfl⟩
  | succ q ih =>
    obtain ⟨hinp, houtp, hiv, hsaved⟩ := ih
    rw [Function.iterate_succ_apply']
    refine ⟨?_, ?_, ?_, hsaved⟩
    · rw [Nat.mul_succ, ← Nat.add_assoc, ← hinp]
      rfl
    · rw [Nat.mul_succ, ← Nat.add_assoc, ← houtp]
      rfl
    · rw [tweak, ← hiv, ← updateIv_eq]
      rfl

theorem Apart.process4Blks {isTail : Bool} {blocks : ℕ}
    (h : Apart s.inp s.outp (16 * (blocks + 4))) :
    Apart (process4Blks aes isTail s).inp (process4Blks aes isTail s).outp (16 * blocks) := by
  have hsplit : 16 * (blocks + 4) = 64 + 16 * blocks := by omega
  rw [hsplit] at h
  exact h.sub

theorem process4_steps (hmode : mode = .enc ∨ tailcnt = 0) (h : Apart s.inp s.outp (16 * m)) :
    process4 aes mode tailcnt m s = (step aes)^[m] s := by
  fun_induction process4 aes mode tailcnt m s with
  | case1 blocks s hcond ih =>
    obtain ⟨rfl, -, htail⟩ := hcond
    exact absurd (Nat.lt_one_iff.mpr (hmode.resolve_left nofun)) htail
  | case2 blocks s hcond ih =>
    have hfour : Aes.process4Blks aes false s = (step aes)^[4] s :=
      process4Blks_false (h.of_le (by omega))
    rw [ih h.process4Blks, hfour, ← Function.iterate_add_apply]
  | case3 blocks s hshort => exact singles_steps hmode blocks s

/-- The same but for the next tweak, which decryption does not use in a tail. -/
def SameButIv (s s' : XtsRegs) : Prop :=
  s.mem = s'.mem ∧ s.inp = s'.inp ∧ s.outp = s'.outp ∧ s.vSavedIv = s'.vSavedIv

theorem process4_tail (htail : 0 < tailcnt) (h : Apart s.inp s.outp (16 * (m + 1))) :
    SameButIv (process4 aes .dec tailcnt (m + 1) s) (lastStep aes ((step aes)^[m] s)) := by
  generalize hblocks : m + 1 = blocks at h
  fun_induction process4 aes .dec tailcnt blocks s generalizing m with
  | case1 blocks s hcond ih =>
    obtain ⟨-, hlast, -⟩ := hcond
    obtain rfl : blocks = 0 := Nat.eq_zero_of_not_pos hlast
    obtain rfl : m = 3 := by omega
    rw [process4Blks_true (h.of_le (by decide))]
    exact ⟨rfl, rfl, rfl, rfl⟩
  | case2 blocks s hcond ih =>
    have hpos : 0 < blocks := by
      by_contra hlast
      exact hcond ⟨rfl, hlast, Nat.not_lt.mpr htail⟩
    obtain ⟨m', rfl⟩ : ∃ m', m = m' + 4 := ⟨m - 4, by omega⟩
    have hfour : Aes.process4Blks aes false s = (step aes)^[4] s :=
      process4Blks_false (h.of_le (by omega))
    rw [Function.iterate_add_apply, ← hfour]
    exact ih (by omega) h.process4Blks
  | case3 blocks s hshort =>
    rw [← hblocks, singles_tail htail]
    exact ⟨rfl, rfl, rfl, rfl⟩

/-- After `q` steps the output begins with the first `q` blocks, and nothing else has changed. -/
theorem steps_mem (aes : BitVec 128 → BitVec 128) {n q : ℕ} (h : Apart s.inp s.outp n)
    (hq : 16 * q ≤ n) :
    window ((step aes)^[q] s).mem s.outp (16 * q) =
        blocksOf (fun k => xex aes (tweak s.vIV0 k) (block (window s.mem s.inp n) k)) q ∧
      ∀ a, ¬ (s.outp ≤ a ∧ a < s.outp + 16 * q) → ((step aes)^[q] s).mem a = s.mem a := by
  induction q with
  | zero => exact ⟨rfl, fun _ _ => rfl⟩
  | succ q ih =>
    obtain ⟨hout, hframe⟩ := ih (by omega)
    obtain ⟨hinp, houtp, hiv, -⟩ := steps_regs aes q s
    -- the next block of the input is not written yet
    have hload : ldQ ((step aes)^[q] s).mem (s.inp + 16 * q) = block (window s.mem s.inp n) q := by
      rw [← ldQ_eq_block (by omega), ldQ, ldQ]
      refine congrArg ofBytes (window_congr fun k hk hk' => hframe k ?_)
      unfold Apart at h
      omega
    have hmem : (step aes ((step aes)^[q] s)).mem = stQ ((step aes)^[q] s).mem (s.outp + 16 * q)
        (xex aes (tweak s.vIV0 q) (block (window s.mem s.inp n) q)) := by
      rw [← hload, ← hinp, ← houtp, ← hiv]
      rfl
    rw [Function.iterate_succ_apply', hmem, Nat.mul_succ]
    refine ⟨?_, fun a ha => ?_⟩
    · rw [window_add, window_stQ_self, window_stQ_of_apart (.inl (Nat.le_refl _)), hout,
        blocksOf_succ]
    · rw [stQ_of_not (by omega)]
      exact hframe a (by omega)

end Loops

/-! ## The tail -/

section Tail

variable {aes : BitVec 128 → BitVec 128} {mode : XtsMode} {mem : ℕ → Byte}
  {inp outp lastblk tmpbuf b n : ℕ}

/-- The bytes of a buffer of `n` bytes at `inp` are none of `size` bytes at `tmpbuf`. -/
def Disjoint (tmpbuf size inp n : ℕ) : Prop := tmpbuf + size ≤ inp ∨ inp + n ≤ tmpbuf

theorem strb_of_ne {mem : ℕ → Byte} {a k : ℕ} {v : Byte} (h : k ≠ a) : strb mem a v k = mem k :=
  Function.update_of_ne h ..

theorem strb_self (mem : ℕ → Byte) (a : ℕ) (v : Byte) : strb mem a v a = v :=
  Function.update_self ..

/-- `.copytail` saves the last part of the input and moves the begin of the last block behind it. -/
theorem copytail_apply (hio : Apart inp (lastblk + 16) n) (hin : Disjoint tmpbuf 16 inp n)
    (hout : Disjoint tmpbuf 16 lastblk (16 + n)) (hb : b ≤ n) (hn : n ≤ 16) (mem : ℕ → Byte)
    (a : ℕ) : copytail inp (lastblk + 16) lastblk tmpbuf b mem a =
      if tmpbuf ≤ a ∧ a < tmpbuf + b then mem (inp + (a - tmpbuf))
      else if lastblk + 16 ≤ a ∧ a < lastblk + 16 + b then mem (lastblk + (a - (lastblk + 16)))
      else mem a := by
  unfold Apart Disjoint at *
  induction b generalizing mem with
  | zero => rw [copytail, if_neg (by omega), if_neg (by omega)]
  | succ b ih =>
    rw [copytail, ih (by omega), strb_of_ne (show lastblk + b ≠ tmpbuf + b by omega)]
    generalize hmem' : strb (strb mem (tmpbuf + b) (mem (inp + b))) (lastblk + 16 + b)
      (mem (lastblk + b)) = mem'
    have hother : ∀ k, k ≠ tmpbuf + b → k ≠ lastblk + 16 + b → mem' k = mem k := fun k h h' => by
      rw [← hmem', strb_of_ne h', strb_of_ne h]
    by_cases htmp : tmpbuf ≤ a ∧ a < tmpbuf + (b + 1)
    · rw [if_pos htmp]
      rcases eq_or_ne a (tmpbuf + b) with rfl | hne
      · rw [if_neg (by omega), if_neg (by omega), Nat.add_sub_cancel_left, ← hmem',
          strb_of_ne (by omega), strb_self]
      · rw [if_pos (by omega), hother _ (by omega) (by omega)]
    · rw [if_neg (by omega), if_neg htmp]
      by_cases hlast : lastblk + 16 ≤ a ∧ a < lastblk + 16 + (b + 1)
      · rw [if_pos hlast]
        rcases eq_or_ne a (lastblk + 16 + b) with rfl | hne
        · rw [if_neg (by omega), Nat.add_sub_cancel_left, ← hmem', strb_self]
        · rw [if_pos (by omega), hother _ (by omega) (by omega)]
      · rw [if_neg (by omega), if_neg hlast, hother _ (by omega) (by omega)]

/-- `.steal` saves the end of the last block. -/
theorem steal_apply (hout : Disjoint tmpbuf 16 lastblk 16) (hn : n ≤ 16) (mem : ℕ → Byte) (a : ℕ) :
    steal lastblk tmpbuf n mem a =
      if tmpbuf + (16 - n) ≤ a ∧ a < tmpbuf + 16 then mem (lastblk + (a - tmpbuf)) else mem a := by
  unfold Disjoint at hout
  induction n generalizing mem with
  | zero => rw [steal, if_neg (by omega)]
  | succ n ih =>
    rw [steal, ih (by omega)]
    by_cases htmp : tmpbuf + (16 - (n + 1)) ≤ a ∧ a < tmpbuf + 16
    · rw [if_pos htmp]
      rcases eq_or_ne a (tmpbuf + (15 - n)) with rfl | hne
      · rw [if_neg (by omega), strb_self, Nat.add_sub_cancel_left]
      · rw [if_pos (by omega), strb_of_ne (by omega)]
    · rw [if_neg (by omega), if_neg htmp, strb_of_ne (by omega)]

/-- The tail of a message behind its last whole block, which lies encrypted at `lastblk`. -/
theorem checktail_spec (aes : BitVec 128 → BitVec 128) (mode : XtsMode) {s : XtsRegs} (hb : 0 < b)
    (hb' : b < 16) (hs : s.outp = lastblk + 16) (hio : Apart s.inp s.outp b)
    (hin : Disjoint tmpbuf 16 s.inp b) (hout : Disjoint tmpbuf 16 lastblk (16 + b)) :
    let cc := window s.mem lastblk 16
    let iv := if mode = .dec then s.vSavedIv else s.vIV0
    let r := checktail aes mode b tmpbuf s
    window r lastblk (16 + b) =
        toBytes (xex aes iv (ofBytes (window s.mem s.inp b ++ cc.drop b))) ++ cc.take b ∧
      ∀ a, ¬ (lastblk ≤ a ∧ a < lastblk + (16 + b)) → ¬ (tmpbuf ≤ a ∧ a < tmpbuf + 16) →
        r a = s.mem a := by
  intro cc iv r
  rw [hs] at hio
  have hsplit : b + (16 - b) = 16 := by omega
  have hlast : Disjoint tmpbuf 16 lastblk 16 := by
    unfold Disjoint at hout ⊢
    omega
  -- the memory when the filled-up block is processed
  generalize hmem : steal lastblk tmpbuf (16 - b)
    (copytail s.inp (lastblk + 16) lastblk tmpbuf b s.mem) = mem
  have hr : r = stQ mem lastblk (xex aes iv (ldQ mem tmpbuf)) := by
    rw [← hmem, ← hs, show lastblk = s.outp - 16 by omega]
    exact if_neg (Nat.not_lt.mpr hb)
  have hcopy := copytail_apply hio hin hout (Nat.le_refl b) hb'.le s.mem
  have hsteal := steal_apply hlast (Nat.sub_le 16 b)
    (copytail s.inp (lastblk + 16) lastblk tmpbuf b s.mem)
  rw [hmem] at hsteal
  unfold Disjoint at hout
  have hpp : window mem tmpbuf 16 = window s.mem s.inp b ++ cc.drop b := by
    have hcc : cc.drop b = window s.mem (lastblk + b) (16 - b) := by
      rw [← drop_window, hsplit]
    have hsaved : window mem tmpbuf b = window s.mem s.inp b := window_eq_window fun k hk => by
      rw [hsteal, if_neg (by omega), hcopy, if_pos (by omega), Nat.add_sub_cancel_left]
    have hstolen : window mem (tmpbuf + b) (16 - b) = window s.mem (lastblk + b) (16 - b) :=
      window_eq_window fun k hk => by
        rw [hsteal, if_pos (by omega), hcopy, if_neg (by omega), if_neg (by omega)]
        exact congrArg s.mem (by omega)
    rw [hcc, ← hsaved, ← hstolen, ← window_add, hsplit]
  have htail : window mem (lastblk + 16) b = cc.take b := by
    have hcc : cc.take b = window s.mem lastblk b := by
      rw [show cc = window s.mem lastblk (b + (16 - b)) by rw [hsplit], window_add,
        List.take_left' (length_window ..)]
    rw [hcc]
    refine window_eq_window fun k hk => ?_
    rw [hsteal, if_neg (by omega), hcopy, if_neg (by omega), if_pos (by omega),
      Nat.add_sub_cancel_left]
  refine ⟨?_, fun a ha ha' => ?_⟩
  · rw [hr, window_add, window_stQ_self, window_stQ_of_apart (.inr (Nat.le_refl _)), htail, ldQ,
      hpp]
  · rw [hr, stQ_of_not (by omega), hsteal, if_neg (by omega), hcopy, if_neg (by omega),
      if_neg (by omega)]

theorem SameButIv.checktail {s s' : XtsRegs} (h : SameButIv s s') (tmpbuf : ℕ) :
    checktail aes .dec b tmpbuf s = checktail aes .dec b tmpbuf s' := by
  obtain ⟨hmem, hinp, houtp, hsaved⟩ := h
  rw [Aes.checktail, Aes.checktail, hmem, hinp, houtp, hsaved]
  rfl

end Tail

/-! ## The whole call -/

/-- The buffers of a call: the output is the input or disjoint from it, and the 16 bytes of the
stack frame are in neither. -/
structure XtsBuffers (inp outp tmpbuf n : ℕ) : Prop where
  io : Apart inp outp n
  tmpIn : Disjoint tmpbuf 16 inp n
  tmpOut : Disjoint tmpbuf 16 outp n

section Call

variable {aes : BitVec 128 → BitVec 128} {mode : XtsMode} {mem : ℕ → Byte}
  {inp outp tmpbuf n m b : ℕ} {t t₁ t₂ : BitVec 128} {s : XtsRegs}

/-- All whole blocks of a message at `inp` are processed, the last one, block `m`, with the tweak
`t₁`, and the tail will take the tweak `t₂`. -/
structure BeforeTail (aes : BitVec 128 → BitVec 128) (mode : XtsMode) (mem : ℕ → Byte)
    (inp outp n m : ℕ) (t t₁ t₂ : BitVec 128) (s : XtsRegs) : Prop where
  inp_eq : s.inp = inp + 16 * m + 16
  outp_eq : s.outp = outp + 16 * m + 16
  first : window s.mem outp (16 * m) =
    blocksOf (fun q => xex aes (tweak t q) (block (window mem inp n) q)) m
  last : window s.mem (outp + 16 * m) 16 = toBytes (xex aes t₁ (block (window mem inp n) m))
  frame : ∀ a, ¬ (outp ≤ a ∧ a < outp + 16 * m + 16) → s.mem a = mem a
  iv : (if mode = .dec then s.vSavedIv else s.vIV0) = t₂

theorem BeforeTail.checktail (h : BeforeTail aes mode mem inp outp n m t t₁ t₂ s)
    (hbuf : XtsBuffers inp outp tmpbuf n) (hn : n = 16 * m + 16 + b) (hb : 0 < b) (hb' : b < 16) :
    window (checktail aes mode b tmpbuf s) outp n =
        xtsStealing aes (tweak t) t₁ t₂ (window mem inp n) ∧
      ∀ a, ¬ (outp ≤ a ∧ a < outp + n) → ¬ (tmpbuf ≤ a ∧ a < tmpbuf + 16) →
        checktail aes mode b tmpbuf s a = mem a := by
  obtain ⟨hio, htmpIn, htmpOut⟩ := hbuf
  subst hn
  have hio' : Apart s.inp s.outp b := by
    rw [h.inp_eq, h.outp_eq, Nat.add_assoc, Nat.add_assoc]
    exact hio.sub
  unfold Apart at hio
  unfold Disjoint at htmpIn htmpOut
  obtain ⟨hwindow, hframe⟩ := checktail_spec aes mode hb hb' h.outp_eq hio'
    (show Disjoint tmpbuf 16 s.inp b by rw [Disjoint, h.inp_eq]; omega)
    (show Disjoint tmpbuf 16 (outp + 16 * m) (16 + b) by rw [Disjoint]; omega)
  have hdrop : (window mem inp (16 * m + 16 + b)).drop (16 * (m + 1)) = window s.mem s.inp b := by
    rw [Nat.mul_succ, drop_window, h.inp_eq, Nat.add_assoc]
    exact (window_congr fun k hk hk' => h.frame k (by omega)).symm
  have hdiv : (16 * m + 16 + b) / 16 = m + 1 := by omega
  have hmod : (16 * m + 16 + b) % 16 = b := by omega
  refine ⟨?_, fun a ha ha' => ?_⟩
  · rw [xtsStealing, length_window, hdiv, hmod, hdrop]
    simp only [Nat.add_sub_cancel]
    rw [← h.last, ← h.iv, ← hwindow, ← h.first, Nat.add_assoc, window_add]
    congr 1
    exact window_congr fun k hk hk' => hframe k (by omega) (by omega)
  · rw [hframe a (by omega) ha', h.frame a (by omega)]

/-- In encryption the tail takes the next tweak. -/
theorem beforeTail_enc (aes : BitVec 128 → BitVec 128) (mem : ℕ → Byte) (t : BitVec 128)
    (hio : Apart inp outp n) (hn : 16 * m + 16 ≤ n) :
    BeforeTail aes .enc mem inp outp n m t (tweak t m) (tweak t (m + 1))
      ((step aes)^[m + 1] ⟨mem, inp, outp, t, 0#128⟩) := by
  obtain ⟨hinp, houtp, hiv, -⟩ := steps_regs aes (m + 1) ⟨mem, inp, outp, t, 0#128⟩
  obtain ⟨hout, hframe⟩ := steps_mem aes (s := ⟨mem, inp, outp, t, 0#128⟩) hio
    (show 16 * (m + 1) ≤ n from hn)
  rw [Nat.mul_succ, window_add, blocksOf_succ] at hout
  obtain ⟨hfirst, hlast⟩ := List.append_inj hout (by rw [length_window, length_blocksOf])
  exact ⟨hinp, houtp, hfirst, hlast, hframe, hiv⟩

/-- In decryption the last whole block has taken the next tweak, and the tail takes its own. -/
theorem beforeTail_dec (aes : BitVec 128 → BitVec 128) (mem : ℕ → Byte) (t : BitVec 128)
    (hio : Apart inp outp n) (hn : 16 * m + 16 ≤ n) :
    BeforeTail aes .dec mem inp outp n m t (tweak t (m + 1)) (tweak t m)
      (lastStep aes ((step aes)^[m] ⟨mem, inp, outp, t, 0#128⟩)) := by
  obtain ⟨hinp, houtp, hiv, -⟩ := steps_regs aes m ⟨mem, inp, outp, t, 0#128⟩
  obtain ⟨hout, hframe⟩ := steps_mem aes (s := ⟨mem, inp, outp, t, 0#128⟩) hio
    (show 16 * m ≤ n by omega)
  generalize (step aes)^[m] ⟨mem, inp, outp, t, 0#128⟩ = s at *
  dsimp only at hinp houtp hiv hout hframe
  have hload : ldQ s.mem (inp + 16 * m) = block (window mem inp n) m := by
    rw [← ldQ_eq_block (by omega), ldQ, ldQ]
    refine congrArg ofBytes (window_congr fun k hk hk' => hframe k ?_)
    unfold Apart at hio
    omega
  have hmem : (lastStep aes s).mem =
      stQ s.mem (outp + 16 * m) (xex aes (tweak t (m + 1)) (block (window mem inp n) m)) := by
    rw [← hload, ← hinp, ← houtp, tweak, ← hiv, ← updateIv_eq]
    rfl
  constructor
  case inp_eq =>
    rw [← hinp]
    rfl
  case outp_eq =>
    rw [← houtp]
    rfl
  case first => rw [hmem, window_stQ_of_apart (.inl (Nat.le_refl _)), hout]
  case last => rw [hmem, window_stQ_self]
  case frame =>
    intro a ha
    rw [hmem, stQ_of_not (by omega)]
    exact hframe a (by omega)
  case iv => exact hiv

/-- The standard's function in a mode. -/
def xts (mode : XtsMode) (aes : BitVec 128 → BitVec 128) (t : BitVec 128) (msg : List Byte) :
    List Byte :=
  match mode with
  | .enc => xtsEncrypt aes t msg
  | .dec => xtsDecrypt aes t msg

theorem xts_of_whole {msg : List Byte} (h : msg.length % 16 = 0) : xts mode aes t msg =
    blocksOf (fun q => xex aes (tweak t q) (block msg q)) (msg.length / 16) := by
  cases mode with
  | enc => exact if_pos h
  | dec => exact if_pos h

/-- What a call leaves in memory. -/
theorem process4_checktail (hbuf : XtsBuffers inp outp tmpbuf n) (hn : 16 ≤ n) {r : ℕ → Byte}
    (hr : r = checktail aes mode (n % 16) tmpbuf
      (process4 aes mode (n % 16) (n / 16) ⟨mem, inp, outp, t, 0#128⟩)) :
    window r outp n = xts mode aes t (window mem inp n) ∧
      ∀ a, ¬ (outp ≤ a ∧ a < outp + n) → ¬ (tmpbuf ≤ a ∧ a < tmpbuf + 16) → r a = mem a := by
  have hblocks : Apart inp outp (16 * (n / 16)) := hbuf.io.of_le (by omega)
  rcases Nat.eq_zero_or_pos (n % 16) with hzero | hpos
  · -- whole blocks only
    have hlen : 16 * (n / 16) = n := by omega
    obtain ⟨hout, hframe⟩ := steps_mem aes (s := ⟨mem, inp, outp, t, 0#128⟩) hbuf.io hlen.le
    rw [hlen] at hout hframe
    rw [process4_steps (.inr hzero) hblocks, checktail, if_pos (by omega)] at hr
    rw [hr, xts_of_whole (by rw [length_window, hzero]), length_window]
    exact ⟨hout, fun a ha _ => hframe a ha⟩
  · obtain ⟨m, hm⟩ : ∃ m, n / 16 = m + 1 := ⟨n / 16 - 1, by omega⟩
    have hb : n % 16 < 16 := Nat.mod_lt _ (by decide)
    have hle : 16 * m + 16 ≤ n := by omega
    have hne : (window mem inp n).length % 16 ≠ 0 := by rw [length_window]; omega
    rw [hm] at hblocks hr
    cases mode with
    | enc =>
      have hspec := (beforeTail_enc aes mem t hbuf.io hle).checktail hbuf (by omega) hpos hb
      rw [process4_steps (.inl rfl) hblocks] at hr
      rw [hr, xts, xtsEncrypt, if_neg hne, length_window, hm]
      exact hspec
    | dec =>
      have hspec := (beforeTail_dec aes mem t hbuf.io hle).checktail hbuf (by omega) hpos hb
      rw [(process4_tail hpos hblocks).checktail tmpbuf] at hr
      rw [hr, xts, xtsDecrypt, if_neg hne, length_window, hm]
      exact hspec

end Call

section Crypt

variable {K : Type*} {key2 key1 : K} {iv : BitVec 128} {bytes : BitVec 64}
  {inp outp tmpbuf : ℕ} {mem : ℕ → Byte}

/-- The cipher of a mode. -/
def cipherOf (c : BlockCipher K) (mode : XtsMode) (k : K) : BitVec 128 → BitVec 128 :=
  match mode with
  | .enc => c.enc k
  | .dec => c.dec k

theorem xtsAesCrypt_eq (c : BlockCipher K) (mode : XtsMode) (h16 : 16 ≤ bytes.toNat)
    (hmax : bytes.toNat < 2 ^ 63) :
    xtsAesCrypt c mode key2 key1 iv bytes inp outp tmpbuf mem =
      checktail (cipherOf c mode key1) mode (bytes.toNat % 16) tmpbuf
        (process4 (cipherOf c mode key1) mode (bytes.toNat % 16) (bytes.toNat / 16)
          ⟨mem, inp, outp, c.enc key2 iv, 0#128⟩) := by
  have hslt : ¬ bytes.slt 16#64 := by
    have hbytes : bytes.toInt = bytes.toNat := BitVec.toInt_eq_toNat_of_lt (by omega)
    have h16' : (16#64).toInt = 16 := by decide
    rw [BitVec.slt_eq_decide, hbytes, h16', decide_eq_true_iff]
    omega
  have hblocks : (bytes >>> 4).toNat = bytes.toNat / 16 := by
    rw [BitVec.toNat_ushiftRight, Nat.shiftRight_eq_div_pow]
  have htail : (bytes &&& 0xF#64).toNat = bytes.toNat % 16 := by
    rw [BitVec.toNat_and]
    exact Nat.and_two_pow_sub_one_eq_mod bytes.toNat 4
  rw [← hblocks, ← htail]
  cases mode with
  | enc => exact if_neg hslt
  | dec => exact if_neg hslt

/-- `xts_aes_crypt` computes the standard's function into the output buffer and writes nothing else
but 16 bytes of its stack frame. -/
theorem xtsAesCrypt_spec (c : BlockCipher K) (mode : XtsMode) (key2 key1 : K) (iv : BitVec 128)
    (h16 : 16 ≤ bytes.toNat) (hmax : bytes.toNat < 2 ^ 63)
    (hbuf : XtsBuffers inp outp tmpbuf bytes.toNat) (mem : ℕ → Byte) {r : ℕ → Byte}
    (hr : r = xtsAesCrypt c mode key2 key1 iv bytes inp outp tmpbuf mem) :
    window r outp bytes.toNat =
        xts mode (cipherOf c mode key1) (c.enc key2 iv) (window mem inp bytes.toNat) ∧
      ∀ a, ¬ (outp ≤ a ∧ a < outp + bytes.toNat) → ¬ (tmpbuf ≤ a ∧ a < tmpbuf + 16) →
        r a = mem a := by
  rw [xtsAesCrypt_eq c mode h16 hmax] at hr
  exact process4_checktail hbuf h16 hr

/-- Encryption computes IEEE 1619 XTS, and decryption of what it leaves, wherever that is then,
gives the message back; both in place or into a disjoint buffer. -/
theorem xtsAesCrypt_round_trip (c : BlockCipher K) (key2 key1 : K) (iv : BitVec 128)
    (h16 : 16 ≤ bytes.toNat) (hmax : bytes.toNat < 2 ^ 63)
    (hbuf : XtsBuffers inp outp tmpbuf bytes.toNat) {inp' outp' tmpbuf' : ℕ}
    (hbuf' : XtsBuffers inp' outp' tmpbuf' bytes.toNat) (mem mem' : ℕ → Byte)
    (hmem' : window mem' inp' bytes.toNat =
      window (xtsAesCrypt c .enc key2 key1 iv bytes inp outp tmpbuf mem) outp bytes.toNat) :
    window (xtsAesCrypt c .enc key2 key1 iv bytes inp outp tmpbuf mem) outp bytes.toNat =
        xtsEncrypt (c.enc key1) (c.enc key2 iv) (window mem inp bytes.toNat) ∧
      window (xtsAesCrypt c .dec key2 key1 iv bytes inp' outp' tmpbuf' mem') outp' bytes.toNat =
        window mem inp bytes.toNat := by
  have henc := (xtsAesCrypt_spec c .enc key2 key1 iv h16 hmax hbuf mem rfl).1
  have hdec := (xtsAesCrypt_spec c .dec key2 key1 iv h16 hmax hbuf' mem' rfl).1
  refine ⟨henc, ?_⟩
  rw [hdec, hmem', henc]
  exact xtsDecrypt_xtsEncrypt (by rwa [length_window]) (c.dec_enc key1) _

/-- Two blocks and a byte, encrypted in place and decrypted into another buffer, with a cipher that
adds its key. -/
theorem xtsAesCrypt_round_trip_33_bytes :
    let c : BlockCipher (BitVec 128) := ⟨fun k x => x + k, fun k x => x - k,
      fun k x => BitVec.add_sub_cancel x k, fun k x => BitVec.sub_add_cancel x k⟩
    let mem : ℕ → Byte := fun k => BitVec.ofNat 8 (7 * k)
    let ct := xtsAesCrypt c .enc 3#128 5#128 9#128 33#64 100 100 200 mem
    window ct 100 (33#64).toNat =
        xtsEncrypt (c.enc 5#128) (c.enc 3#128 9#128) (window mem 100 (33#64).toNat) ∧
      window (xtsAesCrypt c .dec 3#128 5#128 9#128 33#64 100 300 200 ct) 300 (33#64).toNat =
        window mem 100 (33#64).toNat := by
  intro c mem ct
  exact xtsAesCrypt_round_trip c 3#128 5#128 9#128 (by decide) (by decide)
    ⟨.inl rfl, .inr (by decide), .inr (by decide)⟩
    ⟨.inr (.inl (by decide)), .inr (by decide), .inl (by decide)⟩ mem ct rfl

end Crypt

end IsalCrypto.Aes
