import IsalCrypto.Aes.Cipher
import IsalCrypto.Lib.Cbc

/-!
# CBC encryption on x86

`aes/cbc_common.asm` and `aes/cbc_enc_128_x4_sb.asm`: the macros `CBC_ENC_INIT` and
`CBC_ENC_SUBLOOP` with three blocks in a loop, and the function that is made of them. The functions
for the other key sizes and those for AVX differ by the number of rounds and by the encoding of the
instructions.

* `cbcEnc_eq`: the function ends and has written the blocks of CBC, nothing else, also where the
  output is the input or begins up to a block behind it.
* `cbcEnc_zero`: with the length 0 it goes on for `2 ^ 60` blocks.
-/

namespace IsalCrypto.Aes

open IsalCrypto.Lib IsalCrypto.Lib.Aes
open IsalCrypto.Aes.GcmSse (encryptSingleBlock)

/-! ## Blocks in memory -/

/-- The memory after the blocks 0 to `n - 1` of `x` are stored from `out` on. -/
def written (mem : ℕ → Byte) (out : ℕ) (x : ℕ → BitVec 128) : ℕ → ℕ → Byte
  | 0 => mem
  | n + 1 => stQ (written mem out x n) (out + 16 * n) (x n)

/-- Block `q` of a buffer. -/
def inputBlock (mem : ℕ → Byte) (inp q : ℕ) : BitVec 128 := ldQ mem (inp + 16 * q)

/-- The output begins at most a block behind the input, or behind all of its `m` blocks. -/
def Ahead (inp out m : ℕ) : Prop := out ≤ inp + 16 ∨ inp + 16 * m ≤ out

section Written

variable {mem : ℕ → Byte} {inp out m n q a : ℕ} {x : ℕ → BitVec 128}

/-- Nothing else changes. -/
theorem written_of_not (h : ¬ (out ≤ a ∧ a < out + 16 * n)) : written mem out x n a = mem a := by
  induction n with
  | zero => rfl
  | succ n ih =>
    rw [written, stQ_of_not (by omega)]
    exact ih (by omega)

theorem window_written (mem : ℕ → Byte) (out : ℕ) (x : ℕ → BitVec 128) (n : ℕ) :
    window (written mem out x n) out (16 * n) = blocksOf x n := by
  induction n with
  | zero => rfl
  | succ n ih =>
    rw [Nat.mul_succ, written, window_add, window_stQ_self,
      window_stQ_of_apart (.inl (Nat.le_refl _)), ih, blocksOf_succ]

/-- A block of the input that is still to be read. -/
theorem inputBlock_written (h : Ahead inp out m) (hq : q < m) (hn : n < q ∨ n = 0) :
    inputBlock (written mem out x n) inp q = inputBlock mem inp q := by
  unfold Ahead at h
  refine congrArg ofBytes (window_congr fun k hk hk' => written_of_not ?_)
  omega

theorem block_window_eq (hq : q < m) : block (window mem inp (16 * m)) q = inputBlock mem inp q :=
  (ldQ_eq_block (by omega)).symm

end Written

/-! ## The function -/

/-- The registers of the loop: `XDATA(0)` and so on, the index, the length, and the memory. -/
structure CbcEncRegs where
  xdata : ℕ → BitVec 128
  idx : ℕ
  len : BitVec 64
  mem : ℕ → Byte

section Function

variable (enc : BitVec 128 → BitVec 128) (inp out : ℕ)

/-- One block of `CBC_ENC_SUBLOOP`, in the register `p_first`; the next block is loaded before this
one is stored. -/
def cbcEncBlock (pFirst pNext : ℕ) (s : CbcEncRegs) : CbcEncRegs :=
  let xdata := if s.len = 16#64 then s.xdata
    else Function.update s.xdata pNext (ldQ s.mem (inp + s.idx + 16))
  let xdata := Function.update xdata pFirst (enc (xdata pFirst))
  let xdata := if s.len = 16#64 then xdata
    else Function.update xdata pNext (xdata pNext ^^^ xdata pFirst)
  { xdata := xdata
    idx := s.idx + 16
    len := s.len - 16#64
    mem := stQ s.mem (out + s.idx) (xdata pFirst) }

/-- `CBC_ENC_SUBLOOP` with `UNROLLED_LOOPS` equal to 3. -/
def cbcEncSubloop (s : CbcEncRegs) : CbcEncRegs :=
  let s := cbcEncBlock enc inp out 0 1 s
  if s.len = 0#64 then s
  else
    let s := cbcEncBlock enc inp out 1 2 s
    if s.len = 0#64 then s else cbcEncBlock enc inp out 2 0 s

/-- `main_loop`. -/
def cbcEncMainLoop : ℕ → CbcEncRegs → Option CbcEncRegs
  | 0, _ => none
  | fuel + 1, s =>
    let s := cbcEncSubloop enc inp out s
    if s.len = 0#64 then some s else cbcEncMainLoop fuel s

/-- The function with the cipher `enc`: the memory afterwards. -/
def cbcEnc (iv : BitVec 128) (len : BitVec 64) (fuel : ℕ) (mem : ℕ → Byte) : Option (ℕ → Byte) :=
  let xdata := Function.update (fun _ => 0#128) 0 (ldQ mem inp ^^^ iv)
  (cbcEncMainLoop enc inp out fuel ⟨xdata, 0, len, mem⟩).map CbcEncRegs.mem

end Function

/-- `_aes_cbc_enc_128_x4`. -/
def aesCbcEnc128 (keys : ℕ → Byte) := cbcEnc (encryptSingleBlock 9 keys)

/-- `_aes_cbc_enc_192_x4`. -/
def aesCbcEnc192 (keys : ℕ → Byte) := cbcEnc (encryptSingleBlock 11 keys)

/-- `_aes_cbc_enc_256_x4`. -/
def aesCbcEnc256 (keys : ℕ → Byte) := cbcEnc (encryptSingleBlock 13 keys)

/-! ## Block after block -/

section Loop

variable {enc : BitVec 128 → BitVec 128} {inp out m i fuel : ℕ} {iv : BitVec 128} {len : BitVec 64}
  {mem : ℕ → Byte} {s : CbcEncRegs}

/-- The state before block `i` of `m`: the blocks before it are written, and the one of the
plaintext is in its register, with the ciphertext before it. -/
structure EncAt (enc : BitVec 128 → BitVec 128) (inp out m : ℕ) (iv : BitVec 128) (mem : ℕ → Byte)
    (i : ℕ) (s : CbcEncRegs) : Prop where
  stored : s.mem = written mem out (cbcEncrypt enc iv (inputBlock mem inp)) i
  idx : s.idx = 16 * i
  len : (s.len.toNat + 16 * i) % 2 ^ 64 = 16 * m % 2 ^ 64
  xdata : i < m → s.xdata (i % 3) =
    inputBlock mem inp i ^^^ chained iv (cbcEncrypt enc iv (inputBlock mem inp)) i

theorem EncAt.len_eq_zero (h : EncAt enc inp out m iv mem i s) (hi : i ≤ m) (hm : m ≤ 2 ^ 60)
    (hpos : 0 < i) : s.len = 0#64 ↔ i = m := by
  have hlen := h.len
  have hlt := s.len.isLt
  constructor
  · intro hzero
    rw [hzero, BitVec.toNat_ofNat] at hlen
    omega
  · rintro rfl
    refine BitVec.eq_of_toNat_eq ?_
    rw [BitVec.toNat_ofNat]
    omega

theorem EncAt.len_eq_sixteen (h : EncAt enc inp out m iv mem i s) (hi : i < m) (hm : m ≤ 2 ^ 60) :
    s.len = 16#64 ↔ i + 1 = m := by
  have hlen := h.len
  have hlt := s.len.isLt
  constructor
  · intro hlast
    rw [hlast, BitVec.toNat_ofNat] at hlen
    omega
  · rintro rfl
    refine BitVec.eq_of_toNat_eq ?_
    rw [BitVec.toNat_ofNat]
    omega

/-- One block. -/
theorem EncAt.block (h : EncAt enc inp out m iv mem i s) (hbuf : Ahead inp out m) (hi : i < m)
    (hm : m ≤ 2 ^ 60) :
    EncAt enc inp out m iv mem (i + 1) (cbcEncBlock enc inp out (i % 3) ((i + 1) % 3) s) := by
  have hlast := h.len_eq_sixteen hi hm
  have hne : i % 3 ≠ (i + 1) % 3 := by omega
  have hne' : (i + 1) % 3 ≠ i % 3 := by omega
  have hcipher := cbcEncrypt_eq enc iv (inputBlock mem inp) i
  rw [← h.xdata hi] at hcipher
  have hlen := h.len
  have hidx := h.idx
  unfold cbcEncBlock
  by_cases hend : s.len = 16#64
  · simp only [if_pos hend]
    refine ⟨?_, ?_, ?_, fun hmore => ?_⟩
    · rw [Function.update_self, written, ← hcipher, h.stored, hidx]
    · rw [hidx, Nat.mul_succ]
    · rw [hend] at hlen ⊢
      rw [BitVec.toNat_ofNat] at hlen
      rw [BitVec.sub_self, BitVec.toNat_ofNat]
      omega
    · exact absurd (hlast.mp hend) (Nat.ne_of_lt hmore)
  · simp only [if_neg hend]
    have hmore : i + 1 < m := Nat.lt_of_le_of_ne hi fun heq => hend (hlast.mpr heq)
    refine ⟨?_, ?_, ?_, fun _ => ?_⟩
    · simp only [Function.update_self, Function.update_of_ne hne]
      rw [written, ← hcipher, h.stored, hidx]
    · rw [hidx, Nat.mul_succ]
    · rw [BitVec.toNat_sub, BitVec.toNat_ofNat]
      omega
    · have hnext : ldQ s.mem (inp + s.idx + 16) = inputBlock mem inp (i + 1) := by
        rw [h.stored, ← inputBlock_written hbuf hmore (.inl (Nat.lt_succ_self i)), inputBlock, hidx,
          Nat.mul_succ, Nat.add_assoc]
      simp only [Function.update_self, Function.update_of_ne hne, Function.update_of_ne hne']
      rw [← hcipher, hnext]
      rfl

/-- One pass of the subloop. -/
theorem EncAt.subloop (h : EncAt enc inp out m iv mem i s) (hbuf : Ahead inp out m) (hi : i < m)
    (hm : m ≤ 2 ^ 60) (hmod : i % 3 = 0) :
    ∃ j, i < j ∧ j ≤ i + 3 ∧ j ≤ m ∧ (j = m ∨ j % 3 = 0) ∧
      EncAt enc inp out m iv mem j (cbcEncSubloop enc inp out s) := by
  have hone := h.block hbuf hi hm
  rw [hmod, show (i + 1) % 3 = 1 by omega] at hone
  unfold cbcEncSubloop
  dsimp only
  split
  · next hzero =>
    have hend := (hone.len_eq_zero hi hm (Nat.succ_pos i)).mp hzero
    exact ⟨i + 1, by omega, by omega, hi, .inl hend, hone⟩
  · next hnone =>
    have hmore : i + 1 < m := Nat.lt_of_le_of_ne hi fun heq =>
      hnone ((hone.len_eq_zero hi hm (Nat.succ_pos i)).mpr heq)
    have htwo := hone.block hbuf hmore hm
    rw [show (i + 1) % 3 = 1 by omega, show (i + 1 + 1) % 3 = 2 by omega] at htwo
    split
    · next hzero =>
      have hend := (htwo.len_eq_zero hmore hm (Nat.succ_pos _)).mp hzero
      exact ⟨i + 1 + 1, by omega, by omega, hmore, .inl hend, htwo⟩
    · next hntwo =>
      have hmore' : i + 1 + 1 < m := Nat.lt_of_le_of_ne hmore fun heq =>
        hntwo ((htwo.len_eq_zero hmore hm (Nat.succ_pos _)).mpr heq)
      have hthree := htwo.block hbuf hmore' hm
      rw [show (i + 1 + 1) % 3 = 2 by omega, show (i + 1 + 1 + 1) % 3 = 0 by omega] at hthree
      exact ⟨i + 1 + 1 + 1, by omega, by omega, hmore', .inr (by omega), hthree⟩

/-- The loop ends when all blocks are done. -/
theorem EncAt.mainLoop (h : EncAt enc inp out m iv mem i s) (hbuf : Ahead inp out m) (hi : i < m)
    (hm : m ≤ 2 ^ 60) (hmod : i % 3 = 0) (hfuel : m ≤ i + fuel) :
    ∃ s', cbcEncMainLoop enc inp out fuel s = some s' ∧ EncAt enc inp out m iv mem m s' := by
  induction fuel generalizing i s with
  | zero => exact absurd hfuel (by omega)
  | succ fuel ih =>
    obtain ⟨j, hij, -, hjm, hend, hj⟩ := h.subloop hbuf hi hm hmod
    have hzero := hj.len_eq_zero hjm hm (Nat.zero_lt_of_lt hij)
    unfold cbcEncMainLoop
    dsimp only
    split
    · next hlen =>
      obtain rfl := hzero.mp hlen
      exact ⟨_, rfl, hj⟩
    · next hlen =>
      have hne : j ≠ m := fun heq => hlen (hzero.mpr heq)
      exact ih hj (Nat.lt_of_le_of_ne hjm hne) (hend.resolve_left hne) (by omega)

theorem encAt_start (enc : BitVec 128 → BitVec 128) (inp out : ℕ) (iv : BitVec 128) (mem : ℕ → Byte)
    (hlen : len.toNat = 16 * m % 2 ^ 64) :
    EncAt enc inp out m iv mem 0 ⟨Function.update (fun _ => 0#128) 0 (ldQ mem inp ^^^ iv), 0, len,
      mem⟩ where
  stored := rfl
  idx := rfl
  len := by
    dsimp only
    rw [Nat.mul_zero, Nat.add_zero, hlen, Nat.mod_mod]
  xdata := fun _ => by
    dsimp only
    rw [Nat.zero_mod, Function.update_self]
    rfl

/-- The function leaves the blocks of CBC in the output, and everything else as it was. -/
theorem cbcEnc_eq (enc : BitVec 128 → BitVec 128) (iv : BitVec 128) (mem : ℕ → Byte)
    (hbuf : Ahead inp out m) (hm : 0 < m) (hlen : len.toNat = 16 * m) (hfuel : m ≤ fuel) :
    cbcEnc enc inp out iv len fuel mem =
      some (written mem out (cbcEncrypt enc iv (inputBlock mem inp)) m) := by
  have hlt := len.isLt
  have hmod : 16 * m % 2 ^ 64 = 16 * m := Nat.mod_eq_of_lt (by omega)
  obtain ⟨s, hs, hend⟩ :=
    (encAt_start enc inp out iv mem (hlen.trans hmod.symm)).mainLoop hbuf hm (by omega)
    rfl (show m ≤ 0 + fuel by omega)
  unfold cbcEnc
  dsimp only
  rw [hs, Option.map_some, hend.stored]

theorem eq_of_sub_eq_zero {x y : BitVec 64} (h : x - y = 0#64) : x = y :=
  (BitVec.sub_eq_iff_eq_add.mp h).trans (BitVec.zero_add y)

/-- A pass that does not reach the end. -/
theorem cbcEncSubloop_len (h16 : s.len ≠ 16#64) (h32 : s.len ≠ 32#64) :
    (cbcEncSubloop enc inp out s).len = s.len - 48#64 := by
  have hone : s.len - 16#64 ≠ 0#64 := fun h => h16 (eq_of_sub_eq_zero h)
  have htwo : s.len - 16#64 - 16#64 ≠ 0#64 := fun h => h32 <| by
    rw [BitVec.sub_sub] at h
    exact eq_of_sub_eq_zero h
  unfold cbcEncSubloop cbcEncBlock
  dsimp only
  rw [if_neg hone, if_neg htwo, BitVec.sub_sub, BitVec.sub_sub]
  rfl

theorem cbcEncMainLoop_none (h : 48 * fuel < s.len.toNat) :
    cbcEncMainLoop enc inp out fuel s = none := by
  induction fuel generalizing s with
  | zero => rfl
  | succ fuel ih =>
    have hne : ∀ n : ℕ, n ≤ 48 → s.len ≠ BitVec.ofNat 64 n := fun n hn heq => by
      rw [heq, BitVec.toNat_ofNat] at h
      omega
    have hlen := @cbcEncSubloop_len enc inp out s (hne 16 (by decide)) (hne 32 (by decide))
    have hnat : (s.len - 48#64).toNat = s.len.toNat - 48 := by
      rw [BitVec.toNat_sub, BitVec.toNat_ofNat]
      omega
    unfold cbcEncMainLoop
    dsimp only
    rw [hlen, if_neg fun hzero => hne 48 (Nat.le_refl 48) (eq_of_sub_eq_zero hzero)]
    refine ih ?_
    rw [hlen, hnat]
    omega

theorem cbcEncMainLoop_zero (hlen : s.len = 0#64) (hfuel : 3 * fuel < 2 ^ 60) :
    cbcEncMainLoop enc inp out fuel s = none := by
  have h16 : s.len ≠ 16#64 := fun h => absurd (hlen.symm.trans h) (by decide)
  have h32 : s.len ≠ 32#64 := fun h => absurd (hlen.symm.trans h) (by decide)
  have hfirst : (cbcEncSubloop enc inp out s).len = 0#64 - 48#64 := by
    rw [cbcEncSubloop_len h16 h32, hlen]
  cases fuel with
  | zero => rfl
  | succ fuel =>
    unfold cbcEncMainLoop
    dsimp only
    rw [if_neg fun hzero => absurd (hfirst.symm.trans hzero) (by decide)]
    refine cbcEncMainLoop_none ?_
    rw [hfirst]
    exact Nat.lt_of_lt_of_le (show 48 * fuel < 2 ^ 64 - 48 by omega) (by decide)

/-- With the length 0 the loop does not stop before the length has gone through all its values. -/
theorem cbcEnc_zero (enc : BitVec 128 → BitVec 128) (inp out : ℕ) (iv : BitVec 128) (mem : ℕ → Byte)
    (hfuel : 3 * fuel < 2 ^ 60) : cbcEnc enc inp out iv 0#64 fuel mem = none := by
  unfold cbcEnc
  dsimp only
  rw [cbcEncMainLoop_zero rfl hfuel, Option.map_none]

end Loop

end IsalCrypto.Aes
