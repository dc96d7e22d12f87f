import IsalCrypto.Lib.Ymm
import IsalCrypto.Mb.LaneMgr
import IsalCrypto.Memory
import Mathlib.Data.Fin.VecNotation

/-!
# The AVX512 lane scheduler of MD5

`md5_mb_mgr_init_avx512.c`, `md5_mb_mgr_submit_avx512.asm` and `md5_mb_mgr_flush_avx512.asm`: 32
lanes, with six bits for the lane in a word of `lens`. The free lanes are the bytes of
`unused_lanes`, a stack that is shifted in memory by one byte. The kernel `md5_mb_x16x2_avx512` is a
parameter.

`byteArray` says that the shifts are those of a stack.
-/

namespace IsalCrypto.Md5Mb

open IsalCrypto.Lib IsalCrypto.Mb

/-- `ISAL_MD5_MB_JOB_MGR` with the 32 bytes of `unused_lanes`. -/
abbrev Md5Mgr (J D : Type*) := LaneMgr 32 (Fin 32 → Byte) J D

/-! ## The bytes of `unused_lanes` -/

/-- `MEM_VPSRLDDQ`: 32 bytes are loaded from one address further and stored; the last of them is not
part of the array and is then cleared. -/
def memVpsrlddq (a : Fin 32 → Byte) : Fin 32 → Byte :=
  fun k => if k.val = 31 then 0#8 else a (k + 1)

/-- `MEM_VPSLLDDQ`: 32 bytes are loaded from one address before and stored; the first of them is not
part of the array and is then cleared. -/
def memVpslldq (a : Fin 32 → Byte) : Fin 32 → Byte :=
  fun k => if k.val = 0 then 0#8 else a (k - 1)

/-- The low quadword. -/
def lowQword (a : Fin 32 → Byte) : BitVec 64 := load64 (arrayBytes a) 0

/-- A store of the low quadword. -/
def setLowQword (a : Fin 32 → Byte) (v : BitVec 64) : Fin 32 → Byte :=
  fun k => if k.val < 8 then (v >>> (8 * k.val)).setWidth 8 else a k

/-- The lane on top: the low quadword and `0x3F`. -/
def topLane (a : Fin 32 → Byte) : Fin 32 := Fin.ofNat 32 (lowQword a &&& 0x3F#64).toNat

/-- The stack with the lane `idx`: the low quadword is shifted in a register, the whole in
memory. -/
def pushLane (a : Fin 32 → Byte) (idx : Fin 32) : Fin 32 → Byte :=
  setLowQword (memVpslldq a) (lowQword a <<< 8 ||| BitVec.ofNat 64 idx)

section Stack

variable {a : Fin 32 → Byte} {i : Fin 32}

theorem getLsbD_lowQword {b : ℕ} (hb : b < 64) :
    (lowQword a).getLsbD b = (a (Fin.ofNat 32 (b / 8))).getLsbD (b % 8) := by
  have hlt : b / 8 < 32 := by omega
  have hindex : (⟨b / 8, hlt⟩ : Fin 32) = Fin.ofNat 32 (b / 8) :=
    Fin.ext (Nat.mod_eq_of_lt hlt).symm
  rw [lowQword, getLsbD_load64 hb, Nat.zero_add, arrayBytes, dif_pos hlt, hindex]

theorem setWidth_lowQword : (lowQword a).setWidth 8 = a 0 := by
  refine BitVec.eq_of_getLsbD_eq fun b hb => ?_
  have hdiv : b / 8 = 0 := Nat.div_eq_of_lt hb
  rw [BitVec.getLsbD_setWidth, getLsbD_lowQword (by omega), hdiv, Nat.mod_eq_of_lt hb]
  simp [hb]

theorem topLane_eq (h : a 0 = BitVec.ofNat 8 i) : topLane a = i := by
  have hi := i.isLt
  have hlow : (lowQword a).toNat % 256 = i := by
    have hnat := congrArg BitVec.toNat (@setWidth_lowQword a)
    have hbyte : i.val % 2 ^ 8 = i := Nat.mod_eq_of_lt (by omega)
    rw [BitVec.toNat_setWidth, h, BitVec.toNat_ofNat, hbyte] at hnat
    exact hnat
  have hand : (lowQword a &&& 0x3F#64).toNat = (lowQword a).toNat % 64 := by
    rw [BitVec.toNat_and]
    exact Nat.and_two_pow_sub_one_eq_mod _ 6
  rw [topLane, hand]
  refine Fin.ext ?_
  rw [Fin.val_ofNat]
  omega

/-- The bytes that the store of the low quadword writes. -/
theorem setWidth_pushed (a : Fin 32 → Byte) (i : Fin 32) {k : ℕ} (hk : k < 8) :
    ((lowQword a <<< 8 ||| BitVec.ofNat 64 i) >>> (8 * k)).setWidth 8 =
      if k = 0 then BitVec.ofNat 8 i else a (Fin.ofNat 32 (k - 1)) := by
  have hi := i.isLt
  refine BitVec.eq_of_getLsbD_eq fun b hb => ?_
  rw [BitVec.getLsbD_setWidth, BitVec.getLsbD_ushiftRight, BitVec.getLsbD_or,
    BitVec.getLsbD_shiftLeft, BitVec.getLsbD_ofNat]
  split
  · next hz =>
    have hlow : 8 * k + b < 8 := by omega
    have hb' : 8 * k + b = b := by omega
    rw [BitVec.getLsbD_ofNat, hb']
    simp [hb, show b < 64 by omega]
  · next hne =>
    have hhigh : ¬ 8 * k + b < 8 := by omega
    have hpow : 2 ^ 5 ≤ 2 ^ (8 * k + b) := Nat.pow_le_pow_right (by decide) (by omega)
    have hbit : i.val.testBit (8 * k + b) = false :=
      Nat.testBit_lt_two_pow (Nat.lt_of_lt_of_le hi hpow)
    have hdiv : (8 * k + b - 8) / 8 = k - 1 := by omega
    have hmod : (8 * k + b - 8) % 8 = b := by omega
    rw [hbit, getLsbD_lowQword (by omega), hdiv, hmod]
    simp [hb, hhigh, show 8 * k + b < 64 by omega]

/-- The byte that comes up from the low quadword is the one that comes up in memory. -/
theorem pushLane_apply (a : Fin 32 → Byte) (i k : Fin 32) :
    pushLane a i k = if k = 0 then BitVec.ofNat 8 i else a (k - 1) := by
  have hindex : ∀ k : Fin 32, k ≠ 0 → Fin.ofNat 32 (k.val - 1) = k - 1 := by decide
  have hzero : k.val = 0 ↔ k = 0 := Fin.val_eq_zero_iff
  rw [pushLane, setLowQword]
  split
  · next hk =>
    rw [setWidth_pushed a i hk]
    by_cases hz : k = 0
    · rw [if_pos (hzero.mpr hz), if_pos hz]
    · rw [if_neg fun h => hz (hzero.mp h), if_neg hz, hindex k hz]
  · next hk =>
    have hz : k.val ≠ 0 := by omega
    rw [memVpslldq, if_neg hz, if_neg fun h => hz (hzero.mpr h)]

end Stack

/-- All 32 lanes as bytes, the next one to be taken first. -/
def byteArray : FreeStack 32 (Fin 32 → Byte) where
  lanes := Finset.univ
  Holds a l := l.length ≤ 32 ∧ ∀ k i : Fin 32, l[k.val]? = some i → a k = BitVec.ofNat 8 i
  top := topLane
  pop := memVpsrlddq
  push := pushLane
  top_eq h := topLane_eq (h.2 0 _ rfl)
  holds_pop {a i l} h := by
    obtain ⟨hlen, hbyte⟩ := h
    rw [List.length_cons] at hlen
    refine ⟨by omega, fun k m hk => ?_⟩
    obtain ⟨hlt, -⟩ := List.getElem?_eq_some_iff.mp hk
    have hnext : (k + 1).val = k.val + 1 := Fin.val_add_one_of_lt' (by omega)
    rw [memVpsrlddq, if_neg (by omega)]
    refine hbyte (k + 1) m ?_
    rw [hnext, List.getElem?_cons_succ]
    exact hk
  holds_push {a i l} h hnodup _ := by
    have hlen : (i :: l).length ≤ Fintype.card (Fin 32) := hnodup.length_le_card
    refine ⟨hlen.trans_eq (Fintype.card_fin 32), fun k m hk => ?_⟩
    rw [pushLane_apply]
    split
    · next hz =>
      rw [hz] at hk
      obtain rfl : i = m := Option.some.inj hk
      rfl
    · next hne =>
      have hpos : k.val ≠ 0 := fun h => hne (Fin.val_eq_zero_iff.mp h)
      have hprev : ∀ k : Fin 32, k ≠ 0 → (k - 1).val = k.val - 1 := by decide
      refine h.2 (k - 1) m ?_
      rw [hprev k hne, ← hk]
      obtain ⟨n, hn⟩ := Nat.exists_eq_succ_of_ne_zero hpos
      rw [hn, Nat.succ_sub_one, List.getElem?_cons_succ]

/-! ## The functions -/

variable {J D : Type*}

/-- The quadwords that the init function stores into `unused_lanes`. -/
def initUnused : Fin 4 → BitVec 64 :=
  ![0x0706050403020100#64, 0x0f0e0d0c0b0a0908#64, 0x1716151413121110#64, 0x1f1e1d1c1b1a1918#64]

/-- `_md5_mb_mgr_init_avx512`; the default digest is the one of zeros. -/
def initAvx512 [Inhabited D] (_ : Md5Mgr J D) : Md5Mgr J D where
  digest _ := default
  dataPtr _ := none
  lens _ := 0xFFFFFFFF#32
  unusedLanes k := (initUnused (Fin.ofNat 4 (k.val / 8)) >>> (8 * (k.val % 8))).setWidth 8
  jobInLane _ := none
  numLanesInuse := 0#32

/-- The eight words of `lens` from `8 * r` on. -/
def lensYmm (s : Md5Mgr J D) (r : ℕ) : Ymm := fun k => s.lens (Fin.ofNat 32 (8 * r + k))

/-- The least dwords of the four registers with `lens`; `ymm3` and `ymm3'` are what the helper
register holds before it is used for the first two and for the last two. -/
def leastLens (ymm3 ymm3' : Ymm) (s : Md5Mgr J D) : Ymm :=
  let ymm2 := leastDwords ymm3 (lensYmm s 0) (lensYmm s 1)
  let ymm4 := leastDwords ymm3' (lensYmm s 2) (lensYmm s 3)
  vpminud ymm2 ymm4

/-- The four stores of `lens` after `ymm2` has been taken from each register. -/
def subLens (s : Md5Mgr J D) (ymm2 : Ymm) : Md5Mgr J D :=
  { s with lens := fun i => vpsubd (lensYmm s (i.val / 8)) ymm2 (Fin.ofNat 8 i) }

section Functions

variable [DecidableEq J] (kern : Kernel J D) (ymm3 ymm3' : Ymm)

/-- `md5_mb_x16x2_avx512`. -/
def md5MbX16x2Avx512 (s : Md5Mgr J D) (n : ℕ) : Md5Mgr J D :=
  s.hashLanes kern (fun _ => True) n

/-- All lanes are hashed by the least length. -/
def hashAll (s : Md5Mgr J D) (ymm2 : Ymm) : Md5Mgr J D :=
  let len2 := ymm2 0 >>> 6
  md5MbX16x2Avx512 kern (subLens s (vpshufd0 (vpand ymm2 (lowDwords 0xFFFFFFC0#32)))) len2.toNat

/-- `len_is_0`: the job in lane `idx` is completed. -/
def completeLane (s : Md5Mgr J D) (jobs : J → Job D) (idx : Fin 32) :
    Md5Mgr J D × (J → Job D) × Option J :=
  let r := s.completeLane jobs idx (pushLane s.unusedLanes idx)
  ({ r.1 with lens := Function.update r.1.lens idx 0xFFFFFFFF#32 }, r.2)

/-- From `start_loop` on: the lanes move on by the least length, and the job that has it is
completed. -/
def startLoop (s : Md5Mgr J D) (jobs : J → Job D) : Md5Mgr J D × (J → Job D) × Option J :=
  let ymm2 := leastLens ymm3 ymm3' s
  let idx := Fin.ofNat 32 (ymm2 0 &&& 0x3F#32).toNat
  let len2 := ymm2 0 >>> 6
  let s := if len2 = 0#32 then s else hashAll kern s ymm2
  completeLane s jobs idx

/-- `_md5_mb_mgr_submit_avx512`. -/
def submitAvx512 (s : Md5Mgr J D) (jobs : J → Job D) (j : J) :
    Md5Mgr J D × (J → Job D) × Option J :=
  let jobs := LaneMgr.startJob jobs j
  let s := s.enterLane 6 (topLane s.unusedLanes) (memVpsrlddq s.unusedLanes) jobs j
  if s.numLanesInuse ≠ 32#32 then (s, jobs, none)
  else startLoop kern ymm3 ymm3' s jobs

/-- `_md5_mb_mgr_flush_avx512`. -/
def flushAvx512 (s : Md5Mgr J D) (jobs : J → Job D) : Md5Mgr J D × (J → Job D) × Option J :=
  if s.numLanesInuse = 0#32 then (s, jobs, none)
  else startLoop kern ymm3 ymm3' (s.copyLaneData 32) jobs

end Functions

/-- The scheduler of the AVX512 manager. -/
def schedulerAvx512 [DecidableEq J] [Inhabited D] (ymm3 ymm3' : Ymm) :
    Scheduler (Md5Mgr J D) J D where
  init := initAvx512
  submit kern := submitAvx512 kern ymm3 ymm3'
  flush kern := flushAvx512 kern ymm3 ymm3'

end IsalCrypto.Md5Mb
