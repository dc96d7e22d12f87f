import IsalCrypto.Lib.Sha1
import IsalCrypto.Memory
import Mathlib.Data.Fin.Basic

/-!
# SHA-1 with the SHA-NI instructions

The body of the block loop that `sha1_ni_x1.asm` and `sha1_ni_x2.asm` share: twenty groups of four
rounds on the registers `ABCD`, `E0`, `E1` and `MSG0` to `MSG3`.

`niBlock_eq` says that it is the compression function.
-/

namespace IsalCrypto.Sha1Mb

open IsalCrypto.Lib

/-! ## Instructions -/

/-- An `xmm` register as four dwords, the lowest first. -/
abbrev Xmm := Vector (BitVec 32) 4

def paddd (x y : Xmm) : Xmm := #v[x[0] + y[0], x[1] + y[1], x[2] + y[2], x[3] + y[3]]

def pxor (x y : Xmm) : Xmm := #v[x[0] ^^^ y[0], x[1] ^^^ y[1], x[2] ^^^ y[2], x[3] ^^^ y[3]]

def sha1nexte (x y : Xmm) : Xmm := #v[y[0], y[1], y[2], y[3] + x[3].rotateLeft 30]

def sha1msg1 (x y : Xmm) : Xmm := #v[y[2] ^^^ x[0], y[3] ^^^ x[1], x[0] ^^^ x[2], x[1] ^^^ x[3]]

def sha1msg2 (x y : Xmm) : Xmm :=
  let w16 := (x[3] ^^^ y[2]).rotateLeft 1
  #v[(x[0] ^^^ w16).rotateLeft 1, (x[1] ^^^ y[0]).rotateLeft 1, (x[2] ^^^ y[1]).rotateLeft 1, w16]

/-- The function that the immediate of `sha1rnds4` selects. -/
def rnds4Function (imm : ℕ) (b c d : BitVec 32) : BitVec 32 :=
  match imm with
  | 0 => (b &&& c) ^^^ (~~~b &&& d)
  | 1 => b ^^^ c ^^^ d
  | 2 => (b &&& c) ^^^ (b &&& d) ^^^ (c &&& d)
  | _ => b ^^^ c ^^^ d

/-- The constant that the immediate of `sha1rnds4` selects. -/
def rnds4Constant (imm : ℕ) : BitVec 32 :=
  match imm with
  | 0 => 0x5a827999#32
  | 1 => 0x6ed9eba1#32
  | 2 => 0x8f1bbcdc#32
  | _ => 0xca62c1d6#32

/-- One of the rounds of `sha1rnds4` on `A`, `B`, `C`, `D` and `E`. -/
def rnds4Round (imm : ℕ) (s : Sha1.Digest) (w : BitVec 32) : Sha1.Digest :=
  #v[rnds4Function imm (s.get 1) (s.get 2) (s.get 3) + (s.get 0).rotateLeft 5 + w + s.get 4 +
      rnds4Constant imm, s.get 0, (s.get 1).rotateLeft 30, s.get 2, s.get 3]

/-- `sha1rnds4`: the first word of `y` comes with `E` added. -/
def sha1rnds4 (x y : Xmm) (imm : ℕ) : Xmm :=
  let s := rnds4Round imm #v[x[3], x[2], x[1], x[0], 0#32] y[3]
  let s := rnds4Round imm s y[2]
  let s := rnds4Round imm s y[1]
  let s := rnds4Round imm s y[0]
  #v[s.get 3, s.get 2, s.get 1, s.get 0]

/-! ## The body of the loop -/

/-- `MSG0` to `MSG3`, `E0` and `E1`, and `ABCD`. -/
structure NiRegs where
  abcd : Xmm
  e : Fin 2 → Xmm
  msg : Fin 4 → Xmm

/-- `movdqu` from `bytes + k`, and `pshufb` with `PSHUFFLE_SHANI_MASK`, which reverses the sixteen
bytes. -/
def loadShuffled (bytes : ℕ → Byte) (k : ℕ) : Xmm :=
  Vector.ofFn fun i => bytes (k + 12 - 4 * i) ++ bytes (k + 13 - 4 * i) ++ bytes (k + 14 - 4 * i) ++
    bytes (k + 15 - 4 * i)

/-- The first four groups load their message register. -/
def loadMsg (bytes : ℕ → Byte) (msg : Fin 4 → Xmm) (k : ℕ) : Fin 4 → Xmm :=
  if k < 4 then Function.update msg (Fin.ofNat 4 k) (loadShuffled bytes (16 * k)) else msg

/-- The message instructions of group `k` prepare the words of the groups behind it. -/
def nextMsg (msg : Fin 4 → Xmm) (k : ℕ) : Fin 4 → Xmm :=
  let m := Fin.ofNat 4 k
  let msg := if 3 ≤ k ∧ k ≤ 18 then
    Function.update msg (m + 1) (sha1msg2 (msg (m + 1)) (msg m)) else msg
  let msg := if 1 ≤ k ∧ k ≤ 16 then
    Function.update msg (m - 1) (sha1msg1 (msg (m - 1)) (msg m)) else msg
  if 2 ≤ k ∧ k ≤ 17 then Function.update msg (m - 2) (pxor (msg (m - 2)) (msg m)) else msg

/-- The rounds `4 * k` to `4 * k + 3`. The first group adds its words to `E0`, the others use
`sha1nexte`; `ABCD` is kept in the other one of `E0` and `E1`. -/
def niRounds (bytes : ℕ → Byte) (r : NiRegs) (k : ℕ) : NiRegs :=
  let msg := loadMsg bytes r.msg k
  let x := msg (Fin.ofNat 4 k)
  let ek := if k = 0 then paddd (r.e 0) x else sha1nexte (r.e (Fin.ofNat 2 k)) x
  { abcd := sha1rnds4 r.abcd ek (k / 5)
    e := Function.update (Function.update r.e (Fin.ofNat 2 k) ek) (Fin.ofNat 2 (k + 1)) r.abcd
    msg := nextMsg msg k }

/-- One pass of `lloop`, from `ABCD` and `E0` and whatever the other registers hold. -/
def niBlock (bytes : ℕ → Byte) (r : NiRegs) : NiRegs :=
  let r' := (List.range 20).foldl (niRounds bytes) r
  { r' with
    abcd := paddd r'.abcd r.abcd
    e := Function.update r'.e 0 (sha1nexte (r'.e 0) (r.e 0)) }

/-! ## The instructions and the standard's functions -/

/-- `ABCD` for the working variables `s`. -/
def packAbcd (s : Sha1.Digest) : Xmm := #v[s.get 3, s.get 2, s.get 1, s.get 0]

/-- `E0` for the working variables `s`. -/
def packE (s : Sha1.Digest) : Xmm := #v[0#32, 0#32, 0#32, s.get 4]

theorem paddd_packAbcd {s H C : Sha1.Digest} (h : ∀ (i : ℕ) (hi : i < 5), C[i] = H[i] + s[i]) :
    paddd (packAbcd s) (packAbcd H) = packAbcd C := by
  have h0 := h 0 (by decide)
  have h1 := h 1 (by decide)
  have h2 := h 2 (by decide)
  have h3 := h 3 (by decide)
  change #v[s[3] + H[3], s[2] + H[2], s[1] + H[1], s[0] + H[0]] = #v[C[3], C[2], C[1], C[0]]
  rw [h0, h1, h2, h3, BitVec.add_comm H[3], BitVec.add_comm H[2], BitVec.add_comm H[1],
    BitVec.add_comm H[0]]

theorem sha1nexte_packE {s H C : Sha1.Digest} (h : C.get 4 = H.get 4 + (s.get 0).rotateLeft 30) :
    sha1nexte (packAbcd s) (packE H) = packE C := by
  change #v[0#32, 0#32, 0#32, H.get 4 + (s.get 0).rotateLeft 30] = #v[0#32, 0#32, 0#32, C.get 4]
  rw [h]

theorem rnds4Function_eq {k t : ℕ} (hk : k < 20) (hlo : 4 * k ≤ t) (hhi : t < 4 * k + 4) :
    rnds4Function (k / 5) = Sha1.roundFunction t ∧
      rnds4Constant (k / 5) = Sha1.roundConstant t := by
  unfold Sha1.roundFunction Sha1.roundConstant
  have hcases : k / 5 = 0 ∧ t < 20 ∨ k / 5 = 1 ∧ ¬ t < 20 ∧ t < 40 ∨
      k / 5 = 2 ∧ ¬ t < 20 ∧ ¬ t < 40 ∧ t < 60 ∨ k / 5 = 3 ∧ ¬ t < 20 ∧ ¬ t < 40 ∧ ¬ t < 60 := by
    omega
  rcases hcases with ⟨h, h20⟩ | ⟨h, h20, h40⟩ | ⟨h, h20, h40, h60⟩ | ⟨h, h20, h40, h60⟩
  · rw [h, if_pos h20, if_pos h20]
    exact ⟨rfl, rfl⟩
  · rw [h, if_neg h20, if_pos h40, if_neg h20, if_pos h40]
    exact ⟨rfl, rfl⟩
  · rw [h, if_neg h20, if_neg h40, if_pos h60, if_neg h20, if_neg h40, if_pos h60]
    exact ⟨rfl, rfl⟩
  · rw [h, if_neg h20, if_neg h40, if_neg h60, if_neg h20, if_neg h40, if_neg h60]
    exact ⟨rfl, rfl⟩

/-- A round of `sha1rnds4` is a round. -/
theorem rnds4Round_eq {k t : ℕ} (hk : k < 20) (hlo : 4 * k ≤ t) (hhi : t < 4 * k + 4)
    (W : List (BitVec 32)) (s : Sha1.Digest) :
    rnds4Round (k / 5) s (W.getD t 0#32) = Sha1.round W s t := by
  obtain ⟨hf, hc⟩ := rnds4Function_eq hk hlo hhi
  have hsum : rnds4Function (k / 5) s[1] s[2] s[3] + s[0].rotateLeft 5 + W.getD t 0#32 + s[4] +
      rnds4Constant (k / 5) = s[0].rotateLeft 5 + Sha1.roundFunction t s[1] s[2] s[3] + s[4] +
        Sha1.roundConstant t + W.getD t 0#32 := by
    rw [hf, hc]
    ac_rfl
  exact congrArg (fun a => #v[a, s[0], s[1].rotateLeft 30, s[2], s[3]]) hsum

/-- `E` may come with the word instead. -/
theorem rnds4Round_zero (imm : ℕ) (s : Sha1.Digest) (w : BitVec 32) :
    rnds4Round imm #v[s.get 0, s.get 1, s.get 2, s.get 3, 0#32] (w + s.get 4) =
      rnds4Round imm s w := by
  have hsum : rnds4Function imm (s.get 1) (s.get 2) (s.get 3) + (s.get 0).rotateLeft 5 +
      (w + s.get 4) + 0#32 + rnds4Constant imm = rnds4Function imm (s.get 1) (s.get 2) (s.get 3) +
        (s.get 0).rotateLeft 5 + w + s.get 4 + rnds4Constant imm := by
    rw [BitVec.add_zero, BitVec.add_assoc _ w]
  exact congrArg (fun a => #v[a, s.get 0, (s.get 1).rotateLeft 30, s.get 2, s.get 3]) hsum

/-- The words `4 * k` to `4 * k + 3` of `W` in a register. -/
def groupWords (W : ℕ → BitVec 32) (k : ℕ) : Xmm :=
  #v[W (4 * k + 3), W (4 * k + 2), W (4 * k + 1), W (4 * k)]

/-- The message instructions make the words of a group from those of the four groups before. -/
theorem groupWords_add_four {W : ℕ → BitVec 32}
    (hW : ∀ u < 64, (W u ^^^ W (u + 2) ^^^ W (u + 8) ^^^ W (u + 13)).rotateLeft 1 = W (u + 16))
    {u : ℕ} (hu : u < 16) :
    sha1msg2 (pxor (sha1msg1 (groupWords W u) (groupWords W (u + 1))) (groupWords W (u + 2)))
      (groupWords W (u + 3)) = groupWords W (u + 4) := by
  have hswap : ∀ v < 64, ((W (v + 2) ^^^ W v) ^^^ W (v + 8) ^^^ W (v + 13)).rotateLeft 1 =
      W (v + 16) := fun v hv => by
    rw [BitVec.xor_comm (W (v + 2)), hW v hv]
  have h0 := hswap (4 * u) (by omega)
  have h1 := hswap (4 * u + 1) (by omega)
  have h2 := hswap (4 * u + 2) (by omega)
  have h3 := hswap (4 * u + 3) (by omega)
  simp only [groupWords, Nat.mul_add, Nat.add_assoc] at h0 h1 h2 h3 ⊢
  refine Vector.ext fun i hi => ?_
  interval_cases i
  · rw [← h0] at h3
    exact h3
  · exact h2
  · exact h1
  · exact h0

section Block

variable (Wl : List (BitVec 32))

/-- The working variables after `t` rounds. -/
def varsAt (H : Sha1.Digest) (t : ℕ) : Sha1.Digest := (List.range t).foldl (Sha1.round Wl) H

/-- The words of group `k` as a message register holds them. -/
def msgAt (k : ℕ) : Xmm := groupWords (fun t => Wl.getD t 0#32) k

/-- `Wl` is the message schedule of the block of 64 bytes. -/
structure Schedules (bytes : ℕ → Byte) : Prop where
  input : ∀ t < 16, Wl.getD t 0#32 =
    bytes (4 * t) ++ bytes (4 * t + 1) ++ bytes (4 * t + 2) ++ bytes (4 * t + 3)
  recurrence : ∀ u < 64, (Wl.getD u 0#32 ^^^ Wl.getD (u + 2) 0#32 ^^^ Wl.getD (u + 8) 0#32 ^^^
    Wl.getD (u + 13) 0#32).rotateLeft 1 = Wl.getD (u + 16) 0#32

theorem schedules_schedule {bytes : ℕ → Byte} {block : List Byte}
    (hblock : ∀ i < 64, block.getD i 0#8 = bytes i) : Schedules (Sha1.schedule block) bytes := by
  refine ⟨fun t ht => ?_, fun u hu => ?_⟩
  · rw [Sha1.schedule_input block ht, Sha256.word, hblock _ (by omega), hblock _ (by omega),
      hblock _ (by omega), hblock _ (by omega)]
  · have hxor : ∀ a b c d : BitVec 32, a ^^^ b ^^^ c ^^^ d = d ^^^ c ^^^ b ^^^ a := by
      intro a b c d
      ac_rfl
    have hrec := Sha1.schedule_recurrence block (Nat.le_add_left 16 u) (by omega)
    rw [show u + 16 - 3 = u + 13 from rfl, show u + 16 - 8 = u + 8 from rfl,
      show u + 16 - 14 = u + 2 from rfl, Nat.add_sub_cancel] at hrec
    rw [hxor, hrec]

variable {Wl} {H : Sha1.Digest} {bytes : ℕ → Byte} {k : ℕ}

theorem varsAt_succ (t : ℕ) : varsAt Wl H (t + 1) = Sha1.round Wl (varsAt Wl H t) t := by
  rw [varsAt, List.range_succ, List.foldl_append]
  rfl

/-- `sha1rnds4` is four rounds. -/
theorem sha1rnds4_eq (hk : k < 20) {y : Xmm} (h0 : y.get 0 = Wl.getD (4 * k + 3) 0#32)
    (h1 : y.get 1 = Wl.getD (4 * k + 2) 0#32) (h2 : y.get 2 = Wl.getD (4 * k + 1) 0#32)
    (h3 : y.get 3 = Wl.getD (4 * k) 0#32 + (varsAt Wl H (4 * k)).get 4) :
    sha1rnds4 (packAbcd (varsAt Wl H (4 * k))) y (k / 5) =
      packAbcd (varsAt Wl H (4 * (k + 1))) := by
  have hround : ∀ t, 4 * k ≤ t → t < 4 * k + 4 →
      rnds4Round (k / 5) (varsAt Wl H t) (Wl.getD t 0#32) = varsAt Wl H (t + 1) :=
        fun t hlo hhi => by
    rw [rnds4Round_eq hk hlo hhi, varsAt_succ]
  have hrun : rnds4Round (k / 5) (rnds4Round (k / 5) (rnds4Round (k / 5) (rnds4Round (k / 5)
      #v[(varsAt Wl H (4 * k)).get 0, (varsAt Wl H (4 * k)).get 1, (varsAt Wl H (4 * k)).get 2,
        (varsAt Wl H (4 * k)).get 3, 0#32] (y.get 3)) (y.get 2)) (y.get 1)) (y.get 0) =
      varsAt Wl H (4 * (k + 1)) := by
    rw [h3, rnds4Round_zero, h2, h1, h0, hround (4 * k) (by omega) (by omega),
      hround (4 * k + 1) (by omega) (by omega), hround (4 * k + 2) (by omega) (by omega),
      hround (4 * k + 3) (by omega) (by omega), Nat.mul_succ]
  exact congrArg packAbcd hrun

/-- `E` is the `A` of four rounds before, rotated. -/
theorem varsAt_e (t : ℕ) : (varsAt Wl H (t + 4)).get 4 = ((varsAt Wl H t).get 0).rotateLeft 30 := by
  rw [varsAt_succ, varsAt_succ, varsAt_succ, varsAt_succ]
  rfl

theorem msgAt_succ (hW : Schedules Wl bytes) (hlo : 3 ≤ k) (hhi : k ≤ 18) :
    sha1msg2 (pxor (sha1msg1 (msgAt Wl (k - 3)) (msgAt Wl (k - 2))) (msgAt Wl (k - 1)))
      (msgAt Wl k) = msgAt Wl (k + 1) := by
  obtain ⟨u, rfl⟩ := Nat.exists_eq_add_of_le' hlo
  exact groupWords_add_four hW.recurrence (by omega)

/-- A message register loaded from the block holds the words of its group. -/
theorem loadShuffled_eq (hW : Schedules Wl bytes) (hk : k < 4) :
    loadShuffled bytes (16 * k) = msgAt Wl k := by
  refine Vector.ext fun i hi => ?_
  rw [loadShuffled, Vector.getElem_ofFn, msgAt, groupWords]
  have hword := hW.input (4 * k + 3 - i) (by omega)
  have hindex : 4 * (4 * k + 3 - i) = 16 * k + 12 - 4 * i := by omega
  rw [hindex] at hword
  interval_cases i
  · exact hword.symm
  · exact hword.symm
  · exact hword.symm
  · exact hword.symm

/-! ## Twenty groups -/

/-- What the registers hold before group `k`. A message register is loaded or complete when its
group comes, and in the three groups behind it the words that follow are prepared. -/
structure NiHolds (Wl : List (BitVec 32)) (H : Sha1.Digest) (k : ℕ) (r : NiRegs) : Prop where
  abcd : r.abcd = packAbcd (varsAt Wl H (4 * k))
  e_zero : k = 0 → r.e 0 = packE H
  e : 0 < k → r.e (Fin.ofNat 2 k) = packAbcd (varsAt Wl H (4 * (k - 1)))
  msg : 4 ≤ k → k ≤ 19 → r.msg (Fin.ofNat 4 k) = msgAt Wl k
  msg_one : 1 ≤ k → r.msg (Fin.ofNat 4 k - 1) = msgAt Wl (k - 1)
  msg_two : 2 ≤ k → k ≤ 17 →
    r.msg (Fin.ofNat 4 k - 2) = sha1msg1 (msgAt Wl (k - 2)) (msgAt Wl (k - 1))
  msg_three : 3 ≤ k → k ≤ 18 → r.msg (Fin.ofNat 4 k - 3) =
    pxor (sha1msg1 (msgAt Wl (k - 3)) (msgAt Wl (k - 2))) (msgAt Wl (k - 1))

/-- What the message instructions do to the four registers. -/
theorem nextMsg_apply (msg : Fin 4 → Xmm) (k : ℕ) :
    nextMsg msg k (Fin.ofNat 4 k) = msg (Fin.ofNat 4 k) ∧
      (3 ≤ k → k ≤ 18 → nextMsg msg k (Fin.ofNat 4 k + 1) =
        sha1msg2 (msg (Fin.ofNat 4 k + 1)) (msg (Fin.ofNat 4 k))) ∧
      (1 ≤ k → k ≤ 16 → nextMsg msg k (Fin.ofNat 4 k - 1) =
        sha1msg1 (msg (Fin.ofNat 4 k - 1)) (msg (Fin.ofNat 4 k))) ∧
      (2 ≤ k → k ≤ 17 → nextMsg msg k (Fin.ofNat 4 k - 2) =
        pxor (msg (Fin.ofNat 4 k - 2)) (msg (Fin.ofNat 4 k))) := by
  have hne : ∀ m : Fin 4, m + 1 ≠ m ∧ m - 1 ≠ m ∧ m - 2 ≠ m ∧ m + 1 ≠ m - 1 ∧ m + 1 ≠ m - 2 ∧
    m - 1 ≠ m - 2 := by decide
  obtain ⟨h1, h2, h3, h4, h5, h6⟩ := hne (Fin.ofNat 4 k)
  unfold nextMsg
  generalize Fin.ofNat 4 k = m at *
  refine ⟨?_, fun hlo hhi => ?_, fun hlo hhi => ?_, fun hlo hhi => ?_⟩
  · split <;> split <;> split <;> simp [h1.symm, h2.symm, h3.symm]
  · simp only [hlo, hhi, and_self, if_true]
    split <;> split <;> simp [h4, h5]
  · simp only [hlo, hhi, and_self, if_true]
    split <;> split <;> simp [h1.symm, h6, h4.symm]
  · simp only [hlo, hhi, and_self, if_true]
    split <;> split <;> simp [h1.symm, h2.symm, h5.symm, h6.symm]

/-- One group. -/
theorem NiHolds.niRounds {r : NiRegs} (hW : Schedules Wl bytes) (hk : k < 20)
    (h : NiHolds Wl H k r) : NiHolds Wl H (k + 1) (niRounds bytes r k) := by
  have hnext : Fin.ofNat 4 (k + 1) = Fin.ofNat 4 k + 1 := by
    rw [Fin.ext_iff, Fin.val_add]
    simp
  have hself : loadMsg bytes r.msg k (Fin.ofNat 4 k) = msgAt Wl k := by
    unfold loadMsg
    split
    · next hlt => rw [Function.update_self, loadShuffled_eq hW hlt]
    · next hge => exact h.msg (Nat.not_lt.mp hge) (Nat.le_of_lt_succ hk)
  have hother : ∀ i, i ≠ Fin.ofNat 4 k → loadMsg bytes r.msg k i = r.msg i := fun i hi => by
    unfold loadMsg
    split
    · exact Function.update_of_ne hi ..
    · rfl
  have hindex : ∀ m : Fin 4, m + 1 - 1 = m ∧ m + 1 - 2 = m - 1 ∧ m + 1 - 3 = m - 2 ∧ m + 1 = m - 3 ∧
    m - 1 ≠ m ∧ m - 2 ≠ m ∧ m - 3 ≠ m := by decide
  obtain ⟨i1, i2, i3, i4, n1, n2, n3⟩ := hindex (Fin.ofNat 4 k)
  obtain ⟨hn0, hn3, hn1, hn2⟩ := nextMsg_apply (loadMsg bytes r.msg k) k
  constructor
  case abcd =>
    change sha1rnds4 r.abcd (if k = 0 then paddd (r.e 0) _ else sha1nexte (r.e (Fin.ofNat 2 k)) _)
      _ = _
    rw [h.abcd, hself]
    split
    · next hz =>
      obtain rfl := hz
      rw [h.e_zero rfl]
      exact sha1rnds4_eq hk (BitVec.zero_add _) (BitVec.zero_add _) (BitVec.zero_add _)
        (BitVec.add_comm ..)
    · next hne =>
      rw [h.e (Nat.pos_of_ne_zero hne)]
      have hsub : 4 * k = 4 * (k - 1) + 4 := by omega
      have he : (varsAt Wl H (4 * k)).get 4 =
          ((varsAt Wl H (4 * (k - 1))).get 0).rotateLeft 30 := by
        rw [hsub]
        exact varsAt_e _
      refine sha1rnds4_eq hk rfl rfl rfl ?_
      rw [he]
      rfl
  case e_zero => exact fun hz => nomatch hz
  case e =>
    intro _
    rw [Nat.add_sub_cancel, ← h.abcd]
    exact Function.update_self ..
  case msg =>
    intro hlo hhi
    rw [hnext]
    refine (hn3 (by omega) (by omega)).trans ?_
    rw [hself, i4, hother _ n3, h.msg_three (by omega) (by omega),
      msgAt_succ hW (by omega) (by omega)]
  case msg_one =>
    intro _
    rw [hnext, i1, Nat.add_sub_cancel]
    exact hn0.trans hself
  case msg_two =>
    intro hlo hhi
    rw [hnext, i2]
    refine (hn1 (by omega) (by omega)).trans ?_
    rw [hself, hother _ n1, h.msg_one (by omega)]
    rfl
  case msg_three =>
    intro hlo hhi
    rw [hnext, i3]
    refine (hn2 (by omega) (by omega)).trans ?_
    rw [hself, hother _ n2, h.msg_two (by omega) (by omega)]
    rfl

theorem niHolds_zero {r : NiRegs} (habcd : r.abcd = packAbcd H) (he : r.e 0 = packE H) :
    NiHolds Wl H 0 r :=
  ⟨habcd, fun _ => he, nofun, nofun, nofun, nofun, nofun⟩

theorem NiHolds.foldl {r : NiRegs} (hW : Schedules Wl bytes) (h : NiHolds Wl H 0 r) (hk : k ≤ 20) :
    NiHolds Wl H k ((List.range k).foldl (Sha1Mb.niRounds bytes) r) := by
  induction k with
  | zero => exact h
  | succ k ih =>
    rw [List.range_succ, List.foldl_append]
    exact (ih (Nat.le_of_succ_le hk)).niRounds hW hk

end Block

/-- A pass of the loop is the compression function, whatever the registers besides `ABCD` and `E0`
hold. -/
theorem niBlock_eq {bytes : ℕ → Byte} {block : List Byte}
    (hblock : ∀ i < 64, block.getD i 0#8 = bytes i) {H : Sha1.Digest} {r : NiRegs}
    (habcd : r.abcd = packAbcd H) (he : r.e 0 = packE H) :
    (niBlock bytes r).abcd = packAbcd (Sha1.compress H block) ∧
      (niBlock bytes r).e 0 = packE (Sha1.compress H block) := by
  have hend := (niHolds_zero habcd he).foldl (schedules_schedule hblock) (Nat.le_refl 20)
  have hlast := hend.e (by decide)
  have hcompress : ∀ (i : ℕ) (hi : i < 5), (Sha1.compress H block)[i] =
      H[i] + (varsAt (Sha1.schedule block) H 80)[i] := fun i hi => by
    rw [Sha1.compress, Vector.getElem_zipWith]
    rfl
  constructor
  · change paddd ((List.range 20).foldl (niRounds bytes) r).abcd r.abcd = _
    rw [hend.abcd, habcd]
    exact paddd_packAbcd hcompress
  · have hsum : (Sha1.compress H block).get 4 =
        H.get 4 + (varsAt (Sha1.schedule block) H 80).get 4 :=
      hcompress 4 (by decide)
    rw [varsAt_e 76] at hsum
    have hcopy : (niBlock bytes r).e 0 =
        sha1nexte (((List.range 20).foldl (niRounds bytes) r).e (Fin.ofNat 2 20)) (r.e 0) := by
      have htwenty : Fin.ofNat 2 20 = 0 := rfl
      rw [niBlock, htwenty]
      dsimp only
      rw [Function.update_self]
    rw [hcopy, hlast, he]
    exact sha1nexte_packE hsum

end IsalCrypto.Sha1Mb
