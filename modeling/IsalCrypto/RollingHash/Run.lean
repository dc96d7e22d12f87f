import IsalCrypto.RollingHash.Scan

/-!
# Runs of the rolling hash

`Tracks st x t w`: the state has hashed the window of `w` bytes of the stream `x` that starts at
position `t`. Initialising and resetting establish it, and one call of `_rolling_hash2_run` moves
the window by the offset it reports: that of the first hit, or the end of the buffer
(`rollingHash2Run_spec`).
-/

namespace IsalCrypto.RollingHash

open IsalCrypto.Lib

/-- The closed-form hash of the `w` bytes of `x` from position `t` on. -/
def windowHash (x : ℕ → Byte) (t w : ℕ) : BitVec 64 :=
  rotXor rollingHash2Table1 (window x t w)

theorem windowHash_succ (x : ℕ → Byte) (t : ℕ) {w : ℕ} (hw : 0 < w) :
    windowHash x (t + 1) w =
      rol1 (windowHash x t w) ^^^
        (rollingHash2Table1 (x (t + w)) ^^^ (rollingHash2Table1 (x t)).rotateLeft w) := by
  obtain ⟨v, rfl⟩ : ∃ v, w = v + 1 := ⟨w - 1, by omega⟩
  rw [windowHash, rotXor_window_succ, rol1_eq_rotateLeft]
  rfl

/-- `st` has hashed, and holds in its history, the `w` bytes of `x` from position `t` on. -/
structure Tracks (st : RhState2) (x : ℕ → Byte) (t w : ℕ) : Prop where
  w_eq : st.w.toNat = w
  w_pos : 0 < w
  w_le : w ≤ fingerprintMaxWindow
  table1 : st.table1 = rollingHash2Table1
  table2 : ∀ b, st.table2 b = (rollingHash2Table1 b).rotateLeft w
  hash : st.hash = windowHash x t w
  history : ∀ k : Fin fingerprintMaxWindow, (k : ℕ) < w → st.history k = x (t + k)

/-! ## Initialising and resetting -/

theorem shift_or_eq_rotateLeft (v : BitVec 64) {w : ℕ} (hw : w < 64) :
    (v <<< w) ||| (v >>> (64 - w)) = v.rotateLeft w := by
  rw [BitVec.rotateLeft_def, Nat.mod_eq_of_lt hw]

theorem resetLoop_spec (initBytes : ℕ → Byte) (n : ℕ) :
    ∀ i, resetLoop rollingHash2Table1 initBytes n i (windowHash initBytes 0 i) =
      windowHash initBytes 0 (i + n) := by
  induction n with
  | zero => intro i; rfl
  | succ n ih =>
    intro i
    have hstep : rol1 (windowHash initBytes 0 i) ^^^ rollingHash2Table1 (initBytes i) =
        windowHash initBytes 0 (i + 1) := by
      rw [windowHash, windowHash, window_succ_right, rotXor_concat, rol1_eq_rotateLeft,
        Nat.zero_add]
    rw [resetLoop, hstep, ih (i + 1)]
    congr 1
    omega

/-- After `_rolling_hash2_init` with a window the API accepts and `_rolling_hash2_reset`, the
state tracks the reset bytes. -/
theorem tracks_reset {st st' : RhState2} {w : BitVec 32} {initBytes x : ℕ → Byte}
    (hw : 0 < w.toNat) (hinit : rollingHash2Init st w = some st')
    (hx : ∀ k, k < w.toNat → x k = initBytes k) :
    Tracks (rollingHash2Reset st' initBytes) x 0 w.toNat := by
  unfold rollingHash2Init at hinit
  split at hinit
  · cases hinit
  · next hle =>
    obtain rfl := Option.some.inj hinit
    have hle' : w.toNat ≤ 48 := Nat.le_of_not_gt hle
    refine ⟨rfl, hw, hle', rfl, fun b => shift_or_eq_rotateLeft _ (by omega), ?_, ?_⟩
    · have hloop := resetLoop_spec initBytes w.toNat 0
      rw [Nat.zero_add] at hloop
      change resetLoop rollingHash2Table1 initBytes w.toNat 0 0#64 = _
      rw [show (0#64 : BitVec 64) = windowHash initBytes 0 0 from rfl, hloop]
      exact congrArg (rotXor rollingHash2Table1) (window_congr fun k _ hk => (hx k (by omega)).symm)
    · intro k hk
      change memcpyAt st.history 0 initBytes w.toNat k = _
      rw [memcpyAt, if_pos ⟨Nat.zero_le _, by omega⟩, Nat.sub_zero, Nat.zero_add, hx k hk]

/-! ## One call -/

section Call

variable {st : RhState2} {x : ℕ → Byte} {t w : ℕ} {buffer : ℤ → Byte} {len : ℕ}
  {mask trigger : BitVec 64}

/-- The hash of the window ending at position `p` of the stream (counted from the end of the first
window) matches. -/
def HitAt (x : ℕ → Byte) (w : ℕ) (mask trigger : BitVec 64) (p : ℕ) : Prop :=
  windowHash x p w &&& mask = trigger

instance (x : ℕ → Byte) (w : ℕ) (mask trigger : BitVec 64) (p : ℕ) :
    Decidable (HitAt x w mask trigger p) :=
  inferInstanceAs (Decidable (_ = _))

theorem Tracks.hashFn_eq (tr : Tracks st x t w) (i : ℕ) :
    hashFn st (windowHash x (t + i) w) (x (t + w + i)) (x (t + i)) =
      windowHash x (t + i + 1) w := by
  rw [hashFn, tr.table1, tr.table2, windowHash_succ x (t + i) tr.w_pos,
    show t + w + i = t + i + w by omega]

/-- What the first loop of `_rolling_hash2_run` has done when it ends. -/
def WarmUp.Ends (x : ℕ → Byte) (t w len : ℕ) (mask trigger : BitVec 64) (i : ℕ) : WarmUp → Prop
  | .short j h => j = len ∧ len < w ∧ h = windowHash x (t + j) w ∧
      ∀ q, i < q → q ≤ j → ¬ HitAt x w mask trigger (t + q)
  | .hit j h => i < j ∧ j ≤ w ∧ j ≤ len ∧ h = windowHash x (t + j) w ∧
      HitAt x w mask trigger (t + j) ∧ ∀ q, i < q → q < j → ¬ HitAt x w mask trigger (t + q)
  | .full h => w ≤ len ∧ h = windowHash x (t + w) w ∧
      ∀ q, i < q → q ≤ w → ¬ HitAt x w mask trigger (t + q)

theorem warmUp_spec (mask trigger : BitVec 64) (tr : Tracks st x t w)
    (hbuf : ∀ i : ℕ, i < len → buffer i = x (t + w + i)) (n : ℕ) :
    ∀ i, i + n = w → i ≤ len →
      (warmUp st buffer len mask trigger n i (windowHash x (t + i) w)).Ends x t w len mask trigger
        i := by
  induction n with
  | zero =>
    intro i hi hlen
    obtain rfl : i = w := by omega
    exact ⟨hlen, rfl, fun q h1 h2 => by omega⟩
  | succ n ih =>
    intro i hi hlen
    rw [warmUp_succ]
    split
    · next heq =>
      exact ⟨heq, by omega, rfl, fun q h1 h2 => by omega⟩
    · next hne =>
      have hlt : i < 48 := Nat.lt_of_lt_of_le (by omega) tr.w_le
      have hold : st.history (Fin.ofNat fingerprintMaxWindow i) = x (t + i) := by
        have hval : ((Fin.ofNat fingerprintMaxWindow i : Fin _) : ℕ) = i := Nat.mod_eq_of_lt hlt
        rw [tr.history _ (by omega), hval]
      simp only [hbuf i (by omega), hold, tr.hashFn_eq]
      split
      · next hit => exact ⟨by omega, by omega, by omega, rfl, hit, fun q h1 h2 => by omega⟩
      · next miss =>
        have hrec := ih (i + 1) (by omega) (by omega)
        have hext : ∀ q, i < q → (i + 1 < q → ¬ HitAt x w mask trigger (t + q)) →
            ¬ HitAt x w mask trigger (t + q) := by
          intro q hq hrest
          rcases Nat.lt_or_ge (i + 1) q with h | h
          · exact hrest h
          · obtain rfl : q = i + 1 := by omega
            exact miss
        revert hrec
        rw [← Nat.add_assoc t i 1]
        cases warmUp st buffer len mask trigger n (i + 1) (windowHash x (t + i + 1) w) with
        | short j h =>
          exact fun ⟨h1, h2, h3, h4⟩ => ⟨h1, h2, h3, fun q h5 h6 => hext q h5 fun h => h4 q h h6⟩
        | hit j h =>
          exact fun ⟨h1, h2, h3, h4, h5, h6⟩ =>
            ⟨by omega, h2, h3, h4, h5, fun q h7 h8 => hext q h7 fun h => h6 q h h8⟩
        | full h =>
          exact fun ⟨h1, h2, h3⟩ => ⟨h1, h2, fun q h4 h5 => hext q h4 fun h => h3 q h h5⟩

/-- The window after `i ≤ w` bytes: the newest `w - i` bytes of the old one, then the buffer's. -/
theorem Tracks.shiftHistory_eq (tr : Tracks st x t w)
    (hbuf : ∀ i : ℕ, i < len → buffer i = x (t + w + i)) {i : ℕ} (hiw : i ≤ w) (hil : i ≤ len)
    (k : Fin fingerprintMaxWindow) (hk : (k : ℕ) < w) :
    shiftHistory st buffer i k = x (t + i + k) := by
  have hw := tr.w_le
  simp only [shiftHistory_eq_memcpyAt, tr.w_eq, memcpyAt, memmoveDown]
  split
  · next h =>
    rw [hbuf (k - (w - i)) (by omega)]
    congr 1
    omega
  · next h =>
    rw [dif_pos ⟨by omega, by omega⟩, tr.history _ (by simp only; omega)]
    congr 1
    simp only
    omega

/-- The window after `i ≥ w` bytes lies in the buffer. -/
theorem copiedHistory_eq {hist : Fin fingerprintMaxWindow → Byte}
    (hbuf : ∀ i : ℕ, i < len → buffer i = x (t + w + i)) {i : ℕ} (hwi : w ≤ i) (hil : i ≤ len)
    (k : Fin fingerprintMaxWindow) (hk : (k : ℕ) < w) :
    memcpyAt hist 0 (fun k => buffer ((i : ℤ) - w + k)) w k = x (t + i + k) := by
  rw [memcpyAt, if_pos ⟨Nat.zero_le _, by omega⟩]
  rw [show (i : ℤ) - w + ((k - 0 : ℕ) : ℤ) = ((i - w + k : ℕ) : ℤ) by omega, hbuf _ (by omega)]
  congr 1
  omega

/-- Moving the window by `j` bytes. -/
theorem Tracks.advance (tr : Tracks st x t w) {j : ℕ} {hist : Fin fingerprintMaxWindow → Byte}
    {h : BitVec 64} (hh : h = windowHash x (t + j) w)
    (hhist : ∀ k : Fin fingerprintMaxWindow, (k : ℕ) < w → hist k = x (t + j + k)) :
    Tracks { st with history := hist, hash := h } x (t + j) w :=
  ⟨tr.w_eq, tr.w_pos, tr.w_le, tr.table1, tr.table2, hh, hhist⟩

/-- How a call ends that consumed `j` bytes. -/
inductive RunEnds (x : ℕ → Byte) (t w len : ℕ) (mask trigger : BitVec 64) (j : ℕ) :
    FingerprintRet → Prop
  | hit : 0 < j → j ≤ len → HitAt x w mask trigger (t + j) →
      (∀ q, 0 < q → q < j → ¬ HitAt x w mask trigger (t + q)) →
      RunEnds x t w len mask trigger j .hit
  | max : j = len → (∀ q, 0 < q → q ≤ j → ¬ HitAt x w mask trigger (t + q)) →
      RunEnds x t w len mask trigger j .max

theorem RunEnds.le {j : ℕ} {ret : FingerprintRet} (h : RunEnds x t w len mask trigger j ret) :
    j ≤ len := by
  cases h with
  | hit _ h => exact h
  | max h => exact h.le

/-- The scanner's recurrence, for a buffer that continues the tracked window. -/
theorem Tracks.follows (tr : Tracks st x t w)
    (hbuf : ∀ i : ℕ, i < len → buffer i = x (t + w + i)) :
    Follows st.table1 st.table2 buffer (fun k => buffer (k - w)) (fun k => windowHash x (t + k) w)
      w len := by
  intro k h1 h2
  simp only
  rw [show (k : ℤ) - w = ((k - w : ℕ) : ℤ) by omega, hbuf k h2, hbuf (k - w) (by omega),
    show t + w + (k - w) = t + k by omega]
  exact (tr.hashFn_eq k).symm

/-- One call of `_rolling_hash2_run` with the base scanner: it reports the first matching position
of the buffer or its end, and leaves the window that ends there. -/
theorem rollingHash2Run_spec {bufferLength : BitVec 32} (mask trigger : BitVec 32)
    (tr : Tracks st x t w) (hlen : bufferLength.toNat < 2 ^ 31)
    (hbuf : ∀ i : ℕ, i < bufferLength.toNat → buffer i = x (t + w + i)) :
    let r := rollingHash2Run rollingHash2RunUntilBase st buffer bufferLength mask trigger
    RunEnds x t w bufferLength.toNat (mask.setWidth 64) (trigger.setWidth 64) r.offset.toNat r.ret ∧
      Tracks r.state x (t + r.offset.toNat) w := by
  intro r
  have hw := tr.w_le
  have hwarm := warmUp_spec (mask.setWidth 64) (trigger.setWidth 64) tr hbuf w 0
    (Nat.zero_add w) (Nat.zero_le _)
  rw [Nat.add_zero, ← tr.hash] at hwarm
  simp only [r, rollingHash2Run_eq, tr.w_eq]
  revert hwarm
  cases hres : warmUp st buffer bufferLength.toNat (mask.setWidth 64) (trigger.setWidth 64) w 0
      st.hash with
  | short i h =>
    rintro ⟨h1, h2, h3, h4⟩
    have hoff : (BitVec.ofNat 32 i).toNat = i := by rw [BitVec.toNat_ofNat]; omega
    simp only [hoff]
    exact ⟨.max h1 fun q h5 h6 => h4 q h5 h6,
      tr.advance h3 (tr.shiftHistory_eq hbuf (by omega) (by omega))⟩
  | hit i h =>
    rintro ⟨h1, h2, h3, h4, h5, h6⟩
    have hoff : (BitVec.ofNat 32 i).toNat = i := by rw [BitVec.toNat_ofNat]; omega
    simp only [hoff]
    exact ⟨.hit h1 h3 h5 h6, tr.advance h4 (tr.shiftHistory_eq hbuf h2 h3)⟩
  | full h =>
    rintro ⟨h1, rfl, h3⟩
    have hmax : bufferLength.toInt = (bufferLength.toNat : ℤ) :=
      BitVec.toInt_eq_toNat_of_lt (by omega)
    have hf := tr.follows hbuf
    rw [← tr.w_eq] at hf
    obtain ⟨s, hs, he⟩ := rollingHash2RunUntilBase_spec (mask.setWidth 64)
      (trigger.setWidth 64) (by rw [tr.w_eq]; exact h1) hlen hf
    rw [tr.w_eq] at hs he
    simp only [hmax, he]
    cases hs with
    | max hall =>
      -- the last hash was tested by whichever loop computed it
      have hmiss : ¬ windowHash x (t + bufferLength.toNat) w &&& mask.setWidth 64 =
          trigger.setWidth 64 := by
        rcases Nat.lt_or_ge w bufferLength.toNat with hlt | hge
        · exact hall _ hlt (Nat.le_refl _)
        · exact h3 _ (by have := tr.w_pos; omega) hge
      have hoff : (BitVec.ofInt 32 (bufferLength.toNat : ℤ)).toNat = bufferLength.toNat := by
        rw [BitVec.toNat_ofInt]
        omega
      rw [scanResult_miss (r := (_, windowHash x (t + _) w)) hmiss]
      simp only [hoff, tr.w_eq]
      refine ⟨.max rfl fun q h5 h6 => ?_, tr.advance rfl (copiedHistory_eq hbuf h1 (Nat.le_refl _))⟩
      rcases Nat.lt_or_ge w q with hlt | hge
      · exact hall q hlt h6
      · exact h3 q h5 hge
    | hit j h5 h6 h7 h8 =>
      have hoff : (BitVec.ofInt 32 ((j : ℤ) - 1) + 1#32).toNat = j := by
        rw [BitVec.toNat_add, BitVec.toNat_ofInt]
        simp only [BitVec.toNat_ofNat]
        omega
      have hhit : windowHash x (t + j) w &&& mask.setWidth 64 = trigger.setWidth 64 := h7
      rw [scanResult_hit (r := (_, windowHash x (t + j) w)) hhit]
      simp only [hoff, tr.w_eq]
      refine ⟨.hit (by omega) h6 h7 fun q h9 h10 => ?_,
        tr.advance rfl (copiedHistory_eq hbuf (by omega) h6)⟩
      rcases Nat.lt_or_ge w q with hlt | hge
      · exact h8 q hlt h10
      · exact h3 q h9 hge

end Call

end IsalCrypto.RollingHash
