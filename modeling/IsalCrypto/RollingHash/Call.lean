import IsalCrypto.RollingHash.Scan

/-!
# A call in closed form

`bufferHash st buffer n` is the hash that `_rolling_hash2_run` has after `n` bytes of its buffer,
whichever of its loops computed it. `Scans` says when the first loop fills the window without a
hit; then the call is `scanResult` of what the scanner returns (`rollingHash2Run_of_scans`), and
otherwise it has ended within the window (`rollingHash2Run_of_not_scans`).
-/

namespace IsalCrypto.RollingHash

open IsalCrypto.Lib

section Call

variable {st : RhState2} {buffer : ℤ → Byte}

/-- The byte that leaves the window with the byte at `i`: of the history, then of the buffer. -/
def oldByte (st : RhState2) (buffer : ℤ → Byte) (i : ℤ) : Byte :=
  if i < st.w.toNat then st.history (Fin.ofNat _ i.toNat) else buffer (i - st.w.toNat)

/-- The hash after `n` bytes of the buffer, in closed form. -/
def bufferHash (st : RhState2) (buffer : ℤ → Byte) (n : ℕ) : BitVec 64 :=
  scanHash st.table1 st.table2 buffer (oldByte st buffer) st.hash 0 n

@[simp] theorem bufferHash_zero (st : RhState2) (buffer : ℤ → Byte) :
    bufferHash st buffer 0 = st.hash :=
  scanHash_zero ..

theorem bufferHash_succ (st : RhState2) (buffer : ℤ → Byte) (n : ℕ) :
    bufferHash st buffer (n + 1) =
      rol1 (bufferHash st buffer n) ^^^
        (st.table1 (buffer n) ^^^ st.table2 (oldByte st buffer n)) := by
  rw [bufferHash, scanHash_succ, Nat.zero_add, bufferHash]

/-- Where the first loop, entered at `i`, ends. -/
def WarmUp.EndsAt (st : RhState2) (buffer : ℤ → Byte) (len : ℕ) (mask trigger : BitVec 64) (i : ℕ) :
    WarmUp → Prop
  | .short j h => j = len ∧ len < st.w.toNat ∧ h = bufferHash st buffer j
  | .hit j h => i < j ∧ j ≤ st.w.toNat ∧ j ≤ len ∧ h = bufferHash st buffer j ∧
      bufferHash st buffer j &&& mask = trigger
  | .full h => st.w.toNat ≤ len ∧ h = bufferHash st buffer st.w.toNat ∧
      ∀ q, i < q → q ≤ st.w.toNat → bufferHash st buffer q &&& mask ≠ trigger

theorem warmUp_endsAt (st : RhState2) (buffer : ℤ → Byte) {len : ℕ} (mask trigger : BitVec 64)
    (n : ℕ) :
    ∀ i, i + n = st.w.toNat → i ≤ len →
      (warmUp st buffer len mask trigger n i (bufferHash st buffer i)).EndsAt st buffer len mask
        trigger i := by
  induction n with
  | zero =>
    intro i hi hlen
    obtain rfl : i = st.w.toNat := hi
    exact ⟨hlen, rfl, fun q h1 h2 => absurd h1 (Nat.not_lt.mpr h2)⟩
  | succ n ih =>
    intro i hi hlen
    have hstep : hashFn st (bufferHash st buffer i) (buffer i) (st.history (Fin.ofNat _ i)) =
        bufferHash st buffer (i + 1) := by
      rw [bufferHash_succ, oldByte, if_pos (by omega)]
      rfl
    rw [warmUp_succ]
    split
    · next heq => exact ⟨heq, by omega, rfl⟩
    · next hne =>
      rw [hstep]
      simp only
      split
      · next hhit => exact ⟨Nat.lt_succ_self i, by omega, by omega, rfl, hhit⟩
      · next hmiss =>
        have hrec := ih (i + 1) (by omega) (by omega)
        revert hrec
        cases warmUp st buffer len mask trigger n (i + 1) (bufferHash st buffer (i + 1)) with
        | short j h => exact id
        | hit j h => exact fun ⟨h1, h2⟩ => ⟨Nat.lt_of_succ_lt h1, h2⟩
        | full h =>
          rintro ⟨h1, h2, h3⟩
          refine ⟨h1, h2, fun q h4 h5 => ?_⟩
          rcases Nat.lt_or_ge (i + 1) q with hlt | hge
          · exact h3 q hlt h5
          · obtain rfl : q = i + 1 := Nat.le_antisymm hge h4
            exact hmiss

theorem follows_bufferHash (st : RhState2) (buffer : ℤ → Byte) (len : ℕ) :
    Follows st.table1 st.table2 buffer (fun k => buffer (k - st.w.toNat)) (bufferHash st buffer)
      st.w.toNat len := by
  intro k hk _
  rw [bufferHash_succ, oldByte, if_neg (by omega)]

/-- The scan of a call: no hash of the first loop matches, so the second one runs. -/
def Scans (st : RhState2) (buffer : ℤ → Byte) (len : ℕ) (mask trigger : BitVec 64) : Prop :=
  st.w.toNat ≤ len ∧
    ∀ q, 0 < q → q ≤ st.w.toNat → bufferHash st buffer q &&& mask ≠ trigger

/-- A call whose first loop fills the window is what its scanner returns. -/
theorem rollingHash2Run_of_scans (u : RunUntil) {len mask trigger : BitVec 32}
    (hs : Scans st buffer len.toNat (mask.setWidth 64) (trigger.setWidth 64)) :
    rollingHash2Run u st buffer len mask trigger =
      scanResult st buffer (mask.setWidth 64) (trigger.setWidth 64)
        (u st.w len.toInt st.table1 st.table2 buffer (fun k => buffer (k - st.w.toNat))
          (bufferHash st buffer st.w.toNat) (mask.setWidth 64) (trigger.setWidth 64)) := by
  have hends := warmUp_endsAt st buffer (mask.setWidth 64) (trigger.setWidth 64) st.w.toNat 0
    (Nat.zero_add st.w.toNat) (Nat.zero_le len.toNat)
  rw [bufferHash_zero] at hends
  rw [rollingHash2Run_eq]
  revert hends
  cases warmUp st buffer len.toNat (mask.setWidth 64) (trigger.setWidth 64) st.w.toNat 0
      st.hash with
  | short j h => exact fun ⟨_, h2, _⟩ => absurd hs.1 (Nat.not_le.mpr h2)
  | hit j h => exact fun ⟨h1, h2, _, _, h5⟩ => absurd h5 (hs.2 j h1 h2)
  | full h =>
    rintro ⟨_, rfl, _⟩
    rfl

/-- Any other call ends within the window, without its scanner: at the end of the buffer, or at a
hit. -/
theorem rollingHash2Run_of_not_scans {len mask trigger : BitVec 32}
    (hs : ¬ Scans st buffer len.toNat (mask.setWidth 64) (trigger.setWidth 64)) :
    ∃ i ret, i ≤ st.w.toNat ∧ i ≤ len.toNat ∧ (ret = .max → i = len.toNat) ∧ ∀ u,
      rollingHash2Run u st buffer len mask trigger =
        ⟨{ st with history := shiftHistory st buffer i, hash := bufferHash st buffer i },
          BitVec.ofNat 32 i, ret⟩ := by
  have hends := warmUp_endsAt st buffer (mask.setWidth 64) (trigger.setWidth 64) st.w.toNat 0
    (Nat.zero_add st.w.toNat) (Nat.zero_le len.toNat)
  rw [bufferHash_zero] at hends
  simp only [rollingHash2Run_eq]
  revert hends
  cases warmUp st buffer len.toNat (mask.setWidth 64) (trigger.setWidth 64) st.w.toNat 0
      st.hash with
  | short j h =>
    rintro ⟨rfl, h2, rfl⟩
    exact ⟨_, .max, Nat.le_of_lt h2, Nat.le_refl _, fun _ => rfl, fun _ => rfl⟩
  | hit j h =>
    rintro ⟨_, h2, h3, rfl, _⟩
    exact ⟨_, .hit, h2, h3, FingerprintRet.noConfusion, fun _ => rfl⟩
  | full h => exact fun ⟨h1, _, h3⟩ => absurd ⟨h1, h3⟩ hs

/-- Two calls that reach their scanners are the same when the results read from these are. -/
theorem rollingHash2Run_eq_iff (u v : RunUntil) {len mask trigger : BitVec 32} :
    rollingHash2Run u st buffer len mask trigger = rollingHash2Run v st buffer len mask trigger ↔
      (Scans st buffer len.toNat (mask.setWidth 64) (trigger.setWidth 64) →
        scanResult st buffer (mask.setWidth 64) (trigger.setWidth 64)
            (u st.w len.toInt st.table1 st.table2 buffer (fun k => buffer (k - st.w.toNat))
              (bufferHash st buffer st.w.toNat) (mask.setWidth 64) (trigger.setWidth 64)) =
          scanResult st buffer (mask.setWidth 64) (trigger.setWidth 64)
            (v st.w len.toInt st.table1 st.table2 buffer (fun k => buffer (k - st.w.toNat))
              (bufferHash st buffer st.w.toNat) (mask.setWidth 64) (trigger.setWidth 64))) := by
  by_cases hs : Scans st buffer len.toNat (mask.setWidth 64) (trigger.setWidth 64)
  · rw [rollingHash2Run_of_scans u hs, rollingHash2Run_of_scans v hs]
    exact ⟨fun he _ => he, fun he => he hs⟩
  · obtain ⟨i, ret, _, _, _, hrun⟩ := rollingHash2Run_of_not_scans hs
    exact iff_of_true ((hrun u).trans (hrun v).symm) fun h => absurd h hs

/-- Results of the scanner that end a call at different offsets. -/
theorem scanResult_ne_of_offset {mask trigger : BitVec 64} {r r' : BitVec 32 × BitVec 64}
    (hmatch : r.2 &&& mask = trigger ↔ r'.2 &&& mask = trigger) (hne : r.1 ≠ r'.1) :
    scanResult st buffer mask trigger r ≠ scanResult st buffer mask trigger r' := by
  intro he
  have hoff := congrArg RunResult.offset he
  by_cases h : r.2 &&& mask = trigger
  · rw [scanResult_hit h, scanResult_hit (hmatch.mp h)] at hoff
    exact hne ((BitVec.add_left_inj _).mp hoff)
  · rw [scanResult_miss h, scanResult_miss fun h' => h (hmatch.mpr h')] at hoff
    exact hne hoff

end Call

end IsalCrypto.RollingHash
