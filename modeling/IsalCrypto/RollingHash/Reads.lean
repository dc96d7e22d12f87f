import IsalCrypto.RollingHash.Call
import IsalCrypto.RollingHash.Session
import IsalCrypto.RollingHash.Unroll

/-!
# What a call reads and where it ends

`rollingHash2RunOn` is `_rolling_hash2_run` over a buffer that is a partial function: a read of a
byte that is not there has no result. A call reads only the `max_len` bytes it was given
(`rollingHash2RunOn_eq`). Its offset is within them, and at their end when no hit is reported,
except for the calls of `RunCall.GoesWrong` (`isalRollingHash2Run_offset_iff`): `max_len` is an
`int` inside, and an empty buffer under an empty window can hit.
-/

namespace IsalCrypto.RollingHash

/-- `_rolling_hash2_run` with the base scanner, over a buffer that need not have every byte. -/
def rollingHash2RunOn (state : RhState2) (buffer : ℤ → Option Byte)
    (bufferLength mask trigger : BitVec 32) : Option RunResult :=
  rollingHash2RunM rollingHash2RunUntilBaseM state buffer bufferLength mask trigger

/-! ## Every read is of the buffer -/

section Reads

variable {st : RhState2} {buffer : ℤ → Byte} {len : ℕ} {mask trigger : BitVec 64}

theorem memcpyAtM_some {size : ℕ} (dst : Fin size → Byte) (off : ℕ) {src : ℕ → Option Byte}
    {f : ℕ → Byte} {n : ℕ} (h : ∀ k < n, src k = some (f k)) :
    memcpyAtM dst off src n = some (memcpyAt dst off f n) := by
  have hread : (List.range n).mapM src = some ((List.range n).map f) :=
    mapM_some fun k hk => h k (List.mem_range.mp hk)
  rw [memcpyAtM, hread]
  refine congrArg some (funext fun k => ?_)
  simp only [memcpyAt]
  split
  · next hk =>
    rw [List.getD_eq_getElem?_getD, List.getElem?_map, List.getElem?_range (by omega)]
    rfl
  · rfl

theorem untilLoopM_some {t1 t2 : Byte → BitVec 64} {b1 b2 : ℤ → Option Byte} {f1 f2 : ℤ → Byte}
    {hi : ℤ} (n : ℕ) :
    ∀ i h, i + n = hi → (∀ k, i ≤ k → k < hi → b1 k = some (f1 k)) →
      (∀ k, i ≤ k → k < hi → b2 k = some (f2 k)) →
      untilLoopM t1 t2 b1 b2 mask trigger n i h =
        some (untilLoop t1 t2 f1 f2 mask trigger n i h) := by
  induction n with
  | zero => exact fun i h _ _ _ => rfl
  | succ n ih =>
    intro i h hn h1 h2
    have hlt : i < hi := by omega
    rw [untilLoopM, h1 i (Int.le_refl i) hlt, h2 i (Int.le_refl i) hlt, untilLoop_succ]
    simp only [Option.bind_eq_bind, Option.bind_some]
    split
    · rfl
    · exact ih (i + 1) _ (by omega) (fun k hk => h1 k (by omega)) fun k hk => h2 k (by omega)

theorem warmUpM_some (n : ℕ) :
    ∀ i h, warmUpM st (bounded buffer 0 len) len mask trigger n i h =
        some (warmUp st buffer len mask trigger n i h) ∨ len < i := by
  induction n with
  | zero => exact fun i h => .inl rfl
  | succ n ih =>
    intro i h
    rcases Nat.lt_or_ge len i with hlt | hge
    · exact .inr hlt
    · refine .inl ?_
      rw [warmUpM, warmUp_succ]
      split
      · rfl
      · next hne =>
        rw [bounded_of_mem (by omega) (by omega)]
        simp only [Option.bind_eq_bind, Option.bind_some]
        split
        · rfl
        · exact (ih (i + 1) _).resolve_right (by omega)

theorem shiftHistoryM_some {i : ℕ} (h : i ≤ len) :
    shiftHistoryM st (bounded buffer 0 len) i = some (shiftHistory st buffer i) := by
  rw [shiftHistory_eq_memcpyAt]
  exact memcpyAtM_some _ _ fun k hk => bounded_of_mem (by omega) (by omega)

theorem rollingHash2RunUntilBaseM_some (hw : st.w.toNat ≤ fingerprintMaxWindow) {len : BitVec 32}
    (h : BitVec 64) :
    rollingHash2RunUntilBaseM st.w len.toInt st.table1 st.table2 (bounded buffer 0 len.toNat)
        (fun k => bounded buffer 0 len.toNat (k - st.w.toNat)) h mask trigger =
      some (rollingHash2RunUntilBase st.w len.toInt st.table1 st.table2 buffer
        (fun k => buffer (k - st.w.toNat)) h mask trigger) := by
  have hw48 : st.w.toNat ≤ 48 := hw
  have hint : st.w.toInt = (st.w.toNat : ℤ) := BitVec.toInt_eq_toNat_of_lt (by omega)
  have hmax : len.toInt ≤ len.toNat := by
    rw [BitVec.toInt_eq_toNat_cond]
    split <;> omega
  have hloop : ∀ cmp, untilLoopM st.table1 st.table2 (bounded buffer 0 len.toNat)
      (fun k => bounded buffer 0 len.toNat (k - st.w.toNat)) mask cmp
      (len.toInt - st.w.toNat).toNat st.w.toNat h =
      some (untilLoop st.table1 st.table2 buffer (fun k => buffer (k - st.w.toNat)) mask cmp
        (len.toInt - st.w.toNat).toNat st.w.toNat h) := fun cmp =>
    untilLoopM_some _ _ _ rfl (fun k h1 h2 => bounded_of_mem (by omega) (by omega))
      fun k h1 h2 => bounded_of_mem (by omega) (by omega)
  rw [rollingHash2RunUntilBaseM, rollingHash2RunUntilBase_eq]
  simp only [hint, hloop]
  split
  · next hzero =>
    rw [hzero]
    rfl
  · rfl

end Reads

/-! ## Where a call ends -/

/-- The call reports an offset within the buffer, and its end when there was no hit. -/
def RunCall.EndsInside (c : RunCall) (r : RunResult) : Prop :=
  r.offset.toNat ≤ c.maxLen.toNat ∧ (r.ret = .max → r.offset = c.maxLen)

/-- The calls that end elsewhere: the window fills without a hit, and the length is negative as an
`int`, unless an empty window has matched; when it has, the length is zero. -/
def RunCall.GoesWrong (st : RhState2) (c : RunCall) : Prop :=
  Scans st c.buffer c.maxLen.toNat (c.mask.setWidth 64) (c.trigger.setWidth 64) ∧
    if st.w.toNat = 0 ∧ st.hash &&& c.mask.setWidth 64 = c.trigger.setWidth 64 then
      c.maxLen.toNat = 0
    else 2 ^ 31 ≤ c.maxLen.toNat

/-- What the base scanner returns to a call. -/
inductive ScanEnds (st : RhState2) (buffer : ℤ → Byte) (len : ℕ) (mask trigger : BitVec 64) :
    BitVec 32 × BitVec 64 → Prop
  | scanned {r : ℤ × BitVec 64} : len < 2 ^ 31 →
      Stops (bufferHash st buffer) mask trigger st.w.toNat len r →
      ScanEnds st buffer len mask trigger (BitVec.ofInt 32 r.1, r.2)
  /-- A negative `max_idx`: no iteration. -/
  | negative : 2 ^ 31 ≤ len →
      ScanEnds st buffer len mask trigger (st.w, bufferHash st buffer st.w.toNat)

section Ends

variable {st : RhState2} {c : RunCall}

theorem rollingHash2RunUntilBase_ends (hw : st.w.toNat ≤ fingerprintMaxWindow) {buffer : ℤ → Byte}
    {len : BitVec 32} (mask trigger : BitVec 64) (hle : st.w.toNat ≤ len.toNat) :
    ScanEnds st buffer len.toNat mask trigger
      (rollingHash2RunUntilBase st.w len.toInt st.table1 st.table2 buffer
        (fun k => buffer (k - st.w.toNat)) (bufferHash st buffer st.w.toNat) mask trigger) := by
  have hw48 : st.w.toNat ≤ 48 := hw
  rcases Nat.lt_or_ge len.toNat (2 ^ 31) with hlt | hge
  · have hint : len.toInt = (len.toNat : ℤ) := BitVec.toInt_eq_toNat_of_lt (by omega)
    obtain ⟨r, hr, he⟩ := rollingHash2RunUntilBase_spec mask trigger hle hlt
      (follows_bufferHash st buffer len.toNat)
    rw [hint, he]
    exact .scanned hlt hr
  · have hneg : len.toInt < 0 := BitVec.toInt_neg_iff.mpr (by omega)
    have hint : st.w.toInt = (st.w.toNat : ℤ) := BitVec.toInt_eq_toNat_of_lt (by omega)
    have hcount : (len.toInt - st.w.toNat).toNat = 0 := by omega
    have hidx : BitVec.ofInt 32 (st.w.toNat : ℤ) = st.w := by
      rw [BitVec.ofInt_natCast, BitVec.ofNat_toNat, BitVec.setWidth_eq]
    rw [rollingHash2RunUntilBase_eq, hint, hcount, untilLoop_zero]
    dsimp only
    rw [hidx]
    exact .negative hge

/-- The offset and the code of a call whose scanner returned `r`. -/
theorem scanResult_ends_hit {buffer : ℤ → Byte} {mask trigger : BitVec 64}
    {r : BitVec 32 × BitVec 64} (h : r.2 &&& mask = trigger) :
    (scanResult st buffer mask trigger r).offset = r.1 + 1#32 ∧
      (scanResult st buffer mask trigger r).ret = .hit := by
  rw [scanResult_hit h]
  exact ⟨rfl, rfl⟩

theorem scanResult_ends_miss {buffer : ℤ → Byte} {mask trigger : BitVec 64}
    {r : BitVec 32 × BitVec 64} (h : ¬ r.2 &&& mask = trigger) :
    (scanResult st buffer mask trigger r).offset = r.1 ∧
      (scanResult st buffer mask trigger r).ret = .max := by
  rw [scanResult_miss h]
  exact ⟨rfl, rfl⟩

/-- In a call that scans, only an empty window matches before its first byte. -/
theorem Scans.eq_zero_of_match {buffer : ℤ → Byte} {len : ℕ} {mask trigger : BitVec 64}
    (hs : Scans st buffer len mask trigger)
    (h : bufferHash st buffer st.w.toNat &&& mask = trigger) : st.w.toNat = 0 := by
  by_contra hne
  exact hs.2 st.w.toNat (Nat.pos_of_ne_zero hne) (Nat.le_refl _) h

theorem scan_offset {buffer : ℤ → Byte} {len : BitVec 32} {mask trigger : BitVec 64}
    {r : BitVec 32 × BitVec 64} (hw : st.w.toNat ≤ fingerprintMaxWindow)
    (hs : Scans st buffer len.toNat mask trigger)
    (hr : ScanEnds st buffer len.toNat mask trigger r) :
    let R := scanResult st buffer mask trigger r
    (st.w.toNat = 0 ∨ st.w.toNat ≤ R.offset.toNat ∧ R.offset.toNat ≤ len.toNat) ∧
      (R.offset.toNat ≤ len.toNat ∧ (R.ret = .max → R.offset = len) ↔
        ¬ if st.w.toNat = 0 ∧ st.hash &&& mask = trigger then len.toNat = 0
          else 2 ^ 31 ≤ len.toNat) := by
  intro R
  have hw48 : st.w.toNat ≤ 48 := hw
  have hzero : st.w.toNat = 0 → bufferHash st buffer st.w.toNat = st.hash := fun h => by
    rw [h, bufferHash_zero]
  cases hr with
  | negative hge =>
    by_cases hhit : bufferHash st buffer st.w.toNat &&& mask = trigger
    · -- the empty window has matched: the offset is one
      have hw0 := hs.eq_zero_of_match hhit
      obtain ⟨hoff, hret⟩ : R.offset = st.w + 1#32 ∧ R.ret = .hit := scanResult_ends_hit hhit
      have hone : R.offset.toNat = 1 := by
        rw [hoff, BitVec.toNat_add, hw0]
        rfl
      rw [hone, hret, if_pos ⟨hw0, hzero hw0 ▸ hhit⟩]
      exact ⟨.inl hw0, iff_of_true ⟨by omega, FingerprintRet.noConfusion⟩ (by omega)⟩
    · obtain ⟨hoff, hret⟩ : R.offset = st.w ∧ R.ret = .max := scanResult_ends_miss hhit
      have hne : ¬ (st.w.toNat = 0 ∧ st.hash &&& mask = trigger) := fun h =>
        hhit (by rw [hzero h.1]; exact h.2)
      rw [hoff, hret, if_neg hne]
      refine ⟨.inr ⟨Nat.le_refl _, hs.1⟩, iff_of_false (fun h => ?_) (not_not.mpr hge)⟩
      have heq := congrArg BitVec.toNat (h.2 rfl)
      omega
  | scanned hlt hstop =>
    cases hstop with
    | max hall =>
      by_cases hhit : bufferHash st buffer len.toNat &&& mask = trigger
      · -- nothing was scanned, so it is the hash of an empty window
        have hw0 : st.w.toNat = 0 ∧ len.toNat = 0 := by
          have hge : len.toNat ≤ st.w.toNat := by
            by_contra hlt
            exact hall len.toNat (by omega) (Nat.le_refl _) hhit
          have heq : st.w.toNat = len.toNat := Nat.le_antisymm hs.1 hge
          have hw0 := hs.eq_zero_of_match (heq ▸ hhit)
          exact ⟨hw0, heq ▸ hw0⟩
        obtain ⟨hoff, hret⟩ : R.offset = BitVec.ofInt 32 (len.toNat : ℤ) + 1#32 ∧ R.ret = .hit :=
          scanResult_ends_hit hhit
        have hone : R.offset.toNat = 1 := by
          rw [hoff, hw0.2]
          rfl
        have hmatch : st.hash &&& mask = trigger := by
          rwa [hw0.2, bufferHash_zero] at hhit
        rw [hone, if_pos ⟨hw0.1, hmatch⟩]
        exact ⟨.inl hw0.1, iff_of_false (fun h => absurd h.1 (by omega)) (not_not.mpr hw0.2)⟩
      · obtain ⟨hoff, hret⟩ : R.offset = BitVec.ofInt 32 (len.toNat : ℤ) ∧ R.ret = .max :=
          scanResult_ends_miss hhit
        have hlen : R.offset = len := by
          rw [hoff, BitVec.ofInt_natCast, BitVec.ofNat_toNat, BitVec.setWidth_eq]
        rw [hlen]
        refine ⟨.inr ⟨hs.1, Nat.le_refl _⟩, iff_of_true ⟨Nat.le_refl _, fun _ => rfl⟩ ?_⟩
        split
        · next h => exact fun h0 => hhit (by rw [h0, bufferHash_zero]; exact h.2)
        · exact Nat.not_le.mpr hlt
    | hit j h1 h2 h3 _ =>
      obtain ⟨hoff, hret⟩ : R.offset = BitVec.ofInt 32 ((j : ℤ) - 1) + 1#32 ∧ R.ret = .hit :=
        scanResult_ends_hit h3
      have hj : R.offset.toNat = j := by
        rw [hoff, BitVec.toNat_add, BitVec.toNat_ofInt, BitVec.toNat_ofNat]
        omega
      rw [hj, hret]
      refine ⟨.inr ⟨Nat.le_of_lt h1, h2⟩, iff_of_true ⟨h2, FingerprintRet.noConfusion⟩ ?_⟩
      split
      · omega
      · omega

/-- When a call ends inside its buffer. -/
theorem rollingHash2Run_endsInside_iff (hw : st.w.toNat ≤ fingerprintMaxWindow) (c : RunCall) :
    c.EndsInside (rollingHash2Run rollingHash2RunUntilBase st c.buffer c.maxLen c.mask c.trigger) ↔
      ¬ c.GoesWrong st := by
  by_cases hs : Scans st c.buffer c.maxLen.toNat (c.mask.setWidth 64) (c.trigger.setWidth 64)
  · have hoff := (scan_offset hw hs (rollingHash2RunUntilBase_ends hw _ _ hs.1)).2
    rw [RunCall.EndsInside, rollingHash2Run_of_scans _ hs, hoff, RunCall.GoesWrong]
    exact not_congr (and_iff_right hs).symm
  · obtain ⟨i, ret, _, h2, h3, hrun⟩ := rollingHash2Run_of_not_scans hs
    have hi : (BitVec.ofNat 32 i).toNat = i := by
      rw [BitVec.toNat_ofNat]
      omega
    rw [RunCall.EndsInside, hrun]
    refine iff_of_true ⟨?_, fun hret => ?_⟩ fun h => hs h.1
    · rw [hi]
      exact h2
    · exact BitVec.eq_of_toNat_eq (hi.trans (h3 hret))

end Ends

/-- What follows the scanner reads the last `w` bytes before the offset. -/
theorem scanResultM_some {st : RhState2} {buffer : ℤ → Byte} {len : ℕ} {mask trigger : BitVec 64}
    {r : BitVec 32 × BitVec 64}
    (hoff : st.w.toNat = 0 ∨ st.w.toNat ≤ (scanResult st buffer mask trigger r).offset.toNat ∧
      (scanResult st buffer mask trigger r).offset.toNat ≤ len) :
    scanResultM st (bounded buffer 0 len) mask trigger r =
      some (scanResult st buffer mask trigger r) := by
  have hcopy : ∀ i : BitVec 32, st.w.toNat = 0 ∨ st.w.toNat ≤ i.toNat ∧ i.toNat ≤ len →
      memcpyAtM st.history 0 (fun k => bounded buffer 0 len ((i.toNat : ℤ) - st.w.toNat + k))
          st.w.toNat =
        some (memcpyAt st.history 0 (fun k => buffer ((i.toNat : ℤ) - st.w.toNat + k))
          st.w.toNat) :=
    fun i hi => memcpyAtM_some _ _ fun k hk => bounded_of_mem (by omega) (by omega)
  unfold scanResultM
  by_cases hhit : r.2 &&& mask = trigger
  · rw [scanResult_hit hhit] at hoff ⊢
    dsimp only at hoff ⊢
    rw [if_pos hhit, hcopy _ hoff]
    rfl
  · rw [scanResult_miss hhit] at hoff ⊢
    dsimp only at hoff ⊢
    rw [if_neg hhit, hcopy _ hoff]
    rfl

/-- A call over the bytes it was given: it reads no other one, and it is the call over any memory
that holds them. -/
theorem rollingHash2RunOn_eq (st : RhState2) (hw : st.w.toNat ≤ fingerprintMaxWindow)
    (buffer : ℤ → Byte) (len mask trigger : BitVec 32) :
    rollingHash2RunOn st (bounded buffer 0 len.toNat) len mask trigger =
      some (rollingHash2Run rollingHash2RunUntilBase st buffer len mask trigger) := by
  have hends := warmUp_endsAt st buffer (mask.setWidth 64) (trigger.setWidth 64) st.w.toNat 0
    (Nat.zero_add st.w.toNat) (Nat.zero_le len.toNat)
  have hwarm : warmUpM st (bounded buffer 0 len.toNat) len.toNat (mask.setWidth 64)
      (trigger.setWidth 64) st.w.toNat 0 st.hash =
      some (warmUp st buffer len.toNat (mask.setWidth 64) (trigger.setWidth 64) st.w.toNat 0
        st.hash) := (warmUpM_some _ 0 _).resolve_right (Nat.not_lt_zero _)
  rw [bufferHash_zero] at hends
  rw [rollingHash2RunOn, rollingHash2RunM, hwarm, rollingHash2Run_eq]
  revert hends
  cases warmUp st buffer len.toNat (mask.setWidth 64) (trigger.setWidth 64) st.w.toNat 0
      st.hash with
  | short i h =>
    rintro ⟨h1, _, _⟩
    simp only [Option.bind_eq_bind, Option.bind_some, shiftHistoryM_some (Nat.le_of_eq h1),
      Option.pure_def]
  | hit i h =>
    rintro ⟨_, _, h3, _, _⟩
    simp only [Option.bind_eq_bind, Option.bind_some, shiftHistoryM_some h3, Option.pure_def]
  | full h =>
    rintro ⟨h1, rfl, h3⟩
    have hs : Scans st buffer len.toNat (mask.setWidth 64) (trigger.setWidth 64) := ⟨h1, h3⟩
    have hoff := (scan_offset hw hs (rollingHash2RunUntilBase_ends hw _ _ h1)).1
    simp only [Option.bind_eq_bind, Option.bind_some, rollingHash2RunUntilBaseM_some hw]
    exact scanResultM_some hoff

/-! ## Runs -/

/-- A call on an initialised state. -/
inductive RhOp
  | reset (initBytes : ℕ → Byte)
  | run (c : RunCall)

/-- `isal_rolling_hash2_run` for a call. -/
def RunCall.apply (c : RunCall) (b : Build) (st : RhState2) : IsalCryptoError × Option RunResult :=
  isalRollingHash2Run b rollingHash2RunUntilBase (some st) (some c.buffer) c.maxLen c.mask c.trigger
    true true

/-- The state after a sequence of successful calls. -/
def runOps (b : Build) : RhState2 → List RhOp → Option RhState2
  | st, [] => some st
  | st, .reset initBytes :: ops =>
    match isalRollingHash2Reset b (some st) (some initBytes) with
    | (.errNone, some s) => runOps b s ops
    | _ => none
  | st, .run c :: ops =>
    match c.apply b st with
    | (.errNone, some r) => runOps b r.state ops
    | _ => none

theorem scanResult_w (st : RhState2) (buffer : ℤ → Byte) (mask trigger : BitVec 64)
    (r : BitVec 32 × BitVec 64) : (scanResult st buffer mask trigger r).state.w = st.w := by
  by_cases hhit : r.2 &&& mask = trigger
  · rw [scanResult_hit hhit]
  · rw [scanResult_miss hhit]

theorem rollingHash2Run_w (u : RunUntil) (st : RhState2) (buffer : ℤ → Byte)
    (len mask trigger : BitVec 32) :
    (rollingHash2Run u st buffer len mask trigger).state.w = st.w := by
  rw [rollingHash2Run_eq]
  split
  · rfl
  · rfl
  · exact scanResult_w ..

/-- Every sequence of calls succeeds, and none changes the window. -/
theorem runOps_spec {b : Build} (hb : b.fipsMode = false) (ops : List RhOp) :
    ∀ st, ∃ s, runOps b st ops = some s ∧ s.w = st.w := by
  induction ops with
  | nil => exact fun st => ⟨st, rfl, rfl⟩
  | cons op ops ih =>
    intro st
    cases op with
    | reset initBytes =>
      obtain ⟨s, hs, hw⟩ := ih (rollingHash2Reset st initBytes)
      refine ⟨s, ?_, hw⟩
      rw [runOps]
      simp [isalRollingHash2Reset, hb, hs]
    | run c =>
      obtain ⟨s, hs, hw⟩ := ih
        (rollingHash2Run rollingHash2RunUntilBase st c.buffer c.maxLen c.mask c.trigger).state
      refine ⟨s, ?_, hw.trans (rollingHash2Run_w ..)⟩
      rw [runOps, RunCall.apply, isalRollingHash2Run_ok hb]
      exact hs

/-- In every state that resets and runs reach from an accepted window, a call reads only the bytes
of its buffer, and it ends inside them exactly when it is not one of `RunCall.GoesWrong`. -/
theorem isalRollingHash2Run_offset_iff (b : Build) (st0 st : RhState2) (w : BitVec 32)
    (hinit : isalRollingHash2Init b (some st0) w = (.errNone, some st)) (ops : List RhOp) :
    ∃ s, runOps b st ops = some s ∧ ∀ c : RunCall, ∃ r, c.apply b s = (.errNone, some r) ∧
      rollingHash2RunOn s (bounded c.buffer 0 c.maxLen.toNat) c.maxLen c.mask c.trigger = some r ∧
      (c.EndsInside r ↔ ¬ c.GoesWrong s) := by
  rw [isalRollingHash2Init] at hinit
  split at hinit
  · cases hinit
  · next hfips =>
    have hb : b.fipsMode = false := Bool.eq_false_iff.mpr hfips
    have hw : st.w.toNat ≤ fingerprintMaxWindow := by
      simp only [rollingHash2Init] at hinit
      split at hinit
      · cases hinit
      · next heq =>
        split at heq
        · cases heq
        · next hle =>
          cases heq
          cases hinit
          exact Nat.le_of_not_gt hle
    obtain ⟨s, hs, hsw⟩ := runOps_spec hb ops st
    rw [← hsw] at hw
    refine ⟨s, hs, fun c => ⟨_, isalRollingHash2Run_ok hb .., rollingHash2RunOn_eq s hw .., ?_⟩⟩
    exact rollingHash2Run_endsInside_iff hw c

/-- A window of two bytes, reset, moved by one run and reset again. -/
theorem isalRollingHash2Run_offset_iff_two_resets :
    ∃ s, runOps ⟨true, false⟩ { RhState2.zero with
          table1 := rollingHash2Table1
          table2 := fun i => (rollingHash2Table1 i <<< 2) ||| (rollingHash2Table1 i >>> 62)
          w := 2#32 }
        [.reset fun _ => 1#8, .run ⟨fun _ => 7#8, 1#32, 0xff#32, 0#32⟩, .reset fun _ => 2#8] =
          some s ∧
      ∀ c : RunCall, ∃ r, c.apply ⟨true, false⟩ s = (.errNone, some r) ∧
        rollingHash2RunOn s (bounded c.buffer 0 c.maxLen.toNat) c.maxLen c.mask c.trigger = some r ∧
        (c.EndsInside r ↔ ¬ c.GoesWrong s) :=
  isalRollingHash2Run_offset_iff ⟨true, false⟩ .zero _ 2#32 rfl
    [.reset fun _ => 1#8, .run ⟨fun _ => 7#8, 1#32, 0xff#32, 0#32⟩, .reset fun _ => 2#8]

/-- A buffer of 2^31 bytes, a window of two and no match: the call ends after two bytes and reports
that there was no hit. -/
theorem isalRollingHash2Run_two_gib :
    ∃ st s r, isalRollingHash2Init ⟨true, false⟩ (some .zero) 2#32 = (.errNone, some st) ∧
      runOps ⟨true, false⟩ st [.reset fun _ => 1#8] = some s ∧
      RunCall.apply ⟨fun _ => 0#8, 0x80000000#32, 0#32, 1#32⟩ ⟨true, false⟩ s =
        (.errNone, some r) ∧
      r.ret = .max ∧ r.offset = 2#32 := by
  refine ⟨_, _, _, rfl, rfl, rfl, ?_, ?_⟩ <;> decide +kernel

end IsalCrypto.RollingHash
