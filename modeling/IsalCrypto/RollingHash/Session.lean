import IsalCrypto.RollingHash.Run

/-!
# Sessions of the rolling hash

A session is `isal_rolling_hash2_init`, `isal_rolling_hash2_reset` and then any number of
`isal_rolling_hash2_run` calls, all with the base scanner.

* `session_state`: after any calls the hash and the history are those of the last `w` bytes of the
  reset bytes followed by the bytes consumed.
* `session_hits`: however a stream is cut into calls, each call goes on to its first hit or to the
  end of its buffer, and the reported hits are the positions whose last `w` bytes hash to a match,
  each reported once.
-/

namespace IsalCrypto.RollingHash

open IsalCrypto.Lib

/-- One `isal_rolling_hash2_run` call. -/
structure RunCall where
  buffer : ℤ → Byte
  maxLen : BitVec 32
  mask : BitVec 32
  trigger : BitVec 32

/-- `isal_rolling_hash2_init` and `isal_rolling_hash2_reset`, both successful. -/
def startSession (b : Build) (st : RhState2) (w : BitVec 32) (initBytes : ℕ → Byte) :
    Option RhState2 :=
  match isalRollingHash2Init b (some st) w with
  | (.errNone, some s) =>
    match isalRollingHash2Reset b (some s) (some initBytes) with
    | (.errNone, some s') => some s'
    | _ => none
  | _ => none

/-- The bytes a call consumed: those of its buffer before the reported offset. -/
def RunCall.consumed (c : RunCall) (r : RunResult) : List Byte :=
  (List.range r.offset.toNat).map fun i : ℕ => c.buffer (i : ℤ)

/-- A sequence of successful calls: the last state and all the bytes consumed. -/
def runCalls (b : Build) : RhState2 → List RunCall → Option (RhState2 × List Byte)
  | st, [] => some (st, [])
  | st, c :: cs =>
    match isalRollingHash2Run b rollingHash2RunUntilBase (some st) (some c.buffer) c.maxLen c.mask
        c.trigger true true with
    | (.errNone, some r) =>
      (runCalls b r.state cs).map fun p => (p.1, c.consumed r ++ p.2)
    | _ => none

/-- The last `w` bytes of `l`. -/
def lastBytes (w : ℕ) (l : List Byte) : List Byte := l.drop (l.length - w)

/-- The first `w` bytes of a state's history, oldest first. -/
def RhState2.historyBytes (st : RhState2) (w : ℕ) : List Byte :=
  (List.range w).map fun k => st.history (Fin.ofNat fingerprintMaxWindow k)

/-! ## Streams that begin with a list -/

/-- The bytes of `l`, then those of `rest`. -/
def streamOf (l : List Byte) (rest : ℕ → Byte) (k : ℕ) : Byte :=
  if h : k < l.length then l[k] else rest (k - l.length)

theorem streamOf_lt {l : List Byte} {rest : ℕ → Byte} {k : ℕ} (h : k < l.length) :
    streamOf l rest k = l[k] :=
  dif_pos h

theorem streamOf_add (l : List Byte) (rest : ℕ → Byte) (i : ℕ) :
    streamOf l rest (l.length + i) = rest i := by
  rw [streamOf, dif_neg (by omega), Nat.add_sub_cancel_left]

theorem window_streamOf {l : List Byte} (rest : ℕ → Byte) {w : ℕ} (hw : w ≤ l.length) :
    window (streamOf l rest) (l.length - w) w = lastBytes w l := by
  refine List.ext_getElem (by simp [lastBytes]; omega) fun k h1 h2 => ?_
  rw [length_window] at h1
  rw [getElem_window, streamOf_lt (by omega)]
  simp [lastBytes]

theorem Tracks.congr {st : RhState2} {x y : ℕ → Byte} {t w : ℕ} (tr : Tracks st x t w)
    (h : ∀ k, t ≤ k → k < t + w → x k = y k) : Tracks st y t w :=
  { tr with
    hash := by rw [tr.hash, windowHash, windowHash, window_congr h]
    history := fun k hk => by rw [tr.history k hk, h _ (by omega) (by omega)] }

/-- The state holds the last `w` bytes of `seen`. -/
def TracksBytes (st : RhState2) (seen : List Byte) (w : ℕ) : Prop :=
  w ≤ seen.length ∧ Tracks st (streamOf seen fun _ => 0#8) (seen.length - w) w

theorem TracksBytes.stream {st : RhState2} {seen : List Byte} {w : ℕ} (h : TracksBytes st seen w)
    (rest : ℕ → Byte) : Tracks st (streamOf seen rest) (seen.length - w) w := by
  obtain ⟨hw, tr⟩ := h
  refine tr.congr fun k _ hk => ?_
  rw [streamOf_lt (by omega), streamOf_lt (by omega)]

theorem TracksBytes.hash_eq {st : RhState2} {seen : List Byte} {w : ℕ}
    (h : TracksBytes st seen w) : st.hash = rotXor rollingHash2Table1 (lastBytes w seen) := by
  rw [h.2.hash, windowHash, window_streamOf _ h.1]

theorem TracksBytes.historyBytes_eq {st : RhState2} {seen : List Byte} {w : ℕ}
    (h : TracksBytes st seen w) : st.historyBytes w = lastBytes w seen := by
  rw [← window_streamOf (fun _ => 0#8) h.1]
  refine List.map_congr_left fun k hk => ?_
  have hkw := List.mem_range.mp hk
  have hval : ((Fin.ofNat fingerprintMaxWindow k : Fin _) : ℕ) = k :=
    Nat.mod_eq_of_lt (Nat.lt_of_lt_of_le hkw h.2.w_le)
  rw [h.2.history _ (by omega), hval]

/-! ## The state after a session -/

theorem startSession_spec {b : Build} (hb : b.fipsMode = false) (st : RhState2) {w : BitVec 32}
    (hw : 1 ≤ w.toNat) (hw' : w.toNat ≤ fingerprintMaxWindow) (initBytes : ℕ → Byte) :
    ∃ s, startSession b st w initBytes = some s ∧
      TracksBytes s ((List.range w.toNat).map initBytes) w.toNat := by
  obtain ⟨s, hs⟩ : ∃ s, rollingHash2Init st w = some s := by
    rw [rollingHash2Init, if_neg (by omega)]
    exact ⟨_, rfl⟩
  refine ⟨rollingHash2Reset s initBytes, ?_, by simp, ?_⟩
  · simp [startSession, isalRollingHash2Init, isalRollingHash2Reset, hb, hs]
  · rw [List.length_map, List.length_range, Nat.sub_self]
    refine tracks_reset hw hs fun k hk => ?_
    rw [streamOf_lt (by simpa using hk)]
    simp

theorem isalRollingHash2Run_ok {b : Build} (hb : b.fipsMode = false) (u : RunUntil) (st : RhState2)
    (buffer : ℤ → Byte) (maxLen mask trigger : BitVec 32) :
    isalRollingHash2Run b u (some st) (some buffer) maxLen mask trigger true true =
      (.errNone, some (rollingHash2Run u st buffer maxLen mask trigger)) := by
  simp [isalRollingHash2Run, hb]

/-- One call of a session moves the state on by the bytes it consumed. -/
theorem TracksBytes.run {st : RhState2} {seen : List Byte} {w : ℕ} (h : TracksBytes st seen w)
    (c : RunCall) (hlen : c.maxLen.toNat < 2 ^ 31) :
    let r := rollingHash2Run rollingHash2RunUntilBase st c.buffer c.maxLen c.mask c.trigger
    TracksBytes r.state (seen ++ c.consumed r) w := by
  intro r
  have hw := h.1
  have tr := h.stream fun i => c.buffer i
  have hspec := (rollingHash2Run_spec c.mask c.trigger tr hlen
    (fun i hi => by rw [show seen.length - w + w + i = seen.length + i by omega, streamOf_add])).2
  have hlength : (seen ++ c.consumed r).length = seen.length + r.offset.toNat := by
    simp [RunCall.consumed]
  refine ⟨by omega, ?_⟩
  rw [hlength, show seen.length + r.offset.toNat - w = seen.length - w + r.offset.toNat by omega]
  refine hspec.congr fun k hk1 hk2 => ?_
  have hk3 : k < (seen ++ c.consumed r).length := by
    rw [hlength]
    have hk4 : k < seen.length - w + r.offset.toNat + w := hk2
    omega
  rw [streamOf_lt hk3, streamOf]
  split
  · next hlt => rw [List.getElem_append_left hlt]
  · next hge =>
    rw [List.getElem_append_right (by omega)]
    simp only [RunCall.consumed, List.getElem_map, List.getElem_range]

theorem runCalls_spec {b : Build} (hb : b.fipsMode = false) (w : ℕ) (calls : List RunCall) :
    ∀ (st : RhState2) (seen : List Byte), TracksBytes st seen w →
      (∀ c ∈ calls, c.maxLen.toNat < 2 ^ 31) →
      ∃ s consumed, runCalls b st calls = some (s, consumed) ∧
        TracksBytes s (seen ++ consumed) w := by
  induction calls with
  | nil => exact fun st seen h _ => ⟨st, [], rfl, by simpa using h⟩
  | cons c cs ih =>
    intro st seen h hlen
    have hstep := h.run c (hlen c List.mem_cons_self)
    obtain ⟨s, consumed, hrun, htr⟩ := ih _ _ hstep fun d hd => hlen d (List.mem_cons_of_mem _ hd)
    rw [List.append_assoc] at htr
    refine ⟨s, _, ?_, htr⟩
    rw [runCalls, isalRollingHash2Run_ok hb]
    simp only [hrun, Option.map_some]

/-- After any session the hash is the closed-form hash of the last `w` bytes of the reset bytes and
the bytes consumed, and the history holds those bytes, oldest first. -/
theorem session_state (b : Build) (hb : b.fipsMode = false) (st : RhState2) (w : BitVec 32)
    (hw : 1 ≤ w.toNat) (hw' : w.toNat ≤ 48) (initBytes : ℕ → Byte) (calls : List RunCall)
    (hlen : ∀ c ∈ calls, c.maxLen.toNat < 2 ^ 31) :
    ∃ s0 s consumed, startSession b st w initBytes = some s0 ∧
      runCalls b s0 calls = some (s, consumed) ∧
      s.hash = rotXor rollingHash2Table1
        (lastBytes w.toNat ((List.range w.toNat).map initBytes ++ consumed)) ∧
      s.historyBytes w.toNat =
        lastBytes w.toNat ((List.range w.toNat).map initBytes ++ consumed) := by
  obtain ⟨s0, hs0, htr0⟩ := startSession_spec hb st hw hw' initBytes
  obtain ⟨s, consumed, hrun, htr⟩ := runCalls_spec hb w.toNat calls s0 _ htr0 hlen
  exact ⟨s0, s, consumed, hs0, hrun, htr.hash_eq, htr.historyBytes_eq⟩

/-- A state no call has touched. -/
def RhState2.zero : RhState2 := ⟨fun _ => 0#8, fun _ => 0#64, fun _ => 0#64, 0#64, 0#32⟩

/-- A window of two bytes: an empty call, a call on one byte and a call on 40 bytes, which goes on
to the scanner. -/
theorem session_state_three_calls :
    let call (maxLen : BitVec 32) : RunCall :=
      ⟨fun i => BitVec.ofInt 8 i, maxLen, 0xFF#32, 0x100#32⟩
    ∃ s0 s consumed, startSession ⟨true, false⟩ .zero 2#32 (fun _ => 1#8) = some s0 ∧
      runCalls ⟨true, false⟩ s0 [call 0#32, call 1#32, call 40#32] = some (s, consumed) ∧
      s.hash = rotXor rollingHash2Table1
        (lastBytes 2 ((List.range 2).map (fun _ => 1#8) ++ consumed)) ∧
      s.historyBytes 2 = lastBytes 2 ((List.range 2).map (fun _ => 1#8) ++ consumed) :=
  session_state ⟨true, false⟩ rfl .zero 2#32 (by decide) (by decide) (fun _ => 1#8)
    [⟨fun i => BitVec.ofInt 8 i, 0#32, 0xFF#32, 0x100#32⟩,
      ⟨fun i => BitVec.ofInt 8 i, 1#32, 0xFF#32, 0x100#32⟩,
      ⟨fun i => BitVec.ofInt 8 i, 40#32, 0xFF#32, 0x100#32⟩]
    (by simp)

/-! ## The hits of a stream -/

/-- The buffer of a call that starts at stream position `pos`: the next `maxLen` bytes of the
stream, between bytes that need not be the stream's. -/
def streamBuffer (S : ℕ → Byte) (pos : ℕ) (maxLen : BitVec 32) (outside : ℤ → Byte) (i : ℤ) :
    Byte :=
  if 0 ≤ i ∧ i < maxLen.toNat then S (pos + i.toNat) else outside i

/-- What a call reports, and the length it was offered. -/
structure CallReport where
  maxLen : BitVec 32
  offset : BitVec 32
  ret : FingerprintRet

/-- The call used its whole buffer, or it ended inside it on a hit. -/
def CallReport.Complete (c : CallReport) : Prop :=
  c.offset.toNat ≤ c.maxLen.toNat ∧ (c.ret = .max → c.offset = c.maxLen)

/-- A stream cut into successful calls, each starting where the one before reported its offset. A
cut is a `max_len` with the memory around the buffer. -/
def cutCalls (b : Build) (S : ℕ → Byte) (mask trigger : BitVec 32) :
    RhState2 → ℕ → List (BitVec 32 × (ℤ → Byte)) → Option (List CallReport)
  | _, _, [] => some []
  | st, pos, (maxLen, outside) :: cuts =>
    match isalRollingHash2Run b rollingHash2RunUntilBase (some st)
        (some (streamBuffer S pos maxLen outside)) maxLen mask trigger true true with
    | (.errNone, some r) =>
      (cutCalls b S mask trigger r.state (pos + r.offset.toNat) cuts).map
        (⟨maxLen, r.offset, r.ret⟩ :: ·)
    | _ => none

/-- The stream positions reported as hits, by calls of which the first starts at `pos`. -/
def hitPositions : ℕ → List CallReport → List ℕ
  | _, [] => []
  | pos, c :: cs =>
    let pos' := pos + c.offset.toNat
    if c.ret = .hit then pos' :: hitPositions pos' cs else hitPositions pos' cs

/-- The stream position that the calls reach. -/
def endPosition : ℕ → List CallReport → ℕ
  | pos, [] => pos
  | pos, c :: cs => endPosition (pos + c.offset.toNat) cs

/-- The hits in the `j` positions after `t`, when a call ended after `j` bytes. -/
theorem RunEnds.filter_eq {x : ℕ → Byte} {t w len : ℕ} {mask trigger : BitVec 64} {j : ℕ}
    {ret : FingerprintRet} (h : RunEnds x t w len mask trigger j ret) :
    (List.range' (t + 1) j).filter (fun p => decide (HitAt x w mask trigger p)) =
      if ret = .hit then [t + j] else [] := by
  have hnone : ∀ m, (∀ q, 0 < q → q ≤ m → ¬ HitAt x w mask trigger (t + q)) →
      (List.range' (t + 1) m).filter (fun p => decide (HitAt x w mask trigger p)) = [] := by
    intro m hm
    refine List.filter_eq_nil_iff.mpr fun p hp => ?_
    obtain ⟨q, hq, rfl⟩ := List.mem_range'.mp hp
    have := hm (q + 1) (by omega) (by omega)
    simpa [Nat.add_assoc, Nat.add_comm 1] using this
  cases h with
  | hit hpos _ hhit hmiss =>
    obtain ⟨i, rfl⟩ : ∃ i, j = i + 1 := ⟨j - 1, by omega⟩
    have hlast : t + 1 + i = t + (i + 1) := by omega
    rw [List.range'_concat, List.filter_append, hnone i fun q h1 h2 => hmiss q h1 (by omega)]
    simp [hlast, hhit]
  | max _ hmiss => simpa using hnone j hmiss

theorem RunEnds.complete {x : ℕ → Byte} {t w : ℕ} {maxLen offset : BitVec 32}
    {mask trigger : BitVec 64} {ret : FingerprintRet}
    (h : RunEnds x t w maxLen.toNat mask trigger offset.toNat ret) :
    (CallReport.mk maxLen offset ret).Complete := by
  refine ⟨h.le, fun hret => ?_⟩
  cases h with
  | hit => exact FingerprintRet.noConfusion hret
  | max heq => exact BitVec.eq_of_toNat_eq heq

theorem cutCalls_spec {b : Build} (hb : b.fipsMode = false) (mask trigger : BitVec 32)
    {S x : ℕ → Byte} {w : ℕ} (hx : ∀ k, x (w + k) = S k)
    (cuts : List (BitVec 32 × (ℤ → Byte))) :
    ∀ (st : RhState2) (pos : ℕ), Tracks st x pos w → (∀ c ∈ cuts, c.1.toNat < 2 ^ 31) →
      ∃ reports, cutCalls b S mask trigger st pos cuts = some reports ∧
        reports.map (·.maxLen) = cuts.map (·.1) ∧ (∀ c ∈ reports, c.Complete) ∧
        ∃ n, endPosition pos reports = pos + n ∧
          hitPositions pos reports = (List.range' (pos + 1) n).filter fun p =>
            decide (HitAt x w (mask.setWidth 64) (trigger.setWidth 64) p) := by
  induction cuts with
  | nil => exact fun st pos _ _ => ⟨[], rfl, rfl, nofun, 0, rfl, rfl⟩
  | cons c cs ih =>
    intro st pos tr hlen
    obtain ⟨maxLen, outside⟩ := c
    have hbuf : ∀ i : ℕ, i < maxLen.toNat →
        streamBuffer S pos maxLen outside i = x (pos + w + i) := by
      intro i hi
      rw [streamBuffer, if_pos ⟨by omega, by omega⟩, Int.toNat_natCast, ← hx,
        show w + (pos + i) = pos + w + i by omega]
    let r := rollingHash2Run rollingHash2RunUntilBase st (streamBuffer S pos maxLen outside) maxLen
      mask trigger
    have hlen0 : maxLen.toNat < 2 ^ 31 := hlen (maxLen, outside) List.mem_cons_self
    obtain ⟨hends, htr⟩ : RunEnds x pos w maxLen.toNat (mask.setWidth 64) (trigger.setWidth 64)
        r.offset.toNat r.ret ∧ Tracks r.state x (pos + r.offset.toNat) w :=
      rollingHash2Run_spec mask trigger tr hlen0 hbuf
    obtain ⟨reports, hcalls, hlens, hcomplete, n, hend, hhits⟩ :=
      ih r.state _ htr fun d hd => hlen d (List.mem_cons_of_mem _ hd)
    have hrun : isalRollingHash2Run b rollingHash2RunUntilBase (some st)
        (some (streamBuffer S pos maxLen outside)) maxLen mask trigger true true =
        (.errNone, some r) := isalRollingHash2Run_ok hb ..
    refine ⟨⟨maxLen, r.offset, r.ret⟩ :: reports, ?_, ?_, ?_, r.offset.toNat + n, ?_, ?_⟩
    · rw [cutCalls, hrun]
      simp only [hcalls, Option.map_some]
    · rw [List.map_cons, List.map_cons, hlens]
    · exact List.forall_mem_cons.mpr ⟨hends.complete, hcomplete⟩
    · rw [endPosition, hend, Nat.add_assoc]
    · rw [hitPositions, hhits, ← List.range'_append_1, List.filter_append, hends.filter_eq,
        Nat.add_right_comm pos 1]
      split <;> simp

/-- However a stream is cut into calls, every call uses its buffer up to the first hit in it, or all
of it, and the positions reported as hits are exactly those at which the closed-form hash of the
last `w` bytes of the reset bytes and the stream so far matches: none is skipped and none is
reported twice. -/
theorem session_hits (b : Build) (hb : b.fipsMode = false) (st : RhState2) (w : BitVec 32)
    (hw : 1 ≤ w.toNat) (hw' : w.toNat ≤ 48) (initBytes S : ℕ → Byte) (mask trigger : BitVec 32)
    (cuts : List (BitVec 32 × (ℤ → Byte))) (hlen : ∀ c ∈ cuts, c.1.toNat < 2 ^ 31) :
    ∃ s0 reports, startSession b st w initBytes = some s0 ∧
      cutCalls b S mask trigger s0 0 cuts = some reports ∧
      reports.map (·.maxLen) = cuts.map (·.1) ∧ (∀ c ∈ reports, c.Complete) ∧
      hitPositions 0 reports = (List.range' 1 (endPosition 0 reports)).filter fun p =>
        rotXor rollingHash2Table1
          (lastBytes w.toNat ((List.range w.toNat).map initBytes ++ (List.range p).map S)) &&&
            mask.setWidth 64 = trigger.setWidth 64 := by
  obtain ⟨s0, hs0, htr0⟩ := startSession_spec hb st hw hw' initBytes
  have hlength : ((List.range w.toNat).map initBytes).length = w.toNat := by simp
  have tr := htr0.stream S
  have hx : ∀ k, streamOf ((List.range w.toNat).map initBytes) S (w.toNat + k) = S k := by
    intro k
    rw [← streamOf_add ((List.range w.toNat).map initBytes) S k, hlength]
  rw [hlength, Nat.sub_self] at tr
  obtain ⟨reports, hcalls, hlens, hcomplete, n, hend, hhits⟩ :=
    cutCalls_spec hb mask trigger hx cuts s0 0 tr hlen
  refine ⟨s0, reports, hs0, hcalls, hlens, hcomplete, ?_⟩
  rw [hhits, hend, Nat.zero_add, Nat.zero_add]
  refine List.filter_congr fun p _ => ?_
  -- the window at `p` is the tail of the bytes seen up to `p`
  have hwin : window (streamOf ((List.range w.toNat).map initBytes) S) p w.toNat =
      lastBytes w.toNat ((List.range w.toNat).map initBytes ++ (List.range p).map S) := by
    rw [← window_streamOf (fun _ => 0#8) (by simp)]
    simp only [List.length_append, List.length_map, List.length_range, Nat.add_sub_cancel_left]
    refine window_congr fun k _ hk => ?_
    have hk' : k < ((List.range w.toNat).map initBytes ++ (List.range p).map S).length := by
      simp only [List.length_append, List.length_map, List.length_range]
      omega
    rw [streamOf_lt hk', streamOf]
    split
    · next hlt => rw [List.getElem_append_left hlt]
    · next hge =>
      rw [List.getElem_append_right (by omega)]
      simp only [List.getElem_map, List.getElem_range]
  simp only [HitAt, windowHash, hwin]

/-- A stream cut into three calls, under a mask of four bits: a call that the window ends, one that
scans its buffer, and one of no bytes. -/
theorem session_hits_three_cuts :
    ∃ s0 reports, startSession ⟨true, false⟩ .zero 2#32 (fun _ => 1#8) = some s0 ∧
      cutCalls ⟨true, false⟩ (fun k => BitVec.ofNat 8 k) 0xf#32 3#32 s0 0
        [(1#32, fun _ => 0#8), (40#32, fun _ => 0#8), (0#32, fun _ => 0#8)] = some reports ∧
      reports.map (·.maxLen) = [1#32, 40#32, 0#32] ∧ (∀ c ∈ reports, c.Complete) ∧
      hitPositions 0 reports = (List.range' 1 (endPosition 0 reports)).filter fun p =>
        rotXor rollingHash2Table1
          (lastBytes 2 ((List.range 2).map (fun _ => 1#8) ++
            (List.range p).map fun k => BitVec.ofNat 8 k)) &&&
            (0xf#32).setWidth 64 = (3#32).setWidth 64 :=
  session_hits ⟨true, false⟩ rfl .zero 2#32 (by decide) (by decide) (fun _ => 1#8)
    (fun k => BitVec.ofNat 8 k) 0xf#32 3#32
    [(1#32, fun _ => 0#8), (40#32, fun _ => 0#8), (0#32, fun _ => 0#8)] (by simp)

end IsalCrypto.RollingHash
