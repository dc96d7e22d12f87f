import IsalCrypto.Memory
import IsalCrypto.RollingHash.Table

/-!
# The rolling hash functions

`rolling_hash/rolling_hash2.c`: `_rolling_hash2_init`, `_rolling_hash2_reset`, the base scanner
`_rolling_hash2_run_until_base` and `_rolling_hash2_run`, with the API wrappers around them.

A `uint8_t *` parameter is the function from an offset to the byte at that address, so that
`buffer - w` is the same memory read from `w` bytes lower. An `int` is an integer.

The functions that read a buffer are written over a monad of reads. In `Id` every byte is there; in
`Option` the read of a byte that is not there has no result, and neither has the call.
-/

namespace IsalCrypto.RollingHash

/-- `ISAL_FINGERPRINT_MAX_WINDOW`. -/
abbrev fingerprintMaxWindow : ℕ := 48

/-- `ISAL_FINGERPRINT_RET_HIT` and `ISAL_FINGERPRINT_RET_MAX`. -/
inductive FingerprintRet
  | hit
  | max
deriving DecidableEq, Repr

/-- `struct isal_rh_state2`. -/
structure RhState2 where
  history : Fin fingerprintMaxWindow → Byte
  table1 : Byte → BitVec 64
  table2 : Byte → BitVec 64
  hash : BitVec 64
  w : BitVec 32

/-- `(h << 1) | (h >> (64 - 1))`. -/
def rol1 (h : BitVec 64) : BitVec 64 := (h <<< 1) ||| (h >>> (64 - 1))

/-- `_rolling_hash2_init`: `none` for the failure code `-1`. For `w = 0`, which it accepts, the
second shift is by 64, which C leaves undefined. Here it gives zero, so that the entry is `v`; a
shift by the count modulo 64 gives `v` too. -/
def rollingHash2Init (state : RhState2) (w : BitVec 32) : Option RhState2 :=
  if w.toNat > fingerprintMaxWindow then none
  else
    some { state with
      table1 := rollingHash2Table1
      table2 := fun i =>
        let v := rollingHash2Table1 i
        (v <<< w.toNat) ||| (v >>> (64 - w.toNat))
      w := w }

/-- `memmove(a, a + s, n)` inside a fixed array. -/
def memmoveDown {size : ℕ} (a : Fin size → Byte) (s n : ℕ) : Fin size → Byte :=
  fun k => if h : k < n ∧ k + s < size then a ⟨k + s, h.2⟩ else a k

/-- The loop of `_rolling_hash2_reset` over the `init_bytes` still to hash. -/
def resetLoop (table1 : Byte → BitVec 64) (initBytes : ℕ → Byte) : ℕ → ℕ → BitVec 64 → BitVec 64
  | 0, _, hash => hash
  | n + 1, i, hash => resetLoop table1 initBytes n (i + 1) (rol1 hash ^^^ table1 (initBytes i))

/-- `_rolling_hash2_reset`. -/
def rollingHash2Reset (state : RhState2) (initBytes : ℕ → Byte) : RhState2 :=
  { state with
    hash := resetLoop state.table1 initBytes state.w.toNat 0 0#64
    history := memcpyAt state.history 0 initBytes state.w.toNat }

/-- `hash_fn`. -/
def hashFn (state : RhState2) (h : BitVec 64) (newChar oldChar : Byte) : BitVec 64 :=
  rol1 h ^^^ (state.table1 newChar ^^^ state.table2 oldChar)

/-- How the first loop of `_rolling_hash2_run` ends. -/
inductive WarmUp
  /-- The buffer is used up: `i == buffer_length`. -/
  | short (i : ℕ) (hash : BitVec 64)
  /-- The byte at `i - 1` hit. -/
  | hit (i : ℕ) (hash : BitVec 64)
  /-- `i` reached `w`. -/
  | full (hash : BitVec 64)
deriving DecidableEq

/-- What `_rolling_hash2_run` leaves behind. -/
structure RunResult where
  state : RhState2
  offset : BitVec 32
  ret : FingerprintRet

/-- The scanner that `_rolling_hash2_run` calls after its first loop. -/
abbrev RunUntilM (m : Type → Type) :=
  BitVec 32 → ℤ → (Byte → BitVec 64) → (Byte → BitVec 64) → (ℤ → m Byte) → (ℤ → m Byte) →
    BitVec 64 → BitVec 64 → BitVec 64 → m (BitVec 32 × BitVec 64)

section Reads

variable {m : Type → Type} [Monad m]

/-- `memcpy` of `n` bytes into a fixed array. -/
def memcpyAtM {size : ℕ} (dst : Fin size → Byte) (d : ℕ) (src : ℕ → m Byte) (n : ℕ) :
    m (Fin size → Byte) := do
  let x ← (List.range n).mapM src
  return memcpyAt dst d (fun k => x.getD k 0#8) n

/-- The `for (; i < max_idx; i++)` loop of both branches of `_rolling_hash2_run_until_base`; the
first argument counts the iterations left, `max_idx - i`. -/
def untilLoopM (t1 t2 : Byte → BitVec 64) (b1 b2 : ℤ → m Byte) (mask cmp : BitVec 64) :
    ℕ → ℤ → BitVec 64 → m (ℤ × BitVec 64)
  | 0, i, h => return (i, h)
  | n + 1, i, h => do
    let x ← b1 i
    let y ← b2 i
    let h := rol1 h ^^^ (t1 x ^^^ t2 y)
    if h &&& mask = cmp then return (i, h)
    else untilLoopM t1 t2 b1 b2 mask cmp n (i + 1) h

/-- `_rolling_hash2_run_until_base`: the stored `*idx` and the returned hash. -/
def rollingHash2RunUntilBaseM : RunUntilM m := fun idx maxIdx t1 t2 b1 b2 h mask trigger => do
  let i := idx.toInt
  let r ←
    if trigger = 0#64 then untilLoopM t1 t2 b1 b2 mask 0#64 (maxIdx - i).toNat i h
    else untilLoopM t1 t2 b1 b2 mask trigger (maxIdx - i).toNat i h
  return (BitVec.ofInt 32 r.1, r.2)

/-- The first loop of `_rolling_hash2_run`, against the saved history; the first argument counts
the iterations left, `w - i`. -/
def warmUpM (state : RhState2) (buffer : ℤ → m Byte) (bufferLength : ℕ) (mask trigger : BitVec 64) :
    ℕ → ℕ → BitVec 64 → m WarmUp
  | 0, _, hash => return .full hash
  | n + 1, i, hash =>
    if i = bufferLength then return .short i hash
    else do
      let x ← buffer i
      let hash := hashFn state hash x (state.history (Fin.ofNat _ i))
      if hash &&& mask = trigger then return .hit (i + 1) hash
      else warmUpM state buffer bufferLength mask trigger n (i + 1) hash

/-- The two copies that keep the last `w` bytes after `i ≤ w` bytes of `buffer`. -/
def shiftHistoryM (state : RhState2) (buffer : ℤ → m Byte) (i : ℕ) :
    m (Fin fingerprintMaxWindow → Byte) :=
  let w := state.w.toNat
  let moved := memmoveDown state.history i (w - i)
  memcpyAtM moved (w - i) (fun k => buffer k) i

/-- What `_rolling_hash2_run` makes of the scanner's result. -/
def scanResultM (state : RhState2) (buffer : ℤ → m Byte) (mask trigger : BitVec 64)
    (r : BitVec 32 × BitVec 64) : m RunResult := do
  let w := state.w.toNat
  let hash := r.2
  if hash &&& mask = trigger then
    let i := r.1 + 1#32
    let history ← memcpyAtM state.history 0 (fun k => buffer (i.toNat - w + k)) w
    return ⟨{ state with history, hash }, i, .hit⟩
  else
    let i := r.1
    let history ← memcpyAtM state.history 0 (fun k => buffer (i.toNat - w + k)) w
    return ⟨{ state with history, hash }, i, .max⟩

/-- `_rolling_hash2_run`, over the scanner the build selects. -/
def rollingHash2RunM (runUntil : RunUntilM m) (state : RhState2) (buffer : ℤ → m Byte)
    (bufferLength mask trigger : BitVec 32) : m RunResult := do
  let w := state.w.toNat
  let mask := mask.setWidth 64
  let trigger := trigger.setWidth 64
  match ← warmUpM state buffer bufferLength.toNat mask trigger w 0 state.hash with
  | .short i hash =>
    let history ← shiftHistoryM state buffer i
    return ⟨{ state with history, hash }, BitVec.ofNat 32 i, .max⟩
  | .hit i hash =>
    let history ← shiftHistoryM state buffer i
    return ⟨{ state with history, hash }, BitVec.ofNat 32 i, .hit⟩
  | .full hash =>
    let r ← runUntil state.w bufferLength.toInt state.table1 state.table2 buffer
      (fun k => buffer (k - w)) hash mask trigger
    scanResultM state buffer mask trigger r

end Reads

/-! ## Over memory -/

/-- A scanner over memory. -/
abbrev RunUntil := RunUntilM Id

/-- `untilLoopM` over memory. -/
def untilLoop (t1 t2 : Byte → BitVec 64) (b1 b2 : ℤ → Byte) (mask cmp : BitVec 64) (n : ℕ) (i : ℤ)
    (h : BitVec 64) : ℤ × BitVec 64 :=
  (untilLoopM (m := Id) t1 t2 b1 b2 mask cmp n i h).run

/-- `_rolling_hash2_run_until_base` over memory. -/
def rollingHash2RunUntilBase (idx : BitVec 32) (maxIdx : ℤ) (t1 t2 : Byte → BitVec 64)
    (b1 b2 : ℤ → Byte) (h mask trigger : BitVec 64) : BitVec 32 × BitVec 64 :=
  (rollingHash2RunUntilBaseM (m := Id) idx maxIdx t1 t2 b1 b2 h mask trigger).run

/-- `warmUpM` over memory. -/
def warmUp (state : RhState2) (buffer : ℤ → Byte) (bufferLength : ℕ) (mask trigger : BitVec 64)
    (n i : ℕ) (hash : BitVec 64) : WarmUp :=
  (warmUpM (m := Id) state buffer bufferLength mask trigger n i hash).run

/-- `shiftHistoryM` over memory. -/
def shiftHistory (state : RhState2) (buffer : ℤ → Byte) (i : ℕ) : Fin fingerprintMaxWindow → Byte :=
  (shiftHistoryM (m := Id) state buffer i).run

/-- `scanResultM` over memory. -/
def scanResult (state : RhState2) (buffer : ℤ → Byte) (mask trigger : BitVec 64)
    (r : BitVec 32 × BitVec 64) : RunResult :=
  (scanResultM (m := Id) state buffer mask trigger r).run

/-- `_rolling_hash2_run` over memory. -/
def rollingHash2Run (runUntil : RunUntil) (state : RhState2) (buffer : ℤ → Byte)
    (bufferLength mask trigger : BitVec 32) : RunResult :=
  (rollingHash2RunM (m := Id) runUntil state buffer bufferLength mask trigger).run

section Memory

variable {t1 t2 : Byte → BitVec 64} {b1 b2 buffer : ℤ → Byte} {mask trigger cmp h : BitVec 64}
  {st : RhState2} {len n i : ℕ}

theorem memcpyAtM_id {size : ℕ} (dst : Fin size → Byte) (d : ℕ) (src : ℕ → Byte) (n : ℕ) :
    memcpyAtM (m := Id) dst d src n = memcpyAt dst d src n := by
  have hread : (List.range n).mapM (m := Id) src = (List.range n).map src :=
    List.mapM_pure
  funext k
  change memcpyAt dst d (fun k => (List.getD ((List.range n).mapM (m := Id) src) k 0#8)) n k = _
  rw [hread, memcpyAt, memcpyAt]
  split
  · next hk =>
    rw [List.getD_eq_getElem?_getD, List.getElem?_map, List.getElem?_range (by omega)]
    rfl
  · rfl

theorem untilLoop_zero (i : ℤ) : untilLoop t1 t2 b1 b2 mask cmp 0 i h = (i, h) := rfl

theorem untilLoop_succ (n : ℕ) (i : ℤ) :
    untilLoop t1 t2 b1 b2 mask cmp (n + 1) i h =
      let h := rol1 h ^^^ (t1 (b1 i) ^^^ t2 (b2 i))
      if h &&& mask = cmp then (i, h) else untilLoop t1 t2 b1 b2 mask cmp n (i + 1) h := by
  unfold untilLoop
  rw [untilLoopM]
  exact apply_ite Id.run ..

/-- Both branches compare with the trigger. -/
theorem rollingHash2RunUntilBase_eq (idx : BitVec 32) (maxIdx : ℤ) :
    rollingHash2RunUntilBase idx maxIdx t1 t2 b1 b2 h mask trigger =
      let r := untilLoop t1 t2 b1 b2 mask trigger (maxIdx - idx.toInt).toNat idx.toInt h
      (BitVec.ofInt 32 r.1, r.2) := by
  by_cases hzero : trigger = 0#64
  · rw [hzero]
    rfl
  · unfold rollingHash2RunUntilBase rollingHash2RunUntilBaseM
    rw [if_neg hzero]
    rfl

theorem warmUp_succ (n i : ℕ) :
    warmUp st buffer len mask trigger (n + 1) i h =
      if i = len then .short i h
      else
        let h := hashFn st h (buffer i) (st.history (Fin.ofNat _ i))
        if h &&& mask = trigger then .hit (i + 1) h
        else warmUp st buffer len mask trigger n (i + 1) h := by
  unfold warmUp
  rw [warmUpM]
  split
  · rfl
  · exact apply_ite Id.run ..

theorem shiftHistory_eq_memcpyAt (st : RhState2) (buffer : ℤ → Byte) (i : ℕ) :
    shiftHistory st buffer i =
      memcpyAt (memmoveDown st.history i (st.w.toNat - i)) (st.w.toNat - i) (fun k => buffer k) i :=
  memcpyAtM_id ..

theorem scanResult_hit {r : BitVec 32 × BitVec 64} (hhit : r.2 &&& mask = trigger) :
    scanResult st buffer mask trigger r =
      ⟨{ st with
          history := memcpyAt st.history 0
            (fun k => buffer ((r.1 + 1#32).toNat - st.w.toNat + k)) st.w.toNat
          hash := r.2 },
        r.1 + 1#32, .hit⟩ := by
  rw [← memcpyAtM_id]
  unfold scanResult scanResultM
  rw [if_pos hhit]
  rfl

theorem scanResult_miss {r : BitVec 32 × BitVec 64} (hmiss : ¬ r.2 &&& mask = trigger) :
    scanResult st buffer mask trigger r =
      ⟨{ st with
          history := memcpyAt st.history 0 (fun k => buffer (r.1.toNat - st.w.toNat + k)) st.w.toNat
          hash := r.2 },
        r.1, .max⟩ := by
  rw [← memcpyAtM_id]
  unfold scanResult scanResultM
  rw [if_neg hmiss]
  rfl

theorem rollingHash2Run_eq (u : RunUntil) (st : RhState2) (buffer : ℤ → Byte)
    (len mask trigger : BitVec 32) :
    rollingHash2Run u st buffer len mask trigger =
      match warmUp st buffer len.toNat (mask.setWidth 64) (trigger.setWidth 64) st.w.toNat 0
          st.hash with
      | .short i h =>
        ⟨{ st with history := shiftHistory st buffer i, hash := h }, BitVec.ofNat 32 i, .max⟩
      | .hit i h =>
        ⟨{ st with history := shiftHistory st buffer i, hash := h }, BitVec.ofNat 32 i, .hit⟩
      | .full h =>
        scanResult st buffer (mask.setWidth 64) (trigger.setWidth 64)
          (u st.w len.toInt st.table1 st.table2 buffer (fun k => buffer (k - st.w.toNat)) h
            (mask.setWidth 64) (trigger.setWidth 64)) := by
  unfold rollingHash2Run rollingHash2RunM warmUp
  dsimp only
  cases warmUpM (m := Id) st buffer len.toNat (mask.setWidth 64) (trigger.setWidth 64) st.w.toNat 0
      st.hash with
  | short i h => rfl
  | hit i h => rfl
  | full h => rfl

end Memory

/-! ## The API wrappers

A pointer that may be `NULL` is an `Option`; `NULL` is refused here as under `SAFE_PARAM`, and
without that option passing it is undefined. -/

/-- `isal_rolling_hash2_init`. -/
def isalRollingHash2Init (b : Build) (state : Option RhState2) (w : BitVec 32) :
    IsalCryptoError × Option RhState2 :=
  if b.fipsMode then (.errFipsInvalidAlgo, state)
  else
    match state with
    | none => (.errNullCtx, none)
    | some s =>
      match rollingHash2Init s w with
      | none => (.errWindowSize, some s)
      | some s' => (.errNone, some s')

/-- `isal_rolling_hash2_reset`. -/
def isalRollingHash2Reset (b : Build) (state : Option RhState2) (initBytes : Option (ℕ → Byte)) :
    IsalCryptoError × Option RhState2 :=
  if b.fipsMode then (.errFipsInvalidAlgo, state)
  else
    match state, initBytes with
    | none, _ => (.errNullCtx, none)
    | some s, none => (.errNullInitVal, some s)
    | some s, some bytes => (.errNone, some (rollingHash2Reset s bytes))

/-- `isal_rolling_hash2_run`; `*offset` and `*match` are stored only when the call succeeds. -/
def isalRollingHash2Run (b : Build) (runUntil : RunUntil) (state : Option RhState2)
    (buffer : Option (ℤ → Byte)) (maxLen mask trigger : BitVec 32)
    (hasOffset hasMatch : Bool) : IsalCryptoError × Option RunResult :=
  if b.fipsMode then (.errFipsInvalidAlgo, none)
  else
    match state, buffer with
    | none, _ => (.errNullCtx, none)
    | some _, none => (.errNullSrc, none)
    | some s, some buf =>
      if hasOffset = false then (.errNullOffset, none)
      else if hasMatch = false then (.errNullMatch, none)
      else (.errNone, some (rollingHash2Run runUntil s buf maxLen mask trigger))

end IsalCrypto.RollingHash
