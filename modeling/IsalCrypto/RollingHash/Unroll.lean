import IsalCrypto.RollingHash.Scan

/-!
# The unrolled aarch64 scanner

`rolling_hash/aarch64/rolling_hash2_run_until_unroll.S`. The bytes are read through partial
functions, so that a load of a byte that is not there has no result: `rollingHash2RunUntilUnroll_eq`
says that over the bytes below `max_idx` alone the scanner has one, and it is the base scanner's.
-/

namespace IsalCrypto.RollingHash

/-- The bytes of `b` at `lo` and above, below `hi`; the others are not there. -/
def bounded (b : ℤ → Byte) (lo hi : ℤ) : ℤ → Option Byte := fun k =>
  if lo ≤ k ∧ k < hi then some (b k) else none

theorem bounded_of_mem {b : ℤ → Byte} {lo hi k : ℤ} (h1 : lo ≤ k) (h2 : k < hi) :
    bounded b lo hi k = some (b k) :=
  if_pos ⟨h1, h2⟩

/-! ## The code -/

/-- `ldr` of eight bytes. -/
def ldr (b : ℤ → Option Byte) (a : ℤ) : Option (BitVec 64) := do
  let x ← (List.range 8).mapM fun k : ℕ => b (a + k)
  return load64 (fun k => x.getD k 0#8) 0

/-- `ubfx t, dat, 8*off, 8`, as the index of a table. -/
def ubfx (dat : BitVec 64) (off : ℕ) : Byte := dat.extractLsb' (8 * off) 8

section Asm

variable (t1 t2 : Byte → BitVec 64) (b1 b2 : ℤ → Option Byte) (mask trigger : BitVec 64)

/-- `exit_ret`. -/
def unrollExitRet (idx : ℤ) (h : BitVec 64) : BitVec 32 × BitVec 64 := (BitVec.ofInt 32 idx, h)

/-- The macro `round` for each of the offsets: whether it branched to `exit_ret`, `idx` and `h`. -/
def rounds (dat1 dat2 : BitVec 64) : List ℕ → ℤ → BitVec 64 → Bool × ℤ × BitVec 64
  | [], idx, h => (false, idx, h)
  | off :: offs, idx, h =>
    let t := t2 (ubfx dat2 off) ^^^ t1 (ubfx dat1 off)
    let h := t ^^^ h.rotateRight 63
    if h &&& mask = trigger then (true, idx, h) else rounds dat1 dat2 offs (idx + 1) h

/-- `loop`; the first argument counts the iterations left, `max_idx - idx`. -/
def unrollTail : ℕ → ℤ → BitVec 64 → Option (BitVec 32 × BitVec 64)
  | 0, idx, h => some (unrollExitRet idx h)
  | n + 1, idx, h => do
    let dat1 ← b1 idx
    let dat2 ← b2 idx
    let t := t2 dat2 ^^^ t1 dat1
    let h := t ^^^ h.rotateRight 63
    if h &&& mask = trigger then return unrollExitRet idx h
    else unrollTail n (idx + 1) h

/-- `unroll_loop_end`. -/
def unrollLoopEnd (maxIdx idx : ℤ) (h : BitVec 64) : Option (BitVec 32 × BitVec 64) :=
  if idx ≥ maxIdx then some (unrollExitRet idx h)
  else unrollTail t1 t2 b1 b2 mask trigger (maxIdx - idx).toNat idx h

/-- `unroll_loop`; the first argument bounds the iterations left. -/
def unrollLoop (maxIdx : ℤ) : ℕ → ℤ → BitVec 64 → Option (BitVec 32 × BitVec 64)
  | 0, _, _ => none
  | n + 1, idx, h => do
    let tmpLoop := maxIdx - 8
    let dat1 ← ldr b1 idx
    let dat2 ← ldr b2 idx
    match rounds t1 t2 mask trigger dat1 dat2 [0, 1, 2, 3, 4, 5, 6, 7] idx h with
    | (true, idx, h) => return unrollExitRet idx h
    | (false, idx, h) =>
      if tmpLoop > idx then unrollLoop maxIdx n idx h
      else unrollLoopEnd t1 t2 b1 b2 mask trigger maxIdx idx h

end Asm

/-- `rolling_hash2_run_until_unroll`: the stored `*idx` and the returned hash. -/
def rollingHash2RunUntilUnroll (idx : BitVec 32) (maxIdx : ℤ) (t1 t2 : Byte → BitVec 64)
    (b1 b2 : ℤ → Option Byte) (h mask trigger : BitVec 64) : Option (BitVec 32 × BitVec 64) :=
  let i := idx.toInt
  let tmpLoop := maxIdx - 8
  if i ≥ tmpLoop then unrollLoopEnd t1 t2 b1 b2 mask trigger maxIdx i h
  else unrollLoop t1 t2 b1 b2 mask trigger maxIdx (maxIdx - i).toNat i h

/-! ## It is the base scanner -/

section Spec

variable {t1 t2 : Byte → BitVec 64} {b1 b2 : ℤ → Byte} {mask trigger : BitVec 64} {lo hi : ℤ}

theorem ubfx_load64 {x : ℕ → Byte} {k : ℕ} (hk : k < 8) : ubfx (load64 x 0) k = x k := by
  refine BitVec.eq_of_getLsbD_eq fun i hi => ?_
  rw [ubfx, BitVec.getLsbD_extractLsb', decide_eq_true hi, Bool.true_and,
    getLsbD_load64 (by omega), show 0 + (8 * k + i) / 8 = k by omega,
    show (8 * k + i) % 8 = i by omega]

theorem mapM_some {α β : Type} {f : α → Option β} {g : α → β} {l : List α}
    (h : ∀ x ∈ l, f x = some (g x)) : l.mapM f = some (l.map g) := by
  induction l with
  | nil => rfl
  | cons x l ih =>
    rw [List.mapM_cons, h x List.mem_cons_self, ih fun y hy => h y (List.mem_cons_of_mem _ hy)]
    rfl

/-- The eight bytes of a load that lies in the buffer. -/
theorem ldr_bounded (b : ℤ → Byte) {a : ℤ} (h1 : lo ≤ a) (h2 : a + 8 ≤ hi) :
    ∃ dat, ldr (bounded b lo hi) a = some dat ∧ ∀ k < 8, ubfx dat k = b (a + k) := by
  have hread : (List.range 8).mapM (fun k : ℕ => bounded b lo hi (a + k)) =
      some ((List.range 8).map fun k : ℕ => b (a + k)) := mapM_some fun k hk => by
    have hlt := List.mem_range.mp hk
    exact bounded_of_mem (by omega) (by omega)
  refine ⟨load64 (fun k => ((List.range 8).map fun k : ℕ => b (a + k)).getD k 0#8) 0, ?_, ?_⟩
  · rw [ldr, hread]
    rfl
  · intro k hk
    rw [ubfx_load64 hk, List.getD_eq_getElem?_getD, List.getElem?_map, List.getElem?_range hk]
    rfl

/-- The rounds from offset `j` on are iterations of the base scanner's loop. -/
theorem rounds_eq (t1 t2 : Byte → BitVec 64) (mask trigger : BitVec 64) {dat1 dat2 : BitVec 64}
    {idx : ℤ} (n : ℕ)
    (h1 : ∀ k < 8, ubfx dat1 k = b1 (idx + k)) (h2 : ∀ k < 8, ubfx dat2 k = b2 (idx + k)) (m : ℕ) :
    ∀ j, j + m = 8 → ∀ h, untilLoop t1 t2 b1 b2 mask trigger (m + n) (idx + j) h =
      match rounds t1 t2 mask trigger dat1 dat2 (List.range' j m) (idx + j) h with
      | (true, i, h) => (i, h)
      | (false, i, h) => untilLoop t1 t2 b1 b2 mask trigger n i h := by
  induction m with
  | zero =>
    intro j hj h
    rw [Nat.zero_add]
    rfl
  | succ m ih =>
    intro j hj h
    have hstep : t2 (ubfx dat2 j) ^^^ t1 (ubfx dat1 j) ^^^ h.rotateRight 63 =
        rol1 h ^^^ (t1 (b1 (idx + j)) ^^^ t2 (b2 (idx + j))) := by
      rw [h1 j (by omega), h2 j (by omega), rotateRight_63_eq_rol1, BitVec.xor_comm,
        BitVec.xor_comm (t2 _)]
    rw [Nat.add_right_comm, untilLoop_succ, List.range'_succ, rounds]
    simp only [hstep]
    split
    · rfl
    · have hrec := ih (j + 1) (by omega)
        (rol1 h ^^^ (t1 (b1 (idx + j)) ^^^ t2 (b2 (idx + j))))
      rwa [Nat.cast_add, Nat.cast_one, ← add_assoc] at hrec

/-- Without a hit every round steps the index. -/
theorem rounds_miss {dat1 dat2 : BitVec 64} (offs : List ℕ) :
    ∀ {idx i : ℤ} {h h' : BitVec 64},
      rounds t1 t2 mask trigger dat1 dat2 offs idx h = (false, i, h') → i = idx + offs.length := by
  induction offs with
  | nil =>
    rintro idx i h h' heq
    cases heq
    exact (add_zero idx).symm
  | cons off offs ih =>
    intro idx i h h' heq
    rw [rounds] at heq
    split at heq
    · cases heq
    · rw [ih heq, List.length_cons, Nat.cast_add, Nat.cast_one]
      omega

/-- Byte by byte. -/
theorem unrollTail_eq (n : ℕ) :
    ∀ idx h, lo ≤ idx → idx + n = hi →
      unrollTail t1 t2 (bounded b1 lo hi) (bounded b2 lo hi) mask trigger n idx h =
        some (unrollExitRet (untilLoop t1 t2 b1 b2 mask trigger n idx h).1
          (untilLoop t1 t2 b1 b2 mask trigger n idx h).2) := by
  induction n with
  | zero => exact fun idx h _ _ => rfl
  | succ n ih =>
    intro idx h h1 h2
    have hstep : t2 (b2 idx) ^^^ t1 (b1 idx) ^^^ h.rotateRight 63 =
        rol1 h ^^^ (t1 (b1 idx) ^^^ t2 (b2 idx)) := by
      rw [rotateRight_63_eq_rol1, BitVec.xor_comm, BitVec.xor_comm (t2 _)]
    rw [unrollTail, bounded_of_mem h1 (by omega), bounded_of_mem h1 (by omega), untilLoop_succ]
    simp only [Option.bind_eq_bind, Option.bind_some, hstep]
    split
    · rfl
    · exact ih (idx + 1) _ (by omega) (by omega)

theorem unrollLoopEnd_eq {idx : ℤ} (h : BitVec 64) (h1 : lo ≤ idx) (h2 : idx ≤ hi) :
    unrollLoopEnd t1 t2 (bounded b1 lo hi) (bounded b2 lo hi) mask trigger hi idx h =
      some (unrollExitRet (untilLoop t1 t2 b1 b2 mask trigger (hi - idx).toNat idx h).1
        (untilLoop t1 t2 b1 b2 mask trigger (hi - idx).toNat idx h).2) := by
  rw [unrollLoopEnd]
  split
  · next hge =>
    obtain rfl : idx = hi := by omega
    rw [sub_self]
    rfl
  · exact unrollTail_eq _ idx h h1 (by omega)

/-- A group of eight, then the rest. -/
theorem unrollLoop_eq (n : ℕ) :
    ∀ idx h, lo ≤ idx → idx + 8 < hi → hi - idx ≤ n →
      unrollLoop t1 t2 (bounded b1 lo hi) (bounded b2 lo hi) mask trigger hi n idx h =
        some (unrollExitRet (untilLoop t1 t2 b1 b2 mask trigger (hi - idx).toNat idx h).1
          (untilLoop t1 t2 b1 b2 mask trigger (hi - idx).toNat idx h).2) := by
  induction n with
  | zero =>
    intro idx h _ h2 h3
    exact absurd h3 (by omega)
  | succ n ih =>
    intro idx h h1 h2 h3
    have hload : idx + 8 ≤ hi := Int.le_of_lt h2
    obtain ⟨dat1, hdat1, hb1⟩ := ldr_bounded b1 h1 hload
    obtain ⟨dat2, hdat2, hb2⟩ := ldr_bounded b2 h1 hload
    have hcount : (hi - idx).toNat = 8 + (hi - (idx + 8)).toNat := by omega
    have hrounds := rounds_eq t1 t2 mask trigger (hi - (idx + 8)).toNat hb1 hb2 8 0 (by decide) h
    rw [Nat.cast_zero, add_zero] at hrounds
    rw [unrollLoop, hdat1, hdat2, hcount, hrounds]
    simp only [Option.bind_eq_bind, Option.bind_some]
    have hlist : List.range' 0 8 = [0, 1, 2, 3, 4, 5, 6, 7] := rfl
    rw [hlist]
    cases hres : rounds t1 t2 mask trigger dat1 dat2 [0, 1, 2, 3, 4, 5, 6, 7] idx h with
    | mk hit r =>
      cases hit with
      | true => rfl
      | false =>
        obtain ⟨i, h'⟩ := r
        have hi8 : i = idx + 8 := rounds_miss _ hres
        subst hi8
        simp only
        split
        · exact ih _ h' (by omega) (by omega) (by omega)
        · exact unrollLoopEnd_eq h' (by omega) (by omega)

end Spec

/-- The unrolled scanner stores the index and returns the hash of the base scanner, and reads no
byte of either buffer at `max_idx` or beyond. -/
theorem rollingHash2RunUntilUnroll_eq (idx maxIdx : ℕ) (hidx : idx ≤ maxIdx)
    (hmax : maxIdx < 2 ^ 31) (t1 t2 : Byte → BitVec 64) (b1 b2 : ℤ → Byte)
    (h mask trigger : BitVec 64) :
    rollingHash2RunUntilUnroll (BitVec.ofNat 32 idx) maxIdx t1 t2 (bounded b1 idx maxIdx)
        (bounded b2 idx maxIdx) h mask trigger =
      some (rollingHash2RunUntilBase (BitVec.ofNat 32 idx) maxIdx t1 t2 b1 b2 h mask trigger) := by
  have hint : (BitVec.ofNat 32 idx).toInt = idx := by
    rw [BitVec.toInt_eq_toNat_of_lt (by rw [BitVec.toNat_ofNat]; omega), BitVec.toNat_ofNat]
    omega
  have hbase : rollingHash2RunUntilBase (BitVec.ofNat 32 idx) maxIdx t1 t2 b1 b2 h mask trigger =
      unrollExitRet (untilLoop t1 t2 b1 b2 mask trigger ((maxIdx : ℤ) - idx).toNat idx h).1
        (untilLoop t1 t2 b1 b2 mask trigger ((maxIdx : ℤ) - idx).toNat idx h).2 := by
    rw [rollingHash2RunUntilBase_eq, hint]
    rfl
  rw [hbase, rollingHash2RunUntilUnroll, hint]
  split
  · exact unrollLoopEnd_eq h (by omega) (by omega)
  · exact unrollLoop_eq _ _ h (by omega) (by omega) (by omega)

/-- Nine bytes of which the ninth alone is after the unrolled loop. -/
theorem rollingHash2RunUntilUnroll_eq_nine :
    rollingHash2RunUntilUnroll (BitVec.ofNat 32 0) (9 : ℕ) rollingHash2Table1 rollingHash2Table1
        (bounded (fun _ => 7#8) (0 : ℕ) (9 : ℕ)) (bounded (fun _ => 1#8) (0 : ℕ) (9 : ℕ)) 0#64
        0xff#64 0x100#64 =
      some (rollingHash2RunUntilBase (BitVec.ofNat 32 0) (9 : ℕ) rollingHash2Table1
        rollingHash2Table1 (fun _ => 7#8) (fun _ => 1#8) 0#64 0xff#64 0x100#64) :=
  rollingHash2RunUntilUnroll_eq 0 9 (by decide) (by decide) _ _ _ _ _ _ _

end IsalCrypto.RollingHash
