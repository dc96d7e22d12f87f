import IsalCrypto.Api
import IsalCrypto.Lib.Window
import Mathlib.Tactic.Linarith

/-!
# The inlined copy and clear helpers

`include/internal/memcpy_inline.h`, the SSE forms. A pointer leads to a buffer that has bytes at
some offsets only; a load or a store of any other byte has no result, and neither has a failed
`assert`. Lengths and offsets are 64-bit numbers that wrap around.

* `gte16Fixedlen_eq`, `gte16Varlen_eq`: the loops and the overlapping ends move just the bytes of
  their range.
* `memcpy_memclr_eq`: so do the four helpers, for every length that a buffer can have.
* `memcpy_memclr_iff`: of all 64-bit lengths, only the last ones below `2^64` fail; there the end of
  a chunk wraps around.
-/

namespace IsalCrypto.MemcpyInline

open IsalCrypto.Lib

/-! ## Accesses -/

/-- What a pointer leads to: the byte at an offset, if there is one. -/
abbrev Buffer := ℕ → Option Byte

/-- The buffer of `n` bytes. -/
def bufferOf (n : ℕ) (f : ℕ → Byte) : Buffer := fun k => if k < n then some (f k) else none

/-- What an access of some width at an offset loads. -/
abbrev Load := ℕ → ℕ → Option (List Byte)

/-- `load_intrinreg1` to `load_intrinreg16`. -/
def loadIntrinreg (src : Buffer) : Load := fun a width =>
  if ∀ k < width, (src (a + k)).isSome then some (window (fun k => (src k).getD 0#8) a width)
    else none

/-- The register `zero` of the `memclr` functions. -/
def zero : Load := fun _ width => some (List.replicate width 0#8)

/-- `store_intrinreg1` to `store_intrinreg16`. -/
def storeIntrinreg (dst : Buffer) (a : ℕ) (val : List Byte) : Option Buffer :=
  if ∀ k < val.length, (dst (a + k)).isSome then
    some fun k => if a ≤ k ∧ k < a + val.length then val[k - a]? else dst k
  else none

/-! ## Up to 32 bytes -/

/-- `MEMCPY_BETWEEN_N_AND_2N_BYTES` and `MEMCLR_BETWEEN_N_AND_2N_BYTES`. -/
def betweenNAnd2N (N : ℕ) (fixedwidth : Bool) (load : Load) (dst : Buffer) (nbytes : BitVec 64) :
    Option Buffer :=
  if ¬ (N ≤ nbytes.toNat ∧ nbytes.toNat ≤ 2 * N) then none
  else if N = 1 ∨ fixedwidth = true ∧ nbytes.toNat = N then do
    let head ← load 0 N
    storeIntrinreg dst 0 head
  else do
    let head ← load 0 N
    let tail ← load (nbytes - BitVec.ofNat 64 N).toNat N
    let dst ← storeIntrinreg dst 0 head
    storeIntrinreg dst (nbytes - BitVec.ofNat 64 N).toNat tail

/-- The `lte32` functions. -/
def lte32 (fixedwidth : Bool) (load : Load) (dst : Buffer) (nbytes : BitVec 64) : Option Buffer :=
  if ¬ nbytes.toNat ≤ 32 then none
  else if 16 ≤ nbytes.toNat then betweenNAnd2N 16 fixedwidth load dst nbytes
  else if 8 ≤ nbytes.toNat then betweenNAnd2N 8 fixedwidth load dst nbytes
  else if 4 ≤ nbytes.toNat then betweenNAnd2N 4 fixedwidth load dst nbytes
  else if 2 ≤ nbytes.toNat then betweenNAnd2N 2 fixedwidth load dst nbytes
  else if 1 ≤ nbytes.toNat then betweenNAnd2N 1 fixedwidth load dst nbytes
  else some dst

/-! ## From 16 bytes on -/

/-- The loads of 16 bytes into the first registers of `pool`. -/
def loadPool (load : Load) : ℕ → ℕ → Option (List (List Byte))
  | _, 0 => some []
  | a, j + 1 => do
    let reg ← load a 16
    let pool ← loadPool load (a + 16) j
    return reg :: pool

/-- The stores from `pool`. -/
def storePool : Buffer → ℕ → List (List Byte) → Option Buffer
  | dst, _, [] => some dst
  | dst, a, reg :: pool => do
    let dst ← storeIntrinreg dst a reg
    storePool dst (a + 16) pool

/-- The four moves of the loop over chunks of 64 bytes. -/
def movePool (load : Load) (a : ℕ) (dst : Buffer) : Option Buffer := do
  let pool ← loadPool load a 4
  storePool dst a pool

/-- A loop over chunks of `size` bytes, with a bound on how often it runs: `i` and the buffer at the
end. -/
def chunks (size : BitVec 64) (body : BitVec 64 → Buffer → Option Buffer) (nbytes : BitVec 64) :
    ℕ → BitVec 64 → Buffer → Option (BitVec 64 × Buffer)
  | 0, _, _ => none
  | bound + 1, i, dst =>
    if i + size ≤ nbytes then do
      let dst ← body i dst
      chunks size body nbytes bound (i + size) dst
    else some (i, dst)

/-- `memcpy_gte16_sse_fixedlen` and `memclr_gte16_sse_fixedlen`, on pointers `base` further. -/
def gte16Fixedlen (load : Load) (base : ℕ) (dst : Buffer) (nbytes : BitVec 64) : Option Buffer :=
  if ¬ 16 ≤ nbytes.toNat then none
  else do
    let (i, dst) ← chunks 64#64 (fun i dst => movePool load (base + i.toNat) dst) nbytes
      (nbytes.toNat / 64 + 1) 0#64 dst
    let remainingMoves := (nbytes - i) / 16#64
    let tailOffset := nbytes - 16#64
    if tailOffset &&& 15#64 = 0#64 then
      let pool ← loadPool load (base + i.toNat) remainingMoves.toNat
      if pool.length ≤ 4 then storePool dst (base + i.toNat) pool else none
    else
      let pool ← loadPool load (base + i.toNat) remainingMoves.toNat
      let tail ← load (base + tailOffset.toNat) 16
      -- `pool` has four registers, the tail goes into the next one
      if pool.length + 1 ≤ 4 then do
        let dst ← storePool dst (base + i.toNat) pool
        storeIntrinreg dst (base + tailOffset.toNat) tail
      else none

/-- One chunk of `size` bytes, if there is room. -/
def chunkIf (load : Load) (nbytes size : BitVec 64) (s : BitVec 64 × Buffer) :
    Option (BitVec 64 × Buffer) :=
  if s.1 + size ≤ nbytes then do
    let dst ← gte16Fixedlen load s.1.toNat s.2 size
    return (s.1 + size, dst)
  else some s

/-- `memcpy_gte16_sse_varlen` and `memclr_gte16_sse_varlen`. -/
def gte16Varlen (load : Load) (dst : Buffer) (nbytes : BitVec 64) : Option Buffer :=
  if ¬ 16 ≤ nbytes.toNat then none
  else do
    let s ← chunks 128#64 (fun i dst => gte16Fixedlen load i.toNat dst 128#64) nbytes
      (nbytes.toNat / 128 + 1) 0#64 dst
    let s ← chunkIf load nbytes 64#64 s
    let s ← chunkIf load nbytes 32#64 s
    let (_, dst) ← chunkIf load nbytes 16#64 s
    let i := nbytes - 16#64
    let tail ← load i.toNat 16
    storeIntrinreg dst i.toNat tail

/-! ## The functions -/

def memcpyLte32SseFixedlen (dst src : Buffer) (nbytes : BitVec 64) : Option Buffer :=
  lte32 true (loadIntrinreg src) dst nbytes

def memclrLte32SseFixedlen (dst : Buffer) (nbytes : BitVec 64) : Option Buffer :=
  lte32 true zero dst nbytes

def memcpyLte32SseVarlen (dst src : Buffer) (nbytes : BitVec 64) : Option Buffer :=
  lte32 false (loadIntrinreg src) dst nbytes

def memclrLte32SseVarlen (dst : Buffer) (nbytes : BitVec 64) : Option Buffer :=
  lte32 false zero dst nbytes

def memcpyGte16SseFixedlen (dst src : Buffer) (nbytes : BitVec 64) : Option Buffer :=
  gte16Fixedlen (loadIntrinreg src) 0 dst nbytes

def memclrGte16SseFixedlen (dst : Buffer) (nbytes : BitVec 64) : Option Buffer :=
  gte16Fixedlen zero 0 dst nbytes

def memcpyGte16SseVarlen (dst src : Buffer) (nbytes : BitVec 64) : Option Buffer :=
  gte16Varlen (loadIntrinreg src) dst nbytes

def memclrGte16SseVarlen (dst : Buffer) (nbytes : BitVec 64) : Option Buffer :=
  gte16Varlen zero dst nbytes

def memcpySseFixedlen (dst src : Buffer) (nbytes : BitVec 64) : Option Buffer :=
  if 16 ≤ nbytes.toNat then memcpyGte16SseFixedlen dst src nbytes
  else memcpyLte32SseFixedlen dst src nbytes

def memclrSseFixedlen (dst : Buffer) (nbytes : BitVec 64) : Option Buffer :=
  if 16 ≤ nbytes.toNat then memclrGte16SseFixedlen dst nbytes
  else memclrLte32SseFixedlen dst nbytes

def memcpySseVarlen (dst src : Buffer) (nbytes : BitVec 64) : Option Buffer :=
  if 16 ≤ nbytes.toNat then memcpyGte16SseVarlen dst src nbytes
  else memcpyLte32SseVarlen dst src nbytes

def memclrSseVarlen (dst : Buffer) (nbytes : BitVec 64) : Option Buffer :=
  if 16 ≤ nbytes.toNat then memclrGte16SseVarlen dst nbytes
  else memclrLte32SseVarlen dst nbytes

/-! ## Single accesses -/

/-- The first `m` bytes of the destination `d` are those of `s`. -/
def copied (n : ℕ) (d s : ℕ → Byte) (m : ℕ) : Buffer :=
  bufferOf n fun k => if k < m then s k else d k

/-- A load that knows the bytes of `s` at the offsets below `n`. -/
structure Source (load : Load) (s : ℕ → Byte) (n : ℕ) : Prop where
  inside : ∀ {a width}, a + width ≤ n → load a width = some (window s a width)
  length : ∀ {a width reg}, load a width = some reg → reg.length = width

section Accesses

variable {n a m width : ℕ} {d s f : ℕ → Byte} {reg : List Byte} {dst : Buffer} {load : Load}

theorem source_loadIntrinreg (n : ℕ) (s : ℕ → Byte) :
    Source (loadIntrinreg (bufferOf n s)) s n where
  inside := by
    intro a width hle
    have hsome : ∀ k < width, (bufferOf n s (a + k)).isSome := fun k hk => by
      rw [bufferOf, if_pos (by omega), Option.isSome_some]
    rw [loadIntrinreg, if_pos hsome]
    refine congrArg some (window_congr fun k _ hk => ?_)
    rw [bufferOf, if_pos (by omega), Option.getD_some]
  length := by
    intro a width reg hload
    rw [loadIntrinreg] at hload
    split at hload
    · rw [← Option.some.inj hload, length_window]
    · exact nomatch hload

theorem source_zero (n : ℕ) : Source zero (fun _ => 0#8) n where
  inside := by
    intro a width _
    rw [zero]
    refine congrArg some (List.ext_getElem (by rw [List.length_replicate, length_window]) ?_)
    intro k hk hk'
    rw [List.getElem_replicate, getElem_window]
  length := by
    intro a width reg hload
    rw [← Option.some.inj hload, List.length_replicate]

theorem copied_zero (n : ℕ) (d s : ℕ → Byte) : copied n d s 0 = bufferOf n d := rfl

theorem copied_full (n : ℕ) (d s : ℕ → Byte) : copied n d s n = bufferOf n s := by
  funext k
  rw [copied, bufferOf, bufferOf]
  split
  · rfl
  · rfl

/-- A store of the right bytes that begins among those copied and ends behind them. -/
theorem storeIntrinreg_copied (d s : ℕ → Byte) (ha : a ≤ m) (hm : m ≤ a + width)
    (hn : a + width ≤ n) :
    storeIntrinreg (copied n d s m) a (window s a width) = some (copied n d s (a + width)) := by
  have hsome : ∀ k < (window s a width).length, (copied n d s m (a + k)).isSome := fun k hk => by
    rw [length_window] at hk
    rw [copied, bufferOf, if_pos (by omega), Option.isSome_some]
  rw [storeIntrinreg, if_pos hsome, length_window]
  refine congrArg some (funext fun k => ?_)
  split
  · next hin =>
    have hk : k - a < (window s a width).length := by
      rw [length_window]
      omega
    rw [List.getElem?_eq_getElem hk, getElem_window, copied, bufferOf, if_pos (by omega),
      if_pos hin.2, Nat.add_sub_cancel' hin.1]
  · next hout =>
    rw [copied, copied, bufferOf, bufferOf]
    split
    · by_cases hk : k < a + width
      · rw [if_pos hk, if_pos (by omega)]
      · rw [if_neg hk, if_neg (by omega)]
    · rfl

/-- A store leaves a buffer of the same size, or fails. -/
theorem storeIntrinreg_bufferOf (h : storeIntrinreg (bufferOf n f) a reg = some dst) :
    ∃ g, dst = bufferOf n g := by
  rw [storeIntrinreg] at h
  split at h
  · next hsome =>
    obtain rfl := Option.some.inj h
    refine ⟨fun k => if a ≤ k ∧ k < a + reg.length then reg.getD (k - a) 0#8 else f k,
      funext fun k => ?_⟩
    rw [bufferOf, bufferOf]
    split
    · next hin =>
      have hk := hsome (k - a) (by omega)
      rw [Nat.add_sub_cancel' hin.1, bufferOf] at hk
      split at hk
      · next hlt =>
        rw [if_pos hlt, List.getD_eq_getElem?_getD, List.getElem?_eq_getElem (by omega),
          Option.getD_some]
      · exact Bool.noConfusion hk
    · rfl
  · exact nomatch h

/-- A store that reaches behind the buffer fails. -/
theorem storeIntrinreg_outside (f : ℕ → Byte) (hreg : 0 < reg.length) (hn : n < a + reg.length) :
    storeIntrinreg (bufferOf n f) a reg = none := by
  refine if_neg fun hsome => ?_
  have hlast := hsome (reg.length - 1) (by omega)
  rw [bufferOf, if_neg (by omega)] at hlast
  exact Bool.noConfusion hlast

end Accesses

/-! ## Chunks -/

section Chunks

variable {n a m base bound : ℕ} {d s f : ℕ → Byte} {dst : Buffer} {load : Load}
  {size nbytes i : BitVec 64} {body : BitVec 64 → Buffer → Option Buffer}

/-- The registers after the loads. -/
def pieces (s : ℕ → Byte) : ℕ → ℕ → List (List Byte)
  | _, 0 => []
  | a, j + 1 => window s a 16 :: pieces s (a + 16) j

@[simp]
theorem length_pieces (s : ℕ → Byte) (a j : ℕ) : (pieces s a j).length = j := by
  induction j generalizing a with
  | zero => rfl
  | succ j ih => rw [pieces, List.length_cons, ih]

theorem loadPool_eq (hsrc : Source load s n) {j : ℕ} (hn : a + 16 * j ≤ n) :
    loadPool load a j = some (pieces s a j) := by
  induction j generalizing a with
  | zero => rfl
  | succ j ih =>
    rw [loadPool, hsrc.inside (by omega), ih (by omega)]
    rfl

theorem storePool_eq (d s : ℕ → Byte) {j : ℕ} (hn : a + 16 * j ≤ n) :
    storePool (copied n d s a) a (pieces s a j) = some (copied n d s (a + 16 * j)) := by
  induction j generalizing a with
  | zero => rfl
  | succ j ih =>
    have hfirst : storeIntrinreg (copied n d s a) a (window s a 16) =
        some (copied n d s (a + 16)) :=
      storeIntrinreg_copied d s (Nat.le_refl a) (Nat.le_add_right a 16) (by omega)
    rw [pieces, storePool, hfirst, Option.bind_eq_bind, Option.bind_some, ih (by omega)]
    exact congrArg (fun m => some (copied n d s m)) (by omega)

/-- Registers that reach behind the buffer cannot be stored. -/
theorem storePool_outside (f : ℕ → Byte) {pool : List (List Byte)} (hpool : pool ≠ [])
    (hlength : ∀ reg ∈ pool, reg.length = 16) (hn : n < a + 16 * pool.length) :
    storePool (bufferOf n f) a pool = none := by
  induction pool generalizing a f with
  | nil => exact absurd rfl hpool
  | cons reg pool ih =>
    have hreg : reg.length = 16 := hlength reg List.mem_cons_self
    rw [List.length_cons] at hn
    rw [storePool]
    by_cases hfits : a + 16 ≤ n
    · cases hstore : storeIntrinreg (bufferOf n f) a reg with
      | none => rfl
      | some dst =>
        obtain ⟨g, rfl⟩ := storeIntrinreg_bufferOf hstore
        refine ih g (fun hnil => ?_) (fun r hr => hlength r (List.mem_cons_of_mem _ hr)) (by omega)
        rw [hnil, List.length_nil] at hn
        omega
    · rw [storeIntrinreg_outside f (by omega) (by omega)]
      rfl

theorem storePool_bufferOf {pool : List (List Byte)}
    (h : storePool (bufferOf n f) a pool = some dst) :
    ∃ g, dst = bufferOf n g := by
  induction pool generalizing a f with
  | nil =>
    obtain rfl := Option.some.inj h
    exact ⟨f, rfl⟩
  | cons reg pool ih =>
    rw [storePool, Option.bind_eq_bind, Option.bind_eq_some_iff] at h
    obtain ⟨dst', hstore, h⟩ := h
    obtain ⟨g, rfl⟩ := storeIntrinreg_bufferOf hstore
    exact ih h

theorem loadPool_length (hsrc : Source load s n) {j : ℕ} {pool : List (List Byte)}
    (h : loadPool load a j = some pool) : pool.length = j ∧ ∀ reg ∈ pool, reg.length = 16 := by
  induction j generalizing a pool with
  | zero =>
    obtain rfl := Option.some.inj h
    exact ⟨rfl, nofun⟩
  | succ j ih =>
    rw [loadPool, Option.bind_eq_bind, Option.bind_eq_some_iff] at h
    obtain ⟨reg, hreg, h⟩ := h
    rw [Option.bind_eq_bind, Option.bind_eq_some_iff] at h
    obtain ⟨rest, hrest, h⟩ := h
    obtain rfl := Option.some.inj h
    obtain ⟨hcount, hall⟩ := ih hrest
    exact ⟨by rw [List.length_cons, hcount], List.forall_mem_cons.mpr ⟨hsrc.length hreg, hall⟩⟩

/-- Rounds of the loop before the end. -/
theorem chunks_rounds (bound : ℕ) (i : BitVec 64)
    (hbody : ∀ i : BitVec 64, i.toNat + size.toNat ≤ nbytes.toNat →
      body i (copied n d s (base + i.toNat)) = some (copied n d s (base + i.toNat + size.toNat)))
    (r : ℕ) (hi : i.toNat + size.toNat * r ≤ nbytes.toNat) :
    chunks size body nbytes (bound + r) i (copied n d s (base + i.toNat)) =
      chunks size body nbytes bound (BitVec.ofNat 64 (i.toNat + size.toNat * r))
        (copied n d s (base + (i.toNat + size.toNat * r))) := by
  induction r generalizing i with
  | zero => rw [Nat.mul_zero, Nat.add_zero, Nat.add_zero, BitVec.ofNat_toNat, BitVec.setWidth_eq]
  | succ r ih =>
    rw [Nat.mul_succ] at hi ⊢
    have hnext : (i + size).toNat = i.toNat + size.toNat := by
      rw [BitVec.toNat_add, Nat.mod_eq_of_lt (by have := nbytes.isLt; omega)]
    have hle : i + size ≤ nbytes := BitVec.le_def.mpr (by omega)
    have hrest := ih (i + size) (by omega)
    rw [hnext] at hrest
    rw [← Nat.add_assoc, chunks, if_pos hle, hbody i (by omega), Option.bind_eq_bind,
      Option.bind_some, Nat.add_assoc base, hrest, show i.toNat + size.toNat + size.toNat * r =
        i.toNat + (size.toNat * r + size.toNat) by omega]

/-- The whole loop, when the end of the next chunk is below `2^64`. -/
theorem chunks_eq (body : BitVec 64 → Buffer → Option Buffer) (base : ℕ) (hsize : 0 < size.toNat)
    (hnbytes : nbytes.toNat + size.toNat < 2 ^ 64)
    (hbody : ∀ i : BitVec 64, i.toNat + size.toNat ≤ nbytes.toNat →
      body i (copied n d s (base + i.toNat)) = some (copied n d s (base + i.toNat + size.toNat))) :
    chunks size body nbytes (nbytes.toNat / size.toNat + 1) 0#64 (copied n d s base) =
      some (BitVec.ofNat 64 (size.toNat * (nbytes.toNat / size.toNat)),
        copied n d s (base + size.toNat * (nbytes.toNat / size.toNat))) := by
  have hmul := Nat.mul_div_le nbytes.toNat size.toNat
  have hend := Nat.lt_mul_div_succ nbytes.toNat hsize
  have hrounds := chunks_rounds 1 0#64 hbody (nbytes.toNat / size.toNat)
    (by rw [BitVec.toNat_ofNat, Nat.zero_mod, Nat.zero_add]; exact hmul)
  rw [BitVec.toNat_ofNat, Nat.zero_mod, Nat.zero_add, Nat.add_zero] at hrounds
  rw [Nat.add_comm _ 1, hrounds, chunks, if_neg]
  rw [BitVec.le_def, BitVec.toNat_add, BitVec.toNat_ofNat]
  rw [Nat.mul_succ] at hend
  rw [Nat.mod_eq_of_lt (show size.toNat * (nbytes.toNat / size.toNat) < 2 ^ 64 by omega),
    Nat.mod_eq_of_lt (by omega)]
  omega

end Chunks

/-! ## From 16 bytes on -/

section Gte16

variable {n base : ℕ} {d s f : ℕ → Byte} {dst : Buffer} {load : Load} {nbytes size i : BitVec 64}

theorem movePool_eq (hsrc : Source load s n) (d : ℕ → Byte) (hn : base + 64 ≤ n) :
    movePool load base (copied n d s base) = some (copied n d s (base + 64)) := by
  rw [movePool, loadPool_eq hsrc (by omega), Option.bind_eq_bind, Option.bind_some,
    storePool_eq d s (by omega)]

theorem movePool_outside (hsrc : Source load s n) (f : ℕ → Byte) (hn : n < base + 64) :
    movePool load base (bufferOf n f) = none := by
  rw [movePool]
  cases hload : loadPool load base 4 with
  | none => rfl
  | some pool =>
    obtain ⟨hcount, hall⟩ := loadPool_length hsrc hload
    exact storePool_outside f (fun hnil => by rw [hnil] at hcount; exact absurd hcount (by decide))
      hall
      (by omega)

theorem movePool_bufferOf (h : movePool load base (bufferOf n f) = some dst) :
    ∃ g, dst = bufferOf n g := by
  rw [movePool, Option.bind_eq_bind, Option.bind_eq_some_iff] at h
  obtain ⟨pool, -, hstore⟩ := h
  exact storePool_bufferOf hstore

theorem tail_and_eq_zero_iff (h : 16 ≤ nbytes.toNat) :
    (nbytes - 16#64) &&& 15#64 = 0#64 ↔ nbytes.toNat % 16 = 0 := by
  have hsub : (nbytes - 16#64).toNat = nbytes.toNat - 16 :=
    BitVec.toNat_sub_of_le (BitVec.le_def.mpr h)
  have hand : ((nbytes - 16#64) &&& 15#64).toNat = (nbytes.toNat - 16) % 16 := by
    rw [BitVec.toNat_and, hsub]
    exact Nat.and_two_pow_sub_one_eq_mod _ 4
  rw [← BitVec.toNat_inj, hand, BitVec.toNat_ofNat]
  omega

theorem gte16Fixedlen_eq (hsrc : Source load s n) (d : ℕ → Byte) (h16 : 16 ≤ nbytes.toNat)
    (hnbytes : nbytes.toNat + 64 < 2 ^ 64) (hn : base + nbytes.toNat ≤ n) :
    gte16Fixedlen load base (copied n d s base) nbytes =
      some (copied n d s (base + nbytes.toNat)) := by
  have hbody : ∀ i : BitVec 64, i.toNat + 64 ≤ nbytes.toNat → movePool load (base + i.toNat)
      (copied n d s (base + i.toNat)) = some (copied n d s (base + i.toNat + 64)) :=
    fun i hi => movePool_eq hsrc d (by omega)
  have hloop : chunks 64#64 (fun i dst => movePool load (base + i.toNat) dst) nbytes
      (nbytes.toNat / 64 + 1) 0#64 (copied n d s base) =
        some (BitVec.ofNat 64 (64 * (nbytes.toNat / 64)),
          copied n d s (base + 64 * (nbytes.toNat / 64))) :=
    chunks_eq _ base (by decide) hnbytes hbody
  have hi : (BitVec.ofNat 64 (64 * (nbytes.toNat / 64))).toNat = 64 * (nbytes.toNat / 64) := by
    rw [BitVec.toNat_ofNat, Nat.mod_eq_of_lt (by omega)]
  have htail : (nbytes - 16#64).toNat = nbytes.toNat - 16 :=
    BitVec.toNat_sub_of_le (BitVec.le_def.mpr h16)
  have hmoves : ((nbytes - BitVec.ofNat 64 (64 * (nbytes.toNat / 64))) / 16#64).toNat =
      nbytes.toNat % 64 / 16 := by
    rw [BitVec.toNat_udiv, BitVec.toNat_sub_of_le (BitVec.le_def.mpr (by rw [hi]; omega)), hi,
      show (16#64).toNat = 16 from rfl]
    omega
  rw [gte16Fixedlen, if_neg (not_not.mpr h16), hloop, Option.bind_eq_bind, Option.bind_some]
  dsimp only
  rw [hi, hmoves, htail, loadPool_eq hsrc (by omega)]
  split
  · next hzero =>
    rw [tail_and_eq_zero_iff h16] at hzero
    rw [Option.bind_eq_bind, Option.bind_some, length_pieces, if_pos (by omega),
      storePool_eq d s (by omega)]
    exact congrArg (fun m => some (copied n d s m)) (by omega)
  · next hne =>
    rw [tail_and_eq_zero_iff h16] at hne
    rw [Option.bind_eq_bind, Option.bind_some, hsrc.inside (by omega), Option.bind_eq_bind,
      Option.bind_some, length_pieces, if_pos (by omega), storePool_eq d s (by omega),
      Option.bind_eq_bind, Option.bind_some,
      storeIntrinreg_copied d s (by omega) (by omega) (by omega)]
    exact congrArg (fun m => some (copied n d s m)) (by omega)

/-- The chunk of 128 bytes that reaches behind the buffer. -/
theorem gte16Fixedlen_outside (hsrc : Source load s n) (f : ℕ → Byte) (hn : n < base + 128) :
    gte16Fixedlen load base (bufferOf n f) 128#64 = none := by
  have hloop : chunks 64#64 (fun i dst => movePool load (base + i.toNat) dst) 128#64 3 0#64
      (bufferOf n f) = none := by
    rw [chunks, if_pos (by decide)]
    cases hfirst : movePool load (base + (0#64).toNat) (bufferOf n f) with
    | none => rfl
    | some dst =>
      obtain ⟨g, rfl⟩ := movePool_bufferOf hfirst
      have hsecond : movePool load (base + (0#64 + 64#64).toNat) (bufferOf n g) = none :=
        movePool_outside hsrc g hn
      rw [Option.bind_eq_bind, Option.bind_some, chunks, if_pos (by decide), hsecond]
      rfl
  rw [gte16Fixedlen, if_neg (by decide), show (128#64).toNat / 64 + 1 = 3 from rfl, hloop]
  rfl

/-- One of the last chunks, on the bytes of which less than two are left. -/
theorem chunkIf_eq (i size : BitVec 64) (hsrc : Source load s n) (d : ℕ → Byte)
    (hnbytes : nbytes.toNat = n) (hn : n + 128 < 2 ^ 64) (hsize : 16 ≤ size.toNat)
    (hsize' : size.toNat ≤ 64) (hi : i.toNat ≤ n) (hleft : n < i.toNat + 2 * size.toNat) :
    ∃ j : BitVec 64, chunkIf load nbytes size (i, copied n d s i.toNat) =
      some (j, copied n d s j.toNat) ∧ j.toNat ≤ n ∧ n < j.toNat + size.toNat := by
  have hadd : (i + size).toNat = i.toNat + size.toNat := by
    rw [BitVec.toNat_add, Nat.mod_eq_of_lt (by omega)]
  have hiff : i + size ≤ nbytes ↔ i.toNat + size.toNat ≤ n := by rw [BitVec.le_def, hadd, hnbytes]
  rw [chunkIf]
  by_cases hle : i.toNat + size.toNat ≤ n
  · refine ⟨i + size, ?_, by omega, by omega⟩
    rw [if_pos (hiff.mpr hle), gte16Fixedlen_eq hsrc d hsize (by omega) hle, hadd]
    rfl
  · exact ⟨i, if_neg fun h => hle (hiff.mp h), hi, by omega⟩

theorem gte16Varlen_eq (hsrc : Source load s n) (d : ℕ → Byte) (hnbytes : nbytes.toNat = n)
    (h16 : 16 ≤ n) (hn : n + 128 < 2 ^ 64) :
    gte16Varlen load (bufferOf n d) nbytes = some (bufferOf n s) := by
  have hbody : ∀ i : BitVec 64, i.toNat + 128 ≤ nbytes.toNat → gte16Fixedlen load i.toNat
      (copied n d s (0 + i.toNat)) 128#64 = some (copied n d s (0 + i.toNat + 128)) :=
        fun i hi => by
    rw [Nat.zero_add]
    exact gte16Fixedlen_eq hsrc d (by decide) (by decide) (by rw [← hnbytes]; exact hi)
  have hi : (BitVec.ofNat 64 (128 * (n / 128))).toNat = 128 * (n / 128) := by
    rw [BitVec.toNat_ofNat, Nat.mod_eq_of_lt (by omega)]
  have hloop : chunks 128#64 (fun i dst => gte16Fixedlen load i.toNat dst 128#64) nbytes
    (n / 128 + 1) 0#64
      (copied n d s 0) = some (BitVec.ofNat 64 (128 * (n / 128)),
        copied n d s (BitVec.ofNat 64 (128 * (n / 128))).toNat) := by
    have h : chunks 128#64 (fun i dst => gte16Fixedlen load i.toNat dst 128#64) nbytes
        (nbytes.toNat / 128 + 1) 0#64 (copied n d s 0) =
          some (BitVec.ofNat 64 (128 * (nbytes.toNat / 128)),
            copied n d s (0 + 128 * (nbytes.toNat / 128))) :=
      chunks_eq _ 0 (by decide) (by rw [hnbytes]; exact hn) hbody
    rw [hnbytes, Nat.zero_add] at h
    rw [hi]
    exact h
  have htail : (nbytes - 16#64).toNat = n - 16 := by
    rw [BitVec.toNat_sub_of_le (BitVec.le_def.mpr (by rw [hnbytes]; exact h16)), hnbytes]
    rfl
  obtain ⟨j₁, h₁, hj₁, hleft₁⟩ :=
    chunkIf_eq (BitVec.ofNat 64 (128 * (n / 128))) 64#64 hsrc d hnbytes hn
    (by decide) (by decide) (by omega) (by rw [hi, show (64#64).toNat = 64 from rfl]; omega)
  obtain ⟨j₂, h₂, hj₂, hleft₂⟩ :=
    chunkIf_eq j₁ 32#64 hsrc d hnbytes hn (by decide) (by decide) hj₁ hleft₁
  obtain ⟨j₃, h₃, hj₃, hleft₃⟩ :=
    chunkIf_eq j₂ 16#64 hsrc d hnbytes hn (by decide) (by decide) hj₂ hleft₂
  rw [show (16#64).toNat = 16 from rfl] at hleft₃
  rw [gte16Varlen, if_neg (by rw [hnbytes]; exact not_not.mpr h16), hnbytes, ← copied_zero n d s,
    hloop]
  simp only [Option.bind_eq_bind, Option.bind_some, h₁, h₂, h₃]
  rw [htail, hsrc.inside (by omega), Option.bind_some,
    storeIntrinreg_copied d s (by omega) (by omega) (by omega), Nat.sub_add_cancel h16, copied_full]

/-! ## Up to 32 bytes -/

theorem betweenNAnd2N_eq {N : ℕ} (hsrc : Source load s n) (d : ℕ → Byte) (fixedwidth : Bool)
    (hnbytes : nbytes.toNat = n) (hle : N ≤ n) (hle' : n ≤ 2 * N) (hone : N = 1 → n = 1) :
    betweenNAnd2N N fixedwidth load (bufferOf n d) nbytes = some (bufferOf n s) := by
  rw [betweenNAnd2N, hnbytes, if_neg (not_not.mpr ⟨hle, hle'⟩), ← copied_zero n d s]
  have hhead : storeIntrinreg (copied n d s 0) 0 (window s 0 N) = some (copied n d s (0 + N)) :=
    storeIntrinreg_copied d s (Nat.le_refl 0) (Nat.zero_le _) (by omega)
  rw [hsrc.inside (by omega), Option.bind_eq_bind, Option.bind_some]
  split
  · next hwhole =>
    have hN : N = n := by omega
    rw [hhead, Nat.zero_add, hN, copied_full]
  · next htwo =>
    have hsub : (nbytes - BitVec.ofNat 64 N).toNat = n - N := by
      have hlt := nbytes.isLt
      have hN : (BitVec.ofNat 64 N).toNat = N := by
        rw [BitVec.toNat_ofNat, Nat.mod_eq_of_lt (by omega)]
      rw [BitVec.toNat_sub_of_le (BitVec.le_def.mpr (by rw [hN]; omega)), hN, hnbytes]
    rw [hsub, hsrc.inside (by omega), Option.bind_eq_bind, Option.bind_some, hhead,
      Option.bind_some, Option.bind_some, storeIntrinreg_copied d s (by omega) (by omega)
        (by omega), Nat.sub_add_cancel hle, copied_full]

theorem lte32_eq (hsrc : Source load s n) (d : ℕ → Byte) (fixedwidth : Bool)
    (hnbytes : nbytes.toNat = n) (hn : n ≤ 32) :
    lte32 fixedwidth load (bufferOf n d) nbytes = some (bufferOf n s) := by
  rw [lte32, hnbytes, if_neg (not_not.mpr hn)]
  split
  · exact betweenNAnd2N_eq hsrc d fixedwidth hnbytes (by omega) (by omega) nofun
  split
  · exact betweenNAnd2N_eq hsrc d fixedwidth hnbytes (by omega) (by omega) nofun
  split
  · exact betweenNAnd2N_eq hsrc d fixedwidth hnbytes (by omega) (by omega) nofun
  split
  · exact betweenNAnd2N_eq hsrc d fixedwidth hnbytes (by omega) (by omega) nofun
  split
  · exact betweenNAnd2N_eq hsrc d fixedwidth hnbytes (by omega) (by omega) fun _ => by omega
  · obtain rfl : n = 0 := by omega
    rfl

/-! ## The last lengths below `2^64` -/

/-- The end of the last chunk wraps around to 0, so that the loop goes on there. -/
theorem chunks_wrap (q : ℕ) (body : BitVec 64 → Buffer → Option Buffer)
    (hq : size.toNat * (q + 1) = 2 ^ 64) (hnbytes : 2 ^ 64 ≤ nbytes.toNat + size.toNat)
    (hbody : ∀ i : BitVec 64, i.toNat + size.toNat ≤ nbytes.toNat →
      body i (copied n d s (0 + i.toNat)) = some (copied n d s (0 + i.toNat + size.toNat)))
    (hlast : body (BitVec.ofNat 64 (size.toNat * q)) (copied n d s (size.toNat * q)) = none) :
    chunks size body nbytes (nbytes.toNat / size.toNat + 1) 0#64 (bufferOf n d) = none := by
  have hlt := nbytes.isLt
  have hsize : 0 < size.toNat := Nat.pos_of_ne_zero fun hzero => by
    rw [hzero, Nat.zero_mul] at hq
    exact absurd hq (by decide)
  rw [Nat.mul_succ] at hq
  have hdiv : nbytes.toNat / size.toNat = q :=
    Nat.div_eq_of_lt_le (by rw [Nat.mul_comm]; omega) (by rw [Nat.succ_mul, Nat.mul_comm]; omega)
  have hrounds := chunks_rounds 1 0#64 hbody q (by rw [BitVec.toNat_ofNat]; omega)
  rw [BitVec.toNat_ofNat, Nat.zero_mod, Nat.zero_add, Nat.zero_add] at hrounds
  have hwrap : BitVec.ofNat 64 (size.toNat * q) + size = 0#64 := by
    refine BitVec.eq_of_toNat_eq ?_
    rw [BitVec.toNat_add, BitVec.toNat_ofNat, BitVec.toNat_ofNat]
    omega
  rw [hdiv, Nat.add_comm, ← copied_zero n d s, hrounds, chunks, hwrap,
    if_pos (BitVec.le_def.mpr (Nat.zero_le _)), Nat.zero_add, hlast]
  rfl

theorem gte16Fixedlen_wrap (hsrc : Source load s n) (d : ℕ → Byte) (hnbytes : nbytes.toNat = n)
    (hn : 2 ^ 64 ≤ n + 64) : gte16Fixedlen load 0 (bufferOf n d) nbytes = none := by
  have hlt := nbytes.isLt
  have hbody : ∀ i : BitVec 64, i.toNat + 64 ≤ nbytes.toNat → movePool load (0 + i.toNat)
      (copied n d s (0 + i.toNat)) = some (copied n d s (0 + i.toNat + 64)) :=
    fun i hi => movePool_eq hsrc d (by omega)
  have hloop : chunks 64#64 (fun i dst => movePool load (0 + i.toNat) dst) nbytes
      (nbytes.toNat / 64 + 1) 0#64 (bufferOf n d) = none :=
    chunks_wrap (2 ^ 58 - 1) _ (by decide) (by rw [hnbytes]; exact hn) hbody
      (movePool_outside hsrc _
        (by rw [BitVec.toNat_ofNat, show (64#64).toNat = 64 from rfl]; omega))
  rw [gte16Fixedlen, if_neg (by omega), hloop]
  rfl

theorem gte16Varlen_wrap (hsrc : Source load s n) (d : ℕ → Byte) (hnbytes : nbytes.toNat = n)
    (hn : 2 ^ 64 ≤ n + 128) : gte16Varlen load (bufferOf n d) nbytes = none := by
  have hlt := nbytes.isLt
  have hbody : ∀ i : BitVec 64, i.toNat + 128 ≤ nbytes.toNat → gte16Fixedlen load i.toNat
      (copied n d s (0 + i.toNat)) 128#64 = some (copied n d s (0 + i.toNat + 128)) :=
        fun i hi => by
    rw [Nat.zero_add]
    exact gte16Fixedlen_eq hsrc d (by decide) (by decide) (by rw [← hnbytes]; exact hi)
  have hloop : chunks 128#64 (fun i dst => gte16Fixedlen load i.toNat dst 128#64) nbytes
      (nbytes.toNat / 128 + 1) 0#64 (bufferOf n d) = none :=
    chunks_wrap (2 ^ 57 - 1) _ (by decide) (by rw [hnbytes]; exact hn) hbody
      (gte16Fixedlen_outside hsrc _
        (by rw [BitVec.toNat_ofNat, show (128#64).toNat = 128 from rfl]; omega))
  rw [gte16Varlen, if_neg (by omega), hloop]
  rfl

/-! ## Every length -/

/-- What the fixed-length functions do. -/
theorem fixedlen_iff (hsrc : Source load s n) (d : ℕ → Byte) (hnbytes : nbytes.toNat = n) :
    (if 16 ≤ nbytes.toNat then gte16Fixedlen load 0 (bufferOf n d) nbytes
      else lte32 true load (bufferOf n d) nbytes) = some (bufferOf n s) ↔ n < 2 ^ 64 - 64 := by
  rw [hnbytes]
  split
  · next h16 =>
    constructor
    · intro hok
      by_contra hge
      rw [gte16Fixedlen_wrap hsrc d hnbytes (by omega)] at hok
      exact nomatch hok
    · intro hlt
      have hcopy : gte16Fixedlen load 0 (copied n d s 0) nbytes =
          some (copied n d s (0 + nbytes.toNat)) :=
        gte16Fixedlen_eq hsrc d (by omega) (by omega) (by omega)
      rw [Nat.zero_add, hnbytes, copied_full] at hcopy
      exact hcopy
  · exact iff_of_true (lte32_eq hsrc d true hnbytes (by omega)) (by omega)

/-- What the variable-length functions do. -/
theorem varlen_iff (hsrc : Source load s n) (d : ℕ → Byte) (hnbytes : nbytes.toNat = n) :
    (if 16 ≤ nbytes.toNat then gte16Varlen load (bufferOf n d) nbytes
      else lte32 false load (bufferOf n d) nbytes) = some (bufferOf n s) ↔ n < 2 ^ 64 - 128 := by
  rw [hnbytes]
  split
  · next h16 =>
    constructor
    · intro hok
      by_contra hge
      rw [gte16Varlen_wrap hsrc d hnbytes (by omega)] at hok
      exact nomatch hok
    · exact fun hlt => gte16Varlen_eq hsrc d hnbytes h16 (by omega)
  · exact iff_of_true (lte32_eq hsrc d false hnbytes (by omega)) (by omega)

end Gte16

/-- For every length the functions copy or clear the bytes of their range and touch no others just
if the length is not one of the last 64, or for the variable-length functions 128, below `2^64`. -/
theorem memcpy_memclr_iff (n : BitVec 64) (d s : ℕ → Byte) :
    let dst := bufferOf n.toNat d
    let src := bufferOf n.toNat s
    let zeros := bufferOf n.toNat fun _ => 0#8
    (memcpySseFixedlen dst src n = some src ↔ n.toNat < 2 ^ 64 - 64) ∧
      (memclrSseFixedlen dst n = some zeros ↔ n.toNat < 2 ^ 64 - 64) ∧
      (memcpySseVarlen dst src n = some src ↔ n.toNat < 2 ^ 64 - 128) ∧
      (memclrSseVarlen dst n = some zeros ↔ n.toNat < 2 ^ 64 - 128) :=
  ⟨fixedlen_iff (source_loadIntrinreg _ s) d rfl, fixedlen_iff (source_zero _) d rfl,
    varlen_iff (source_loadIntrinreg _ s) d rfl, varlen_iff (source_zero _) d rfl⟩

/-- To clear `2^64 - 128` bytes, the loop goes on behind them. -/
theorem memclrSseVarlen_wrap :
    memclrSseVarlen (bufferOf (2 ^ 64 - 128) fun _ => 0#8) (BitVec.ofNat 64 (2 ^ 64 - 128)) =
      none := by
  have hn : (BitVec.ofNat 64 (2 ^ 64 - 128)).toNat = 2 ^ 64 - 128 := by decide
  rw [memclrSseVarlen, if_pos (by rw [hn]; decide)]
  exact gte16Varlen_wrap (source_zero _) _ hn (by decide)

/-- For every length that a buffer can have, the functions copy or clear the bytes of their range.
They read and write no others: the buffers have none. -/
theorem memcpy_memclr_eq (n : BitVec 64) (hn : n.toNat < 2 ^ 63) (d s : ℕ → Byte) :
    let dst := bufferOf n.toNat d
    let src := bufferOf n.toNat s
    let zeros := bufferOf n.toNat fun _ => 0#8
    memcpySseFixedlen dst src n = some src ∧ memclrSseFixedlen dst n = some zeros ∧
      memcpySseVarlen dst src n = some src ∧ memclrSseVarlen dst n = some zeros := by
  obtain ⟨hcpyFixed, hclrFixed, hcpyVar, hclrVar⟩ := memcpy_memclr_iff n d s
  have hfixed : n.toNat < 2 ^ 64 - 64 := Nat.lt_of_lt_of_le hn (by decide)
  have hvar : n.toNat < 2 ^ 64 - 128 := Nat.lt_of_lt_of_le hn (by decide)
  exact ⟨hcpyFixed.mpr hfixed, hclrFixed.mpr hfixed, hcpyVar.mpr hvar, hclrVar.mpr hvar⟩

/-- 247 bytes: the chunks of 128, 64, 32 and 16 bytes, and 7 bytes that the last access adds. -/
theorem memcpy_memclr_eq_247 :
    let dst := bufferOf 247 fun _ => 0xaa#8
    let src := bufferOf 247 fun k => BitVec.ofNat 8 k
    let zeros := bufferOf 247 fun _ => 0#8
    memcpySseFixedlen dst src 247#64 = some src ∧ memclrSseFixedlen dst 247#64 = some zeros ∧
      memcpySseVarlen dst src 247#64 = some src ∧ memclrSseVarlen dst 247#64 = some zeros :=
  memcpy_memclr_eq 247#64 (by decide) (fun _ => 0xaa#8) fun k => BitVec.ofNat 8 k

end IsalCrypto.MemcpyInline
