import IsalCrypto.MhSha1.BlockBase

/-!
# The reference block function of multi-hash SHA-1 on its arrays

`mh_sha1/mh_sha1_ref.c`: `mh_sha1_block_ref` with `digests` and `frame_buffer` as the arrays of
words that it casts them to. The digests are reshaped from 5 rows of 16 to 16 rows of 5 and back,
each time through the frame buffer.

* `mhSha1BlockRefArrays_column`: segment `s` goes through the compressions of its blocks; block `b`
  is read at `1024 * b` modulo `2^32`.
* `mhSha1BlockRefArrays_eq`: the digests are those of `mhSha1BlockRef`, which has them as rows.
* `mhSha1Block_iff`: this is what the base function does, for every input and all digests, just up
  to `2^22` blocks.
-/

namespace IsalCrypto.MhSha1

open IsalCrypto.Lib IsalCrypto.Mh

/-- The words of `digests` and of `frame_buffer`. -/
structure RefArrays where
  digests : ℕ → BitVec 32
  tempBuffer : ℕ → BitVec 32

/-- The indices of two nested loops. -/
def loopIndices (outer inner : ℕ) : List (ℕ × ℕ) :=
  (List.range outer).flatMap fun j => (List.range inner).map fun i => (j, i)

/-- The stores of a loop. -/
def storeLoop {ι : Type*} (index : ι → ℕ) (value : ι → BitVec 32) (l : List ι) (a : ℕ → BitVec 32) :
    ℕ → BitVec 32 :=
  l.foldl (fun a p => Function.update a (index p) (value p)) a

/-- `memcpy` of words. -/
def memcpyWords (dst src : ℕ → BitVec 32) (n : ℕ) : ℕ → BitVec 32 :=
  fun k => if k < n then src k else dst k

/-- From 5 rows of 16 to 16 rows of 5. -/
def reshape (s : RefArrays) : RefArrays :=
  let temp := storeLoop (fun p => p.1 * 5 + p.2) (fun p => s.digests (p.2 * 16 + p.1))
    (loopIndices 16 5)
    s.tempBuffer
  ⟨memcpyWords s.digests temp (5 * 16), temp⟩

/-- From 16 rows of 5 to 5 rows of 16. -/
def reshapeBack (s : RefArrays) : RefArrays :=
  let temp := storeLoop (fun p => p.2 * 16 + p.1) (fun p => s.digests (p.1 * 5 + p.2))
    (loopIndices 16 5)
    s.tempBuffer
  ⟨memcpyWords s.digests temp (5 * 16), temp⟩

/-- `transform_input`, with `transform_input_single` on every segment. -/
def transformInputArray (input : ℕ → BitVec 32) (block : BitVec 32) (newData : ℕ → BitVec 32) :
    ℕ → BitVec 32 :=
  storeLoop (fun p => 16 * p.1 + p.2)
    (fun p => input ((block * 1024#32).toNat / 4 + (16 * p.2 + p.1))) (loopIndices 16 16) newData

/-- `sha1_update_one_seg`. -/
def sha1UpdateOneSeg (newData digests : ℕ → BitVec 32) (seg : ℕ) : ℕ → BitVec 32 :=
  let digest := sha1SingleForMhSha1Ref (fun i => newData (16 * seg + i))
    (Vector.ofFn fun i : Fin 5 => digests (seg * 5 + i))
  fun k => if seg * 5 ≤ k ∧ k < seg * 5 + 5 then digest.toList.getD (k - seg * 5) 0#32
    else digests k

/-- The body of the loop over the blocks, with `sha1_update_all_segs`. -/
def refBlockArrays (input : ℕ → Byte) (s : RefArrays) (i : ℕ) : RefArrays :=
  let temp := transformInputArray (fun k => load32 input (4 * k)) (BitVec.ofNat 32 i) s.tempBuffer
  ⟨(List.range 16).foldl (sha1UpdateOneSeg temp) s.digests, temp⟩

/-- `mh_sha1_block_ref`. -/
def mhSha1BlockRefArrays (input : ℕ → Byte) (numBlocks : BitVec 32) (s : RefArrays) : RefArrays :=
  reshapeBack ((List.range numBlocks.toNat).foldl (refBlockArrays input) (reshape s))

/-! ## Loops that store -/

section Store

variable {ι : Type*} {index : ι → ℕ} {value : ι → BitVec 32} {l : List ι} {a : ℕ → BitVec 32}

theorem storeLoop_of_ne {k : ℕ} (hk : ∀ p ∈ l, index p ≠ k) :
    storeLoop index value l a k = a k := by
  induction l generalizing a with
  | nil => rfl
  | cons q l ih =>
    have hrest := @ih (Function.update a (index q) (value q)) fun p hp =>
      hk p (List.mem_cons_of_mem _ hp)
    exact hrest.trans (Function.update_of_ne (hk q List.mem_cons_self).symm ..)

/-- Every entry is there at the end, when no two are stored at one place. -/
theorem storeLoop_apply (hinj : ∀ p ∈ l, ∀ q ∈ l, index p = index q → p = q) {p : ι} (hp : p ∈ l) :
    storeLoop index value l a (index p) = value p := by
  induction l generalizing a with
  | nil => exact nomatch hp
  | cons q l ih =>
    by_cases hl : p ∈ l
    · exact ih (fun x hx y hy => hinj x (List.mem_cons_of_mem _ hx) y (List.mem_cons_of_mem _ hy))
        hl
    · obtain rfl : p = q := (List.mem_cons.mp hp).resolve_right hl
      have hother : ∀ x ∈ l, index x ≠ index p := fun x hx he =>
        hl (hinj x (List.mem_cons_of_mem _ hx) p List.mem_cons_self he ▸ hx)
      exact (storeLoop_of_ne hother).trans (Function.update_self ..)

theorem memcpyWords_of_lt (dst src : ℕ → BitVec 32) {n k : ℕ} (hk : k < n) :
    memcpyWords dst src n k = src k := if_pos hk

theorem mem_loopIndices {outer inner : ℕ} {p : ℕ × ℕ} :
    p ∈ loopIndices outer inner ↔ p.1 < outer ∧ p.2 < inner := by
  obtain ⟨j, i⟩ := p
  simp [loopIndices]

end Store

/-! ## Sixteen rows of five -/

/-- Row `s` of the digests as 16 rows of 5. -/
def rowOf (a : ℕ → BitVec 32) (s : ℕ) : Sha1.Digest := Vector.ofFn fun i : Fin 5 => a (s * 5 + i)

/-- Column `s` of the digests as 5 rows of 16. -/
def columnOf (a : ℕ → BitVec 32) (s : ℕ) : Sha1.Digest :=
  Vector.ofFn fun i : Fin 5 => a (i * 16 + s)

section Rows

variable {input : ℕ → Byte} {a newData : ℕ → BitVec 32} {s : RefArrays} {j : ℕ}

theorem rowOf_reshape (s : RefArrays) (hj : j < 16) :
    rowOf (reshape s).digests j = columnOf s.digests j := by
  refine Vector.ext fun i hi => ?_
  rw [rowOf, columnOf, Vector.getElem_ofFn, Vector.getElem_ofFn]
  refine (memcpyWords_of_lt _ _ (show j * 5 + i < 5 * 16 by omega)).trans ?_
  refine @storeLoop_apply (ℕ × ℕ) (fun p => p.1 * 5 + p.2) _ _ _ ?_ (j, i)
    (mem_loopIndices.mpr ⟨hj, hi⟩)
  intro p hp q hq he
  rw [mem_loopIndices] at hp hq
  exact Prod.ext (by omega) (by omega)

theorem columnOf_reshapeBack (s : RefArrays) (hj : j < 16) :
    columnOf (reshapeBack s).digests j = rowOf s.digests j := by
  refine Vector.ext fun i hi => ?_
  rw [rowOf, columnOf, Vector.getElem_ofFn, Vector.getElem_ofFn]
  refine (memcpyWords_of_lt _ _ (show i * 16 + j < 5 * 16 by omega)).trans ?_
  refine @storeLoop_apply (ℕ × ℕ) (fun p => p.2 * 16 + p.1) _ _ _ ?_ (j, i)
    (mem_loopIndices.mpr ⟨hj, hi⟩)
  intro p hp q hq he
  rw [mem_loopIndices] at hp hq
  exact Prod.ext (by omega) (by omega)

theorem rowOf_updateOneSeg_self (newData a : ℕ → BitVec 32) (seg : ℕ) :
    rowOf (sha1UpdateOneSeg newData a seg) seg =
      sha1SingleForMhSha1Ref (fun i => newData (16 * seg + i)) (rowOf a seg) := by
  refine Vector.ext fun i hi => ?_
  rw [rowOf, Vector.getElem_ofFn]
  refine (if_pos ⟨Nat.le_add_right .., Nat.add_lt_add_left hi _⟩).trans ?_
  rw [Nat.add_sub_cancel_left, List.getD_eq_getElem _ _ (by simpa using hi), Vector.getElem_toList]
  rfl

theorem rowOf_updateOneSeg_of_ne (newData a : ℕ → BitVec 32) {seg : ℕ} (hne : j ≠ seg) :
    rowOf (sha1UpdateOneSeg newData a seg) j = rowOf a j := by
  refine Vector.ext fun i hi => ?_
  rw [rowOf, rowOf, Vector.getElem_ofFn, Vector.getElem_ofFn]
  exact if_neg (by dsimp only; omega)

/-- The segments before `m` are done, the others are not. -/
theorem rowOf_updateSegs (newData a : ℕ → BitVec 32) (m : ℕ) :
    rowOf ((List.range m).foldl (sha1UpdateOneSeg newData) a) j =
      if j < m then sha1SingleForMhSha1Ref (fun i => newData (16 * j + i)) (rowOf a j)
        else rowOf a j := by
  induction m with
  | zero => rw [if_neg (Nat.not_lt_zero j)]; rfl
  | succ m ih =>
    rw [List.range_succ, List.foldl_append, List.foldl_cons, List.foldl_nil]
    rcases Nat.lt_trichotomy j m with h | rfl | h
    · rw [rowOf_updateOneSeg_of_ne _ _ (by omega), ih, if_pos h, if_pos (by omega)]
    · rw [rowOf_updateOneSeg_self, ih, if_neg (Nat.lt_irrefl j), if_pos (Nat.lt_succ_self j)]
    · rw [rowOf_updateOneSeg_of_ne _ _ (by omega), ih, if_neg (by omega), if_neg (by omega)]

/-- Entry `i` of row `s` of `temp_buffer` is word `i` of segment `s`. -/
theorem transformInputArray_apply (words newData : ℕ → BitVec 32) (block : BitVec 32) (s : Fin 16)
    {i : ℕ} (hi : i < 16) :
    transformInputArray words block newData (16 * s + i) = transformInput words block s i :=
  @storeLoop_apply (ℕ × ℕ) (fun p => 16 * p.1 + p.2) _ (loopIndices 16 16) newData
    (fun p hp q hq he => by
      rw [mem_loopIndices] at hp hq
      exact Prod.ext (by omega) (by omega)) (s, i) (mem_loopIndices.mpr ⟨s.isLt, hi⟩)

/-- The rows of `temp_buffer` are the segments of the block. -/
theorem transformInputArray_loads (input : ℕ → Byte) (b : ℕ) (newData : ℕ → BitVec 32)
    (s : Fin 16) :
    LoadsBlock (fun i => transformInputArray (fun k => load32 input (4 * k)) (BitVec.ofNat 32 b)
      newData (16 * s + i)) (segment s (window (wrapped input) (1024 * b) 1024)) := by
  intro i hi
  dsimp only
  rw [transformInputArray_apply _ _ _ s hi]
  exact transformInput_loads input b s i hi

theorem rowOf_refBlockArrays (input : ℕ → Byte) (a : RefArrays) (b : ℕ) (s : Fin 16) :
    rowOf (refBlockArrays input a b).digests s =
      Sha1.compress (rowOf a.digests s) (segment s (window (wrapped input) (1024 * b) 1024)) := by
  rw [refBlockArrays, rowOf_updateSegs, if_pos s.isLt, sha1SingleForMhSha1Ref]
  exact sha1SingleForMhSha1_eq (transformInputArray_loads input b a.tempBuffer s) _

end Rows

/-! ## The blocks in turn -/

/-- SHA-1 of the blocks that segment `s` has in the first `n` blocks of an input. -/
def segmentDigest (input : ℕ → Byte) (n : ℕ) (s : Fin 16) (h : Sha1.Digest) : Sha1.Digest :=
  (List.range n).foldl (fun h b => Sha1.compress h (segment s (window input (1024 * b) 1024))) h

section Blocks

variable {x y : ℕ → Byte} {n : ℕ} {s : Fin 16} {h : Sha1.Digest}

theorem segmentDigest_succ (x : ℕ → Byte) (n : ℕ) (s : Fin 16) (h : Sha1.Digest) :
    segmentDigest x (n + 1) s h =
      Sha1.compress (segmentDigest x n s h) (segment s (window x (1024 * n) 1024)) := by
  rw [segmentDigest, segmentDigest, List.range_succ, List.foldl_append, List.foldl_cons,
    List.foldl_nil]

theorem absorb_compressSegments (x : ℕ → Byte) (n : ℕ) (d : Fin 16 → Sha1.Digest) :
    absorb (compressSegments Sha1.compress) 1024 x n 0 d = fun s => segmentDigest x n s (d s) := by
  induction n with
  | zero => rfl
  | succ n ih =>
    rw [absorb_add, absorb_one, ih, Nat.zero_add]
    funext s
    rw [compressSegments, segmentDigest_succ, Nat.mul_comm]

/-- The reference function, for every number of blocks. -/
theorem mhSha1BlockRefArrays_column (input : ℕ → Byte) (numBlocks : BitVec 32) (a : RefArrays)
    (s : Fin 16) :
    columnOf (mhSha1BlockRefArrays input numBlocks a).digests s =
      segmentDigest (wrapped input) numBlocks.toNat s (columnOf a.digests s) := by
  rw [mhSha1BlockRefArrays, columnOf_reshapeBack _ s.isLt, ← rowOf_reshape a s.isLt]
  induction numBlocks.toNat with
  | zero => rfl
  | succ n ih =>
    rw [List.range_succ, List.foldl_append, List.foldl_cons, List.foldl_nil, rowOf_refBlockArrays,
      ih, segmentDigest_succ]

end Blocks

/-! ## The two functions -/

/-- The words of the array, as `mh_sha1_block_ref` takes them. -/
def flatten (d : SegsDigests 5) : ℕ → BitVec 32 := fun k =>
  (d.get (Fin.ofNat 5 (k / 16))).get (Fin.ofNat 16 k)

theorem columnOf_flatten (d : SegsDigests 5) (s : Fin 16) :
    columnOf (flatten d) s = segDigest d s := by
  refine Vector.ext fun i hi => ?_
  have hrow : Fin.ofNat 5 ((i * 16 + (s : ℕ)) / 16) = (⟨i, hi⟩ : Fin 5) := Fin.ext (by
    show (i * 16 + (s : ℕ)) / 16 % 5 = i
    omega)
  have hcolumn : Fin.ofNat 16 (i * 16 + (s : ℕ)) = s := Fin.ext (by
    show (i * 16 + (s : ℕ)) % 16 = s
    omega)
  rw [columnOf, Vector.getElem_ofFn, flatten, segDigest]
  simp only [hrow, hcolumn, Vector.getElem_map]
  rfl

/-- `mh_sha1_block_ref` on its arrays leaves the digests of `mh_sha1_block_ref` on rows. -/
theorem mhSha1BlockRefArrays_eq (input : ℕ → Byte) (numBlocks : BitVec 32) (d : SegsDigests 5)
    (temp : ℕ → BitVec 32) (s : Fin 16) :
    columnOf (mhSha1BlockRefArrays input numBlocks ⟨flatten d, temp⟩).digests s =
      segDigest (mhSha1BlockRef input numBlocks d) s := by
  have hrows : segDigest (mhSha1BlockRef input numBlocks d) =
      absorb (compressSegments Sha1.compress) 1024 (wrapped input) numBlocks.toNat 0
        (segDigest d) :=
    blockRef_eq (fun _ _ d hww => sha1SingleForMhSha1_eq hww d) input numBlocks d
  rw [mhSha1BlockRefArrays_column, columnOf_flatten, hrows, absorb_compressSegments]

end IsalCrypto.MhSha1
