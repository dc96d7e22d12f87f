import IsalCrypto.Lib.Sha256
import IsalCrypto.Mh.Stream

/-!
# The sixteen segments

A block of 1024 bytes is sixteen blocks of 64 bytes, word by word in turn, and the block function
hashes the sixteen segments side by side. Their states lie in one array `uint32_t digests[k][16]`.
-/

namespace IsalCrypto.Mh

open IsalCrypto.Lib

/-- `uint32_t digests[k][ISAL_HASH_SEGS]`. -/
abbrev SegsDigests (k : ℕ) := Vector (Vector (BitVec 32) 16) k

/-- `frame_buffer` as `uint32_t w[16][ISAL_HASH_SEGS]`. -/
abbrev Frame := Vector (Vector (BitVec 32) 16) 16

/-! ## The ring of the message schedule -/

/-- `W(i)`, that is `w[i & 15]`. -/
def ring (w : Vector (BitVec 32) 16) (i : ℕ) : BitVec 32 := w.get (Fin.ofNat 16 i)

/-- The same for the rows of the frame buffer. -/
def frameRow (w : Frame) (i : ℕ) : Vector (BitVec 32) 16 := w.get (Fin.ofNat 16 i)

/-- `STORE_W`: the new row. -/
def storeW (ww : ℕ → BitVec 32) (i : ℕ) : Vector (BitVec 32) 16 :=
  Vector.ofFn fun s => toBe32 (ww (i * 16 + s))

/-- The frame buffer of a cleared context. -/
def clearedFrame : Frame := Vector.replicate 16 (Vector.replicate 16 0#32)

theorem get_ofFn (g : Fin 16 → BitVec 32) (s : Fin 16) : (Vector.ofFn g).get s = g s := by
  simp [get_eq_getElem]

/-- Column `s` of the rows is the ring of segment `s`. -/
theorem ring_column (w : Frame) (s : Fin 16) (i : ℕ) :
    ring (w.map (·.get s)) i = (frameRow w i).get s := by
  simp [ring, frameRow, get_eq_getElem]

theorem setAt_column (w : Frame) (s i : Fin 16) (row : Vector (BitVec 32) 16) :
    (setAt w i row).map (·.get s) = setAt (w.map (·.get s)) i (row.get s) := by
  simp [setAt, Vector.map_set]

theorem storeW_column (ww : ℕ → BitVec 32) (s : Fin 16) (i : ℕ) :
    (storeW ww i).get s = toBe32 (ww (i * 16 + s)) :=
  get_ofFn ..

/-! ## What is specified -/

/-- The 4-byte words `s`, `s + 16`, `s + 32`, … of a block. -/
def segment (s : Fin 16) (block : List Byte) : List Byte :=
  (List.range 16).flatMap fun i => (List.range 4).map fun j => block.getD (4 * (s + 16 * i) + j) 0#8

/-- Every segment's state after a block. -/
def compressSegments {H : Type*} (compress : H → List Byte → H) (d : Fin 16 → H)
    (block : List Byte) : Fin 16 → H :=
  fun s => compress (d s) (segment s block)

/-- The sixteen states word by word in turn, as a little-endian host stores them. -/
def interleave {k : ℕ} (d : Fin 16 → Vector (BitVec 32) k) : List Byte :=
  (List.range (64 * k)).map fun j =>
    ((d (Fin.ofNat 16 (j / 4))).toList.getD (j / 64) 0#32 >>> (8 * (j % 4))).setWidth 8

/-- The multi-hash over a padded message: the hash of the segments' states. -/
def multiHash {k : ℕ} {R : Type*}
    (compress : Vector (BitVec 32) k → List Byte → Vector (BitVec 32) k)
    (initial : Vector (BitVec 32) k) (hash : List Byte → R) (padded : List Byte) : R :=
  hash (interleave (absorbBlocks (compressSegments compress) (fun _ => initial) padded))

/-! ## The array -/

/-- The state of segment `s`: column `s` of the array. -/
def segDigest {k : ℕ} (d : SegsDigests k) (s : Fin 16) : Vector (BitVec 32) k := d.map (·[s])

/-- The bytes of the array. -/
def segsBytes {k : ℕ} (d : SegsDigests k) (j : ℕ) : Byte :=
  ((segDigest d (Fin.ofNat 16 (j / 4))).toList.getD (j / 64) 0#32 >>> (8 * (j % 4))).setWidth 8

theorem window_segsBytes {k : ℕ} (d : SegsDigests k) :
    window (segsBytes d) 0 (64 * k) = interleave (segDigest d) :=
  List.map_congr_left fun j _ => by rw [Nat.zero_add]; rfl

/-- The array with the first digests, as the loop of `_mh_sha1_init` stores them. -/
def initSegs {k : ℕ} (h : Vector (BitVec 32) k) : SegsDigests k :=
  h.map fun w => Vector.replicate 16 w

theorem segDigest_initSegs {k : ℕ} (h : Vector (BitVec 32) k) :
    segDigest (initSegs h) = fun _ => h := by
  funext s
  ext i hi
  simp [segDigest, initSegs]

/-! ## Words of a block -/

/-- `ww` holds the words of the block of 64 bytes, as the host loads them. -/
def LoadsBlock (ww : ℕ → BitVec 32) (block : List Byte) : Prop :=
  ∀ i, i < 16 → toBe32 (ww i) = Sha256.word block i

theorem loadsBlock_load32 (x : ℕ → Byte) :
    LoadsBlock (fun i => load32 x (4 * i)) (window x 0 64) := by
  intro i hi
  have hbyte : ∀ j, j < 4 → (window x 0 64).getD (4 * i + j) 0#8 = x (4 * i + j) := by
    intro j hj
    rw [List.getD_eq_getElem _ _ (by rw [length_window]; omega), getElem_window, Nat.zero_add]
  have h0 := hbyte 0 (by decide)
  rw [Nat.add_zero] at h0
  change toBe32 (load32 x (4 * i)) = _
  rw [load32, toBe32_append, Sha256.word, h0, hbyte 1 (by decide), hbyte 2 (by decide),
    hbyte 3 (by decide)]

theorem getD_segment (s : Fin 16) (block : List Byte) {i j : ℕ} (hi : i < 16) (hj : j < 4) :
    (segment s block).getD (4 * i + j) 0#8 = block.getD (4 * (s + 16 * i) + j) 0#8 := by
  interval_cases i <;> interval_cases j <;> rfl

theorem loadsBlock_segment (x : ℕ → Byte) (s : Fin 16) :
    LoadsBlock (fun i => load32 x (4 * (i * 16 + s))) (segment s (window x 0 1024)) := by
  intro i hi
  have hbyte : ∀ j, j < 4 →
      (segment s (window x 0 1024)).getD (4 * i + j) 0#8 = x (4 * (i * 16 + s) + j) := by
    intro j hj
    have hpos : 4 * ((s : ℕ) + 16 * i) + j < 1024 := by omega
    rw [getD_segment s _ hi hj, List.getD_eq_getElem _ _ (by rwa [length_window]), getElem_window,
      Nat.zero_add]
    exact congrArg x (by omega)
  have h0 := hbyte 0 (by decide)
  rw [Nat.add_zero, Nat.add_zero] at h0
  change toBe32 (load32 x (4 * (i * 16 + s))) = _
  rw [load32, toBe32_append, Sha256.word, h0, hbyte 1 (by decide), hbyte 2 (by decide),
    hbyte 3 (by decide)]

/-! ## Block functions -/

variable {D E : Type*} {π : D → E} {f : E → List Byte → E} {single : (ℕ → Byte) → D → D}

/-- A loop over blocks absorbs them if its body does. -/
theorem blockLoop_eq (h : ∀ x d, π (single x d) = f (π d) (window x 0 1024)) (n : ℕ) :
    ∀ (x : ℕ → Byte) (d : D), π (blockLoop single n x d) = absorb f 1024 x n 0 (π d) := by
  induction n with
  | zero => intro x d; rfl
  | succ n ih =>
    intro x d
    rw [blockLoop, ih, h, absorb, absorb_shift]

theorem blockLoop_absorbs (h : ∀ x d, π (single x d) = f (π d) (window x 0 1024)) :
    Absorbs (fun x n d => blockLoop single n.toNat x d) π f :=
  fun x n d _ => blockLoop_eq h n.toNat x d

/-! ## The reference block functions -/

section Ref

variable {k : ℕ} (single : (ℕ → BitVec 32) → Vector (BitVec 32) k → Vector (BitVec 32) k)

/-- `transform_input`: the words of one segment in block `block`. The offset
`block * ISAL_MH_SHA1_BLOCK_SIZE / 4` is computed in 32 bits. -/
def transformInput (input : ℕ → BitVec 32) (block : BitVec 32) (segment : Fin 16) (i : ℕ) :
    BitVec 32 :=
  input ((block * 1024#32).toNat / 4 + (16 * i + segment))

/-- What a 32-bit offset reaches. -/
def wrapped (input : ℕ → Byte) : ℕ → Byte := fun k => input (k % 2 ^ 32)

/-- `sha1_update_all_segs` and its sibling. -/
def updateAllSegs (newData : Fin 16 → ℕ → BitVec 32) (digests : Vector (Vector (BitVec 32) k) 16) :
    Vector (Vector (BitVec 32) k) 16 :=
  Vector.ofFn fun s => single (newData s) digests[s]

/-- The body of the loop over the blocks. -/
def refBlock (input : ℕ → Byte) (digests : Vector (Vector (BitVec 32) k) 16) (i : ℕ) :
    Vector (Vector (BitVec 32) k) 16 :=
  updateAllSegs single (transformInput (fun k => load32 input (4 * k)) (BitVec.ofNat 32 i)) digests

/-- `mh_sha1_block_ref` and its sibling: the digests are transposed to one state a segment and
back. `temp_buffer`, in the frame buffer, holds only what was just written to it. -/
def blockRef (input : ℕ → Byte) (numBlocks : BitVec 32) (digests : SegsDigests k) : SegsDigests k :=
  let trans : Vector (Vector (BitVec 32) k) 16 :=
    Vector.ofFn fun j => Vector.ofFn fun i => (digests.get i).get j
  let trans := (List.range numBlocks.toNat).foldl (refBlock single input) trans
  Vector.ofFn fun i => Vector.ofFn fun j => (trans.get j).get i

variable {single} {compress : Vector (BitVec 32) k → List Byte → Vector (BitVec 32) k}

theorem transformInput_loads (input : ℕ → Byte) (b : ℕ) (s : Fin 16) :
    LoadsBlock (transformInput (fun k => load32 input (4 * k)) (BitVec.ofNat 32 b) s)
      (segment s (window (wrapped input) (1024 * b) 1024)) := by
  have hoffset : (BitVec.ofNat 32 b * 1024#32).toNat = 1024 * b % 2 ^ 32 := by
    rw [BitVec.toNat_mul, BitVec.toNat_ofNat, BitVec.toNat_ofNat]
    omega
  have hwindow : window (wrapped input) (1024 * b) 1024 =
      window (fun k => input (1024 * b % 2 ^ 32 + k)) 0 1024 := by
    refine window_eq_window fun k hk => ?_
    rw [wrapped, Nat.zero_add]
    exact congrArg input (by omega)
  have hww : transformInput (fun k => load32 input (4 * k)) (BitVec.ofNat 32 b) s =
      fun i => load32 (fun k => input (1024 * b % 2 ^ 32 + k)) (4 * (i * 16 + s)) := by
    funext i
    have hpos : 4 * (1024 * b % 2 ^ 32 / 4 + (16 * i + (s : ℕ))) =
        1024 * b % 2 ^ 32 + 4 * (i * 16 + s) := by omega
    simp only [transformInput, hoffset, load32, hpos, Nat.add_assoc]
  rw [hwindow, hww]
  exact loadsBlock_segment _ s

/-- One block, all segments. -/
theorem refBlock_eq (h : ∀ ww block d, LoadsBlock ww block → single ww d = compress d block)
    (input : ℕ → Byte) (digests : Vector (Vector (BitVec 32) k) 16) (b : ℕ) :
    (fun s : Fin 16 => (refBlock single input digests b)[s]) =
      compressSegments compress (fun s : Fin 16 => digests[s])
        (window (wrapped input) (1024 * b) 1024) := by
  funext s
  rw [compressSegments, ← h _ _ _ (transformInput_loads input b s)]
  simp [refBlock, updateAllSegs]

theorem refBlocks_eq (h : ∀ ww block d, LoadsBlock ww block → single ww d = compress d block)
    (input : ℕ → Byte) (digests : Vector (Vector (BitVec 32) k) 16) (n : ℕ) :
    (fun s : Fin 16 => ((List.range n).foldl (refBlock single input) digests)[s]) =
      absorb (compressSegments compress) 1024 (wrapped input) n 0
        (fun s : Fin 16 => digests[s]) := by
  induction n with
  | zero => rfl
  | succ n ih =>
    rw [List.range_succ, List.foldl_append, absorb_add, absorb_one, ← ih, Nat.zero_add]
    exact refBlock_eq h input _ n

/-- The reference block function compresses the segments of what its offsets reach. -/
theorem blockRef_eq (h : ∀ ww block d, LoadsBlock ww block → single ww d = compress d block)
    (input : ℕ → Byte) (numBlocks : BitVec 32) (d : SegsDigests k) :
    segDigest (blockRef single input numBlocks d) =
      absorb (compressSegments compress) 1024 (wrapped input) numBlocks.toNat 0 (segDigest d) := by
  have hfirst : (fun s : Fin 16 =>
      (Vector.ofFn fun j : Fin 16 => Vector.ofFn fun i : Fin k => (d.get i).get j)[s]) =
        segDigest d := by
    funext s
    ext i hi
    simp [segDigest, get_eq_getElem]
  have hlast : ∀ trans : Vector (Vector (BitVec 32) k) 16,
      segDigest (Vector.ofFn fun i : Fin k => Vector.ofFn fun j : Fin 16 => (trans.get j).get i) =
        fun s : Fin 16 => trans[s] := by
    intro trans
    funext s
    ext i hi
    simp [segDigest, get_eq_getElem]
  rw [blockRef, hlast, refBlocks_eq h, hfirst]

theorem blockRef_absorbs (h : ∀ ww block d, LoadsBlock ww block → single ww d = compress d block) :
    Absorbs (blockRef single) segDigest (compressSegments compress) := by
  intro x n d hn
  rw [blockRef_eq h]
  exact absorb_congr _ _ fun k hk => congrArg x (Nat.mod_eq_of_lt (by omega))

end Ref

end IsalCrypto.Mh
