import IsalCrypto.MhSha256.Sha256ForMhSha256

/-!
# The block functions of multi-hash SHA-256

`mh_sha256/mh_sha256_block_base.c`: SHA-256 on sixteen segments at once. Every macro of `step` runs
over the segments; column `s` of the arrays goes through the steps of one SHA-256
(`column_segLine`).

* `mhSha256Single_eq`: a block compresses every segment.
* `mhSha256BlockBase_absorbs`: so do the blocks one after the other.
* `mhSha256BlockRef_absorbs`: so does the block function of `mh_sha256/mh_sha256_ref.c`.
-/

namespace IsalCrypto.MhSha256

open IsalCrypto.Lib IsalCrypto.Mh

/-- The arguments of `step` over sixteen segments, and the frame buffer `w`. -/
structure SegVars where
  a : Vector (BitVec 32) 16
  b : Vector (BitVec 32) 16
  c : Vector (BitVec 32) 16
  d : Vector (BitVec 32) 16
  e : Vector (BitVec 32) 16
  f : Vector (BitVec 32) 16
  g : Vector (BitVec 32) 16
  h : Vector (BitVec 32) 16
  w : Frame

/-- `UPDATE_W`: the new row. -/
def updateWs (w : Frame) (i : ℕ) : Vector (BitVec 32) 16 :=
  Vector.ofFn fun s =>
    (frameRow w (i - 16)).get s + S0 ((frameRow w (i - 15)).get s) + (frameRow w (i - 7)).get s +
      S1 ((frameRow w (i - 2)).get s)

/-- `step` with the new row `wi`: `UPDATE_T2`, `UPDATE_T1`, `UPDATE_D` and `UPDATE_H`. The next
call's arguments are `(h, a, b, c, d, e, f, g)`. -/
def SegVars.step (k : BitVec 32) (i : ℕ) (wi : Vector (BitVec 32) 16) (v : SegVars) : SegVars :=
  let w := setAt v.w (Fin.ofNat 16 i) wi
  let t2 : Vector (BitVec 32) 16 := Vector.ofFn fun s =>
    s0 (v.a.get s) + maj (v.a.get s) (v.b.get s) (v.c.get s)
  let t1 : Vector (BitVec 32) 16 := Vector.ofFn fun s =>
    v.h.get s + s1 (v.e.get s) + ch (v.e.get s) (v.f.get s) (v.g.get s) + k + (frameRow w i).get s
  { a := Vector.ofFn fun s => t1.get s + t2.get s
    b := v.a
    c := v.b
    d := v.c
    e := Vector.ofFn fun s => v.d.get s + t1.get s
    f := v.e
    g := v.f
    h := v.g
    w }

/-- The call of `step` with index `i`. -/
def segLine (ww : ℕ → BitVec 32) (v : SegVars) (i : ℕ) : SegVars :=
  v.step (stepConstants.getD i 0#32) i (if i < 16 then storeW ww i else updateWs v.w i)

/-- `add_abcdefgh`: the new row of the digests. -/
def addAbcdefgh (xx row : Vector (BitVec 32) 16) : Vector (BitVec 32) 16 :=
  Vector.ofFn fun s => row.get s + xx.get s

/-- `mh_sha256_single`, on the digests and the frame buffer. -/
def mhSha256Single (input : ℕ → Byte) (d : SegsDigests 8 × Frame) : SegsDigests 8 × Frame :=
  let v := (List.range 64).foldl (segLine fun i => load32 input (4 * i))
    ⟨d.1.get 0, d.1.get 1, d.1.get 2, d.1.get 3, d.1.get 4, d.1.get 5, d.1.get 6, d.1.get 7, d.2⟩
  (#v[addAbcdefgh v.a (d.1.get 0), addAbcdefgh v.b (d.1.get 1), addAbcdefgh v.c (d.1.get 2),
    addAbcdefgh v.d (d.1.get 3), addAbcdefgh v.e (d.1.get 4), addAbcdefgh v.f (d.1.get 5),
    addAbcdefgh v.g (d.1.get 6), addAbcdefgh v.h (d.1.get 7)], v.w)

/-- `_mh_sha256_block_base`. -/
def mhSha256BlockBase (input : ℕ → Byte) (numBlocks : BitVec 32) (d : SegsDigests 8 × Frame) :
    SegsDigests 8 × Frame :=
  blockLoop mhSha256Single numBlocks.toNat input d

/-! ## Columns -/

/-- What one segment sees. -/
def SegVars.column (v : SegVars) (s : Fin 16) : Sha256Vars :=
  ⟨v.a.get s, v.b.get s, v.c.get s, v.d.get s, v.e.get s, v.f.get s, v.g.get s, v.h.get s,
    v.w.map (·.get s)⟩

theorem updateWs_column (w : Frame) (s : Fin 16) (i : ℕ) :
    (updateWs w i).get s = updateW (w.map (·.get s)) i := by
  rw [updateW, ring_column, ring_column, ring_column, ring_column]
  simp [updateWs, get_eq_getElem]

/-- A step on the segments is the step on every one of them. -/
theorem column_step (k : BitVec 32) (i : ℕ) (wi : Vector (BitVec 32) 16) (v : SegVars)
    (s : Fin 16) : (v.step k i wi).column s = (v.column s).step k i (wi.get s) := by
  simp only [SegVars.column, SegVars.step, Sha256Vars.step, get_ofFn, ← ring_column, setAt_column]

theorem column_segLine (ww : ℕ → BitVec 32) (v : SegVars) (i : ℕ) (s : Fin 16) :
    (segLine ww v i).column s = stepLine (fun j => ww (j * 16 + s)) (v.column s) i := by
  have hupdate : (updateWs v.w i).get s = updateW (v.column s).w i := updateWs_column v.w s i
  unfold segLine stepLine
  rw [column_step]
  split
  · rw [storeW_column]
  · rw [hupdate]

theorem column_segLines (ww : ℕ → BitVec 32) (v : SegVars) (t : ℕ) (s : Fin 16) :
    ((List.range t).foldl (segLine ww) v).column s =
      (List.range t).foldl (stepLine fun j => ww (j * 16 + s)) (v.column s) :=
  (List.foldl_hom (SegVars.column · s) fun v i => (column_segLine ww v i s).symm).symm

/-! ## The block function -/

/-- The final additions, in one column. -/
theorem addAbcdefgh_column (v : SegVars) (d : SegsDigests 8) (s : Fin 16) :
    segDigest #v[addAbcdefgh v.a (d.get 0), addAbcdefgh v.b (d.get 1), addAbcdefgh v.c (d.get 2),
        addAbcdefgh v.d (d.get 3), addAbcdefgh v.e (d.get 4), addAbcdefgh v.f (d.get 5),
        addAbcdefgh v.g (d.get 6), addAbcdefgh v.h (d.get 7)] s = (segDigest d s).zipWith (· + ·)
          (v.column s).vars := by
  ext i hi
  interval_cases i <;> simp [segDigest, addAbcdefgh, Sha256Vars.vars, SegVars.column,
    get_eq_getElem]

/-- `mh_sha256_single` compresses every segment, whatever the frame buffer holds. -/
theorem mhSha256Single_eq (input : ℕ → Byte) (d : SegsDigests 8 × Frame) :
    segDigest (mhSha256Single input d).1 =
      compressSegments Sha256.compress (segDigest d.1) (window input 0 1024) := by
  funext s
  have hcolumn := column_segLines (fun i => load32 input (4 * i))
    ⟨d.1.get 0, d.1.get 1, d.1.get 2, d.1.get 3, d.1.get 4, d.1.get 5, d.1.get 6, d.1.get 7,
      d.2⟩ 64 s
  have hrounds := (stepLines_eq (loadsBlock_segment input s) (SegVars.column
    ⟨d.1.get 0, d.1.get 1, d.1.get 2, d.1.get 3, d.1.get 4, d.1.get 5, d.1.get 6, d.1.get 7, d.2⟩
      s) le_rfl).1
  have hvars : (SegVars.column ⟨d.1.get 0, d.1.get 1, d.1.get 2, d.1.get 3, d.1.get 4, d.1.get 5,
      d.1.get 6, d.1.get 7, d.2⟩ s).vars = segDigest d.1 s := by
    ext i hi
    interval_cases i <;> simp [SegVars.column, Sha256Vars.vars, segDigest, get_eq_getElem]
  rw [← hcolumn, hvars] at hrounds
  rw [compressSegments, Sha256.compress_eq, ← hrounds]
  exact addAbcdefgh_column _ d.1 s

theorem mhSha256BlockBase_absorbs :
    Absorbs mhSha256BlockBase (fun d => segDigest d.1) (compressSegments Sha256.compress) :=
  blockLoop_absorbs fun x d => mhSha256Single_eq x d

/-! ## The reference block function -/

/-- `sha256_single_for_mh_sha256_ref`: the text of `sha256_single_for_mh_sha256`. -/
def sha256SingleForMhSha256Ref (w : Vector (BitVec 32) 16) (ww : ℕ → BitVec 32)
    (digest : Sha256.Digest) : Sha256.Digest :=
  sha256SingleForMhSha256 w ww digest

/-- `sha256_for_mh_sha256_ref`: the text of `sha256_for_mh_sha256`. -/
def sha256ForMhSha256Ref (sees : ℕ → Bool) (buf : Fin 128 → Byte) (w : Vector (BitVec 32) 16)
    (input : ℕ → Byte) (len : BitVec 32) : Sha256.Digest :=
  sha256ForMhSha256 sees buf w input len

/-- `mh_sha256_block_ref`. -/
def mhSha256BlockRef (w : Vector (BitVec 32) 16) (input : ℕ → Byte) (numBlocks : BitVec 32)
    (digests : SegsDigests 8) : SegsDigests 8 :=
  blockRef (sha256SingleForMhSha256Ref w) input numBlocks digests

theorem mhSha256BlockRef_absorbs (w : Vector (BitVec 32) 16) :
    Absorbs (mhSha256BlockRef w) segDigest (compressSegments Sha256.compress) :=
  blockRef_absorbs fun _ _ d hww => sha256SingleForMhSha256_eq hww w d

end IsalCrypto.MhSha256
