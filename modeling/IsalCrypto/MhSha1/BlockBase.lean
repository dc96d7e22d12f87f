import IsalCrypto.MhSha1.Sha1ForMhSha1

/-!
# The block functions of multi-hash SHA-1

`mh_sha1/mh_sha1_block_base.c`: SHA-1 on sixteen segments at once. Every macro of a step runs over
the segments; column `s` of the arrays goes through the steps of one SHA-1 (`column_segLine`).

* `mhSha1Single_eq`: a block compresses every segment.
* `mhSha1BlockBase_absorbs`: so do the blocks one after the other.
* `mhSha1BlockRef_absorbs`: so does the block function of `mh_sha1/mh_sha1_ref.c`.
-/

namespace IsalCrypto.MhSha1

open IsalCrypto.Lib IsalCrypto.Mh

/-- The arguments of a step over sixteen segments, and the frame buffer `w`. -/
structure SegVars where
  a : Vector (BitVec 32) 16
  b : Vector (BitVec 32) 16
  c : Vector (BitVec 32) 16
  d : Vector (BitVec 32) 16
  e : Vector (BitVec 32) 16
  w : Frame

/-- `UPDATE_W`: the new row. -/
def updateWs (w : Frame) (i : ℕ) : Vector (BitVec 32) 16 :=
  Vector.ofFn fun s =>
    rol32 ((frameRow w (i - 3)).get s ^^^ (frameRow w (i - 8)).get s ^^^
      (frameRow w (i - 14)).get s ^^^ (frameRow w (i - 16)).get s) 1

/-- What the step functions share: row `i & 15` of `w` becomes `wi`, then `UPDATE_E1`, `2`, `3` or
`4`, given by its function and constant, and `UPDATE_B`. The next call's arguments are
`(e, a, b, c, d)`. -/
def SegVars.step (f : BitVec 32 → BitVec 32 → BitVec 32 → BitVec 32) (k : BitVec 32) (i : ℕ)
    (wi : Vector (BitVec 32) 16) (v : SegVars) : SegVars :=
  let w := setAt v.w (Fin.ofNat 16 i) wi
  { a := Vector.ofFn fun s =>
      v.e.get s + (rol32 (v.a.get s) 5 + f (v.b.get s) (v.c.get s) (v.d.get s) + k +
        (frameRow w i).get s)
    b := v.a
    c := Vector.ofFn fun s => rol32 (v.b.get s) 30
    d := v.c
    e := v.d
    w }

/-- `step00_15`. -/
def segStep00_15 (ww : ℕ → BitVec 32) (i : ℕ) (v : SegVars) : SegVars :=
  v.step f1 0x5a827999#32 i (storeW ww i)

/-- `step16_19`. -/
def segStep16_19 (i : ℕ) (v : SegVars) : SegVars := v.step f1 0x5a827999#32 i (updateWs v.w i)

/-- `step20_39`. -/
def segStep20_39 (i : ℕ) (v : SegVars) : SegVars := v.step f2 0x6ed9eba1#32 i (updateWs v.w i)

/-- `step40_59`. -/
def segStep40_59 (i : ℕ) (v : SegVars) : SegVars := v.step f3 0x8f1bbcdc#32 i (updateWs v.w i)

/-- `step60_79`. -/
def segStep60_79 (i : ℕ) (v : SegVars) : SegVars := v.step f4 0xca62c1d6#32 i (updateWs v.w i)

/-- The line of the body with index `i`. -/
def segLine (ww : ℕ → BitVec 32) (v : SegVars) (i : ℕ) : SegVars :=
  if i < 16 then segStep00_15 ww i v
  else if i < 20 then segStep16_19 i v
  else if i < 40 then segStep20_39 i v
  else if i < 60 then segStep40_59 i v
  else segStep60_79 i v

/-- `add_abcde`: the new row of the digests. -/
def addAbcde (xx row : Vector (BitVec 32) 16) : Vector (BitVec 32) 16 :=
  Vector.ofFn fun s => row.get s + xx.get s

/-- `mh_sha1_single`, on the digests and the frame buffer. -/
def mhSha1Single (input : ℕ → Byte) (d : SegsDigests 5 × Frame) : SegsDigests 5 × Frame :=
  let v := (List.range 80).foldl (segLine fun i => load32 input (4 * i))
    ⟨d.1.get 0, d.1.get 1, d.1.get 2, d.1.get 3, d.1.get 4, d.2⟩
  (#v[addAbcde v.a (d.1.get 0), addAbcde v.b (d.1.get 1), addAbcde v.c (d.1.get 2),
    addAbcde v.d (d.1.get 3), addAbcde v.e (d.1.get 4)], v.w)

/-- `_mh_sha1_block_base`. -/
def mhSha1BlockBase (input : ℕ → Byte) (numBlocks : BitVec 32) (d : SegsDigests 5 × Frame) :
    SegsDigests 5 × Frame :=
  blockLoop mhSha1Single numBlocks.toNat input d

/-! ## Columns -/

/-- What one segment sees. -/
def SegVars.column (v : SegVars) (s : Fin 16) : Sha1Vars :=
  ⟨v.a.get s, v.b.get s, v.c.get s, v.d.get s, v.e.get s, v.w.map (·.get s)⟩

theorem updateWs_column (w : Frame) (s : Fin 16) (i : ℕ) :
    (updateWs w i).get s = updateW (w.map (·.get s)) i := by
  rw [updateW, ring_column, ring_column, ring_column, ring_column]
  simp [updateWs, get_eq_getElem]

/-- A step on the segments is the step on every one of them. -/
theorem column_step (f : BitVec 32 → BitVec 32 → BitVec 32 → BitVec 32) (k : BitVec 32) (i : ℕ)
    (wi : Vector (BitVec 32) 16) (v : SegVars) (s : Fin 16) :
    (v.step f k i wi).column s = (v.column s).step f k i (wi.get s) := by
  simp only [SegVars.column, SegVars.step, Sha1Vars.step, get_ofFn, ← ring_column, setAt_column]

theorem column_segLine (ww : ℕ → BitVec 32) (v : SegVars) (i : ℕ) (s : Fin 16) :
    (segLine ww v i).column s = stepLine (fun j => ww (j * 16 + s)) (v.column s) i := by
  have hupdate : (updateWs v.w i).get s = updateW (v.column s).w i := updateWs_column v.w s i
  unfold segLine stepLine
  by_cases h16 : i < 16
  · rw [if_pos h16, if_pos (by omega), segStep00_15, column_step, storeW_column, step00_19,
      if_neg (by omega)]
  · rw [if_neg h16]
    by_cases h20 : i < 20
    · rw [if_pos h20, if_pos h20, segStep16_19, column_step, hupdate, step00_19, if_pos (by omega)]
    · rw [if_neg h20, if_neg h20]
      by_cases h40 : i < 40
      · rw [if_pos h40, if_pos h40, segStep20_39, column_step, hupdate, step20_39]
      · rw [if_neg h40, if_neg h40]
        by_cases h60 : i < 60
        · rw [if_pos h60, if_pos h60, segStep40_59, column_step, hupdate, step40_59]
        · rw [if_neg h60, if_neg h60, segStep60_79, column_step, hupdate, step60_79]

theorem column_segLines (ww : ℕ → BitVec 32) (v : SegVars) (t : ℕ) (s : Fin 16) :
    ((List.range t).foldl (segLine ww) v).column s =
      (List.range t).foldl (stepLine fun j => ww (j * 16 + s)) (v.column s) :=
  (List.foldl_hom (SegVars.column · s) fun v i => (column_segLine ww v i s).symm).symm

/-! ## The block function -/

/-- The final additions, in one column. -/
theorem addAbcde_column (v : SegVars) (d : SegsDigests 5) (s : Fin 16) :
    segDigest #v[addAbcde v.a (d.get 0), addAbcde v.b (d.get 1), addAbcde v.c (d.get 2),
        addAbcde v.d (d.get 3), addAbcde v.e (d.get 4)] s =
      (segDigest d s).zipWith (· + ·) (v.column s).vars := by
  ext i hi
  interval_cases i <;> simp [segDigest, addAbcde, Sha1Vars.vars, SegVars.column, get_eq_getElem]

/-- `mh_sha1_single` compresses every segment, whatever the frame buffer holds. -/
theorem mhSha1Single_eq (input : ℕ → Byte) (d : SegsDigests 5 × Frame) :
    segDigest (mhSha1Single input d).1 =
      compressSegments Sha1.compress (segDigest d.1) (window input 0 1024) := by
  funext s
  have hcolumn := column_segLines (fun i => load32 input (4 * i))
    ⟨d.1.get 0, d.1.get 1, d.1.get 2, d.1.get 3, d.1.get 4, d.2⟩ 80 s
  have hrounds := (stepLines_eq (loadsBlock_segment input s)
    (SegVars.column ⟨d.1.get 0, d.1.get 1, d.1.get 2, d.1.get 3, d.1.get 4, d.2⟩ s) le_rfl).1
  have hvars :
    (SegVars.column ⟨d.1.get 0, d.1.get 1, d.1.get 2, d.1.get 3, d.1.get 4, d.2⟩ s).vars =
      segDigest d.1 s := by
    ext i hi
    interval_cases i <;> simp [SegVars.column, Sha1Vars.vars, segDigest, get_eq_getElem]
  rw [← hcolumn, hvars] at hrounds
  rw [compressSegments, Sha1.compress, ← hrounds]
  exact addAbcde_column _ d.1 s

theorem mhSha1BlockBase_absorbs :
    Absorbs mhSha1BlockBase (fun d => segDigest d.1) (compressSegments Sha1.compress) :=
  blockLoop_absorbs fun x d => mhSha1Single_eq x d

/-! ## The reference block function -/

/-- `sha1_single_for_mh_sha1_ref`: the text of `_sha1_single_for_mh_sha1`. -/
def sha1SingleForMhSha1Ref (ww : ℕ → BitVec 32) (digest : Sha1.Digest) : Sha1.Digest :=
  sha1SingleForMhSha1 ww digest

/-- `sha1_for_mh_sha1_ref`: the text of `_sha1_for_mh_sha1`. -/
def sha1ForMhSha1Ref (buf : Fin 128 → Byte) (input : ℕ → Byte) (len : BitVec 32) : Sha1.Digest :=
  sha1ForMhSha1 buf input len

/-- `mh_sha1_block_ref`. -/
def mhSha1BlockRef (input : ℕ → Byte) (numBlocks : BitVec 32) (digests : SegsDigests 5) :
    SegsDigests 5 :=
  blockRef sha1SingleForMhSha1Ref input numBlocks digests

theorem mhSha1BlockRef_absorbs :
    Absorbs mhSha1BlockRef segDigest (compressSegments Sha1.compress) :=
  blockRef_absorbs fun _ _ d hww => sha1SingleForMhSha1_eq hww d

end IsalCrypto.MhSha1
