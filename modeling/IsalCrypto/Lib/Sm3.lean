import IsalCrypto.Lib.Sha256

/-!
# SM3

The SM3 hash standard: message expansion, compression function and hash. A block is read as sixteen
big-endian words, like one of SHA-256.
-/

namespace IsalCrypto.Lib.Sm3

/-- A digest or chaining value: eight words. -/
abbrev Digest := Vector (BitVec 32) 8

/-- The permutation of the compression function. -/
def p0 (x : BitVec 32) : BitVec 32 := x ^^^ x.rotateLeft 9 ^^^ x.rotateLeft 17

/-- The permutation of the message expansion. -/
def p1 (x : BitVec 32) : BitVec 32 := x ^^^ x.rotateLeft 15 ^^^ x.rotateLeft 23

def ff (j : ℕ) (x y z : BitVec 32) : BitVec 32 :=
  if j < 16 then x ^^^ y ^^^ z else (x &&& y) ||| (x &&& z) ||| (y &&& z)

def gg (j : ℕ) (x y z : BitVec 32) : BitVec 32 :=
  if j < 16 then x ^^^ y ^^^ z else (x &&& y) ||| (~~~x &&& z)

/-- The constant of a round, rotated. -/
def roundConstant (j : ℕ) : BitVec 32 :=
  (if j < 16 then 0x79cc4519#32 else 0x7a879d8a#32).rotateLeft j

/-- The word behind the expansion `W`, whose first sixteen words are the block's. -/
def nextWord (W : List (BitVec 32)) (t : ℕ) : BitVec 32 :=
  p1 (W.getD t 0#32 ^^^ W.getD (t + 7) 0#32 ^^^ (W.getD (t + 13) 0#32).rotateLeft 15) ^^^
    (W.getD (t + 3) 0#32).rotateLeft 7 ^^^ W.getD (t + 10) 0#32

/-- The 68 words of the expansion of a block. -/
def schedule (block : List (BitVec 8)) : List (BitVec 32) :=
  grow nextWord 52 ((List.range 16).map (Sha256.word block))

/-- One round on the registers `A, …, H`. -/
def round (W : List (BitVec 32)) (s : Digest) (j : ℕ) : Digest :=
  let ss1 := ((s.get 0).rotateLeft 12 + s.get 4 + roundConstant j).rotateLeft 7
  let ss2 := ss1 ^^^ (s.get 0).rotateLeft 12
  let tt1 :=
    ff j (s.get 0) (s.get 1) (s.get 2) + s.get 3 + ss2 + (W.getD j 0#32 ^^^ W.getD (j + 4) 0#32)
  let tt2 := gg j (s.get 4) (s.get 5) (s.get 6) + s.get 7 + ss1 + W.getD j 0#32
  #v[tt1, s.get 0, (s.get 1).rotateLeft 9, s.get 2, p0 tt2, s.get 4, (s.get 5).rotateLeft 19,
    s.get 6]

/-- The compression function on a block of 64 bytes. -/
def compress (V : Digest) (block : List (BitVec 8)) : Digest :=
  V.zipWith (· ^^^ ·) ((List.range 64).foldl (round (schedule block)) V)

/-- The initial value. -/
def initial : Digest :=
  #v[0x7380166f#32, 0x4914b2b9#32, 0x172442d7#32, 0xda8a0600#32, 0xa96f30bc#32, 0x163138aa#32,
    0xe38dee4d#32, 0xb0fb0e4e#32]

/-- SM3 of a message. -/
def hash (m : List (BitVec 8)) : Digest := mdHash compress 64 8 initial m

example : hash [0x61#8, 0x62#8, 0x63#8] =
    #v[0x66c7f0f4#32, 0x62eeedd9#32, 0xd1f2d46b#32, 0xdc10e4e2#32, 0x4167c487#32, 0x5cf2f7a2#32,
      0x297da02b#32, 0x8f4ba8e0#32] := by
  decide +kernel

/-! ## The expansion as a sequence -/

theorem schedule_input (block : List (BitVec 8)) {i : ℕ} (hi : i < 16) :
    (schedule block).getD i 0#32 = Sha256.word block i := by
  rw [schedule, getD_grow_left nextWord 52 _ 0#32 (by simpa using hi),
    List.getD_eq_getElem _ _ (by simpa using hi)]
  simp

/-- The words behind the block's. -/
theorem schedule_recurrence (block : List (BitVec 8)) {t : ℕ} (ht : t < 52) :
    (schedule block).getD (16 + t) 0#32 = nextWord (schedule block) t := by
  have hself := @getD_grow_self _ nextWord 52 t ((List.range 16).map (Sha256.word block)) 0#32 ht
    fun W W' h => by
      have hread : ∀ k, k < 16 → W.getD (t + k) 0#32 = W'.getD (t + k) 0#32 := fun k hk =>
        h (t + k) (by rw [List.length_map, List.length_range]; omega)
      have h0 := hread 0 (by decide)
      rw [Nat.add_zero] at h0
      rw [nextWord, nextWord, h0, hread 7 (by decide), hread 13 (by decide), hread 3 (by decide),
        hread 10 (by decide)]
  rwa [List.length_map, List.length_range] at hself

end IsalCrypto.Lib.Sm3
