import IsalCrypto.Lib.MerkleDamgard
import IsalCrypto.Lib.Recurrence

/-!
# SHA-256

The secure hash standard's SHA-256: message schedule, compression function and hash.
-/

namespace IsalCrypto.Lib.Sha256

/-- A digest or chaining value: eight words. -/
abbrev Digest := Vector (BitVec 32) 8

/-- Four bytes as a word, most significant first. -/
def word (b : List (BitVec 8)) (t : ℕ) : BitVec 32 :=
  b.getD (4 * t) 0#8 ++ b.getD (4 * t + 1) 0#8 ++ b.getD (4 * t + 2) 0#8 ++ b.getD (4 * t + 3) 0#8

def ch (x y z : BitVec 32) : BitVec 32 := (x &&& y) ^^^ (~~~x &&& z)

def maj (x y z : BitVec 32) : BitVec 32 := (x &&& y) ^^^ (x &&& z) ^^^ (y &&& z)

def bigSigma0 (x : BitVec 32) : BitVec 32 :=
  x.rotateRight 2 ^^^ x.rotateRight 13 ^^^ x.rotateRight 22

def bigSigma1 (x : BitVec 32) : BitVec 32 :=
  x.rotateRight 6 ^^^ x.rotateRight 11 ^^^ x.rotateRight 25

def smallSigma0 (x : BitVec 32) : BitVec 32 := x.rotateRight 7 ^^^ x.rotateRight 18 ^^^ (x >>> 3)

def smallSigma1 (x : BitVec 32) : BitVec 32 := x.rotateRight 17 ^^^ x.rotateRight 19 ^^^ (x >>> 10)

/-- The round constants. -/
def roundConstants : List (BitVec 32) :=
  [0x428a2f98#32, 0x71374491#32, 0xb5c0fbcf#32, 0xe9b5dba5#32, 0x3956c25b#32, 0x59f111f1#32,
   0x923f82a4#32, 0xab1c5ed5#32, 0xd807aa98#32, 0x12835b01#32, 0x243185be#32, 0x550c7dc3#32,
   0x72be5d74#32, 0x80deb1fe#32, 0x9bdc06a7#32, 0xc19bf174#32, 0xe49b69c1#32, 0xefbe4786#32,
   0x0fc19dc6#32, 0x240ca1cc#32, 0x2de92c6f#32, 0x4a7484aa#32, 0x5cb0a9dc#32, 0x76f988da#32,
   0x983e5152#32, 0xa831c66d#32, 0xb00327c8#32, 0xbf597fc7#32, 0xc6e00bf3#32, 0xd5a79147#32,
   0x06ca6351#32, 0x14292967#32, 0x27b70a85#32, 0x2e1b2138#32, 0x4d2c6dfc#32, 0x53380d13#32,
   0x650a7354#32, 0x766a0abb#32, 0x81c2c92e#32, 0x92722c85#32, 0xa2bfe8a1#32, 0xa81a664b#32,
   0xc24b8b70#32, 0xc76c51a3#32, 0xd192e819#32, 0xd6990624#32, 0xf40e3585#32, 0x106aa070#32,
   0x19a4c116#32, 0x1e376c08#32, 0x2748774c#32, 0x34b0bcb5#32, 0x391c0cb3#32, 0x4ed8aa4a#32,
   0x5b9cca4f#32, 0x682e6ff3#32, 0x748f82ee#32, 0x78a5636f#32, 0x84c87814#32, 0x8cc70208#32,
   0x90befffa#32, 0xa4506ceb#32, 0xbef9a3f7#32, 0xc67178f2#32]

/-- The 64 words of the message schedule of a block. -/
def schedule (block : List (BitVec 8)) : List (BitVec 32) :=
  (List.range 48).foldl
    (fun W t => W ++ [smallSigma1 (W.getD (t + 14) 0#32) + W.getD (t + 9) 0#32 +
      smallSigma0 (W.getD (t + 1) 0#32) + W.getD t 0#32])
    ((List.range 16).map (word block))

/-- One round on the working variables `a, …, h`. -/
def round (s : Digest) (kw : BitVec 32 × BitVec 32) : Digest :=
  let t1 := s[7] + bigSigma1 s[4] + ch s[4] s[5] s[6] + kw.1 + kw.2
  let t2 := bigSigma0 s[0] + maj s[0] s[1] s[2]
  #v[t1 + t2, s[0], s[1], s[2], s[3] + t1, s[4], s[5], s[6]]

/-- The compression function on a block of 64 bytes. -/
def compress (H : Digest) (block : List (BitVec 8)) : Digest :=
  H.zipWith (· + ·) ((roundConstants.zip (schedule block)).foldl round H)

/-- The initial hash value. -/
def initial : Digest :=
  #v[0x6a09e667#32, 0xbb67ae85#32, 0x3c6ef372#32, 0xa54ff53a#32, 0x510e527f#32, 0x9b05688c#32,
    0x1f83d9ab#32, 0x5be0cd19#32]

/-- SHA-256 of a message. -/
def hash (m : List (BitVec 8)) : Digest := mdHash compress 64 8 initial m

example : hash [0x61#8, 0x62#8, 0x63#8] =
    #v[0xba7816bf#32, 0x8f01cfea#32, 0x414140de#32, 0x5dae2223#32, 0xb00361a3#32, 0x96177a9c#32,
      0xb410ff61#32, 0xf20015ad#32] := by
  decide +kernel

/-! ## The schedule as a recurrence -/

/-- The word behind the schedule `W`, whose first sixteen words are the block's. -/
def nextWord (W : List (BitVec 32)) (t : ℕ) : BitVec 32 :=
  smallSigma1 (W.getD (t + 14) 0#32) + W.getD (t + 9) 0#32 + smallSigma0 (W.getD (t + 1) 0#32) +
    W.getD t 0#32

theorem schedule_eq_grow (block : List (BitVec 8)) :
    schedule block = grow nextWord 48 ((List.range 16).map (word block)) := rfl

@[simp]
theorem length_schedule (block : List (BitVec 8)) : (schedule block).length = 64 := by
  rw [schedule_eq_grow, length_grow, List.length_map, List.length_range]

theorem schedule_input (block : List (BitVec 8)) {t : ℕ} (ht : t < 16) :
    (schedule block).getD t 0#32 = word block t := by
  rw [schedule_eq_grow, getD_grow_left _ _ _ _ (by simpa using ht),
    List.getD_eq_getElem _ _ (by simpa using ht)]
  simp

theorem schedule_recurrence (block : List (BitVec 8)) {t : ℕ} (h16 : 16 ≤ t) (ht : t < 64) :
    (schedule block).getD t 0#32 =
      smallSigma1 ((schedule block).getD (t - 2) 0#32) + (schedule block).getD (t - 7) 0#32 +
        smallSigma0 ((schedule block).getD (t - 15) 0#32) +
        (schedule block).getD (t - 16) 0#32 := by
  obtain ⟨u, rfl⟩ := Nat.exists_eq_add_of_le h16
  have hnew := getD_grow_self nextWord (n := 48) (t := u) ((List.range 16).map (word block))
    0#32 (by omega) fun W W' h => by
      rw [List.length_map, List.length_range] at h
      rw [nextWord, nextWord, h _ (by omega), h _ (by omega), h _ (by omega), h _ (by omega)]
  rw [List.length_map, List.length_range] at hnew
  rw [show 16 + u - 2 = u + 14 by omega, show 16 + u - 7 = u + 9 by omega,
    show 16 + u - 15 = u + 1 by omega, show 16 + u - 16 = u by omega]
  exact hnew

/-- The rounds by their numbers. -/
theorem compress_eq (H : Digest) (block : List (BitVec 8)) :
    compress H block = H.zipWith (· + ·) ((List.range 64).foldl
      (fun s t => round s (roundConstants.getD t 0#32, (schedule block).getD t 0#32)) H) := by
  have hzip : roundConstants.zip (schedule block) = (List.range 64).map fun t =>
      (roundConstants.getD t 0#32, (schedule block).getD t 0#32) := by
    have hlen : roundConstants.length = 64 := by decide
    refine List.ext_getElem (by simp [hlen]) fun t h1 h2 => ?_
    have ht : t < 64 := by simpa using h2
    rw [List.getElem_zip, List.getElem_map, List.getElem_range,
      List.getD_eq_getElem _ _ (by rwa [hlen]), List.getD_eq_getElem _ _ (by rwa [length_schedule])]
  rw [compress, hzip, List.foldl_map]

end IsalCrypto.Lib.Sha256
