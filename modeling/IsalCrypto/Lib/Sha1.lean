import IsalCrypto.Lib.Recurrence
import IsalCrypto.Lib.Sha256

/-!
# SHA-1

The secure hash standard's SHA-1: message schedule, compression function and hash.
-/

namespace IsalCrypto.Lib.Sha1

/-- A digest or chaining value: five words. -/
abbrev Digest := Vector (BitVec 32) 5

def ch (x y z : BitVec 32) : BitVec 32 := (x &&& y) ^^^ (~~~x &&& z)

def parity (x y z : BitVec 32) : BitVec 32 := x ^^^ y ^^^ z

def maj (x y z : BitVec 32) : BitVec 32 := (x &&& y) ^^^ (x &&& z) ^^^ (y &&& z)

/-- The function of round `t`. -/
def roundFunction (t : ℕ) : BitVec 32 → BitVec 32 → BitVec 32 → BitVec 32 :=
  if t < 20 then ch else if t < 40 then parity else if t < 60 then maj else parity

/-- The constant of round `t`. -/
def roundConstant (t : ℕ) : BitVec 32 :=
  if t < 20 then 0x5a827999#32 else if t < 40 then 0x6ed9eba1#32
  else if t < 60 then 0x8f1bbcdc#32 else 0xca62c1d6#32

/-- The word behind the schedule `W`, whose first sixteen words are the block's. -/
def nextWord (W : List (BitVec 32)) (t : ℕ) : BitVec 32 :=
  (W.getD (t + 13) 0#32 ^^^ W.getD (t + 8) 0#32 ^^^ W.getD (t + 2) 0#32 ^^^
    W.getD t 0#32).rotateLeft 1

/-- The 80 words of the message schedule of a block. -/
def schedule (block : List (BitVec 8)) : List (BitVec 32) :=
  grow nextWord 64 ((List.range 16).map (Sha256.word block))

/-- Round `t` on the working variables `a, …, e`. -/
def round (W : List (BitVec 32)) (s : Digest) (t : ℕ) : Digest :=
  #v[s[0].rotateLeft 5 + roundFunction t s[1] s[2] s[3] + s[4] + roundConstant t + W.getD t 0#32,
    s[0], s[1].rotateLeft 30, s[2], s[3]]

/-- The compression function on a block of 64 bytes. -/
def compress (H : Digest) (block : List (BitVec 8)) : Digest :=
  H.zipWith (· + ·) ((List.range 80).foldl (round (schedule block)) H)

/-- The initial hash value. -/
def initial : Digest :=
  #v[0x67452301#32, 0xefcdab89#32, 0x98badcfe#32, 0x10325476#32, 0xc3d2e1f0#32]

/-- SHA-1 of a message. -/
def hash (m : List (BitVec 8)) : Digest := mdHash compress 64 8 initial m

example : hash [0x61#8, 0x62#8, 0x63#8] =
    #v[0xa9993e36#32, 0x4706816a#32, 0xba3e2571#32, 0x7850c26c#32, 0x9cd0d89d#32] := by
  decide +kernel

/-! ## The schedule as a recurrence -/

theorem schedule_input (block : List (BitVec 8)) {t : ℕ} (ht : t < 16) :
    (schedule block).getD t 0#32 = Sha256.word block t := by
  rw [schedule, getD_grow_left _ _ _ _ (by simpa using ht),
    List.getD_eq_getElem _ _ (by simpa using ht)]
  simp

theorem schedule_recurrence (block : List (BitVec 8)) {t : ℕ} (h16 : 16 ≤ t) (ht : t < 80) :
    (schedule block).getD t 0#32 =
      ((schedule block).getD (t - 3) 0#32 ^^^ (schedule block).getD (t - 8) 0#32 ^^^
        (schedule block).getD (t - 14) 0#32 ^^^
        (schedule block).getD (t - 16) 0#32).rotateLeft 1 := by
  obtain ⟨u, rfl⟩ := Nat.exists_eq_add_of_le h16
  have hnew := getD_grow_self nextWord (n := 64) (t := u) ((List.range 16).map (Sha256.word block))
    0#32 (by omega) fun W W' h => by
      rw [List.length_map, List.length_range] at h
      rw [nextWord, nextWord, h _ (by omega), h _ (by omega), h _ (by omega), h _ (by omega)]
  rw [List.length_map, List.length_range] at hnew
  rw [show 16 + u - 3 = u + 13 by omega, show 16 + u - 8 = u + 8 by omega,
    show 16 + u - 14 = u + 2 by omega, show 16 + u - 16 = u by omega]
  exact hnew

end IsalCrypto.Lib.Sha1
