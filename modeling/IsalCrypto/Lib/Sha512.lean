import IsalCrypto.Lib.MerkleDamgard
import IsalCrypto.Lib.Recurrence

/-!
# SHA-512

The secure hash standard's SHA-512: message schedule, compression function and hash.
-/

namespace IsalCrypto.Lib.Sha512

/-- A digest or chaining value: eight words. -/
abbrev Digest := Vector (BitVec 64) 8

/-- Eight bytes as a word, most significant first. -/
def word (b : List (BitVec 8)) (t : ℕ) : BitVec 64 :=
  b.getD (8 * t) 0#8 ++ b.getD (8 * t + 1) 0#8 ++ b.getD (8 * t + 2) 0#8 ++
    b.getD (8 * t + 3) 0#8 ++
    b.getD (8 * t + 4) 0#8 ++ b.getD (8 * t + 5) 0#8 ++ b.getD (8 * t + 6) 0#8 ++
    b.getD (8 * t + 7) 0#8

def ch (x y z : BitVec 64) : BitVec 64 := (x &&& y) ^^^ (~~~x &&& z)

def maj (x y z : BitVec 64) : BitVec 64 := (x &&& y) ^^^ (x &&& z) ^^^ (y &&& z)

def bigSigma0 (x : BitVec 64) : BitVec 64 :=
  x.rotateRight 28 ^^^ x.rotateRight 34 ^^^ x.rotateRight 39

def bigSigma1 (x : BitVec 64) : BitVec 64 :=
  x.rotateRight 14 ^^^ x.rotateRight 18 ^^^ x.rotateRight 41

def smallSigma0 (x : BitVec 64) : BitVec 64 := x.rotateRight 1 ^^^ x.rotateRight 8 ^^^ (x >>> 7)

def smallSigma1 (x : BitVec 64) : BitVec 64 := x.rotateRight 19 ^^^ x.rotateRight 61 ^^^ (x >>> 6)

/-- The round constants. -/
def roundConstants : List (BitVec 64) :=
  [0x428a2f98d728ae22#64, 0x7137449123ef65cd#64, 0xb5c0fbcfec4d3b2f#64, 0xe9b5dba58189dbbc#64,
   0x3956c25bf348b538#64, 0x59f111f1b605d019#64, 0x923f82a4af194f9b#64, 0xab1c5ed5da6d8118#64,
   0xd807aa98a3030242#64, 0x12835b0145706fbe#64, 0x243185be4ee4b28c#64, 0x550c7dc3d5ffb4e2#64,
   0x72be5d74f27b896f#64, 0x80deb1fe3b1696b1#64, 0x9bdc06a725c71235#64, 0xc19bf174cf692694#64,
   0xe49b69c19ef14ad2#64, 0xefbe4786384f25e3#64, 0x0fc19dc68b8cd5b5#64, 0x240ca1cc77ac9c65#64,
   0x2de92c6f592b0275#64, 0x4a7484aa6ea6e483#64, 0x5cb0a9dcbd41fbd4#64, 0x76f988da831153b5#64,
   0x983e5152ee66dfab#64, 0xa831c66d2db43210#64, 0xb00327c898fb213f#64, 0xbf597fc7beef0ee4#64,
   0xc6e00bf33da88fc2#64, 0xd5a79147930aa725#64, 0x06ca6351e003826f#64, 0x142929670a0e6e70#64,
   0x27b70a8546d22ffc#64, 0x2e1b21385c26c926#64, 0x4d2c6dfc5ac42aed#64, 0x53380d139d95b3df#64,
   0x650a73548baf63de#64, 0x766a0abb3c77b2a8#64, 0x81c2c92e47edaee6#64, 0x92722c851482353b#64,
   0xa2bfe8a14cf10364#64, 0xa81a664bbc423001#64, 0xc24b8b70d0f89791#64, 0xc76c51a30654be30#64,
   0xd192e819d6ef5218#64, 0xd69906245565a910#64, 0xf40e35855771202a#64, 0x106aa07032bbd1b8#64,
   0x19a4c116b8d2d0c8#64, 0x1e376c085141ab53#64, 0x2748774cdf8eeb99#64, 0x34b0bcb5e19b48a8#64,
   0x391c0cb3c5c95a63#64, 0x4ed8aa4ae3418acb#64, 0x5b9cca4f7763e373#64, 0x682e6ff3d6b2b8a3#64,
   0x748f82ee5defb2fc#64, 0x78a5636f43172f60#64, 0x84c87814a1f0ab72#64, 0x8cc702081a6439ec#64,
   0x90befffa23631e28#64, 0xa4506cebde82bde9#64, 0xbef9a3f7b2c67915#64, 0xc67178f2e372532b#64,
   0xca273eceea26619c#64, 0xd186b8c721c0c207#64, 0xeada7dd6cde0eb1e#64, 0xf57d4f7fee6ed178#64,
   0x06f067aa72176fba#64, 0x0a637dc5a2c898a6#64, 0x113f9804bef90dae#64, 0x1b710b35131c471b#64,
   0x28db77f523047d84#64, 0x32caab7b40c72493#64, 0x3c9ebe0a15c9bebc#64, 0x431d67c49c100d4c#64,
   0x4cc5d4becb3e42b6#64, 0x597f299cfc657e2a#64, 0x5fcb6fab3ad6faec#64, 0x6c44198c4a475817#64]

/-- The word behind the schedule `W`, whose first sixteen words are the block's. -/
def nextWord (W : List (BitVec 64)) (t : ℕ) : BitVec 64 :=
  smallSigma1 (W.getD (t + 14) 0#64) + W.getD (t + 9) 0#64 + smallSigma0 (W.getD (t + 1) 0#64) +
    W.getD t 0#64

/-- The 80 words of the message schedule of a block. -/
def schedule (block : List (BitVec 8)) : List (BitVec 64) :=
  grow nextWord 64 ((List.range 16).map (word block))

/-- One round on the working variables `a, …, h`. -/
def round (s : Digest) (kw : BitVec 64 × BitVec 64) : Digest :=
  let t1 := s.get 7 + bigSigma1 (s.get 4) + ch (s.get 4) (s.get 5) (s.get 6) + kw.1 + kw.2
  let t2 := bigSigma0 (s.get 0) + maj (s.get 0) (s.get 1) (s.get 2)
  #v[t1 + t2, s.get 0, s.get 1, s.get 2, s.get 3 + t1, s.get 4, s.get 5, s.get 6]

/-- The compression function on a block of 128 bytes. -/
def compress (H : Digest) (block : List (BitVec 8)) : Digest :=
  H.zipWith (· + ·) ((roundConstants.zip (schedule block)).foldl round H)

/-- The initial hash value. -/
def initial : Digest :=
  #v[0x6a09e667f3bcc908#64, 0xbb67ae8584caa73b#64, 0x3c6ef372fe94f82b#64, 0xa54ff53a5f1d36f1#64,
    0x510e527fade682d1#64, 0x9b05688c2b3e6c1f#64, 0x1f83d9abfb41bd6b#64, 0x5be0cd19137e2179#64]

/-- SHA-512 of a message. -/
def hash (m : List (BitVec 8)) : Digest := mdHash compress 128 16 initial m

example : hash [0x61#8, 0x62#8, 0x63#8] =
    #v[0xddaf35a193617aba#64, 0xcc417349ae204131#64, 0x12e6fa4e89a97ea2#64, 0x0a9eeee64b55d39a#64,
      0x2192992a274fc1a8#64, 0x36ba3c23a3feebbd#64, 0x454d4423643ce80e#64,
      0x2a9ac94fa54ca49f#64] := by
  decide +kernel

end IsalCrypto.Lib.Sha512
