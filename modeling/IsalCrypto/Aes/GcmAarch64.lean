import IsalCrypto.Aes.GcmSse

/-!
# GCM on AArch64

`aes/aarch64/gcm_precomp.S`, `aes/aarch64/aes_gcm_aes_init.S` and the macros of
`aes/aarch64/gcm_common.S` that they use. The AES rounds are a block function `aes`. `keys` is the
memory from `hashkey_base` on, where pair `n` lies at `32 * n`: a power of the hash key, then the
same with its halves swapped. The buffers are functions from offsets, and what is left of a length
after its shift is a number.
-/

namespace IsalCrypto.Aes.GcmAarch64

open IsalCrypto.Lib
open IsalCrypto.Aes.GcmSse (GcmContextData)

/-! ## Instructions -/

/-- `rbit` on the bytes of a register. -/
def rbit (v : BitVec 128) : BitVec 128 := ofBytes ((toBytes v).map BitVec.reverse)

/-- `rev32` on the bytes of a register. -/
def rev32 (v : BitVec 128) : BitVec 128 :=
  ofBytes ((List.range 16).map fun k => byteAt v (k / 4 * 4 + (3 - k % 4)))

/-- `pmull` of 64-bit elements. -/
def pmull (v w : BitVec 128) : BitVec 128 := clmul (lowQ v) (lowQ w)

/-- `pmull2` of 64-bit elements. -/
def pmull2 (v w : BitVec 128) : BitVec 128 := clmul (highQ v) (highQ w)

/-- `ext` with the index 8. -/
def ext8 (v w : BitVec 128) : BitVec 128 := lowQ w ++ highQ v

/-- `tbl` with one register. -/
def tbl (v m : BitVec 128) : BitVec 128 :=
  ofBytes ((toBytes m).map fun i => if i.toNat < 16 then byteAt v i.toNat else 0#8)

/-- `ld1` of the `n` bytes of an element that begins at byte `p`. -/
def ld1 (v : BitVec 128) (p n : ℕ) (src : ℕ → Byte) (a : ℕ) : BitVec 128 :=
  ofBytes ((List.range 16).map fun k => if p ≤ k ∧ k < p + n then src (a + (k - p)) else byteAt v k)

/-- `dup` of `0x87`. -/
def poly : BitVec 128 := 0x87#64 ++ 0x87#64

def zero : BitVec 128 := 0#128

/-! ## The hash -/

/-- `HASHKEY_TOTAL_NUM`. -/
def hashkeyTotalNum : ℕ := 24

/-- The registers of the hash macros. -/
structure HashRegs where
  aadhash : BitVec 128
  hashkey : BitVec 128
  hashkeyExt : BitVec 128
  high : BitVec 128
  low : BitVec 128
  middle : BitVec 128
  hashkeyAdr : ℕ
  datAdr : ℕ

/-- `reduction(low,middle,high)`. -/
def reduction (high low middle : BitVec 128) : BitVec 128 :=
  let high := high ^^^ ext8 middle zero
  let low := low ^^^ ext8 zero middle
  let middle := pmull2 high poly
  let high := high ^^^ ext8 middle zero
  let low := low ^^^ ext8 zero middle
  low ^^^ pmull high poly

section Macros

variable (keys dat : ℕ → Byte)

/-- The next pair, which is loaded if there is one. -/
def nextPair (leftCount : ℕ) (s : HashRegs) : HashRegs :=
  if 1 < leftCount then
    { s with
      hashkey := ldQ keys s.hashkeyAdr
      hashkeyExt := ldQ keys (s.hashkeyAdr + 16)
      hashkeyAdr := s.hashkeyAdr + 32 }
  else s

/-- The products of `ghash_mult_round`, which are all of `ghash_mult_round_noload`. -/
def ghashMultRoundNoload (s : HashRegs) : HashRegs :=
  { s with
    middle := s.middle ^^^ pmull s.aadhash s.hashkeyExt ^^^ pmull2 s.aadhash s.hashkeyExt
    high := s.high ^^^ pmull2 s.aadhash s.hashkey
    low := s.low ^^^ pmull s.aadhash s.hashkey }

/-- The next block of data. -/
def nextDat (s : HashRegs) : HashRegs :=
  { s with
    aadhash := rbit (ldQ dat s.datAdr)
    datAdr := s.datAdr + 16 }

/-- `ghash_mult_round`. -/
def ghashMultRound (leftCount : ℕ) (s : HashRegs) : HashRegs :=
  nextDat dat (nextPair keys leftCount (ghashMultRoundNoload s))

/-- The products that begin a sum. -/
def ghashMultFirst (s : HashRegs) : HashRegs :=
  { s with
    middle := pmull s.aadhash s.hashkeyExt ^^^ pmull2 s.aadhash s.hashkeyExt
    high := pmull2 s.aadhash s.hashkey
    low := pmull s.aadhash s.hashkey }

/-- `ghash_mult_init_round`. The first pair is loaded always. -/
def ghashMultInitRound (leftCount : ℕ) (s : HashRegs) : HashRegs :=
  nextDat dat (nextPair keys leftCount (ghashMultFirst (nextPair keys 2 s)))

/-- `ghash_mult_final_round`. The three sums are not used after it. -/
def ghashMultFinalRound (s : HashRegs) : HashRegs :=
  { s with aadhash := s.aadhash ^^^ reduction s.high s.low s.middle }

/-- The rounds of `ghash_block_n` after the first one, with `left_count` of them to go. -/
def ghashMultRounds : ℕ → HashRegs → HashRegs
  | 0, s => s
  | leftCount + 1, s => ghashMultRounds leftCount (ghashMultRound keys dat (leftCount + 1) s)

/-- `ghash_block_n`. -/
def ghashBlockN (count : ℕ) (s : HashRegs) : HashRegs :=
  let s := { s with hashkeyAdr := (24 - count) <<< 5 }
  ghashMultFinalRound (ghashMultRounds keys dat (count - 1) (ghashMultInitRound keys dat count s))

/-- `ghash_block_reg`. -/
def ghashBlockReg (d : BitVec 128) (s : HashRegs) : HashRegs :=
  ghashMultFinalRound { ghashMultFirst s with aadhash := rbit d }

end Macros

/-! ## Precomputation -/

/-- `stp` of a power of the hash key and the same with its halves swapped. -/
def stpKey (keys : ℕ → Byte) (n : ℕ) (hashKey : BitVec 128) : ℕ → Byte :=
  stQ (stQ keys (32 * n) hashKey) (32 * n + 16) (ext8 hashKey hashKey)

/-- The next power in the loop of `aes_gcm_precomp`. -/
def nextKey (hashKey hashKeyIter : BitVec 128) : BitVec 128 :=
  let hashKeyExt := ext8 hashKey hashKey
  reduction (pmull2 hashKeyIter hashKey) (pmull hashKeyIter hashKey)
    (pmull hashKeyIter hashKeyExt ^^^ pmull2 hashKeyIter hashKeyExt)

/-- The loop of `aes_gcm_precomp`, with `n` pairs below the last one stored. -/
def precompLoop (hashKey : BitVec 128) : ℕ → BitVec 128 → (ℕ → Byte) → ℕ → Byte
  | 0, _, keys => keys
  | n + 1, hashKeyIter, keys =>
    let hashKeyIter := nextKey hashKey hashKeyIter
    precompLoop hashKey n hashKeyIter (stpKey keys n hashKeyIter)

/-- `aes_gcm_precomp`, on the expanded keys: the memory from `hashkey_base` on. -/
def aesGcmPrecomp (aes : BitVec 128 → BitVec 128) (keys : ℕ → Byte) : ℕ → Byte :=
  let hashKey := rbit (aes 0#128)
  precompLoop hashKey (hashkeyTotalNum - 1) hashKey (stpKey keys (hashkeyTotalNum - 1) hashKey)

/-! ## Small data -/

/-- `read_small_data_table`, up to 15 bytes. -/
def readSmallDataTable : List (List Byte) := [
  [0x00, 0x01, 0x02, 0x03, 0x04, 0x05, 0x06, 0x07, 0x08, 0x09, 0x0a, 0x0b, 0x0c, 0x0d, 0x0e, 0x0f],
  [0x0e, 0xff, 0xff, 0xff, 0xff, 0xff, 0xff, 0xff, 0xff, 0xff, 0xff, 0xff, 0xff, 0xff, 0xff, 0xff],
  [0x0c, 0x0d, 0xff, 0xff, 0xff, 0xff, 0xff, 0xff, 0xff, 0xff, 0xff, 0xff, 0xff, 0xff, 0xff, 0xff],
  [0x0c, 0x0d, 0x0e, 0xff, 0xff, 0xff, 0xff, 0xff, 0xff, 0xff, 0xff, 0xff, 0xff, 0xff, 0xff, 0xff],
  [0x08, 0x09, 0x0a, 0x0b, 0xff, 0xff, 0xff, 0xff, 0xff, 0xff, 0xff, 0xff, 0xff, 0xff, 0xff, 0xff],
  [0x08, 0x09, 0x0a, 0x0b, 0x0e, 0xff, 0xff, 0xff, 0xff, 0xff, 0xff, 0xff, 0xff, 0xff, 0xff, 0xff],
  [0x08, 0x09, 0x0a, 0x0b, 0x0c, 0x0d, 0xff, 0xff, 0xff, 0xff, 0xff, 0xff, 0xff, 0xff, 0xff, 0xff],
  [0x08, 0x09, 0x0a, 0x0b, 0x0c, 0x0d, 0x0e, 0xff, 0xff, 0xff, 0xff, 0xff, 0xff, 0xff, 0xff, 0xff],
  [0x00, 0x01, 0x02, 0x03, 0x04, 0x05, 0x06, 0x07, 0xff, 0xff, 0xff, 0xff, 0xff, 0xff, 0xff, 0xff],
  [0x00, 0x01, 0x02, 0x03, 0x04, 0x05, 0x06, 0x07, 0x0e, 0xff, 0xff, 0xff, 0xff, 0xff, 0xff, 0xff],
  [0x00, 0x01, 0x02, 0x03, 0x04, 0x05, 0x06, 0x07, 0x0c, 0x0d, 0xff, 0xff, 0xff, 0xff, 0xff, 0xff],
  [0x00, 0x01, 0x02, 0x03, 0x04, 0x05, 0x06, 0x07, 0x0c, 0x0d, 0x0e, 0xff, 0xff, 0xff, 0xff, 0xff],
  [0x00, 0x01, 0x02, 0x03, 0x04, 0x05, 0x06, 0x07, 0x08, 0x09, 0x0a, 0x0b, 0xff, 0xff, 0xff, 0xff],
  [0x00, 0x01, 0x02, 0x03, 0x04, 0x05, 0x06, 0x07, 0x08, 0x09, 0x0a, 0x0b, 0x0e, 0xff, 0xff, 0xff],
  [0x00, 0x01, 0x02, 0x03, 0x04, 0x05, 0x06, 0x07, 0x08, 0x09, 0x0a, 0x0b, 0x0c, 0x0d, 0xff, 0xff],
  [0x00, 0x01, 0x02, 0x03, 0x04, 0x05, 0x06, 0x07, 0x08, 0x09, 0x0a, 0x0b, 0x0c, 0x0d, 0x0e, 0xff]]

/-- One `tbz` and `ld1` of `read_small_data`: with bit `b` of the size, an element at byte `p`. -/
def readSmallLane (src : ℕ → Byte) (size b p : ℕ) (s : BitVec 128 × ℕ) : BitVec 128 × ℕ :=
  if size.testBit b then (ld1 s.1 p (2 ^ b) src s.2, s.2 + 2 ^ b) else s

/-- `read_small_data` through `read_small_data_table`. `dest` is what the register holds before. -/
def readSmallDataStart (src : ℕ → Byte) (a size : ℕ) (dest : BitVec 128) : BitVec 128 :=
  let s := readSmallLane src size 3 0 (dest, a)
  let s := readSmallLane src size 2 8 s
  let s := readSmallLane src size 1 12 s
  let s := readSmallLane src size 0 14 s
  tbl s.1 (ofBytes (readSmallDataTable.getD size []))

/-! ## Initialization -/

section Init

variable (keys aad : ℕ → Byte)

/-- The loop over batches of blocks. -/
def ghashLoop (aadLen : ℕ) (s : HashRegs) : ℕ × HashRegs :=
  if aadLen ≤ hashkeyTotalNum - 1 then (aadLen, s)
  else ghashLoop (aadLen - hashkeyTotalNum) (ghashBlockN keys aad hashkeyTotalNum s)
termination_by aadLen
decreasing_by
  unfold hashkeyTotalNum at *
  omega

/-- The loop over the blocks after the batches. -/
def leftLoop : ℕ → HashRegs → HashRegs
  | 0, s => s
  | aadLen + 1, s => leftLoop aadLen (ghashMultRound keys aad 2 s)

/-- From the load of the first block on: `aadLen` blocks, and `leftDat` after them. -/
def aadBlocks (aadLen : ℕ) (leftDat : BitVec 128) (s : HashRegs) : BitVec 128 :=
  let s := nextDat aad { s with datAdr := 0 }
  let (aadLen, s) := ghashLoop keys aad (aadLen - 1) s
  if aadLen = 0 then (ghashBlockReg leftDat s).aadhash
  else
    let s := { s with hashkeyAdr := (hashkeyTotalNum - 1 - aadLen) <<< 5 }
    let s := ghashMultRoundNoload
      (leftLoop keys aad (aadLen - 1) (ghashMultInitRound keys aad 2 s))
    (ghashMultFinalRound { s with aadhash := rbit leftDat }).aadhash

/-- What `aes_gcm_init` stores in `aad_hash`. `leftDat` and `s` are what the registers hold
before. -/
def aadHash (aadLen : BitVec 64) (leftDat : BitVec 128) (s : HashRegs) : BitVec 128 :=
  let leftLen := (aadLen &&& 15#64).toNat
  let s := { s with
    hashkey := ldQ keys ((hashkeyTotalNum - 1) * 32)
    hashkeyExt := ldQ keys ((hashkeyTotalNum - 1) * 32 + 16) }
  if aadLen = 0#64 then 0#128
  else
    let aadLen := (aadLen >>> 4).toNat
    if leftLen = 0 then
      let aadLen := aadLen - 1
      let leftDat := ldQ aad (aadLen <<< 4)
      if aadLen = 0 then rbit leftDat else aadBlocks keys aad aadLen leftDat s
    else
      let leftDat := readSmallDataStart aad (aadLen <<< 4) leftLen leftDat
      if aadLen = 0 then rbit leftDat else aadBlocks keys aad aadLen leftDat s

/-- `aes_gcm_init`. -/
def aesGcmInit (iv : ℕ → Byte) (aadLen : BitVec 64) (leftDat : BitVec 128) (s : HashRegs)
    (context : GcmContextData) : GcmContextData :=
  let origIV := (0x0100#16 ++ 0#16 ++ load32 iv 8 : BitVec 64) ++ load64 iv 0
  { context with
    aadLength := aadLen
    inLength := 0#64
    partialBlockLength := 0#64
    origIV := origIV
    currentCounter := rev32 origIV
    aadHash := aadHash keys aad aadLen leftDat s }

end Init

end IsalCrypto.Aes.GcmAarch64
