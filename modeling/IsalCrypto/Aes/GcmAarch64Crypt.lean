import IsalCrypto.Aes.GcmAarch64

/-!
# Encryption and decryption with GCM on AArch64

`aes/aarch64/gcm_update.S`, `aes/aarch64/gcm_enc_dec.S`, `aes/aarch64/aes_gcm_aes_finalize_128.S`
with its sibling, and the macros of `aes/aarch64/gcm_common_128.S` and `aes/aarch64/gcm_common.S`
that they use. The input and the output are two buffers. The block of the context that is kept for
the next call is read and written by bytes. What is left of a length after its shift is a number.
-/

namespace IsalCrypto.Aes.GcmAarch64

open IsalCrypto.Lib
open IsalCrypto.Aes.GcmSse (GcmContextData EncDec)

/-! ## Instructions -/

/-- `add` of 32-bit elements. -/
def add4s (v w : BitVec 128) : BitVec 128 := zipDwords (· + ·) v w

/-- `rev64` on the bytes of a register. -/
def rev64 (v : BitVec 128) : BitVec 128 :=
  ofBytes ((List.range 16).map fun k => byteAt v (k / 8 * 8 + (7 - k % 8)))

/-- `shl` of 64-bit elements by 3. -/
def shl3 (v : BitVec 128) : BitVec 128 := highQ v <<< 3 ++ lowQ v <<< 3

/-- `ins` into the last of the 32-bit elements. -/
def insS3 (v : BitVec 128) (x : BitVec 32) : BitVec 128 := x ++ v.extractLsb' 0 96

/-- `tbx` with one register: bytes with an index out of range are kept. -/
def tbx (dest v m : BitVec 128) : BitVec 128 :=
  ofBytes ((List.range 16).map fun k =>
    if (byteAt m k).toNat < 16 then byteAt v (byteAt m k).toNat else byteAt dest k)

/-- `st1` of the `n` bytes of an element that begins at byte `p`. -/
def st1 (v : BitVec 128) (p n : ℕ) (out : ℕ → Byte) (a : ℕ) : ℕ → Byte := fun k =>
  if a ≤ k ∧ k < a + n then byteAt v (p + (k - a)) else out k

/-- `vOne`. -/
def one : BitVec 128 := 1#32 ++ 0#96

/-! ## Blocks -/

/-- The registers of the block macros. -/
structure CryptRegs where
  hash : HashRegs
  ctr : BitVec 128
  outAdr : ℕ
  out : ℕ → Byte

section Macros

variable (aes : BitVec 128 → BitVec 128) (keys inp : ℕ → Byte) (encDec : EncDec)

/-- The part of `aes_gcm_init` and `aes_gcm_middle` that encrypts or decrypts a block and turns it
into the next one to be hashed. -/
def cryptBlock (s : CryptRegs) : CryptRegs :=
  let ctr := add4s s.ctr one
  let dat := ldQ inp s.hash.datAdr
  let encCtr := aes (rev32 ctr) ^^^ dat
  let hashed := match encDec with
    | .enc => encCtr
    | .dec => dat
  { hash := { s.hash with aadhash := rbit hashed, datAdr := s.hash.datAdr + 16 }
    ctr := ctr
    outAdr := s.outAdr + 16
    out := stQ s.out s.outAdr encCtr }

/-- The products of `aes_gcm_init`: the middle ones go into the two sums at once. -/
def multFirst (s : HashRegs) : HashRegs :=
  let tmp0 := pmull s.aadhash s.hashkeyExt ^^^ pmull2 s.aadhash s.hashkeyExt
  { s with
    high := pmull2 s.aadhash s.hashkey ^^^ ext8 tmp0 zero
    low := pmull s.aadhash s.hashkey ^^^ ext8 zero tmp0 }

/-- The products of `aes_gcm_middle`. -/
def multNext (s : HashRegs) : HashRegs :=
  let tmp0 := pmull2 s.aadhash s.hashkeyExt ^^^ pmull s.aadhash s.hashkeyExt
  { s with
    high := s.high ^^^ pmull2 s.aadhash s.hashkey ^^^ ext8 tmp0 zero
    low := s.low ^^^ pmull s.aadhash s.hashkey ^^^ ext8 zero tmp0 }

/-- `aes_gcm_init`, the macro. The first pair is loaded always. -/
def aesGcmFirst (leftCount : ℕ) (s : CryptRegs) : CryptRegs :=
  cryptBlock aes inp encDec
    { s with hash := nextPair keys leftCount (multFirst (nextPair keys 2 s.hash)) }

/-- `aes_gcm_middle`. -/
def aesGcmMiddle (leftCount : ℕ) (s : CryptRegs) : CryptRegs :=
  cryptBlock aes inp encDec { s with hash := nextPair keys leftCount (multNext s.hash) }

/-- `poly_mult_final_x2`. The two sums are not used after it. -/
def polyMultFinalX2 (s : HashRegs) : HashRegs :=
  let tmp1 := pmull2 s.high poly
  let low := s.aadhash ^^^ s.low
  let high := s.high ^^^ ext8 tmp1 zero
  let low := low ^^^ ext8 zero tmp1
  { s with aadhash := low ^^^ pmull high poly }

/-- The rounds of `aes_gcm_n_round` after the first one, with `left_count` of them to go. -/
def aesGcmMiddles : ℕ → CryptRegs → CryptRegs
  | 0, s => s
  | leftCount + 1, s => aesGcmMiddles leftCount (aesGcmMiddle aes keys inp encDec (leftCount + 1) s)

/-- `aes_gcm_n_round`. -/
def aesGcmNRound (count : ℕ) (s : CryptRegs) : CryptRegs :=
  let s := { s with hash := { s.hash with hashkeyAdr := (24 - count) <<< 5 } }
  let s := aesGcmMiddles aes keys inp encDec (count - 1) (aesGcmFirst aes keys inp encDec count s)
  { s with hash := polyMultFinalX2 s.hash }

/-- The loop over batches of blocks. -/
def cryptLoop (blocks : ℕ) (s : CryptRegs) : ℕ × CryptRegs :=
  if blocks ≤ hashkeyTotalNum - 1 then (blocks, s)
  else cryptLoop (blocks - hashkeyTotalNum) (aesGcmNRound aes keys inp encDec hashkeyTotalNum s)
termination_by blocks
decreasing_by
  unfold hashkeyTotalNum at *
  omega

/-- The loop over the blocks between the first and the last one. -/
def middleLoop : ℕ → CryptRegs → CryptRegs
  | 0, s => s
  | blocks + 1, s => middleLoop blocks (aesGcmMiddle aes keys inp encDec 2 s)

/-- The blocks after the batches. -/
def leftBlocks (blocks : ℕ) (s : CryptRegs) : CryptRegs :=
  if blocks = 0 then s
  else
    let s := { s with hash := { s.hash with hashkeyAdr := (hashkeyTotalNum - blocks) <<< 5 } }
    let s := aesGcmFirst aes keys inp encDec 2 s
    let s := if blocks = 1 then s
      else aesGcmMiddle aes keys inp encDec 1 (middleLoop aes keys inp encDec (blocks - 2) s)
    { s with hash := polyMultFinalX2 s.hash }

/-- All whole blocks. -/
def wholeBlocks (blocks : ℕ) (s : CryptRegs) : CryptRegs :=
  let (blocks, s) := cryptLoop aes keys inp encDec blocks s
  leftBlocks aes keys inp encDec blocks s

end Macros

/-! ## Small data -/

/-- `write_small_data_table`, up to 15 bytes. -/
def writeSmallDataTable : List (List Byte) := [
  [0x00, 0x01, 0x02, 0x03, 0x04, 0x05, 0x06, 0x07, 0x08, 0x09, 0x0a, 0x0b, 0x0c, 0x0d, 0x0e, 0xff],
  [0xff, 0xff, 0xff, 0xff, 0xff, 0xff, 0xff, 0xff, 0xff, 0xff, 0xff, 0xff, 0xff, 0xff, 0x00, 0xff],
  [0xff, 0xff, 0xff, 0xff, 0xff, 0xff, 0xff, 0xff, 0xff, 0xff, 0xff, 0xff, 0x00, 0x01, 0xff, 0xff],
  [0xff, 0xff, 0xff, 0xff, 0xff, 0xff, 0xff, 0xff, 0xff, 0xff, 0xff, 0xff, 0x00, 0x01, 0x02, 0xff],
  [0xff, 0xff, 0xff, 0xff, 0xff, 0xff, 0xff, 0xff, 0x00, 0x01, 0x02, 0x03, 0xff, 0xff, 0xff, 0xff],
  [0xff, 0xff, 0xff, 0xff, 0xff, 0xff, 0xff, 0xff, 0x00, 0x01, 0x02, 0x03, 0xff, 0xff, 0x04, 0xff],
  [0xff, 0xff, 0xff, 0xff, 0xff, 0xff, 0xff, 0xff, 0x00, 0x01, 0x02, 0x03, 0x04, 0x05, 0xff, 0xff],
  [0xff, 0xff, 0xff, 0xff, 0xff, 0xff, 0xff, 0xff, 0x00, 0x01, 0x02, 0x03, 0x04, 0x05, 0x06, 0xff],
  [0x00, 0x01, 0x02, 0x03, 0x04, 0x05, 0x06, 0x07, 0xff, 0xff, 0xff, 0xff, 0xff, 0xff, 0xff, 0xff],
  [0x00, 0x01, 0x02, 0x03, 0x04, 0x05, 0x06, 0x07, 0xff, 0xff, 0xff, 0xff, 0xff, 0xff, 0x08, 0xff],
  [0x00, 0x01, 0x02, 0x03, 0x04, 0x05, 0x06, 0x07, 0xff, 0xff, 0xff, 0xff, 0x08, 0x09, 0xff, 0xff],
  [0x00, 0x01, 0x02, 0x03, 0x04, 0x05, 0x06, 0x07, 0xff, 0xff, 0xff, 0xff, 0x08, 0x09, 0x0a, 0xff],
  [0x00, 0x01, 0x02, 0x03, 0x04, 0x05, 0x06, 0x07, 0x08, 0x09, 0x0a, 0x0b, 0xff, 0xff, 0xff, 0xff],
  [0x00, 0x01, 0x02, 0x03, 0x04, 0x05, 0x06, 0x07, 0x08, 0x09, 0x0a, 0x0b, 0xff, 0xff, 0x0c, 0xff],
  [0x00, 0x01, 0x02, 0x03, 0x04, 0x05, 0x06, 0x07, 0x08, 0x09, 0x0a, 0x0b, 0x0c, 0x0d, 0xff, 0xff],
  [0x00, 0x01, 0x02, 0x03, 0x04, 0x05, 0x06, 0x07, 0x08, 0x09, 0x0a, 0x0b, 0x0c, 0x0d, 0x0e, 0xff]]

/-- `tbx_start_small_data_table`, up to 15 bytes. -/
def tbxStartSmallDataTable : List (List Byte) := [
  [0xff, 0xff, 0x02, 0x03, 0x04, 0x05, 0x06, 0x07, 0x08, 0x09, 0x0a, 0x0b, 0x0c, 0x0d, 0x0e, 0x0f],
  [0xff, 0x01, 0x02, 0x03, 0x04, 0x05, 0x06, 0x07, 0x08, 0x09, 0x0a, 0x0b, 0x0c, 0x0d, 0x0e, 0x0f],
  [0xff, 0xff, 0x02, 0x03, 0x04, 0x05, 0x06, 0x07, 0x08, 0x09, 0x0a, 0x0b, 0x0c, 0x0d, 0x0e, 0x0f],
  [0xff, 0xff, 0xff, 0x03, 0x04, 0x05, 0x06, 0x07, 0x08, 0x09, 0x0a, 0x0b, 0x0c, 0x0d, 0x0e, 0x0f],
  [0xff, 0xff, 0xff, 0xff, 0x04, 0x05, 0x06, 0x07, 0x08, 0x09, 0x0a, 0x0b, 0x0c, 0x0d, 0x0e, 0x0f],
  [0xff, 0xff, 0xff, 0xff, 0xff, 0x05, 0x06, 0x07, 0x08, 0x09, 0x0a, 0x0b, 0x0c, 0x0d, 0x0e, 0x0f],
  [0xff, 0xff, 0xff, 0xff, 0xff, 0xff, 0x06, 0x07, 0x08, 0x09, 0x0a, 0x0b, 0x0c, 0x0d, 0x0e, 0x0f],
  [0xff, 0xff, 0xff, 0xff, 0xff, 0xff, 0xff, 0x07, 0x08, 0x09, 0x0a, 0x0b, 0x0c, 0x0d, 0x0e, 0x0f],
  [0xff, 0xff, 0xff, 0xff, 0xff, 0xff, 0xff, 0xff, 0x08, 0x09, 0x0a, 0x0b, 0x0c, 0x0d, 0x0e, 0x0f],
  [0xff, 0xff, 0xff, 0xff, 0xff, 0xff, 0xff, 0xff, 0xff, 0x09, 0x0a, 0x0b, 0x0c, 0x0d, 0x0e, 0x0f],
  [0xff, 0xff, 0xff, 0xff, 0xff, 0xff, 0xff, 0xff, 0xff, 0xff, 0x0a, 0x0b, 0x0c, 0x0d, 0x0e, 0x0f],
  [0xff, 0xff, 0xff, 0xff, 0xff, 0xff, 0xff, 0xff, 0xff, 0xff, 0xff, 0x0b, 0x0c, 0x0d, 0x0e, 0x0f],
  [0xff, 0xff, 0xff, 0xff, 0xff, 0xff, 0xff, 0xff, 0xff, 0xff, 0xff, 0xff, 0x0c, 0x0d, 0x0e, 0x0f],
  [0xff, 0xff, 0xff, 0xff, 0xff, 0xff, 0xff, 0xff, 0xff, 0xff, 0xff, 0xff, 0xff, 0x0d, 0x0e, 0x0f],
  [0xff, 0xff, 0xff, 0xff, 0xff, 0xff, 0xff, 0xff, 0xff, 0xff, 0xff, 0xff, 0xff, 0xff, 0x0e, 0x0f],
  [0xff, 0xff, 0xff, 0xff, 0xff, 0xff, 0xff, 0xff, 0xff, 0xff, 0xff, 0xff, 0xff, 0xff, 0xff, 0x0f]]

/-- `shift_small_data_table` and the row of `read_small_data_table` behind it. -/
def shiftSmallDataTable : List Byte :=
  List.replicate 16 0xff ++
    [0x00, 0x01, 0x02, 0x03, 0x04, 0x05, 0x06, 0x07, 0x08, 0x09, 0x0a, 0x0b, 0x0c, 0x0d, 0x0e, 0x0f]

/-- One `tbz` and `st1` of `write_small_data`. -/
def writeSmallLane (tmp1 : BitVec 128) (size b p : ℕ) (s : (ℕ → Byte) × ℕ) : (ℕ → Byte) × ℕ :=
  if size.testBit b then (st1 tmp1 p (2 ^ b) s.1 s.2, s.2 + 2 ^ b) else s

/-- `write_small_data_start`. -/
def writeSmallDataStart (src : BitVec 128) (out : ℕ → Byte) (dest size : ℕ) : ℕ → Byte :=
  let tmp1 := tbl src (ofBytes (writeSmallDataTable.getD size []))
  let s := writeSmallLane tmp1 size 3 0 (out, dest)
  let s := writeSmallLane tmp1 size 2 8 s
  let s := writeSmallLane tmp1 size 1 12 s
  (writeSmallLane tmp1 size 0 14 s).1

/-- `tbx_small_data_start`. -/
def tbxSmallDataStart (src dest : BitVec 128) (size : ℕ) : BitVec 128 :=
  tbx dest src (ofBytes (tbxStartSmallDataTable.getD size []))

/-- `clear_small_data`. -/
def clearSmallData (dest : BitVec 128) (size : ℕ) : BitVec 128 :=
  tbx dest zero (ofBytes ((shiftSmallDataTable.drop (16 - size)).take 16))

/-! ## The block of the context -/

/-- The pointers and the memory of `generic_load_partial_block`. `partialBlock` is the memory from
the block of the context on. -/
structure PartialRegs where
  inAdr : ℕ
  outAdr : ℕ
  out : ℕ → Byte
  partialAdr : ℕ
  partialBlock : ℕ → Byte

/-- `str` of some bytes. -/
def stBytes (mem : ℕ → Byte) (a : ℕ) (l : List Byte) : ℕ → Byte := fun k =>
  if a ≤ k ∧ k < a + l.length then l.getD (k - a) 0#8 else mem k

/-- `__generic_load_small_data`. -/
def genericLoadSmallData (encDec : EncDec) (inp : ℕ → Byte) (smallReadLen lenBit : ℕ)
    (s : PartialRegs) : PartialRegs :=
  if smallReadLen.testBit lenBit then
    let temp0 := window inp s.inAdr (2 ^ lenBit)
    let temp1 := List.zipWith (· ^^^ ·) temp0 (window s.partialBlock s.partialAdr (2 ^ lenBit))
    let kept := match encDec with
      | .enc => temp1
      | .dec => temp0
    { inAdr := s.inAdr + 2 ^ lenBit
      outAdr := s.outAdr + 2 ^ lenBit
      out := stBytes s.out s.outAdr temp1
      partialAdr := s.partialAdr + 2 ^ lenBit
      partialBlock := stBytes s.partialBlock s.partialAdr kept }
  else s

/-- `generic_load_partial_block`. -/
def genericLoadPartialBlock (encDec : EncDec) (inp : ℕ → Byte) (smallReadLen : ℕ)
    (s : PartialRegs) : PartialRegs :=
  [3, 2, 1, 0].foldl (fun s lenBit => genericLoadSmallData encDec inp smallReadLen lenBit s) s

/-! ## Updates -/

section Update

variable (aes : BitVec 128 → BitVec 128) (keys inp : ℕ → Byte) (encDec : EncDec)

/-- Label 24, `partial_block_end`: `len` bytes are left. `partialBlock` is what the register holds
before. -/
def partialBlockEnd (len : ℕ) (partialBlock : BitVec 128) (inAdr outAdr : ℕ) (ctr : BitVec 128)
    (context : GcmContextData) (out : ℕ → Byte) : GcmContextData × (ℕ → Byte) :=
  let ctr := add4s ctr one
  let partialBlock := readSmallDataStart inp inAdr len partialBlock
  let encCtr := partialBlock ^^^ aes (rev32 ctr)
  let partialBlock := match encDec with
    | .enc => encCtr
    | .dec => tbxSmallDataStart encCtr partialBlock len
  ({ context with
      currentCounter := ctr
      partialBlockEncKey := partialBlock
      partialBlockLength := BitVec.ofNat 64 len },
    writeSmallDataStart encCtr out outAdr len)

/-- Label 4: the whole blocks are done, and `len` bytes are left. -/
def wholeBlocksEnd (len : ℕ) (partialBlock : BitVec 128) (context : GcmContextData)
    (s : CryptRegs) :
    GcmContextData × (ℕ → Byte) :=
  let context := { context with aadHash := s.hash.aadhash, currentCounter := s.ctr }
  if len = 0 then (context, s.out)
  else partialBlockEnd aes inp encDec len partialBlock s.hash.datAdr s.outAdr s.ctr context s.out

/-- Label 21, `start_of_mainloop`. -/
def startOfMainloop (len : BitVec 64) (partialBlock : BitVec 128) (context : GcmContextData)
    (s : CryptRegs) : GcmContextData × (ℕ → Byte) :=
  if len = 0#64 then
    partialBlockEnd aes inp encDec 0 partialBlock s.hash.datAdr s.outAdr s.ctr context s.out
  else
    wholeBlocksEnd aes inp encDec (len &&& 15#64).toNat partialBlock context
      (wholeBlocks aes keys inp encDec (len >>> 4).toNat s)

/-- Label 23, `partial_block_start`. -/
def partialBlockStart (len : BitVec 64) (context : GcmContextData) (s : CryptRegs) :
    GcmContextData × (ℕ → Byte) :=
  let leftPartialBlockLen := 16#64 - context.partialBlockLength
  let smallReadLen := if len ≤ leftPartialBlockLen then len else leftPartialBlockLen
  let partialBlockLen := (context.partialBlockLength + smallReadLen) &&& 15#64
  let len := len - smallReadLen
  let r := genericLoadPartialBlock encDec inp smallReadLen.toNat
    ⟨0, 0, s.out, context.partialBlockLength.toNat, byteAt context.partialBlockEncKey⟩
  let partialBlock := ldQ r.partialBlock 0
  let context := { context with
    partialBlockLength := partialBlockLen
    partialBlockEncKey := partialBlock }
  if partialBlockLen ≠ 0#64 then (context, r.out)
  else
    let hash := ghashBlockReg partialBlock { s.hash with
      hashkey := ldQ keys ((hashkeyTotalNum - 1) * 32)
      hashkeyExt := ldQ keys ((hashkeyTotalNum - 1) * 32 + 16) }
    let context := { context with aadHash := hash.aadhash }
    let s := { s with
      hash := { hash with datAdr := r.inAdr }
      outAdr := r.outAdr
      out := r.out }
    if len = 0#64 then wholeBlocksEnd aes inp encDec 0 partialBlock context s
    else if 15#64 < len then startOfMainloop aes keys inp encDec len partialBlock context s
    else partialBlockEnd aes inp encDec len.toNat partialBlock r.inAdr r.outAdr s.ctr context r.out

/-- `aes_gcm_enc_update` and `aes_gcm_dec_update`: the context and the output buffer. `partialBlock`
and `s` are what the registers hold before. -/
def aesGcmUpdate (len : BitVec 64) (partialBlock : BitVec 128) (s : HashRegs)
    (context : GcmContextData) (out : ℕ → Byte) : GcmContextData × (ℕ → Byte) :=
  if len = 0#64 then (context, out)
  else
    let s : CryptRegs :=
      ⟨{ s with aadhash := context.aadHash, datAdr := 0 }, context.currentCounter, 0, out⟩
    let partialBlockLength := context.partialBlockLength
    let context := { context with inLength := context.inLength + len }
    if partialBlockLength = 0#64 then startOfMainloop aes keys inp encDec len partialBlock context s
    else partialBlockStart aes keys inp encDec len context s

end Update

/-! ## The tag -/

/-- The stores of the tag. -/
def outputAuthTag (aadHash : BitVec 128) (authTagLen : BitVec 64) : List Byte :=
  if authTagLen = 16#64 then toBytes aadHash
  else if authTagLen = 12#64 then (toBytes aadHash).take 8 ++ ((toBytes aadHash).drop 8).take 4
  else (toBytes aadHash).take 8

section Tag

variable (aes : BitVec 128 → BitVec 128) (keys : ℕ → Byte)

/-- From the product for the block before the lengths on: the lengths, the last product and the
final round. `s` holds the last pair but one and the sums so far. -/
def lengthsAndTag (len encCtr : BitVec 128) (authTagLen : BitVec 64) (s : HashRegs) : List Byte :=
  let s := nextPair keys 2 (ghashMultRoundNoload s)
  let s := ghashMultRoundNoload { s with aadhash := rbit (rev64 (shl3 len)) }
  let s := ghashMultFinalRound { s with aadhash := rbit encCtr }
  outputAuthTag (rbit s.aadhash) authTagLen

/-- The first pair is loaded. The sums are cleared, where `aes_gcm_enc_finalize` and
`aes_gcm_dec_finalize` write the first products instead of adding them. -/
def tagStart (n : ℕ) (aadHash : BitVec 128) (s : HashRegs) : HashRegs :=
  nextPair keys 2 { s with
    aadhash := aadHash
    high := 0#128
    low := 0#128
    middle := 0#128
    hashkeyAdr := n <<< 5 }

/-- `aes_gcm_enc_finalize` and `aes_gcm_dec_finalize`. -/
def aesGcmFinalize (context : GcmContextData) (partialBlock : BitVec 128) (s : HashRegs)
    (authTagLen : BitVec 64) : List Byte :=
  let len := context.inLength ++ context.aadLength
  let encIV := aes context.origIV
  if context.partialBlockLength = 0#64 then
    lengthsAndTag keys len encIV authTagLen (tagStart keys (hashkeyTotalNum - 2) context.aadHash s)
  else
    let s := nextPair keys 2
      (ghashMultRoundNoload (tagStart keys (hashkeyTotalNum - 3) context.aadHash s))
    let partialBlock := readSmallDataStart (byteAt context.partialBlockEncKey) 0
      context.partialBlockLength.toNat partialBlock
    lengthsAndTag keys len encIV authTagLen { s with aadhash := rbit partialBlock }

end Tag

/-! ## In one go -/

section OneShot

variable (aes : BitVec 128 → BitVec 128) (keys inp aad : ℕ → Byte) (encDec : EncDec)

/-- From the load of the first block on, as `aadBlocks`; the pair of the hash key is loaded for a
single last block. -/
def aadBlocksReload (aadLen : ℕ) (leftDat : BitVec 128) (s : HashRegs) : BitVec 128 :=
  let s := nextDat aad { s with datAdr := 0 }
  let (aadLen, s) := ghashLoop keys aad (aadLen - 1) s
  if aadLen = 0 then
    (ghashBlockReg leftDat { s with
      hashkey := ldQ keys ((hashkeyTotalNum - 1) * 32)
      hashkeyExt := ldQ keys ((hashkeyTotalNum - 1) * 32 + 16) }).aadhash
  else
    let s := { s with hashkeyAdr := (hashkeyTotalNum - 1 - aadLen) <<< 5 }
    let s := ghashMultRoundNoload
      (leftLoop keys aad (aadLen - 1) (ghashMultInitRound keys aad 2 s))
    (ghashMultFinalRound { s with aadhash := rbit leftDat }).aadhash

/-- The hash of the additional data in `aes_gcm_enc` and `aes_gcm_dec`, and the register of the last
block. -/
def aadHashOneShot (aadLen : BitVec 64) (leftDat : BitVec 128) (s : HashRegs) :
    BitVec 128 × BitVec 128 :=
  let leftLen := (aadLen &&& 15#64).toNat
  if aadLen = 0#64 then (0#128, leftDat)
  else
    let aadLen := (aadLen >>> 4).toNat
    if leftLen = 0 then
      let aadLen := aadLen - 1
      let leftDat := ldQ aad (aadLen <<< 4)
      (if aadLen = 0 then rbit leftDat else aadBlocksReload keys aad aadLen leftDat s, leftDat)
    else
      let leftDat := readSmallDataStart aad (aadLen <<< 4) leftLen leftDat
      (if aadLen = 0 then rbit leftDat else aadBlocksReload keys aad aadLen leftDat s, leftDat)

/-- `complete part`: the last bytes and the tag. -/
def completePart (leftLen : ℕ) (leftDat len : BitVec 128) (authTagLen : BitVec 64) (s : CryptRegs) :
    (ℕ → Byte) × List Byte :=
  if leftLen = 0 then
    (s.out, lengthsAndTag keys len (aes (rev32 (insS3 s.ctr 1#32))) authTagLen
      (tagStart keys (hashkeyTotalNum - 2) s.hash.aadhash s.hash))
  else
    let hash := nextPair keys 2
      (ghashMultRoundNoload (tagStart keys (hashkeyTotalNum - 3) s.hash.aadhash s.hash))
    let leftDat := readSmallDataStart inp s.hash.datAdr leftLen leftDat
    let ctr := add4s s.ctr one
    let encCtr := aes (rev32 ctr) ^^^ leftDat
    let hashed := match encDec with
      | .enc => clearSmallData encCtr leftLen
      | .dec => leftDat
    (writeSmallDataStart encCtr s.out s.outAdr leftLen,
      lengthsAndTag keys len (aes (rev32 (insS3 ctr 1#32))) authTagLen
        { hash with aadhash := rbit hashed })

/-- `aes_gcm_enc` and `aes_gcm_dec`: the context, the output buffer and the tag. `ctr`, `leftDat`
and `s` are what the registers hold before. -/
def aesGcmEncDec (len : BitVec 64) (iv : ℕ → Byte) (aadLen authTagLen : BitVec 64)
    (ctr leftDat : BitVec 128) (s : HashRegs) (context : GcmContextData) (out : ℕ → Byte) :
    GcmContextData × (ℕ → Byte) × List Byte :=
  let context := { context with aadLength := aadLen, inLength := len }
  let ctr := insS3 (rev32 (ld1 (ld1 ctr 0 8 iv 0) 8 4 iv 8)) 1#32
  let (aadHash, leftDat) := aadHashOneShot keys aad aadLen leftDat s
  let s : CryptRegs := ⟨{ s with aadhash := aadHash, datAdr := 0 }, ctr, 0, out⟩
  let s := if len = 0#64 then s else wholeBlocks aes keys inp encDec (len >>> 4).toNat s
  (context, completePart aes keys inp encDec (len &&& 15#64).toNat leftDat
    (context.inLength ++ context.aadLength) authTagLen s)

end OneShot

end IsalCrypto.Aes.GcmAarch64
