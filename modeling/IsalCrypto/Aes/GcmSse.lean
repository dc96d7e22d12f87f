import IsalCrypto.Aes.Keyexp
import IsalCrypto.Lib.CarryLess

/-!
# GCM on x86

`aes/gcm_sse.asm`: the macros `PRECOMPUTE`, `GCM_INIT`, `GCM_ENC_DEC` and `GCM_COMPLETE` and those
they use. The AES rounds on one block or several at once are a block function `aes`; for expanded
keys it is `encryptSingleBlock`. The input and the output are two buffers, functions from offsets.
The comparisons of lengths are signed, as they are in the code; what is left of a length that is
below `2^63` is a number.
-/

namespace IsalCrypto.Aes.GcmSse

open IsalCrypto.Lib IsalCrypto.Lib.Aes

/-! ## Instructions -/

/-- `pshufb`. -/
def pshufb (v mask : BitVec 128) : BitVec 128 :=
  ofBytes ((toBytes mask).map fun m => if m.msb then 0#8 else byteAt v (m.toNat % 16))

/-- `pshufd x, y, 01001110b`. -/
def pshufd4e (v : BitVec 128) : BitVec 128 := lowQ v ++ highQ v

/-- `pshufd x, y, 00100100b`. -/
def pshufd24 (v : BitVec 128) : BitVec 128 :=
  v.extractLsb' 0 32 ++ v.extractLsb' 64 32 ++ v.extractLsb' 32 32 ++ v.extractLsb' 0 32

/-- `pclmulqdq` with the immediate `0x11`. -/
def pclmul11 (v w : BitVec 128) : BitVec 128 := clmul (highQ v) (highQ w)

/-- `pclmulqdq` with the immediate `0x00`. -/
def pclmul00 (v w : BitVec 128) : BitVec 128 := clmul (lowQ v) (lowQ w)

def pslld (v : BitVec 128) (k : ℕ) : BitVec 128 := mapDwords (· <<< k) v

def psrld (v : BitVec 128) (k : ℕ) : BitVec 128 := mapDwords (· >>> k) v

def psllq (v : BitVec 128) (k : ℕ) : BitVec 128 := highQ v <<< k ++ lowQ v <<< k

def psrlq (v : BitVec 128) (k : ℕ) : BitVec 128 := highQ v >>> k ++ lowQ v >>> k

def pslldq (v : BitVec 128) (k : ℕ) : BitVec 128 := v <<< (8 * k)

def psrldq (v : BitVec 128) (k : ℕ) : BitVec 128 := v >>> (8 * k)

def paddd (v w : BitVec 128) : BitVec 128 := zipDwords (· + ·) v w

def pcmpeqd (v w : BitVec 128) : BitVec 128 :=
  zipDwords (fun a b => if a = b then BitVec.allOnes 32 else 0#32) v w

/-- `pinsrq` into the low element. -/
def pinsrq0 (v : BitVec 128) (x : BitVec 64) : BitVec 128 := highQ v ++ x

/-- `pinsrq` into the high element. -/
def pinsrq1 (v : BitVec 128) (x : BitVec 64) : BitVec 128 := x ++ lowQ v

/-- `pinsrd` into element 2. -/
def pinsrd2 (v : BitVec 128) (x : BitVec 32) : BitVec 128 := v.extractLsb' 96 32 ++ x ++ lowQ v

/-- `SHIFTROWS` and `SUBBYTES`. -/
def subShift (v : BitVec 128) : BitVec 128 := packDwords fun c =>
  sbox (wordByte (dword v ((c + 3) % 4)) 3) ++ sbox (wordByte (dword v ((c + 2) % 4)) 2) ++
    sbox (wordByte (dword v ((c + 1) % 4)) 1) ++ sbox (wordByte (dword v c) 0)

def aesenc (v k : BitVec 128) : BitVec 128 :=
  packDwords (fun c => mixColumn (dword (subShift v) c)) ^^^ k

def aesenclast (v k : BitVec 128) : BitVec 128 := subShift v ^^^ k

/-- `ENCRYPT_SINGLE_BLOCK` with `NROUNDS` and the expanded keys. -/
def encryptSingleBlock (nrounds : ℕ) (keys : ℕ → Byte) (st : BitVec 128) : BitVec 128 :=
  let st := (List.range nrounds).foldl (fun st i => aesenc st (ldQ keys (16 * (i + 1))))
    (st ^^^ ldQ keys 0)
  aesenclast st (ldQ keys (16 * (nrounds + 1)))

/-! ## The constants of `gcm_defines.asm` -/

/-- `POLY`. -/
def poly : BitVec 128 := 0xc2000000000000000000000000000001#128

/-- `TWOONE`. -/
def twoone : BitVec 128 := 0x00000001000000000000000000000001#128

/-- `SHUF_MASK`. -/
def shufMask : BitVec 128 := 0x000102030405060708090a0b0c0d0e0f#128

/-- `SHIFT_MASK`. -/
def shiftMask : BitVec 128 := 0x0f0e0d0c0b0a09080706050403020100#128

/-- `ALL_F`. -/
def allF : BitVec 128 := BitVec.allOnes 128

/-- The memory from `SHIFT_MASK` on, through `ALL_F` and `ZERO`. -/
def shiftTable : ℕ → Byte :=
  fun k => (toBytes shiftMask ++ toBytes allF ++ toBytes 0#128).getD k 0#8

/-- `ONE`. -/
def one : BitVec 128 := 1#128

/-- `ONEf`. -/
def onef : BitVec 128 := 0x01000000000000000000000000000000#128

/-! ## The hash -/

/-- The two phases of the reduction in `GHASH_MUL`, `GHASH_8_ENCRYPT_8_PARALLEL` and
`GHASH_LAST_8`: of the product `t1:gh`. -/
def reduction (gh t1 : BitVec 128) : BitVec 128 :=
  let t2 := pslld gh 31 ^^^ pslld gh 30 ^^^ pslld gh 25
  let t5 := psrldq t2 4
  let gh := gh ^^^ pslldq t2 12
  let t2 := psrld gh 1 ^^^ psrld gh 2 ^^^ psrld gh 7
  gh ^^^ (t2 ^^^ t5) ^^^ t1

/-- `GHASH_MUL`. -/
def ghashMul (gh hk : BitVec 128) : BitVec 128 :=
  let t2 := pshufd4e gh ^^^ gh
  let t3 := pshufd4e hk ^^^ hk
  let t1 := pclmul11 gh hk
  let gh := pclmul00 gh hk
  let t2 := pclmul00 t2 t3 ^^^ gh ^^^ t1
  reduction (gh ^^^ pslldq t2 8) (t1 ^^^ psrldq t2 8)

/-- What is used of `struct isal_gcm_key_data`: the cipher with the expanded keys, `HashKey_1` to
`HashKey_8` at 0 to 7, and `HashKey_k` to `HashKey_8_k`. -/
structure KeyData where
  aes : BitVec 128 → BitVec 128
  hashKey : ℕ → BitVec 128
  hashKeyK : ℕ → BitVec 128

/-- `HashKey<<1 mod poly`, from `HashKey`. -/
def shiftHashKey (xmm6 : BitVec 128) : BitVec 128 :=
  let xmm2 := psrlq xmm6 63
  let xmm1 := psrldq xmm2 8
  let xmm6 := psllq xmm6 1 ||| pslldq xmm2 8
  xmm6 ^^^ (pcmpeqd (pshufd24 xmm1) twoone &&& poly)

/-- The successive values of `T4` in `PRECOMPUTE`. -/
def hashKeys (hk : BitVec 128) : ℕ → BitVec 128
  | 0 => hk
  | n + 1 => ghashMul (hashKeys hk n) hk

/-- `_aes_gcm_precomp_128_sse`, on the expanded keys. -/
def precomp (aes : BitVec 128 → BitVec 128) : KeyData :=
  let hk := shiftHashKey (pshufb (aes 0#128) shufMask)
  { aes := aes
    hashKey := hashKeys hk
    hashKeyK := fun n => pshufd4e (hashKeys hk n) ^^^ hashKeys hk n }

/-! ## Small data -/

/-- How often the body of a loop runs that ends in `dec`, `jg`. -/
def iterations (counter : BitVec 64) : ℕ := if counter.slt 1#64 then 1 else counter.toNat

/-- `_byte_loop_1` and `_byte_loop_2`, with the number of runs of the body. -/
def byteLoop (inp : ℕ → Byte) : ℕ → ℕ → BitVec 64 → BitVec 64
  | 0, _, tmp1 => tmp1
  | n + 1, endReadLocation, tmp1 =>
    let endReadLocation := endReadLocation - 1
    byteLoop inp n endReadLocation (tmp1 <<< 8 ||| (inp endReadLocation).setWidth 64)

/-- `READ_SMALL_DATA_INPUT`. -/
def readSmallDataInput (inp : ℕ → Byte) (a : ℕ) (length : BitVec 64) : BitVec 128 :=
  let endReadLocation := a + length.toNat
  if length.slt 8#64 then
    if length = 0#64 then 0#128
    else pinsrq0 0#128 (byteLoop inp (iterations length) endReadLocation 0#64)
  else
    let output := pinsrq0 0#128 (load64 inp a)
    if length = 8#64 then output
    else pinsrq1 output (byteLoop inp (iterations (length - 8#64)) endReadLocation 0#64)

/-- The byte stores of `_less_than_8_bytes_left`. -/
def storeBytes (rax : BitVec 64) : ℕ → ℕ → (ℕ → Byte) → ℕ → Byte
  | 0, _, out => out
  | r13 + 1, dataOffset, out =>
    storeBytes (rax >>> 8) r13 (dataOffset + 1) (Function.update out dataOffset (rax.setWidth 8))

/-- The stores of `r13` bytes, at least one and at most 16, at `DATA_OFFSET`. -/
def storeSmall (out : ℕ → Byte) (dataOffset : ℕ) (xmm9 : BitVec 128) (r13 : ℕ) : ℕ → Byte :=
  if r13 ≤ 8 then storeBytes (lowQ xmm9) r13 dataOffset out
  else
    let out := storeBytes (lowQ xmm9) 8 dataOffset out
    storeBytes (lowQ (psrldq xmm9 8)) (r13 - 8) (dataOffset + 8) out

/-! ## Initialization -/

/-- `struct isal_gcm_context_data`. -/
structure GcmContextData where
  aadHash : BitVec 128
  aadLength : BitVec 64
  inLength : BitVec 64
  partialBlockEncKey : BitVec 128
  origIV : BitVec 128
  currentCounter : BitVec 128
  partialBlockLength : BitVec 64

/-- `_get_small_AAD_block`. -/
def getSmallAadBlock (hashKey : BitVec 128) (aIn : ℕ → Byte) (t1 : ℕ) (t2 : BitVec 64)
    (aadHash : BitVec 128) : BitVec 128 :=
  ghashMul (aadHash ^^^ pshufb (readSmallDataInput aIn t1 t2) shufMask) hashKey

/-- `_get_AAD_loop16`. -/
def getAadLoop16 (hashKey : BitVec 128) (aIn : ℕ → Byte) : ℕ → ℕ → BitVec 128 → BitVec 128
  | t2 + 16, t1, aadHash =>
    let aadHash := ghashMul (aadHash ^^^ pshufb (ldQ aIn t1) shufMask) hashKey
    if t2 = 0 then aadHash else getAadLoop16 hashKey aIn t2 (t1 + 16) aadHash
  | t2, t1, aadHash => getSmallAadBlock hashKey aIn t1 (BitVec.ofNat 64 t2) aadHash

/-- `CALC_AAD_HASH`. -/
def calcAadHash (hashKey : BitVec 128) (aIn : ℕ → Byte) (aLen : BitVec 64) : BitVec 128 :=
  if aLen.slt 16#64 then getSmallAadBlock hashKey aIn 0 aLen 0#128
  else getAadLoop16 hashKey aIn aLen.toNat 0 0#128

/-- `GCM_INIT`. `tmp` is what the temporary registers leave in the field for the key stream. -/
def gcmInit (key : KeyData) (iv aIn : ℕ → Byte) (aLen : BitVec 64) (tmp : BitVec 128) :
    GcmContextData :=
  let origIV := pinsrd2 (pinsrq0 onef (load64 iv 0)) (load32 iv 8)
  { aadHash := calcAadHash (key.hashKey 0) aIn aLen
    aadLength := aLen
    inLength := 0#64
    partialBlockLength := 0#64
    partialBlockEncKey := tmp
    origIV := origIV
    currentCounter := pshufb origIV shufMask }

/-! ## Encryption and decryption -/

/-- The parameter `ENC_DEC`. -/
inductive EncDec
  | enc
  | dec
deriving DecidableEq, Repr

/-- The parameter `loop_idx`. -/
inductive LoopIdx
  | inOrder
  | outOrder
deriving DecidableEq, Repr

/-- The output buffer, `DATA_OFFSET` and the counter in `xmm9`. `encrypted` is no part of the state:
it records the blocks that have been encrypted. -/
structure Bulk where
  out : ℕ → Byte
  dataOffset : ℕ
  ctr : BitVec 128
  encrypted : List (BitVec 128)

/-- The context, the output buffer, `DATA_OFFSET` and the hash in `xmm8`. -/
structure Partial where
  ctx : GcmContextData
  out : ℕ → Byte
  dataOffset : ℕ
  aadHash : BitVec 128

/-- `PARTIAL_BLOCK`. -/
def partialBlock (key : KeyData) (encDec : EncDec) (inp : ℕ → Byte) (len : BitVec 64)
    (s : Partial) : Partial :=
  let r13 := s.ctx.partialBlockLength
  if r13 = 0#64 then s
  else
    let xmm1 := if len.slt 16#64 then readSmallDataInput inp s.dataOffset len else ldQ inp 0
    let xmm2 := ldQ shiftTable r13.toNat
    let xmm9 := pshufb s.ctx.partialBlockEncKey xmm2 ^^^ xmm1
    let r15 := len + r13 - 16#64
    -- without enough data to fill the block, the mask keeps fewer bytes
    let r12 := if (len + r13).slt 16#64 then r13 - r15 else r13
    let mask := ldQ shiftTable (r12.toNat + 16)
    let xmm9 := xmm9 &&& mask
    let hashed := match encDec with
      | .enc => pshufb (pshufb xmm9 shufMask) xmm2
      | .dec => pshufb (pshufb (xmm1 &&& mask) shufMask) xmm2
    let aadHash := s.aadHash ^^^ hashed
    let filled := !r15.slt 0#64
    let aadHash := if filled then ghashMul aadHash (key.hashKey 0) else aadHash
    let ctx := { s.ctx with
      aadHash := aadHash
      partialBlockLength := if filled then 0#64 else s.ctx.partialBlockLength + len }
    let xmm9 := match encDec with
      | .enc => pshufb (pshufb hashed shufMask) xmm2
      | .dec => xmm9
    let r13 := if filled then 16#64 - r13 else len
    { ctx := ctx
      out := storeSmall s.out s.dataOffset xmm9 r13.toNat
      dataOffset := s.dataOffset + r13.toNat
      aadHash := aadHash }

/-- `n` blocks are encrypted or decrypted; the blocks to be hashed, with their bytes swapped. -/
def cryptBlocks (aes : BitVec 128 → BitVec 128) (encDec : EncDec) (loopIdx : LoopIdx)
    (inp : ℕ → Byte) : ℕ → Bulk → List (BitVec 128) × Bulk
  | 0, s => ([], s)
  | n + 1, s =>
    let ctr := match loopIdx with
      | .inOrder => paddd s.ctr one
      | .outOrder => paddd s.ctr onef
    let reg := match loopIdx with
      | .inOrder => pshufb ctr shufMask
      | .outOrder => ctr
    let t1 := ldQ inp s.dataOffset
    let rest := cryptBlocks aes encDec loopIdx inp n
      { out := stQ s.out s.dataOffset (aes reg ^^^ t1)
        dataOffset := s.dataOffset + 16
        ctr := ctr
        encrypted := s.encrypted ++ [reg] }
    let reg := aes reg ^^^ t1
    let reg := match encDec with
      | .enc => reg
      | .dec => t1
    (pshufb reg shufMask :: rest.1, rest.2)

/-- The hash is combined with the first of the blocks. -/
def combine (hash : BitVec 128) : List (BitVec 128) → List (BitVec 128)
  | [] => []
  | xmm1 :: xmms => (xmm1 ^^^ hash) :: xmms

/-- The Karatsuba products of `GHASH_8_ENCRYPT_8_PARALLEL` and `GHASH_LAST_8`, added up: the
high, the low and the middle part. The last block goes with `HashKey`. -/
def products (key : KeyData) :
    List (BitVec 128) → BitVec 128 × BitVec 128 × BitVec 128 → BitVec 128 × BitVec 128 × BitVec 128
  | [], t => t
  | xmm :: xmms, (t4, t7, t6) =>
    let t5 := key.hashKey xmms.length
    products key xmms
      (t4 ^^^ pclmul11 xmm t5, t7 ^^^ pclmul00 xmm t5,
        t6 ^^^ pclmul00 (pshufd4e xmm ^^^ xmm) (key.hashKeyK xmms.length))

/-- `GHASH_LAST_8`, and the hash in `GHASH_8_ENCRYPT_8_PARALLEL`. -/
def ghashLast8 (key : KeyData) (xmms : List (BitVec 128)) : BitVec 128 :=
  let (t4, t7, t6) := products key xmms (0#128, 0#128, 0#128)
  let t2 := t6 ^^^ t4 ^^^ t7
  reduction (t7 ^^^ pslldq t2 8) (t4 ^^^ psrldq t2 8)

/-- `GHASH_8_ENCRYPT_8_PARALLEL`. -/
def ghash8Encrypt8Parallel (key : KeyData) (encDec : EncDec) (loopIdx : LoopIdx) (inp : ℕ → Byte)
    (xmms : List (BitVec 128)) (s : Bulk) : List (BitVec 128) × Bulk :=
  let next := cryptBlocks key.aes encDec loopIdx inp 8 s
  (combine (ghashLast8 key xmms) next.1, next.2)

/-- `_encrypt_by_8_new` and `_encrypt_by_8`, for `n` batches. The counter has its bytes swapped, and
`r15` is its low byte. -/
def encryptBy8 (key : KeyData) (encDec : EncDec) (inp : ℕ → Byte) :
    ℕ → BitVec 8 → List (BitVec 128) → Bulk → List (BitVec 128) × Bulk
  | 0, _, xmms, s => (xmms, { s with ctr := pshufb s.ctr shufMask })
  | n + 1, r15, xmms, s =>
    if r15.toNat > 255 - 8 then
      let next := ghash8Encrypt8Parallel key encDec .inOrder inp xmms
        { s with ctr := pshufb s.ctr shufMask }
      encryptBy8 key encDec inp n (r15 + 8#8) next.1
        { next.2 with ctr := pshufb next.2.ctr shufMask }
    else
      let next := ghash8Encrypt8Parallel key encDec .outOrder inp xmms s
      encryptBy8 key encDec inp n (r15 + 8#8) next.1 next.2

/-- From `INITIAL_BLOCKS` to `_zero_cipher_left`: all whole blocks, `r13` bytes. The hash, and the
registers. -/
def wholeBlocks (key : KeyData) (encDec : EncDec) (inp : ℕ → Byte) (r13 : ℕ) (hash : BitVec 128)
    (s : Bulk) : BitVec 128 × Bulk :=
  let numInitialBlocks := r13 / 16 % 8
  let initial := cryptBlocks key.aes encDec .inOrder inp numInitialBlocks s
  let hash := initial.1.foldl (fun hash x => ghashMul (x ^^^ hash) (key.hashKey 0)) hash
  if r13 < 128 then (hash, initial.2)
  else
    let r13 := r13 - 16 * numInitialBlocks
    let first := cryptBlocks key.aes encDec .inOrder inp 8 initial.2
    let r13 := r13 - 128
    if r13 = 0 then (ghashLast8 key (combine hash first.1), first.2)
    else
      let last := encryptBy8 key encDec inp (r13 / 128) (first.2.ctr.setWidth 8)
        (combine hash first.1) { first.2 with ctr := pshufb first.2.ctr shufMask }
      (ghashLast8 key last.1, last.2)

/-- From `_zero_cipher_left` on: `r13` bytes are left. The context, the output buffer and the blocks
that were encrypted. -/
def zeroCipherLeft (key : KeyData) (encDec : EncDec) (inp : ℕ → Byte) (len : BitVec 64) (r13 : ℕ)
    (ctx : GcmContextData) (xmm14 : BitVec 128) (s : Bulk) :
    GcmContextData × (ℕ → Byte) × List (BitVec 128) :=
  let ctx := { ctx with aadHash := xmm14, currentCounter := s.ctr }
  if r13 = 0 then (ctx, s.out, s.encrypted)
  else
    let ctr := paddd s.ctr one
    let xmm9 := pshufb ctr shufMask
    let encKey := key.aes xmm9
    let encrypted := s.encrypted ++ [xmm9]
    let xmm1 :=
      if len.slt 16#64 then readSmallDataInput inp s.dataOffset (BitVec.ofNat 64 r13)
      else pshufb (ldQ inp (s.dataOffset + r13 - 16)) (ldQ shiftTable (16 - r13))
    let mask := ldQ shiftTable (16 - r13 + 16)
    let xmm9 := (encKey ^^^ xmm1) &&& mask
    let hashed := match encDec with
      | .enc => pshufb xmm9 shufMask
      | .dec => pshufb (xmm1 &&& mask) shufMask
    let xmm9 := match encDec with
      | .enc => pshufb hashed shufMask
      | .dec => xmm9
    let ctx := { ctx with
      aadHash := xmm14 ^^^ hashed
      currentCounter := ctr
      partialBlockLength := BitVec.ofNat 64 r13
      partialBlockEncKey := encKey }
    (ctx, storeSmall s.out s.dataOffset xmm9 r13, encrypted)

/-- `GCM_ENC_DEC`: the context, the output buffer and the blocks that were encrypted. -/
def gcmEncDec (key : KeyData) (encDec : EncDec) (inp : ℕ → Byte) (len : BitVec 64)
    (ctx : GcmContextData) (out : ℕ → Byte) : GcmContextData × (ℕ → Byte) × List (BitVec 128) :=
  if len = 0#64 then (ctx, out, [])
  else
    let ctx := { ctx with inLength := ctx.inLength + len }
    let p := partialBlock key encDec inp len ⟨ctx, out, 0, ctx.aadHash⟩
    let r10 := len.toNat - p.dataOffset
    let b := wholeBlocks key encDec inp (16 * (r10 / 16)) p.aadHash
      ⟨p.out, p.dataOffset, p.ctx.currentCounter, []⟩
    zeroCipherLeft key encDec inp len (r10 % 16) p.ctx b.1 b.2

/-! ## The tag -/

/-- The bytes that `_return_T` writes. -/
def returnT (xmm9 : BitVec 128) (authTagLen : BitVec 64) : List Byte :=
  if authTagLen = 16#64 then toBytes xmm9
  else if authTagLen = 12#64 then (toBytes xmm9).take 8 ++ (toBytes (psrldq xmm9 8)).take 4
  else (toBytes xmm9).take 8

/-- `GCM_COMPLETE`: the context and the tag. -/
def gcmComplete (key : KeyData) (ctx : GcmContextData) (authTagLen : BitVec 64) :
    GcmContextData × List Byte :=
  let xmm14 := if ctx.partialBlockLength = 0#64 then ctx.aadHash
    else ghashMul ctx.aadHash (key.hashKey 0)
  -- the store is skipped without a partial block, where it would change nothing
  let ctx : GcmContextData := { ctx with aadHash := xmm14 }
  let r12 := ctx.aadLength <<< 3
  -- `movd` takes the low 32 bits, where the length of the data goes through `movq`
  let xmm15 : BitVec 128 := (r12.setWidth 32).setWidth 128
  let plainCyphLen := ctx.inLength <<< 3
  let xmm15 := pslldq xmm15 8 ^^^ plainCyphLen.setWidth 128
  let xmm14 := ghashMul (xmm14 ^^^ xmm15) (key.hashKey 0)
  (ctx, returnT (key.aes ctx.origIV ^^^ pshufb xmm14 shufMask) authTagLen)

/-! ## The functions -/

/-- `_aes_gcm_enc_128_sse` and `_aes_gcm_dec_128_sse`: the output buffer and the tag. -/
def aesGcm (key : KeyData) (encDec : EncDec) (inp : ℕ → Byte) (len : BitVec 64) (iv aIn : ℕ → Byte)
    (aLen authTagLen : BitVec 64) (tmp : BitVec 128) (out : ℕ → Byte) : (ℕ → Byte) × List Byte :=
  let r := gcmEncDec key encDec inp len (gcmInit key iv aIn aLen tmp) out
  (r.2.1, (gcmComplete key r.1 authTagLen).2)

/-! ## The zero key -/

/-- AES-128 with the key of 16 zero bytes. -/
def zeroKeyAes : BitVec 128 → BitVec 128 :=
  encryptSingleBlock 9 (aesKeyexp128 (fun _ => 0#8) (fun _ => 0#8) fun _ => 0#8).1

theorem zeroKeyAes_zero : zeroKeyAes 0#128 = 0x2e2b34ca59fa4c883b2c8aefd44be966#128 := by
  decide +kernel

end IsalCrypto.Aes.GcmSse
