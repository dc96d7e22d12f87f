import IsalCrypto.Aes.Vector
import IsalCrypto.Lib.Xts

/-!
# XTS on aarch64

`aes/aarch64/xts_aes_common.S`: the macro `xts_aes_crypt` and those it uses, in both modes. The
macros `aes_rounds` and `aes_rounds_interleave` are the block cipher, `aes` below, on one block and
on four. The keys and the initial tweak are read before anything is written, so they are values
here.
-/

namespace IsalCrypto.Aes

open IsalCrypto.Lib

/-- `strb`. -/
def strb (mem : ℕ → Byte) (a : ℕ) (b : Byte) : ℕ → Byte := Function.update mem a b

/-- `extr xd, xn, xm, #lsb`. -/
def extr (n m : BitVec 64) (lsb : ℕ) : BitVec 64 := ((n ++ m) >>> lsb).setWidth 64

/-- `update_iv`. -/
def updateIv (current : BitVec 128) : BitVec 128 :=
  let ivh := current.extractLsb' 64 64
  let ivl := current.extractLsb' 0 64
  let tmpw := 0x87#32
  let tmpx2 := extr ivh ivh 32
  let ivh := extr ivh ivl 63
  let tmpw := tmpw &&& (tmpx2.setWidth 32).sshiftRight 31
  let ivl := tmpw.setWidth 64 ^^^ ivl <<< 1
  ivh ++ ivl

/-- The parameter `mode`: 0 to encrypt, 1 to decrypt. -/
inductive XtsMode
  | enc
  | dec
deriving DecidableEq, Repr

/-- The registers that the macros change, and the memory. -/
structure XtsRegs where
  mem : ℕ → Byte
  inp : ℕ
  outp : ℕ
  vIV0 : BitVec 128
  vSavedIv : BitVec 128

section Macros

variable (aes : BitVec 128 → BitVec 128)

/-- `process_4_blks`; `isTail` tells whether that parameter is given. -/
def process4Blks (isTail : Bool) (s : XtsRegs) : XtsRegs :=
  let vIV1 := updateIv s.vIV0
  let vIV2 := updateIv vIV1
  let vblk0 := ldQ s.mem s.inp
  let vblk1 := ldQ s.mem (s.inp + 16)
  let vblk2 := ldQ s.mem (s.inp + 32)
  let vblk3 := ldQ s.mem (s.inp + 48)
  let vSavedIv := if isTail then updateIv vIV2 else s.vSavedIv
  let vIV3 := if isTail then updateIv vSavedIv else updateIv vIV2
  let vblk0 := aes (vblk0 ^^^ s.vIV0) ^^^ s.vIV0
  let vblk1 := aes (vblk1 ^^^ vIV1) ^^^ vIV1
  let mem := stQ (stQ s.mem s.outp vblk0) (s.outp + 16) vblk1
  let vblk2 := aes (vblk2 ^^^ vIV2) ^^^ vIV2
  let vblk3 := aes (vblk3 ^^^ vIV3) ^^^ vIV3
  let mem := stQ (stQ mem (s.outp + 32) vblk2) (s.outp + 48) vblk3
  { mem := mem
    inp := s.inp + 64
    outp := s.outp + 64
    vIV0 := if isTail then s.vIV0 else updateIv vIV3
    vSavedIv := vSavedIv }

/-- `process_1_blk`, without the step of the two pointers. -/
def process1Blk (mem : ℕ → Byte) (vIV0 : BitVec 128) (inp outp : ℕ) : ℕ → Byte :=
  stQ mem outp (aes (ldQ mem inp ^^^ vIV0) ^^^ vIV0)

/-- `process_1_blk inp, outp, mode` in the loop of single blocks. -/
def single (s : XtsRegs) : XtsRegs :=
  { s with
    mem := process1Blk aes s.mem s.vIV0 s.inp s.outp
    inp := s.inp + 16
    outp := s.outp + 16 }

/-- `.singles`, up to `.checktail`. In decryption the last block before a tail swaps the tweaks. -/
def singles (mode : XtsMode) (tailcnt : ℕ) : ℕ → XtsRegs → XtsRegs
  | 0, s => s
  | blocks + 1, s =>
    if mode = .dec ∧ ¬ 0 < blocks ∧ ¬ tailcnt < 1 then
      single aes { s with vSavedIv := s.vIV0, vIV0 := updateIv s.vIV0 }
    else
      let s := single aes s
      singles mode tailcnt blocks { s with vIV0 := updateIv s.vIV0 }

/-- `.process_4_blks`, and `.singles` after it. -/
def process4 (mode : XtsMode) (tailcnt : ℕ) : ℕ → XtsRegs → XtsRegs
  | blocks + 4, s =>
    if mode = .dec ∧ ¬ 0 < blocks ∧ ¬ tailcnt < 1 then
      process4 mode tailcnt blocks (process4Blks aes true s)
    else process4 mode tailcnt blocks (process4Blks aes false s)
  | blocks, s => singles aes mode tailcnt blocks s

/-- `.copytail`, entered with a positive count. -/
def copytail (inp outp lastblk tmpbuf : ℕ) : ℕ → (ℕ → Byte) → ℕ → Byte
  | 0, mem => mem
  | tailcnt + 1, mem =>
    let mem := strb mem (tmpbuf + tailcnt) (mem (inp + tailcnt))
    let mem := strb mem (outp + tailcnt) (mem (lastblk + tailcnt))
    copytail inp outp lastblk tmpbuf tailcnt mem

/-- `.steal`, with the number of bytes from `tailcnt` to the end of the block. -/
def steal (lastblk tmpbuf : ℕ) : ℕ → (ℕ → Byte) → ℕ → Byte
  | 0, mem => mem
  | n + 1, mem =>
    let tailcnt := 15 - n
    steal lastblk tmpbuf n (strb mem (tmpbuf + tailcnt) (mem (lastblk + tailcnt)))

/-- `.checktail`. -/
def checktail (mode : XtsMode) (tailcnt tmpbuf : ℕ) (s : XtsRegs) : ℕ → Byte :=
  if tailcnt < 1 then s.mem
  else
    let lastblk := s.outp - 16
    let mem := copytail s.inp s.outp lastblk tmpbuf tailcnt s.mem
    let mem := steal lastblk tmpbuf (16 - tailcnt) mem
    let vIV0 := if mode = .dec then s.vSavedIv else s.vIV0
    process1Blk aes mem vIV0 tmpbuf lastblk

end Macros

/-- `xts_aes_crypt`: the memory afterwards. `tmpbuf` are 16 bytes of the stack frame. -/
def xtsAesCrypt {K : Type*} (c : BlockCipher K) (mode : XtsMode) (key2 key1 : K)
    (iv : BitVec 128) (bytes : BitVec 64) (inp outp tmpbuf : ℕ) (mem : ℕ → Byte) : ℕ → Byte :=
  let aes := match mode with
    | .enc => c.enc key1
    | .dec => c.dec key1
  let blocks := (bytes >>> 4).toNat
  let tailcnt := (bytes &&& 0xF#64).toNat
  if bytes.slt 16#64 then mem
  else
    let s := ⟨mem, inp, outp, c.enc key2 iv, 0#128⟩
    checktail aes mode tailcnt tmpbuf (process4 aes mode tailcnt blocks s)

end IsalCrypto.Aes
