import IsalCrypto.Lib.Sha256
import IsalCrypto.Mb.Runs

/-!
# The constants of SHA-256

What the headers of SHA-256 put in for the block size, the length field and the initial digest.
-/

namespace IsalCrypto.Sha256Mb

open IsalCrypto.Lib IsalCrypto.Mb

/-- `ISAL_SHA256_BLOCK_SIZE` and `ISAL_SHA256_PADLENGTHFIELD_SIZE` of `sha256_mb.h`, and
`ISAL_SHA256_INITIAL_DIGEST` of `sha256_mb_internal.h`. -/
def sha256Params : HashParams Sha256.Digest where
  log2BlockSize := 6
  padLengthFieldSize := 8
  initialDigest := Sha256.initial
  log2BlockSize_mem := .inl rfl
  padLengthFieldSize_mem := .inl rfl

end IsalCrypto.Sha256Mb
