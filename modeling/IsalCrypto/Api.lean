import IsalCrypto.Lib.Sizes
import Mathlib.Data.BitVec

/-!
# Return codes and build options

`isal_crypto_api.h`: the error codes that every `isal_*` function returns, and the two
preprocessor options that change what the wrappers check.
-/

namespace IsalCrypto

/-- `uint8_t`. -/
abbrev Byte := BitVec 8

/-- The preprocessor options the API wrappers test. -/
structure Build where
  /-- `SAFE_PARAM`: parameters are checked. -/
  safeParam : Bool
  /-- `FIPS_MODE`: the self tests gate the NIST algorithms, the others are refused. -/
  fipsMode : Bool
deriving DecidableEq, Repr

/-- `ISAL_CRYPTO_ERROR`. -/
inductive IsalCryptoError
  | errNone
  | errNullSrc
  | errNullDst
  | errNullCtx
  | errNullMgr
  | errNullKey
  | errNullExpKey
  | errNullIv
  | errNullAuth
  | errNullAad
  | errCiphLen
  | errAuthTagLen
  | errInvalidFlags
  | errAlreadyProcessing
  | errAlreadyCompleted
  | errXtsNullTweak
  | errXtsSameKeys
  | errSelfTest
  | errFipsInvalidAlgo
  | errWindowSize
  | errNullOffset
  | errNullMatch
  | errNullMask
  | errNullInitVal
  | errFipsDisabled
deriving DecidableEq, Repr

namespace IsalCryptoError

/-- The value of the enumerator: `ISAL_CRYPTO_ERR_NULL_SRC = 2000` and the next ones up. -/
def code : IsalCryptoError → ℕ
  | errNone => 0
  | errNullSrc => 2000
  | errNullDst => 2001
  | errNullCtx => 2002
  | errNullMgr => 2003
  | errNullKey => 2004
  | errNullExpKey => 2005
  | errNullIv => 2006
  | errNullAuth => 2007
  | errNullAad => 2008
  | errCiphLen => 2009
  | errAuthTagLen => 2010
  | errInvalidFlags => 2011
  | errAlreadyProcessing => 2012
  | errAlreadyCompleted => 2013
  | errXtsNullTweak => 2014
  | errXtsSameKeys => 2015
  | errSelfTest => 2016
  | errFipsInvalidAlgo => 2017
  | errWindowSize => 2018
  | errNullOffset => 2019
  | errNullMatch => 2020
  | errNullMask => 2021
  | errNullInitVal => 2022
  | errFipsDisabled => 2023

/-- `return 0` and `return ISAL_CRYPTO_ERR_NONE` are the same, and no other code is zero. -/
@[simp] theorem code_eq_zero {e : IsalCryptoError} : e.code = 0 ↔ e = errNone := by
  cases e <;> simp [code]

end IsalCryptoError

end IsalCrypto
