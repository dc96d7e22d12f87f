import IsalCrypto.Lib.Sizes
import IsalCrypto.MemcpyInline
import IsalCrypto.RollingHash.Until00
import IsalCrypto.RollingHash.Session
import IsalCrypto.Fips.SelfTests
import IsalCrypto.Aes.Gcm
import IsalCrypto.Lib.Sha256
import IsalCrypto.Mb.Scheduler
import IsalCrypto.Mb.Ctx
import IsalCrypto.Mb.Pad
import IsalCrypto.Mb.Phase
import IsalCrypto.Mb.Manager
import IsalCrypto.Mb.Runs
import IsalCrypto.Lib.Lanes
import IsalCrypto.Mb.Gather
import IsalCrypto.Sha256Mb.Mgr
import IsalCrypto.Sha256Mb.MgrCe
import IsalCrypto.Sha256Mb.MgrCeSpec
import IsalCrypto.Sha256Mb.MgrCeRuns
import IsalCrypto.Sha256Mb.CtxCe
import IsalCrypto.Sha256Mb.MgrSse
import IsalCrypto.Sha256Mb.MgrSseSpec
import IsalCrypto.Sha256Mb.CtxSse
import IsalCrypto.Lib.Recurrence
import IsalCrypto.Lib.Sha1
import IsalCrypto.MhSha1.Sha1ForMhSha1
import IsalCrypto.Mh.Ctx
import IsalCrypto.Mh.Sha
import IsalCrypto.Mh.Stream
import IsalCrypto.MhSha1.BlockBase
import IsalCrypto.MhSha1.BlockRef
import IsalCrypto.MhSha1.Base
import IsalCrypto.MhSha1.Murmur3
import IsalCrypto.MhSha256.Sha256ForMhSha256
import IsalCrypto.MhSha256.Base
import IsalCrypto.Mb.Base
import IsalCrypto.Mb.BaseRuns
import IsalCrypto.Sha256Mb.CtxBase
import IsalCrypto.Mb.Rejection
import IsalCrypto.Sha256Mb.Rejection
import IsalCrypto.Lib.Sha512
import IsalCrypto.Mb.Accesses
import IsalCrypto.Sha512Mb.CtxSse
import IsalCrypto.Md5Mb.MgrSve
import IsalCrypto.Md5Mb.MgrSveSpec
import IsalCrypto.Md5Mb.MgrSveRuns
import IsalCrypto.Md5Mb.MgrSveLanes
import IsalCrypto.Lib.Blocks
import IsalCrypto.Lib.Xts
import IsalCrypto.Aes.XtsCe
import IsalCrypto.Aes.XtsCeSpec
import IsalCrypto.Lib.CarryLess
import IsalCrypto.Lib.Gf128
import IsalCrypto.Lib.Gcm
import IsalCrypto.Aes.GcmAarch64
import IsalCrypto.Aes.GcmAarch64Hash
import IsalCrypto.Aes.GcmSse
import IsalCrypto.Aes.GcmSseHash
import IsalCrypto.RollingHash.Unroll
import IsalCrypto.RollingHash.Call
import IsalCrypto.RollingHash.Until04
import IsalCrypto.RollingHash.Reads
import IsalCrypto.RollingHash.Mask
import IsalCrypto.Sha512Mb.CtxAvx2Ni
import IsalCrypto.Sha256Mb.MgrCeBuffers
import IsalCrypto.Aes.Keyexp
import IsalCrypto.Aes.XtsApi
import IsalCrypto.Lib.Ledger
import IsalCrypto.Mb.LaneMgr
import IsalCrypto.Mb.Holding
import IsalCrypto.Sm3Mb.MgrSve
import IsalCrypto.Sm3Mb.MgrSveSpec
import IsalCrypto.Sm3Mb.MgrSveRuns
import IsalCrypto.Sha256Mb.MgrSseRuns
import IsalCrypto.Sha1Mb.Sha1Ni
import IsalCrypto.Lib.Ymm
import IsalCrypto.Sha1Mb.Mgr
import IsalCrypto.Sha1Mb.MgrSpec
import IsalCrypto.Sha1Mb.MgrSseNi
import IsalCrypto.Sha1Mb.MgrAvx512
import IsalCrypto.Md5Mb.MgrAvx512
import IsalCrypto.Md5Mb.MgrAvx512Runs
import IsalCrypto.Aes.GcmSseSpec
import IsalCrypto.Aes.GcmSseUpdate
import IsalCrypto.Aes.GcmSseStream
import IsalCrypto.Aes.GcmSseStandard
import IsalCrypto.Lib.Sm3
import IsalCrypto.Mb.CtxSwap
import IsalCrypto.Sm3Mb.CtxBase
import IsalCrypto.Sm3Mb.CtxAvx2
import IsalCrypto.Aes.GcmAarch64Aad
import IsalCrypto.Aes.GcmAarch64Crypt
import IsalCrypto.Aes.GcmAarch64Blocks
import IsalCrypto.Aes.GcmAarch64Update
import IsalCrypto.Aes.GcmAarch64Tag
import IsalCrypto.Aes.GcmAarch64Stream
import IsalCrypto.Aes.CbcApi
