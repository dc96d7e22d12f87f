import IsalCrypto.Lib.Window
import IsalCrypto.Lib.Ymm
import IsalCrypto.Mb.LaneMgr
import IsalCrypto.Sha1Mb.Sha1Ni

/-!
# SHA-1 lane managers

`sha1_mb_mgr_datastruct.asm`, and the parts that the managers of SHA-1 share: a job enters and
leaves a lane, and the kernels `sha1_ni_x1` and `sha1_ni_x2`.

The multi-lane kernels `sha1_mb_x4_sse` and `sha1_mb_x16_avx512` are a parameter, the digest of one
lane after some blocks.
-/

namespace IsalCrypto.Sha1Mb

open IsalCrypto.Lib IsalCrypto.Mb

/-- `ISAL_SHA1_MB_JOB_MGR`. The digests of `args` are transposed: word `r` of the digest in lane `i`
stands at `stride * r + i`, with as many words in a row as the manager has lanes. -/
structure Sha1MbJobMgr (J : Type*) where
  digest : ℕ → BitVec 32
  dataPtr : Fin 16 → Option (J × BufferPtr)
  lens : Fin 16 → BitVec 32
  unusedLanes : BitVec 64
  jobInLane : Fin 16 → Option J
  numLanesInuse : BitVec 32

/-! ## The transposed digests -/

/-- The digest in lane `i`. -/
def column (stride : ℕ) (i : ℕ) (mem : ℕ → BitVec 32) : Sha1.Digest :=
  Vector.ofFn fun r => mem (stride * r + i)

/-- The five stores of a digest into lane `i`. -/
def setColumn (stride : ℕ) (i : ℕ) (d : Sha1.Digest) (mem : ℕ → BitVec 32) : ℕ → BitVec 32 :=
  fun k => if h : k % stride = i ∧ k / stride < 5 then d.get ⟨k / stride, h.2⟩ else mem k

section Column

variable {stride i k : ℕ} {d : Sha1.Digest} {mem : ℕ → BitVec 32}

theorem column_setColumn_self (hi : i < stride) :
    column stride i (setColumn stride i d mem) = d := by
  refine Vector.ext fun r hr => ?_
  have hmod : (stride * r + i) % stride = i := by rw [Nat.mul_add_mod, Nat.mod_eq_of_lt hi]
  have hdiv : (stride * r + i) / stride = r := by
    rw [Nat.mul_add_div (Nat.zero_lt_of_lt hi), Nat.div_eq_of_lt hi, Nat.add_zero]
  rw [column, Vector.getElem_ofFn, setColumn, dif_pos ⟨hmod, hdiv.trans_lt hr⟩]
  simp only [hdiv]
  rfl

theorem column_setColumn_of_ne (hk : k < stride) (hne : k ≠ i) :
    column stride k (setColumn stride i d mem) = column stride k mem := by
  refine Vector.ext fun r hr => ?_
  have hmod : (stride * r + k) % stride = k := by rw [Nat.mul_add_mod, Nat.mod_eq_of_lt hk]
  rw [column, Vector.getElem_ofFn, setColumn, dif_neg fun h => hne (hmod.symm.trans h.1), column,
    Vector.getElem_ofFn]

end Column

/-! ## One block after the other -/

/-- A block of 64 bytes is compressed. -/
def sha1Compress (bytes : ℕ → Byte) (d : Sha1.Digest) : Sha1.Digest :=
  Sha1.compress d (window bytes 0 64)

/-- SHA-1 over the blocks from a pointer on, where `own` are the `partial_block_buffer`s. -/
def sha1Kernel {J : Type*} (own : J → ℕ → Byte) : Kernel J Sha1.Digest :=
  blockKernel own sha1Compress

/-- The registers `ABCD` and `E0` loaded from a digest. -/
def niLoad (d : Sha1.Digest) : NiRegs where
  abcd := packAbcd d
  e i := if i = 0 then packE d else #v[0#32, 0#32, 0#32, 0#32]
  msg _ := #v[0#32, 0#32, 0#32, 0#32]

/-- The digest stored from `ABCD` and `E0`. -/
def niStore (r : NiRegs) : Sha1.Digest :=
  #v[r.abcd.get 3, r.abcd.get 2, r.abcd.get 1, r.abcd.get 0, (r.e 0).get 3]

/-- `lloop`, taken as often as it is until `DPTR` is the end of the data. -/
def lloop (own : ℕ → Byte) : ℕ → BufferPtr → NiRegs → BufferPtr × NiRegs
  | 0, dptr, r => (dptr, r)
  | n + 1, dptr, r => lloop own n (dptr.add 64) (niBlock (dptr.bytes own) r)

theorem niStore_of {d : Sha1.Digest} {r : NiRegs} (habcd : r.abcd = packAbcd d)
    (he : r.e 0 = packE d) : niStore r = d := by
  rw [niStore, habcd, he]
  refine Vector.ext fun i hi => ?_
  interval_cases i <;> rfl

/-- The loop moves the pointer behind the blocks and compresses them. -/
theorem lloop_eq {J : Type*} (own : J → ℕ → Byte) (j : J) (n : ℕ) {dptr : BufferPtr}
    {d : Sha1.Digest} {r : NiRegs} (habcd : r.abcd = packAbcd d) (he : r.e 0 = packE d) :
    (lloop (own j) n dptr r).1 = dptr.add (64 * n) ∧
      niStore (lloop (own j) n dptr r).2 = sha1Kernel own j dptr n d := by
  induction n generalizing dptr d r with
  | zero => exact ⟨(BufferPtr.add_zero dptr).symm, niStore_of habcd he⟩
  | succ n ih =>
    have hblock : ∀ i < 64, (window (dptr.bytes (own j)) 0 64).getD i 0#8 = dptr.bytes (own j) i :=
      fun i hi => by rw [getD_window, if_pos hi, Nat.zero_add]
    obtain ⟨habcd', he'⟩ := niBlock_eq hblock habcd he
    obtain ⟨hptr, hdigest⟩ := @ih (dptr.add 64) _ _ habcd' he'
    refine ⟨?_, hdigest⟩
    rw [lloop, hptr, BufferPtr.add_add, Nat.mul_succ, Nat.add_comm]

/-! ## Parts of the functions -/

namespace Sha1MbJobMgr

variable {J : Type*}

/-- The lanes of a manager with `stride` of them. -/
def lanes (stride : ℕ) (s : Sha1MbJobMgr J) : LaneMgr 16 (BitVec 64) J Sha1.Digest :=
  ⟨fun i => column stride i s.digest, s.dataPtr, s.lens, s.unusedLanes, s.jobInLane,
    s.numLanesInuse⟩

section Parts

variable [DecidableEq J]

/-- A job enters the lane on top of the free lanes. -/
def enterLane (stride : ℕ) (s : Sha1MbJobMgr J) (jobs : J → Job Sha1.Digest) (j : J) :
    Sha1MbJobMgr J :=
  let lane := lowNibble four_le_sixtyFour s.unusedLanes
  let len := ((jobs j).len.setWidth 32).setWidth 64
  { digest := setColumn stride lane (jobs j).resultDigest s.digest
    dataPtr := Function.update s.dataPtr lane (some (j, (jobs j).buffer))
    lens := Function.update s.lens lane ((len <<< 4 ||| BitVec.ofNat 64 lane).setWidth 32)
    unusedLanes := s.unusedLanes >>> 4
    jobInLane := Function.update s.jobInLane lane (some j)
    numLanesInuse := s.numLanesInuse + 1#32 }

/-- `len_is_0`: the job in lane `idx` is completed. -/
def completeLane (stride : ℕ) (s : Sha1MbJobMgr J) (jobs : J → Job Sha1.Digest) (idx : Fin 16) :
    Sha1MbJobMgr J × (J → Job Sha1.Digest) × Option J :=
  let s' := { s with
    jobInLane := Function.update s.jobInLane idx none
    unusedLanes := s.unusedLanes <<< 4 ||| BitVec.ofNat 64 idx
    numLanesInuse := s.numLanesInuse - 1#32 }
  match s.jobInLane idx with
  | none => (s', jobs, none)
  | some j => (s', Function.update jobs j
      { jobs j with status := .completed, resultDigest := column stride idx s.digest }, some j)

/-- `copy_lane_data`: the lanes without a job get the data pointer of the last lane with one, and a
length above all others. -/
def copyLaneData (stride : ℕ) (s : Sha1MbJobMgr J) : Sha1MbJobMgr J :=
  { s with
    dataPtr := fun i => if i.val < stride ∧ (s.jobInLane i).isNone
      then s.dataPtr ((s.lanes stride).lastJob stride) else s.dataPtr i
    lens := fun i => if i.val < stride ∧ (s.jobInLane i).isNone then 0xFFFFFFFF#32 else s.lens i }

/-! ### Kernels -/

/-- `sha1_mb_x4_sse` and `sha1_mb_x16_avx512`: `n` blocks of each lane. -/
def sha1MbXN (kern : Kernel J Sha1.Digest) (stride : ℕ) (s : Sha1MbJobMgr J) (n : ℕ) :
    Sha1MbJobMgr J :=
  { s with
    digest := fun k => if h : k / stride < 5
      then ((s.lanes stride).hashLane kern n (Fin.ofNat 16 (k % stride)))[k / stride]
        else s.digest k
    dataPtr := fun i => if i.val < stride then (s.dataPtr i).map fun q => (q.1, q.2.add (64 * n))
      else s.dataPtr i }

/-- `sha1_ni_x1` on lane `idx`. -/
def sha1NiX1 (own : J → ℕ → Byte) (stride : ℕ) (s : Sha1MbJobMgr J) (nblk : ℕ) (idx : Fin 16) :
    Sha1MbJobMgr J :=
  match s.dataPtr idx with
  | none => s
  | some (j, dptr) =>
    let (dptr, r) := lloop (own j) nblk dptr (niLoad (column stride idx s.digest))
    { s with
      digest := setColumn stride idx (niStore r) s.digest
      dataPtr := Function.update s.dataPtr idx (some (j, dptr)) }

/-- `sha1_ni_x2` on the lanes 0 and 1: two streams of instructions that share no register but the
end of the data of lane 0. -/
def sha1NiX2 (own : J → ℕ → Byte) (stride : ℕ) (s : Sha1MbJobMgr J) (nblk : ℕ) : Sha1MbJobMgr J :=
  match s.dataPtr 0, s.dataPtr 1 with
  | some (j, dptr), some (jb, dptrb) =>
    let (dptr, r) := lloop (own j) nblk dptr (niLoad (column stride 0 s.digest))
    let (dptrb, rb) := lloop (own jb) nblk dptrb (niLoad (column stride 1 s.digest))
    { s with
      digest := setColumn stride 1 (niStore rb) (setColumn stride 0 (niStore r) s.digest)
      dataPtr := Function.update (Function.update s.dataPtr 0 (some (j, dptr))) 1
        (some (jb, dptrb)) }
  | _, _ => s

end Parts

end Sha1MbJobMgr

end IsalCrypto.Sha1Mb
