import IsalCrypto.Sha1Mb.MgrSpec

/-!
# The AVX512 lane scheduler on a machine with SHA-NI

`sha1_mb_mgr_init_avx512.c`, `sha1_mb_mgr_submit_avx512.asm` and `sha1_mb_mgr_flush_avx512_ni.asm`:
sixteen lanes and no sentinel. With at most six jobs a flush runs `sha1_ni_x1` on one lane, else
`sha1_mb_x16_avx512` on all of them.

* `schedulerAvx512Ni_serves`: what one call keeps.
* `mgrAvx512Ni_contract`: after every run the nibbles and the counter describe the lanes without a
  job, length, data pointer and digest of every other lane belong together, and each job is returned
  once with the digest of its own blocks.
-/

namespace IsalCrypto.Sha1Mb

open IsalCrypto.Lib IsalCrypto.Mb

variable {J : Type*}

namespace Sha1MbJobMgr

/-- `_sha1_mb_mgr_init_avx512`. -/
def initAvx512 (_ : Sha1MbJobMgr J) : Sha1MbJobMgr J where
  digest _ := 0#32
  dataPtr _ := none
  lens _ := 0#32
  unusedLanes := 0xfedcba9876543210#64
  jobInLane _ := none
  numLanesInuse := 0#32

/-- The eight words of `lens` from `8 * r` on. -/
def lensYmm (s : Sha1MbJobMgr J) (r : ℕ) : Ymm := fun k => s.lens (Fin.ofNat 16 (8 * r + k))

/-- The two stores of `lens`. -/
def setLens (s : Sha1MbJobMgr J) (ymm0 ymm1 : Ymm) : Sha1MbJobMgr J :=
  { s with lens := fun i => if i.val < 8 then ymm0 (Fin.ofNat 8 i) else ymm1 (Fin.ofNat 8 i) }

section Functions

variable [DecidableEq J] (own : J → ℕ → Byte) (x16 : Kernel J Sha1.Digest) (ymm3 : Ymm)

/-- The part of both functions that hashes all lanes by the least length: `ymm2` are the least
dwords. -/
def hashAll (s : Sha1MbJobMgr J) (ymm2 : Ymm) : Sha1MbJobMgr J :=
  let len2 := ymm2 0 >>> 4
  let ymm2 := vpshufd0 (vpand ymm2 (lowDwords 0xFFFFFFF0#32))
  sha1MbXN x16 16 (s.setLens (vpsubd (s.lensYmm 0) ymm2) (vpsubd (s.lensYmm 1) ymm2)) len2.toNat

/-- `_sha1_mb_mgr_submit_avx512`; `ymm3` is what the register holds before. -/
def submitAvx512 (s : Sha1MbJobMgr J) (jobs : J → Job Sha1.Digest) (j : J) :
    Sha1MbJobMgr J × (J → Job Sha1.Digest) × Option J :=
  let jobs := LaneMgr.startJob jobs j
  let s := s.enterLane 16 jobs j
  if s.numLanesInuse ≠ 16#32 then (s, jobs, none)
  else
    let ymm2 := leastDwords ymm3 (s.lensYmm 0) (s.lensYmm 1)
    let idx := lowNibble four_le_thirtyTwo (ymm2 0)
    let len2 := ymm2 0 >>> 4
    let s := if len2 = 0#32 then s else s.hashAll x16 ymm2
    s.completeLane 16 jobs idx

/-- `SHA1_NI_SB_THRESHOLD_AVX512`. -/
def sha1NiSbThresholdAvx512 : BitVec 32 := 6#32

/-- `_sha1_mb_mgr_flush_avx512_ni`. -/
def flushAvx512Ni (s : Sha1MbJobMgr J) (jobs : J → Job Sha1.Digest) :
    Sha1MbJobMgr J × (J → Job Sha1.Digest) × Option J :=
  if s.numLanesInuse = 0#32 then (s, jobs, none)
  else
    let s := s.copyLaneData 16
    let ymm2 := leastDwords ymm3 (s.lensYmm 0) (s.lensYmm 1)
    let idx := lowNibble four_le_thirtyTwo (ymm2 0)
    let len2 := ymm2 0 >>> 4
    let s := if len2 = 0#32 then s
      else if sha1NiSbThresholdAvx512 < s.numLanesInuse then s.hashAll x16 ymm2
      else
        sha1NiX1 own 16 { s with lens := Function.update s.lens idx (BitVec.ofNat 32 idx) }
          len2.toNat idx
    s.completeLane 16 jobs idx

end Functions

end Sha1MbJobMgr

open Sha1MbJobMgr

/-- The scheduler of the AVX512 manager on a machine with SHA-NI. -/
def schedulerAvx512Ni [DecidableEq J] (own : J → ℕ → Byte) (x16 : Kernel J Sha1.Digest)
    (ymm3 : Ymm) :
    Scheduler (Sha1MbJobMgr J) J Sha1.Digest where
  init := initAvx512
  submit _ := submitAvx512 x16 ymm3
  flush _ := flushAvx512Ni own x16 ymm3

/-! ## The least length -/

theorem avx512_layout : Layout nibbleWord 16 where
  top _ := rfl
  pop _ := rfl
  push _ _ := rfl
  lt i _ := i.isLt
  le := by decide

abbrev Avx512Tables (own : J → ℕ → Byte) (s : Sha1MbJobMgr J) (submitted : J → Job Sha1.Digest) :
    Prop := Tables nibbleWord 16 own s submitted

abbrev Avx512Ready (own : J → ℕ → Byte) (s : Sha1MbJobMgr J) (submitted : J → Job Sha1.Digest) :
    Prop := Ready nibbleWord 16 own s submitted

variable {s : Sha1MbJobMgr J} {submitted : J → Job Sha1.Digest} {own : J → ℕ → Byte} {j : J}

/-- The lowest dword is the least of all lengths. -/
theorem leastWord_lensYmm (s : Sha1MbJobMgr J) (ymm3 : Ymm) :
    LeastWord s.lens (List.finRange 16) (leastDwords ymm3 (s.lensYmm 0) (s.lensYmm 1) 0) := by
  have hleast := (leastWord_leastDwords ymm3 (s.lensYmm 0) (s.lensYmm 1)).1
  have hplace : dwordsOf (s.lensYmm 0) (s.lensYmm 1) =
      s.lens ∘ fun i : Fin 2 × Fin 8 => Fin.ofNat 16 (8 * i.1.val + i.2.val) := by
    funext ⟨r, k⟩
    rcases Fin.exists_fin_two.mp ⟨r, rfl⟩ with rfl | rfl <;> rfl
  rw [hplace] at hleast
  exact hleast.map.of_mem_iff (by decide)

/-- The subtraction takes the masked least length from every length. -/
theorem lens_hashAll [DecidableEq J] (x16 : Kernel J Sha1.Digest) (s : Sha1MbJobMgr J) (ymm3 : Ymm)
    (i : Fin 16) :
    (s.hashAll x16 (leastDwords ymm3 (s.lensYmm 0) (s.lensYmm 1))).lens i =
      s.lens i - (leastDwords ymm3 (s.lensYmm 0) (s.lensYmm 1) 0 &&& ~~~15#32) := by
  have hmask : ~~~15#32 = 0xFFFFFFF0#32 := by decide
  have hsub : ∀ k, vpshufd0 (vpand (leastDwords ymm3 (s.lensYmm 0) (s.lensYmm 1))
      (lowDwords 0xFFFFFFF0#32)) k = leastDwords ymm3 (s.lensYmm 0) (s.lensYmm 1) 0 &&& ~~~15#32 :=
    fun k => by rw [vpshufd0_vpand rfl (leastDwords_four ymm3 ymm3 _ _), hmask]
  have hlow : i.val < 8 → Fin.ofNat 16 (8 * 0 + (Fin.ofNat 8 i.val).val) = i := by
    revert i
    decide
  have hhigh : ¬ i.val < 8 → Fin.ofNat 16 (8 * 1 + (Fin.ofNat 8 i.val).val) = i := by
    revert i
    decide
  rw [hashAll, sha1MbXN, setLens]
  dsimp only
  split
  · next hi => rw [vpsubd, hsub, lensYmm, hlow hi]
  · next hi => rw [vpsubd, hsub, lensYmm, hhigh hi]

/-- The number of blocks in a word, by a shift or by a mask. -/
theorem toNat_word_shift {word : BitVec 32} {n : ℕ} (hlen : (word &&& ~~~15#32).toNat = 16 * n) :
    (word >>> 4).toNat = n := by
  rw [toNat_and_not_fifteen] at hlen
  rw [BitVec.toNat_ushiftRight, Nat.shiftRight_eq_div_pow]
  exact Nat.eq_of_mul_eq_mul_left (by decide) hlen

section

variable [DecidableEq J] {ymm3 : Ymm}

/-- `sha1_mb_x16_avx512` moves a lane on by the least length. -/
theorem advanced_hashAll {n : ℕ} {i : Fin 16}
    (hlen : (leastDwords ymm3 (s.lensYmm 0) (s.lensYmm 1) 0 &&& ~~~15#32).toNat = 16 * n)
    (hle : n ≤ (s.lanes 16).left 4 i) :
    Advanced own 16 s (s.hashAll (sha1Kernel own) (leastDwords ymm3 (s.lensYmm 0) (s.lensYmm 1))) i
      n := by
  have hn : (leastDwords ymm3 (s.lensYmm 0) (s.lensYmm 1) 0 >>> 4).toNat = n :=
    toNat_word_shift hlen
  constructor
  case dataPtr =>
    rw [← hn]
    exact if_pos i.isLt
  case digest =>
    rw [← hn]
    exact column_sha1MbXN i.isLt _ _ _
  case lens =>
    rw [lens_hashAll]
    exact toNat_lens_sub hlen hle

/-- What a submit does with all lanes taken, and a flush above the threshold. -/
theorem answers_hashAll (h : Avx512Tables own s submitted)
    (hempty : ∀ i, s.jobInLane i = none → s.lens i = 0xFFFFFFFF#32) (hsome : ∃ j, InLane s j)
    (jobs : J → Job Sha1.Digest) :
    let ymm2 := leastDwords ymm3 (s.lensYmm 0) (s.lensYmm 1)
    let t := if ymm2 0 >>> 4 = 0#32 then s else s.hashAll (sha1Kernel own) ymm2
    Answers (sha1Kernel own) InLane (Avx512Ready own) submitted (InLane s)
        (t.completeLane 16 jobs (lowNibble four_le_thirtyTwo (ymm2 0))) ∧
      (t.completeLane 16 jobs (lowNibble four_le_thirtyTwo (ymm2 0))).2.2 ≠ none := by
  obtain ⟨j₀, i₀, hj₀⟩ := hsome
  obtain ⟨a, k, hk, hlane, hlen, hmin⟩ := exists_least h (leastWord_lensYmm s ymm3)
    (fun i _ => hempty i) (List.mem_finRange i₀) hj₀
  intro ymm2 t
  rw [hlane]
  by_cases hz : ymm2 0 >>> 4 = 0#32
  · have ht : t = s := if_pos hz
    have hleft : (s.lanes 16).left 4 a = 0 := (toNat_word_shift hlen) ▸ congrArg BitVec.toNat hz
    rw [ht]
    exact answers_advanced avx512_layout h s hk rfl rfl rfl (fun i _ _ => hleft.symm ▸ .refl s i)
      jobs
  · have ht : t = s.hashAll (sha1Kernel own) ymm2 := if_neg hz
    have hall : ∀ i k, s.jobInLane i = some k → Advanced own 16 s t i ((s.lanes 16).left 4 a) :=
      fun i k hi => by
        rw [ht]
        exact advanced_hashAll hlen (hmin i k (List.mem_finRange i) hi)
    rw [ht] at hall ⊢
    exact answers_advanced avx512_layout h (s.hashAll (sha1Kernel own) ymm2) hk rfl rfl rfl hall
      jobs

/-- What a flush does at most at the threshold. -/
theorem answers_oneLane (h : Avx512Tables own s submitted)
    (hempty : ∀ i, s.jobInLane i = none → s.lens i = 0xFFFFFFFF#32) (hsome : ∃ j, InLane s j)
    (jobs : J → Job Sha1.Digest) :
    let word := leastDwords ymm3 (s.lensYmm 0) (s.lensYmm 1) 0
    let idx := lowNibble four_le_thirtyTwo word
    let t := if word >>> 4 = 0#32 then s
      else
        sha1NiX1 own 16 { s with lens := Function.update s.lens idx (BitVec.ofNat 32 idx) }
          (word >>> 4).toNat idx
    Answers (sha1Kernel own) InLane (Avx512Ready own) submitted (InLane s)
        (t.completeLane 16 jobs idx) ∧ (t.completeLane 16 jobs idx).2.2 ≠ none := by
  obtain ⟨j₀, i₀, hj₀⟩ := hsome
  obtain ⟨a, k, hk, hlane, hlen, hmin⟩ := exists_least h (leastWord_lensYmm s ymm3)
    (fun i _ => hempty i) (List.mem_finRange i₀) hj₀
  intro word
  have hn : (word >>> 4).toNat = (s.lanes 16).left 4 a := toNat_word_shift hlen
  rw [hlane, hn]
  dsimp only
  split
  · next hz =>
    have hleft : (s.lanes 16).left 4 a = 0 := hn ▸ congrArg BitVec.toNat hz
    exact answers_advanced avx512_layout h s hk rfl rfl rfl (fun i _ _ => hleft.symm ▸ .refl s i)
      jobs
  · exact answers_x1 avx512_layout h hk jobs

/-! ## Submit and flush -/

theorem submitAvx512_answers (h : Avx512Ready own s submitted) {jobs : J → Job Sha1.Digest}
    (hj : ¬ InLane s j) (hmax : (jobs j).len.toNat ≤ maxBlocksSha1) :
    Answers (sha1Kernel own) InLane (Avx512Ready own) (Function.update submitted j (jobs j))
      (fun k => k = j ∨ InLane s k) (s.submitAvx512 (sha1Kernel own) ymm3 jobs j) := by
  obtain ⟨htables, hin⟩ := enterLane_tables avx512_layout h hj hmax
  have hfull := htables.counted.inuse_eq_iff
  have hcard : nibbleWord.lanes.card = 16 := rfl
  rw [hcard] at hfull
  unfold submitAvx512
  dsimp only
  split
  · next hwait =>
    have hroom : ∃ i ∈ nibbleWord.lanes,
        (s.enterLane 16 (LaneMgr.startJob jobs j) j).jobInLane i = none := by
      by_contra hno
      exact hwait (BitVec.eq_of_toNat_eq (hfull.mpr fun i hi hnone => hno ⟨i, hi, hnone⟩))
    exact ⟨⟨htables, hroom⟩, hin⟩
  · next hall =>
    have hocc := hfull.mp (congrArg BitVec.toNat (not_not.mp hall))
    have hret := @answers_hashAll _ _ _ _ _ ymm3 htables
      (fun i hnone => absurd hnone (hocc i (Finset.mem_univ i))) ⟨j, (hin j).mpr (.inl rfl)⟩
      (LaneMgr.startJob jobs j)
    have hret := hret.1
    rwa [funext fun k => propext (hin k)] at hret

theorem flushAvx512Ni_answers (h : Avx512Ready own s submitted) (jobs : J → Job Sha1.Digest) :
    Answers (sha1Kernel own) InLane (Avx512Ready own) submitted (InLane s)
        (s.flushAvx512Ni own (sha1Kernel own) ymm3 jobs) ∧
      ((s.flushAvx512Ni own (sha1Kernel own) ymm3 jobs).2.2 = none ↔ ∀ j, ¬ InLane s j) := by
  have hzero := h.counted.inuse_eq_zero_iff
  unfold flushAvx512Ni
  split
  · next hnum =>
    exact ⟨⟨h, fun _ => Iff.rfl⟩, iff_of_true rfl (hzero.mp (congrArg BitVec.toNat hnum))⟩
  · next hnum =>
    have hsome : ¬ ∀ j, ¬ InLane (s.copyLaneData 16) j := fun hno =>
      hnum (BitVec.eq_of_toNat_eq (hzero.mpr hno))
    have hocc := hsome
    push Not at hocc
    have htables := copyLaneData_tables h.toTables
    have hempty : ∀ i, (s.copyLaneData 16).jobInLane i = none →
        (s.copyLaneData 16).lens i = 0xFFFFFFFF#32 := fun i hnone => by
      have hnone' : s.jobInLane i = none := hnone
      exact if_pos ⟨i.isLt, by rw [hnone']; rfl⟩
    have hin : InLane (s.copyLaneData 16) = InLane s := rfl
    dsimp only
    rw [← hin]
    generalize s.copyLaneData 16 = t at htables hempty hocc hsome
    have hmany := @answers_hashAll _ _ _ _ _ ymm3 htables hempty hocc jobs
    have hfew := @answers_oneLane _ _ _ _ _ ymm3 htables hempty hocc jobs
    dsimp only at hmany hfew
    split
    · next hz =>
      rw [if_pos hz] at hmany
      exact ⟨hmany.1, iff_of_false hmany.2 hsome⟩
    · next hz =>
      rw [if_neg hz] at hmany hfew
      split
      · exact ⟨hmany.1, iff_of_false hmany.2 hsome⟩
      · exact ⟨hfew.1, iff_of_false hfew.2 hsome⟩

/-! ## Runs -/

omit [DecidableEq J] in
theorem initAvx512_tables (own : J → ℕ → Byte) (s : Sha1MbJobMgr J)
    (submitted : J → Job Sha1.Digest) : Avx512Tables own s.initAvx512 submitted where
  counted.free := ⟨List.finRange 16,
    (by decide : (0xfedcba9876543210#64).toNat % 16 ^ 16 = nibbles (List.finRange 16)),
    List.nodup_finRange 16, fun i =>
    iff_of_true (List.mem_finRange i) ⟨Finset.mem_univ i, rfl⟩⟩
  counted.inuse := by
    have hocc : (s.initAvx512.lanes 16).occupied = ∅ := by
      ext i
      simp [Sha1MbJobMgr.lanes, initAvx512]
    rw [hocc]
    rfl
  counted.usable := nofun
  counted.inj := nofun
  len_le := nofun
  lane := nofun

theorem schedulerAvx512Ni_serves (own : J → ℕ → Byte) (ymm3 : Ymm) :
    (schedulerAvx512Ni own (sha1Kernel own) ymm3).Serves (sha1Kernel own) maxBlocksSha1 InLane
      (Avx512Ready own) where
  init s submitted :=
    ⟨⟨initAvx512_tables own s submitted, 0, Finset.mem_univ 0, rfl⟩, fun _ ⟨_, hi⟩ => nomatch hi⟩
  submit _ h hj _ hmax := submitAvx512_answers h hj hmax
  flush h := flushAvx512Ni_answers h _

/-- What holds after every run. The low nibbles of `unused_lanes`, as many as `num_lanes_inuse`
leaves of sixteen, are the lanes without a job; of the job in a lane some blocks are done, and its
digest, data pointer and length say so; and each job is handed back exactly once. -/
structure Avx512NiContract (own : J → ℕ → Byte) (x16 : Kernel J Sha1.Digest) (ymm3 : Ymm)
    (c : SchedState (Sha1MbJobMgr J) J Sha1.Digest) : Prop where
  unused : ∃ free : List (Fin 16), c.mgr.numLanesInuse.toNat + free.length = 16 ∧
    c.mgr.unusedLanes.toNat % 16 ^ free.length = nibbles free ∧ free.Nodup ∧
    ∀ i, i ∈ free ↔ c.mgr.jobInLane i = none
  lanes : ∀ i j, c.mgr.jobInLane i = some j →
    ∃ done, (c.mgr.lanes 16).LaneHas (sha1Kernel own) 4 i j (c.submitted j) done
  once : c.ExactlyOnce (schedulerAvx512Ni own x16 ymm3) (sha1Kernel own) InLane

/-- Every run of submits and flushes meets the contract, if `sha1_mb_x16_avx512` compresses
blocks. -/
theorem mgrAvx512Ni_contract (own : J → ℕ → Byte) (x16 : Kernel J Sha1.Digest)
    (hx16 : ∀ j ptr n d, x16 j ptr n d = sha1Kernel own j ptr n d) (ymm3 : Ymm) (s : Sha1MbJobMgr J)
    (jobs : J → Job Sha1.Digest) (calls : List (SchedCall J Sha1.Digest))
    (hcalls : Guarded (SchedState.step (schedulerAvx512Ni own x16 ymm3) (sha1Kernel own))
      (fun c a => a.Allowed InLane maxBlocksSha1 c)
        (.initial (schedulerAvx512Ni own x16 ymm3) s jobs)
      calls) :
    Avx512NiContract own x16 ymm3
      (Lib.run (SchedState.step (schedulerAvx512Ni own x16 ymm3) (sha1Kernel own))
        (.initial (schedulerAvx512Ni own x16 ymm3) s jobs) calls) := by
  obtain rfl : x16 = sha1Kernel own := by
    funext j ptr n d
    exact hx16 j ptr n d
  have hserves := schedulerAvx512Ni_serves own ymm3
  have hgood := hserves.run s jobs hcalls
  generalize Lib.run (SchedState.step (schedulerAvx512Ni own (sha1Kernel own) ymm3)
    (sha1Kernel own))
    (.initial (schedulerAvx512Ni own (sha1Kernel own) ymm3) s jobs) calls = c at hgood
  refine ⟨?_, hgood.1.lane, hserves.exactlyOnce hgood (c.mgr.lanes 0).exists_finset_inLane⟩
  obtain ⟨free, hholds, hnodup, hmem, hcount⟩ := hgood.1.counted.exists_stack
  exact ⟨free, hcount, hholds, hnodup, fun i => (hmem i).trans (and_iff_right (Finset.mem_univ i))⟩

end

/-- Eight jobs, three flushes, a job again and a flush: the first two flushes run
`sha1_mb_x16_avx512`, the others, with at most six jobs, `sha1_ni_x1`. -/
theorem mgrAvx512Ni_contract_drain :
    let own : ℕ → ℕ → Byte := fun _ _ => 0#8
    let abc : ℕ → Byte := fun k =>
      [0x61#8, 0x62#8, 0x63#8, 0x80#8].getD k (if k = 63 then 24#8 else 0#8)
    let start : SchedState (Sha1MbJobMgr ℕ) ℕ Sha1.Digest :=
      .initial (schedulerAvx512Ni own (sha1Kernel own) fun _ => 0#32)
        ⟨fun _ => 0#32, fun _ => none, fun _ => 0#32, 0#64, fun _ => none, 0#32⟩
        fun _ => ⟨.partialBlock 0, 0#64, Sha1.initial, .unknown⟩
    let submit : ℕ → SchedCall ℕ Sha1.Digest := fun j => .submit j (.user abc) 1#64 Sha1.initial
    let calls : List (SchedCall ℕ Sha1.Digest) := [submit 0, submit 1, submit 2, submit 3, submit 4,
      submit 5, submit 6, submit 7, .flush, .flush, .flush, submit 0, .flush]
    let c := Lib.run (SchedState.step (schedulerAvx512Ni own (sha1Kernel own) fun _ => 0#32)
      (sha1Kernel own)) start calls
    c.ledger[8]? = some (.given 0
        #v[0xa9993e36#32, 0x4706816a#32, 0xba3e2571#32, 0x7850c26c#32, 0x9cd0d89d#32]) ∧
      Avx512NiContract own (sha1Kernel own) (fun _ => 0#32) c := by
  intro own abc start submit calls c
  refine ⟨by decide +kernel, ?_⟩
  exact mgrAvx512Ni_contract own _ (fun _ _ _ _ => rfl) _ _ _ calls (by decide +kernel)

end IsalCrypto.Sha1Mb
