import IsalCrypto.Md5Mb.MgrAvx512

/-!
# Runs of the AVX512 lane scheduler of MD5

Every sequence of calls of `_md5_mb_mgr_submit_avx512` and `_md5_mb_mgr_flush_avx512`.

* `schedulerAvx512_serves`: what one call keeps.
* `mgrAvx512_contract`: after every run the bytes of `unused_lanes` on top, as many as the counter
  leaves, are the free lanes, the word of every other lane is 64 times its blocks left and its
  number, and each job is returned once with the digest of its own blocks.
-/

namespace IsalCrypto.Md5Mb

open IsalCrypto.Lib IsalCrypto.Mb

variable {J D : Type*} {s : Md5Mgr J D} {kern : Kernel J D} {submitted : J → Job D} {j : J}

/-- No buffer of 32-bit length has more blocks. -/
abbrev maxBlocksAvx512 : ℕ := 2 ^ 26 - 1

theorem avx512_fits : LaneMgr.Fits 32 6 maxBlocksAvx512 := ⟨by decide, by decide⟩

/-- Job `j` is in a lane. -/
abbrev Avx512InLane (s : Md5Mgr J D) (j : J) : Prop := s.InLane j

/-- What the scheduler keeps inside a call. -/
abbrev Avx512Tables (kern : Kernel J D) (s : Md5Mgr J D) (submitted : J → Job D) : Prop :=
  s.Tables byteArray kern 6 maxBlocksAvx512 submitted

/-- What it keeps between calls. -/
abbrev Avx512Ready (kern : Kernel J D) (s : Md5Mgr J D) (submitted : J → Job D) : Prop :=
  s.Ready byteArray kern 6 maxBlocksAvx512 submitted

/-! ## The least length -/

/-- The lowest dword is the least of all lengths. -/
theorem leastWord_leastLens (ymm3 ymm3' : Ymm) (s : Md5Mgr J D) :
    LeastWord s.lens (List.finRange 32) (leastLens ymm3 ymm3' s 0) := by
  have hplace : ∀ r, dwordsOf (lensYmm s r) (lensYmm s (r + 1)) =
      s.lens ∘ fun i : Fin 2 × Fin 8 => Fin.ofNat 32 (8 * (r + i.1.val) + i.2.val) := fun r => by
    funext ⟨b, k⟩
    rcases Fin.exists_fin_two.mp ⟨b, rfl⟩ with rfl | rfl <;> rfl
  have hlow := (leastWord_leastDwords ymm3 (lensYmm s 0) (lensYmm s 1)).1
  have hhigh := (leastWord_leastDwords ymm3' (lensYmm s 2) (lensYmm s 3)).1
  rw [hplace 0] at hlow
  rw [hplace 2] at hhigh
  exact (hlow.map.append hhigh.map).of_mem_iff (by decide)

theorem leastLens_four (ymm3 ymm3' : Ymm) (s : Md5Mgr J D) :
    leastLens ymm3 ymm3' s 4 = leastLens ymm3 ymm3' s 0 := by
  rw [leastLens, vpminud, vpminud, leastDwords_four ymm3 ymm3, leastDwords_four ymm3' ymm3']

/-- The subtraction takes the masked least length from every length. -/
theorem lens_subLens (ymm3 ymm3' : Ymm) (s : Md5Mgr J D) (i : Fin 32) :
    (subLens s (vpshufd0 (vpand (leastLens ymm3 ymm3' s) (lowDwords 0xFFFFFFC0#32)))).lens i =
      s.lens i - (leastLens ymm3 ymm3' s 0 &&& ~~~63#32) := by
  have hmask : ~~~63#32 = 0xFFFFFFC0#32 := by decide
  have hindex : Fin.ofNat 32 (8 * (i.val / 8) + (Fin.ofNat 8 i.val).val) = i := by
    revert i
    decide
  rw [subLens]
  dsimp only
  rw [vpsubd, vpshufd0_vpand rfl (leastLens_four ymm3 ymm3' s), lensYmm, hindex, hmask]

/-! ## One call -/

section

variable [DecidableEq J] {ymm3 ymm3' : Ymm}

theorem completeLane_eq (s : Md5Mgr J D) (jobs : J → Job D) (idx : Fin 32) :
    completeLane s jobs idx =
      LaneMgr.completeLane { s with lens := Function.update s.lens idx 0xFFFFFFFF#32 } jobs idx
        (pushLane s.unusedLanes idx) := by
  rw [completeLane, LaneMgr.completeLane, LaneMgr.completeLane]
  dsimp only
  cases s.jobInLane idx with
  | none => rfl
  | some j => rfl

/-- All lanes with a job move on by the least length. -/
theorem moved_hashAll {i : Fin 32} {n : ℕ}
    (hlen : (leastLens ymm3 ymm3' s 0 &&& ~~~63#32).toNat = 2 ^ 6 * n) (hle : n ≤ s.left 6 i) :
    LaneMgr.Moved kern 6 s (hashAll kern s (leastLens ymm3 ymm3' s)) i j n := by
  have hn : (leastLens ymm3 ymm3' s 0 >>> 6).toNat = n := by
    have hmask : (leastLens ymm3 ymm3' s 0 &&& ~~~63#32).toNat = _ := toNat_and_not_mask (k := 6) _
    rw [hlen] at hmask
    rw [BitVec.toNat_ushiftRight, Nat.shiftRight_eq_div_pow]
    exact (Nat.eq_of_mul_eq_mul_left (by decide) hmask).symm
  have hmul : 2 ^ 6 * s.left 6 i ≤ (s.lens i).toNat := Nat.mul_div_le ..
  have hword : (leastLens ymm3 ymm3' s 0 &&& ~~~63#32).toNat ≤ (s.lens i).toNat := by
    rw [hlen]
    exact (Nat.mul_le_mul_left _ hle).trans hmul
  rw [hashAll, hn]
  refine LaneMgr.moved_hashLanes (p := fun _ => True)
    (t := subLens s (vpshufd0 (vpand (leastLens ymm3 ymm3' s) (lowDwords 0xFFFFFFC0#32))))
    trivial rfl rfl ?_ ⟨rfl, rfl, rfl⟩
  rw [lens_subLens, BitVec.toNat_sub_of_le hword, hlen, Nat.sub_add_cancel (hlen ▸ hword)]

/-- With a job in a lane, the part that submit and flush share hands one back. -/
theorem startLoop_answers (hkern : kern.Lawful 64) (h : Avx512Tables kern s submitted)
    (hempty : ∀ i, s.jobInLane i = none → s.lens i = 0xFFFFFFFF#32) {j₀ : J}
    (hocc : Avx512InLane s j₀) (jobs : J → Job D) :
    Answers kern Avx512InLane (Avx512Ready kern) submitted (Avx512InLane s)
        (startLoop kern ymm3 ymm3' s jobs) ∧
      (startLoop kern ymm3 ymm3' s jobs).2.2 ≠ none := by
  obtain ⟨i₀, hi₀⟩ := hocc
  obtain ⟨a, j, hja, hword, hlane, hmin⟩ := h.exists_least avx512_fits
    (leastWord_leastLens ymm3 ymm3' s) (fun i _ => hempty i) (List.mem_finRange i₀) hi₀
  have hidx : Fin.ofNat 32 (leastLens ymm3 ymm3' s 0 &&& 0x3F#32).toNat = a := by
    have hand : (leastLens ymm3 ymm3' s 0 &&& 0x3F#32).toNat =
        (leastLens ymm3 ymm3' s 0).toNat % 2 ^ 6 := by
      rw [BitVec.toNat_and]
      exact Nat.and_two_pow_sub_one_eq_mod _ 6
    rw [hand, hlane]
    exact Fin.ext (Nat.mod_eq_of_lt a.isLt)
  have hlen : (leastLens ymm3 ymm3' s 0 &&& ~~~63#32).toNat = 2 ^ 6 * s.left 6 a := by
    rw [LaneMgr.left, ← hword]
    exact toNat_and_not_mask (k := 6) _
  -- the manager with which `len_is_0` is reached
  have hreached : ∃ t : Md5Mgr J D, startLoop kern ymm3 ymm3' s jobs = completeLane t jobs a ∧
      t.jobInLane = s.jobInLane ∧ t.unusedLanes = s.unusedLanes ∧
      t.numLanesInuse = s.numLanesInuse ∧
      ∀ i k, s.jobInLane i = some k → LaneMgr.Moved kern 6 s t i k (s.left 6 a) := by
    unfold startLoop
    dsimp only
    rw [hidx]
    split
    · next hz =>
      have hleft : s.left 6 a = 0 := by
        have hshift := congrArg BitVec.toNat hz
        rw [BitVec.toNat_ushiftRight, Nat.shiftRight_eq_div_pow, hword] at hshift
        exact hshift
      exact ⟨s, rfl, rfl, rfl, rfl, fun i k _ => by
        rw [hleft]
        exact .of_eq hkern rfl rfl rfl⟩
    · exact ⟨_, rfl, rfl, rfl, rfl, fun i k hk =>
        moved_hashAll hlen (hmin i k (List.mem_finRange i) hk)⟩
  obtain ⟨t, heq, htable, hunused, hinuse, hmoved⟩ := hreached
  rw [heq, completeLane_eq, hunused]
  refine h.completeLane avx512_fits.lanes hkern hja ?_ ?_ (fun i k hne hk => ⟨s.left 6 a, ?_⟩)
    (fun ptr hptr => ?_) jobs
  · exact htable
  · exact hinuse
  · obtain ⟨hptr, hdigest, hlens⟩ := hmoved i k hk
    refine ⟨hptr, hdigest, ?_⟩
    dsimp only
    rwa [Function.update_of_ne hne]
  · exact (hmoved a j hja).digest ptr hptr

theorem submitAvx512_answers (hkern : kern.Lawful 64) (h : Avx512Ready kern s submitted)
    {jobs : J → Job D} (hj : ¬ Avx512InLane s j) (hmax : (jobs j).len.toNat ≤ maxBlocksAvx512) :
    Answers kern Avx512InLane (Avx512Ready kern) (Function.update submitted j (jobs j))
      (fun k => k = j ∨ Avx512InLane s k) (submitAvx512 kern ymm3 ymm3' s jobs j) := by
  obtain ⟨htables, hin⟩ := h.enter avx512_fits hkern hj hmax
  have hfull := htables.counted.inuse_eq_iff
  have hcard : (byteArray.lanes).card = 32 := rfl
  rw [hcard] at hfull
  change Answers kern Avx512InLane (Avx512Ready kern) (Function.update submitted j (jobs j))
    (fun k => k = j ∨ Avx512InLane s k)
    (let t := s.enterLane 6 (byteArray.top s.unusedLanes) (byteArray.pop s.unusedLanes)
      (LaneMgr.startJob jobs j) j
    if t.numLanesInuse ≠ 32#32 then (t, LaneMgr.startJob jobs j, none)
    else startLoop kern ymm3 ymm3' t (LaneMgr.startJob jobs j))
  dsimp only
  generalize s.enterLane 6 (byteArray.top s.unusedLanes) (byteArray.pop s.unusedLanes)
    (LaneMgr.startJob jobs j) j = t at htables hin hfull
  split
  · next hwait =>
    have hroom : ∃ i ∈ byteArray.lanes, t.jobInLane i = none := by
      by_contra hno
      exact hwait (BitVec.eq_of_toNat_eq (hfull.mpr fun i hi hnone => hno ⟨i, hi, hnone⟩))
    exact ⟨⟨htables, hroom⟩, hin⟩
  · next hall =>
    have hocc := hfull.mp (congrArg BitVec.toNat (not_not.mp hall))
    have hret := (@startLoop_answers _ _ _ _ _ _ ymm3 ymm3' hkern htables
      (fun i hnone => absurd hnone (hocc i (Finset.mem_univ i))) _ ((hin j).mpr (.inl rfl))
      (LaneMgr.startJob jobs j)).1
    have hlanes : Avx512InLane t = fun k => k = j ∨ Avx512InLane s k :=
      funext fun k => propext (hin k)
    rwa [hlanes] at hret

theorem flushAvx512_answers (hkern : kern.Lawful 64) (h : Avx512Ready kern s submitted)
    (jobs : J → Job D) :
    Answers kern Avx512InLane (Avx512Ready kern) submitted (Avx512InLane s)
        (flushAvx512 kern ymm3 ymm3' s jobs) ∧
      ((flushAvx512 kern ymm3 ymm3' s jobs).2.2 = none ↔ ∀ j, ¬ Avx512InLane s j) := by
  have hzero := h.counted.inuse_eq_zero_iff
  unfold flushAvx512
  split
  · next hnum =>
    exact ⟨⟨h, fun _ => Iff.rfl⟩, iff_of_true rfl (hzero.mp (congrArg BitVec.toNat hnum))⟩
  · next hnum =>
    have hsome : ¬ ∀ j, ¬ Avx512InLane s j := fun hno =>
      hnum (BitVec.eq_of_toNat_eq (hzero.mpr hno))
    have hocc := hsome
    push Not at hocc
    obtain ⟨j₀, hj₀⟩ := hocc
    have hret := @startLoop_answers _ _ _ _ _ _ ymm3 ymm3' hkern (h.toTables.copyLaneData 32)
      (fun i hnone => LaneMgr.lens_copyLaneData i.isLt hnone) _ hj₀ jobs
    exact ⟨hret.1, iff_of_false hret.2 hsome⟩

end

/-! ## Runs -/

variable [Inhabited D]

theorem initAvx512_tables (s : Md5Mgr J D) : Avx512Tables kern (initAvx512 s) submitted where
  counted.free := by
    have hbyte : ∀ k i : Fin 32, (List.finRange 32)[k.val]? = some i →
        (initUnused (Fin.ofNat 4 (k.val / 8)) >>> (8 * (k.val % 8))).setWidth 8 =
          BitVec.ofNat 8 i := by decide
    exact ⟨List.finRange 32, ⟨(List.length_finRange ..).le, hbyte⟩, List.nodup_finRange 32,
      fun i => iff_of_true (List.mem_finRange i) ⟨Finset.mem_univ i, rfl⟩⟩
  counted.inuse := by
    have hocc : (initAvx512 s).occupied = ∅ := by
      ext i
      simp [initAvx512]
    rw [hocc]
    rfl
  counted.usable := nofun
  counted.inj := nofun
  len_le := nofun
  lane := nofun

variable [DecidableEq J]

theorem schedulerAvx512_serves (hkern : kern.Lawful 64) (ymm3 ymm3' : Ymm) :
    (schedulerAvx512 ymm3 ymm3' : Scheduler (Md5Mgr J D) J D).Serves kern maxBlocksAvx512
      Avx512InLane (Avx512Ready kern) where
  init s _ :=
    ⟨⟨initAvx512_tables s, 0, Finset.mem_univ 0, rfl⟩, fun _ ⟨_, hi⟩ => nomatch hi⟩
  submit _ h hj _ hmax := submitAvx512_answers hkern h hj hmax
  flush h := flushAvx512_answers hkern h _

/-- What holds after every run. The first bytes of `unused_lanes`, as many as `num_lanes_inuse`
leaves of 32, are the lanes without a job; of the job in a lane some blocks are done, and its
digest, data pointer and length say so; and each job is handed back exactly once. -/
structure Avx512Contract (kern : Kernel J D) (ymm3 ymm3' : Ymm)
    (c : SchedState (Md5Mgr J D) J D) : Prop where
  unused : ∃ free : List (Fin 32), c.mgr.numLanesInuse.toNat + free.length = 32 ∧
    (∀ k i : Fin 32, free[k.val]? = some i → c.mgr.unusedLanes k = BitVec.ofNat 8 i) ∧ free.Nodup ∧
    ∀ i, i ∈ free ↔ c.mgr.jobInLane i = none
  lanes : ∀ i j, c.mgr.jobInLane i = some j → ∃ done, c.mgr.LaneHas kern 6 i j (c.submitted j) done
  once : c.ExactlyOnce (schedulerAvx512 ymm3 ymm3') kern Avx512InLane

/-- Every run of submits and flushes meets the contract. -/
theorem mgrAvx512_contract (hkern : kern.Lawful 64) (ymm3 ymm3' : Ymm) (s : Md5Mgr J D)
    (jobs : J → Job D) (calls : List (SchedCall J D))
    (hcalls : Guarded (SchedState.step (schedulerAvx512 ymm3 ymm3') kern)
      (fun c a => a.Allowed Avx512InLane maxBlocksAvx512 c)
      (.initial (schedulerAvx512 ymm3 ymm3') s jobs) calls) :
    Avx512Contract kern ymm3 ymm3' (Lib.run (SchedState.step (schedulerAvx512 ymm3 ymm3') kern)
      (.initial (schedulerAvx512 ymm3 ymm3') s jobs) calls) := by
  have hserves : (schedulerAvx512 ymm3 ymm3' : Scheduler (Md5Mgr J D) J D).Serves kern
      maxBlocksAvx512 Avx512InLane (Avx512Ready kern) := schedulerAvx512_serves hkern ymm3 ymm3'
  have hgood := hserves.run s jobs hcalls
  generalize Lib.run (SchedState.step (schedulerAvx512 ymm3 ymm3') kern)
    (.initial (schedulerAvx512 ymm3 ymm3') s jobs) calls = c at hgood
  refine ⟨?_, hgood.1.lane, hserves.exactlyOnce hgood c.mgr.exists_finset_inLane⟩
  obtain ⟨free, hholds, hnodup, hmem, hcount⟩ := hgood.1.counted.exists_stack
  exact ⟨free, hcount, hholds.2, hnodup,
    fun i => (hmem i).trans (and_iff_right (Finset.mem_univ i))⟩

/-- Thirty-three jobs of one to three blocks, then flushes: the submit of the last lane hands the
first job of one block back, and its lane is taken again. -/
theorem mgrAvx512_contract_drain :
    let kern : Kernel ℕ (List Byte) := blockKernel (fun _ _ => 0#8) fun block d => d ++ [block 0]
    let buffer : ℕ → BufferPtr := fun j => .user fun k => BitVec.ofNat 8 (4 * j + k / 64)
    let sched : Scheduler (Md5Mgr ℕ (List Byte)) ℕ (List Byte) :=
      schedulerAvx512 (fun _ => 0#32) fun _ => 0#32
    let start : SchedState (Md5Mgr ℕ (List Byte)) ℕ (List Byte) :=
      .initial sched
        ⟨fun _ => [], fun _ => none, fun _ => 0#32, fun _ => 0#8, fun _ => none, 0#32⟩
        fun _ => ⟨.partialBlock 0, 0#64, [], .unknown⟩
    let calls : List (SchedCall ℕ (List Byte)) :=
      ((List.range 33).map fun j => .submit j (buffer j) (BitVec.ofNat 64 (3 - j % 3)) []) ++
        [.flush, .flush]
    (Lib.run (SchedState.step sched kern) start calls).ledger.drop 32 =
        [.given 2 [8#8], .taken 32 [128#8], .given 5 [20#8], .given 8 [32#8], .given 11 [44#8]] ∧
      Avx512Contract kern (fun _ => 0#32) (fun _ => 0#32)
        (Lib.run (SchedState.step sched kern) start calls) := by
  intro kern buffer sched start calls
  refine ⟨by decide +kernel, ?_⟩
  exact mgrAvx512_contract (blockKernel_lawful _ _) _ _ _ _ calls (by decide +kernel)

end IsalCrypto.Md5Mb
