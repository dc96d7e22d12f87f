import IsalCrypto.Mb.Scheduler

/-!
# The single-buffer scheduler

`sha512_mb/sha512_sb_mgr_init_sse4.c`, `sha512_sb_mgr_submit_sse4.c` and
`sha512_sb_mgr_flush_sse4.c`: a scheduler that hashes every job before its `submit` returns.
-/

namespace IsalCrypto.Sha512Mb

open IsalCrypto.Mb

variable {S J D : Type*} [DecidableEq J]

/-- `_sha512_sb_mgr_submit_sse4`; the kernel `_sha512_sse4` works on the digest of the job. -/
def sha512SbMgrSubmit (kern : Kernel J D) (state : S) (jobs : J → Job D) (job : J) :
    S × (J → Job D) × Option J :=
  (state, Function.update jobs job
    { jobs job with
      resultDigest := kern job (jobs job).buffer (jobs job).len.toNat (jobs job).resultDigest },
    some job)

omit [DecidableEq J] in
/-- `_sha512_sb_mgr_flush_sse4`. -/
def sha512SbMgrFlush (state : S) (jobs : J → Job D) : S × (J → Job D) × Option J :=
  (state, jobs, none)

/-- The scheduler layer of the three `sha512_sb_mgr_*_sse4.c`. -/
def schedulerSb : Scheduler S J D where
  init := id
  submit := sha512SbMgrSubmit
  flush _ := sha512SbMgrFlush

/-- It meets the contract and never holds a job. -/
theorem schedulerSb_correct (B maxBlocks : ℕ) :
    (schedulerSb : Scheduler S J D).Correct B maxBlocks fun _ _ _ held _ => held = ∅ where
  init _ _ _ _ := rfl
  congr _ h := h
  submit := by
    rintro kern s jobs held goal j - rfl - - -
    refine ⟨fun k hk => Function.update_of_ne ?_ .., Finset.mem_insert_self j ∅, ?_, ?_⟩
    · rintro rfl
      exact hk (Finset.mem_insert_self k ∅)
    · change (Function.update jobs j _ j).resultDigest = Function.update goal j _ j
      rw [Function.update_self, Function.update_self]
      rfl
    · exact Finset.erase_insert (Finset.notMem_empty j)
  flush := by
    rintro kern s jobs held goal - rfl
    exact ⟨⟨fun _ _ => rfl, rfl⟩, fun _ => rfl⟩

end IsalCrypto.Sha512Mb
