import IsalCrypto.Lib.Runs
import IsalCrypto.Md5Mb.MgrSveSpec

/-!
# Runs of the SVE lane scheduler

Every sequence of calls of `md5_mb_mgr_submit_sve` and `md5_mb_mgr_flush_sve` from
`md5_mb_mgr_init_sve`, for a vector length that does not change. Beside the manager stands what
each job was when it was last submitted.

The length of a job shares a 32-bit word with its lane number, and is taken out of it as an `int`.
A job of 2^24 blocks or more loses the upper bits of its length, and when all jobs in lanes have
2^23 blocks or more left, the kernels are told a negative number of blocks.
`mgrSve_complete` covers the runs in which neither happens.
-/

namespace IsalCrypto.Md5Mb

open IsalCrypto.Lib IsalCrypto.Mb Md5MbJobMgr

variable {J D : Type*} [DecidableEq J]

/-- A manager and the jobs, with each job as it was submitted and what the last call returned. -/
structure MbState (J D : Type*) where
  mgr : Md5MbJobMgr J
  jobs : J → Md5Job D
  submitted : J → Md5Job D
  returned : Option J

/-- A call of the scheduler layer; the caller fills the job before it submits it. -/
inductive MbCall (J D : Type*)
  | submit (j : J) (buffer : BitVec 64) (len : BitVec 32) (digest : D)
  | flush

/-- The state when the manager is called. -/
def MbState.fill (c : MbState J D) : MbCall J D → MbState J D
  | .submit j buffer len digest =>
    let job := { c.jobs j with buffer := buffer, len := len, resultDigest := digest }
    { c with
      jobs := Function.update c.jobs j job
      submitted := Function.update c.submitted j job }
  | .flush => c

/-- A call. -/
def MbState.step (ker : Md5Kernels D) (maxLanes : ℕ) (c : MbState J D) (a : MbCall J D) :
    MbState J D :=
  let f := c.fill a
  let r := match a with
    | .submit j _ _ _ => f.mgr.submitSve ker maxLanes f.jobs j
    | .flush => f.mgr.flushSve ker maxLanes f.jobs
  { f with mgr := r.1, jobs := r.2.1, returned := r.2.2 }

/-- After `md5_mb_mgr_init_sve`. -/
def MbState.initial (jobs : J → Md5Job D) : MbState J D := ⟨initSve, jobs, jobs, none⟩

/-- A job of as many blocks as one call of `isal_md5_ctx_mgr_submit` makes of at most 2^32-1 bytes
may be submitted while it is in no lane. -/
def MbCall.Allowed (c : MbState J D) : MbCall J D → Prop
  | .submit j _ len _ => (∀ i, c.mgr.jobInLane i ≠ some j) ∧ 0 < len.toNat ∧ len.toNat ≤ 2 ^ 26 - 1
  | .flush => True

/-- The tables that a call works on: those before it, with the submitted job in its lane. -/
def MbState.entered (c : MbState J D) (a : MbCall J D) : Md5MbJobMgr J :=
  match a with
  | .submit j _ _ _ => c.mgr.insertJob (c.fill a).jobs j
  | .flush => c.mgr

instance (c : MbState J D) (a : MbCall J D) : Decidable (a.Allowed c) :=
  match a with
  | .submit j _ _ _ => inferInstanceAs (Decidable ((∀ i, c.mgr.jobInLane i ≠ some j) ∧ _ ∧ _))
  | .flush => .isTrue trivial

/-- A submitted job has less than 2^24 blocks, and when the kernels run, some lane has a job of
less than 2^23 blocks. -/
def MbCall.Fits (maxLanes : ℕ) (c : MbState J D) (a : MbCall J D) : Prop :=
  match a with
  | .submit _ _ len _ => len.toNat < 2 ^ 24 ∧ (c.entered a).Fits (min maxLanes 32)
  | .flush => (c.entered a).Fits 1

instance (maxLanes : ℕ) (c : MbState J D) (a : MbCall J D) : Decidable (a.Fits maxLanes c) :=
  match a with
  | .submit _ _ _ _ => inferInstanceAs (Decidable (_ ∧ (_ ∨ _ ∨ _)))
  | .flush => inferInstanceAs (Decidable (_ ∨ _ ∨ _))

/-- The digest of a job after all of its blocks. -/
def Md5Job.digest (compress : BitVec 64 → D → D) (job : Md5Job D) : D :=
  md5Blocks compress job.buffer job.len.toNat job.resultDigest

/-- The job that the last call returned has had every block it was submitted with compressed, one
after the other, and nothing else. -/
def MbState.Complete (compress : BitVec 64 → D → D) (c : MbState J D) : Prop :=
  ∀ j, c.returned = some j → (c.jobs j).resultDigest = (c.submitted j).digest compress

variable {ker : Md5Kernels D} {compress : BitVec 64 → D → D} {c : MbState J D}

/-! ## One call -/

/-- What the scheduler keeps between calls. -/
structure MbState.Good (compress : BitVec 64 → D → D) (c : MbState J D) : Prop where
  lanes : c.mgr.Lanes
  room : ∃ i, c.mgr.jobInLane i = none
  owed : Owed compress (fun j => (c.submitted j).digest compress) c.mgr c.jobs
  complete : c.Complete compress

/-- The submitted job is owed the digest of all of its blocks. -/
theorem MbState.Good.owed_insertJob (hc : c.Good compress) {j : J} {buffer : BitVec 64}
    {len : BitVec 32} {digest : D} (hlen : len.toNat < 2 ^ 24)
    (hj : ∀ i, c.mgr.jobInLane i ≠ some j) :
    Owed compress (fun k => ((c.fill (.submit j buffer len digest)).submitted k).digest compress)
      (c.entered (.submit j buffer len digest)) (c.fill (.submit j buffer len digest)).jobs := by
  intro i k hi
  dsimp only [MbState.entered, MbState.fill, insertJob] at hi ⊢
  rcases jobInLane_put.mp hi with ⟨rfl, rfl⟩ | ⟨hne, hi⟩
  · rw [left_put_self (by rwa [Function.update_self]), Function.update_self, Function.update_self]
    rfl
  · have hk : k ≠ j := fun he => hj i (he ▸ hi)
    rw [left_put_of_ne hne, Function.update_of_ne hk, Function.update_of_ne hk]
    exact hc.owed i k hi

/-- What a call works on, and how it ends. -/
theorem step_outcome (hker : ker.Lawful compress) (maxLanes : ℕ) (hc : c.Good compress)
    {a : MbCall J D} (ha : a.Allowed c) (hfits : a.Fits maxLanes c) :
    (c.entered a).Lanes ∧
      Owed compress (fun k => ((c.fill a).submitted k).digest compress) (c.entered a)
        (c.fill a).jobs ∧
      ∃ cap ≤ 32, Outcome compress cap (c.entered a) (c.fill a).jobs
        ((c.step ker maxLanes a).mgr, (c.step ker maxLanes a).jobs,
          (c.step ker maxLanes a).returned) := by
  cases a with
  | submit j buffer len digest =>
    obtain ⟨hj, _, _⟩ := ha
    obtain ⟨hlen, hfits⟩ := hfits
    exact ⟨hc.lanes.insertJob hc.room _ hj, hc.owed_insertJob hlen hj, _, Nat.min_le_right ..,
      (submitSve_outcome hker maxLanes hc.lanes hc.room hj hfits).2⟩
  | flush =>
    exact ⟨hc.lanes, hc.owed, 1, by decide, flushSve_outcome hker maxLanes c.jobs hc.lanes hfits⟩

theorem MbState.Good.step (hker : ker.Lawful compress) (maxLanes : ℕ) (hc : c.Good compress)
    {a : MbCall J D} (ha : a.Allowed c) (hfits : a.Fits maxLanes c) :
    (c.step ker maxLanes a).Good compress := by
  obtain ⟨hlanes, howed, cap, hcap, hout⟩ := step_outcome hker maxLanes hc ha hfits
  obtain ⟨hlanes', hroom⟩ := hout.lanes hcap hlanes
  obtain ⟨hdigest, howed'⟩ := hout.owed hlanes howed
  exact ⟨hlanes', hroom, howed', hdigest⟩

/-! ## Runs -/

omit [DecidableEq J] in
theorem initSve_lanes : (initSve : Md5MbJobMgr J).Lanes where
  free g := by
    refine ⟨(List.finRange 32).filter fun i => group i = g, ?_, ?_, fun i => ?_⟩
    · match g with
      | 0 => rfl
      | 1 => rfl
      | 2 => rfl
      | 3 => rfl
    · exact (List.nodup_finRange 32).filter _
    · simp [initSve]
  inuse := by
    have hocc : (initSve : Md5MbJobMgr J).occupied = ∅ := by
      ext i
      simp [initSve]
    rw [hocc]
    rfl
  idle i _ := by
    have hi := i.isLt
    change (BitVec.ofNat 32 i).toNat / 256 = 0
    rw [BitVec.toNat_ofNat]
    omega
  inj i i' j hi := by cases hi

omit [DecidableEq J] in
theorem initial_good (jobs : J → Md5Job D) : (MbState.initial jobs).Good compress :=
  ⟨initSve_lanes, ⟨0, rfl⟩, nofun, nofun⟩

/-- In every run whose calls fit the packed words, the job that a call returns has had exactly the
blocks it was submitted with compressed. -/
theorem mgrSve_complete (hker : ker.Lawful compress) (maxLanes : ℕ) (jobs : J → Md5Job D)
    (calls : List (MbCall J D))
    (hcalls : Guarded (MbState.step ker maxLanes) (fun c a => a.Allowed c ∧ a.Fits maxLanes c)
      (.initial jobs) calls) :
    (run (MbState.step ker maxLanes) (.initial jobs) calls).Complete compress := by
  have hgood : (run (MbState.step ker maxLanes) (.initial jobs) calls).Good compress :=
    run_invariant (fun _ _ hc ha => hc.step hker maxLanes ha.1 ha.2) (initial_good jobs) hcalls
  exact hgood.complete

/-- Kernels that compress as many blocks as they are told to, and none for a negative number. -/
def plainKernels (compress : BitVec 64 → D → D) : Md5Kernels D :=
  let kern := fun p n d => if n.msb then d else md5Blocks compress p n.toNat d
  ⟨kern, kern, kern⟩

omit [DecidableEq J] in
theorem plainKernels_lawful (compress : BitVec 64 → D → D) :
    (plainKernels compress).Lawful compress := by
  constructor <;>
  · intro p n d hn
    simp [plainKernels, hn]

/-- Jobs of 3, 1 and 2 blocks on a machine with eight lanes, and two flushes. -/
theorem mgrSve_complete_three_jobs :
    let compress : BitVec 64 → List (BitVec 64) → List (BitVec 64) := fun p d => d ++ [p]
    let start : MbState ℕ (List (BitVec 64)) := .initial fun _ => ⟨0#64, 0#32, [], .unknown⟩
    let calls : List (MbCall ℕ (List (BitVec 64))) := [.submit 0 0x1000#64 3#32 [],
      .submit 1 0x2000#64 1#32 [], .submit 2 0x3000#64 2#32 [], .flush, .flush]
    (run (MbState.step (plainKernels compress) 8) start calls).returned = some 2 ∧
      (run (MbState.step (plainKernels compress) 8) start calls).Complete compress := by
  intro compress start calls
  refine ⟨by decide +kernel, ?_⟩
  exact mgrSve_complete (plainKernels_lawful compress) 8 _ calls (by decide +kernel)

/-- A compression that adds one counts the blocks. -/
theorem md5Blocks_count (p : BitVec 64) (n d : ℕ) : md5Blocks (fun _ d => d + 1) p n d = d + n := by
  induction n generalizing p d with
  | zero => rfl
  | succ n ih =>
    rw [md5Blocks, ih]
    exact Nat.succ_add_eq_add_succ d n

/-- One job of 2^24 blocks, 1 GiB, is returned at once with its digest as it was. -/
theorem mgrSve_long_job_not_complete :
    let compress : BitVec 64 → ℕ → ℕ := fun _ d => d + 1
    let start : MbState ℕ ℕ := .initial fun _ => ⟨0#64, 0#32, 0, .unknown⟩
    let calls : List (MbCall ℕ ℕ) := [.submit 0 0x1000#64 (BitVec.ofNat 32 (2 ^ 24)) 0]
    (plainKernels compress).Lawful compress ∧
      Guarded (MbState.step (plainKernels compress) 8) (fun c a => a.Allowed c) start calls ∧
      ¬ (run (MbState.step (plainKernels compress) 8) start calls).Complete compress := by
  intro compress start calls
  refine ⟨plainKernels_lawful compress, by decide +kernel, fun hcomplete => ?_⟩
  have hreturned : (run (MbState.step (plainKernels compress) 8) start calls).returned =
      some 0 := by
    decide +kernel
  have hdigest : ((run (MbState.step (plainKernels compress) 8) start calls).jobs 0).resultDigest
      = 0 := by decide +kernel
  have hall := hcomplete 0 hreturned
  rw [hdigest, Md5Job.digest, md5Blocks_count] at hall
  change 0 = 0 + 2 ^ 24 at hall
  omega

/-- A job of 2^23 blocks alone in a lane: the flush tells the kernels -2^23. -/
example :
    let c := run (MbState.step (plainKernels fun _ d => d + 1) 8)
      (.initial fun _ => ⟨0#64, 0#32, 0, .unknown⟩ : MbState ℕ ℕ)
      [.submit 0 0x1000#64 (BitVec.ofNat 32 (2 ^ 23)) 0, .flush]
    c.returned = some 0 ∧ (c.jobs 0).resultDigest = 0 := by decide +kernel

end IsalCrypto.Md5Mb
