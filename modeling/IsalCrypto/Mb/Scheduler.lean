import IsalCrypto.Memory
import Mathlib.Data.Finset.Basic
import Mathlib.Logic.Function.Basic

/-!
# Jobs and schedulers

`multi_buffer.h` and the job structures of `sha256_mb.h` and its siblings: a scheduler layer takes
jobs, keeps some of them in lanes and hands finished ones back.

`Scheduler.Correct` says what a scheduler is for. It holds a set of jobs, each with the digest it
is owed: that of the job when it was submitted, after its `len` blocks. A call may finish one held
job and hand it back with that digest; the others stay held. A lane manager is shown to meet it
once, and the context layer is verified over any scheduler that does.
-/

namespace IsalCrypto.Mb

/-- `ISAL_JOB_STS`. -/
inductive JobSts
  | unknown
  | beingProcessed
  | completed
  | internalError
  | error
deriving DecidableEq, Repr

/-- The `uint8_t *` of a job: into a buffer of the caller, as the memory from there on, or into the
`partial_block_buffer` of the job's own context. -/
inductive BufferPtr
  | user (bytes : ℕ → Byte)
  | partialBlock (offset : ℕ)

/-- `buffer += n`. -/
def BufferPtr.add : BufferPtr → ℕ → BufferPtr
  | user bytes, n => user fun k => bytes (n + k)
  | partialBlock offset, n => partialBlock (offset + n)

/-- `ISAL_SHA256_JOB` and its siblings, over the type of digests. -/
structure Job (D : Type*) where
  buffer : BufferPtr
  len : BitVec 64
  resultDigest : D
  status : JobSts

/-- What the hash kernels do for a job: `kern j p n d` is the digest `d` after `n` blocks at `p`,
where `p` may point into the context of `j`. -/
abbrev Kernel (J D : Type*) := J → BufferPtr → ℕ → D → D

/-- Blocks of `B` bytes are absorbed one after the other. -/
structure Kernel.Lawful {J D : Type*} (kern : Kernel J D) (B : ℕ) : Prop where
  zero : ∀ j p d, kern j p 0 d = d
  add : ∀ j p m n d, kern j p (m + n) d = kern j (p.add (B * m)) n (kern j p m d)

/-- The scheduler layer of a hash: `init`, `submit` and `flush` on the manager and the jobs. -/
structure Scheduler (S J D : Type*) where
  init : S → S
  submit : Kernel J D → S → (J → Job D) → J → S × (J → Job D) × Option J
  flush : Kernel J D → S → (J → Job D) → S × (J → Job D) × Option J

section Contract

variable {S J D : Type*} [DecidableEq J]

/-- A call that started with the jobs `held` owed the digests `goal` hands back at most one of them,
finished, and keeps the rest. -/
def Returns (Rep : S → (J → Job D) → Finset J → (J → D) → Prop) (jobs : J → Job D)
    (held : Finset J) (goal : J → D) (r : S × (J → Job D) × Option J) : Prop :=
  (∀ k, k ∉ held → r.2.1 k = jobs k) ∧
    match r.2.2 with
    | none => Rep r.1 r.2.1 held goal
    | some k => k ∈ held ∧ (r.2.1 k).resultDigest = goal k ∧ Rep r.1 r.2.1 (held.erase k) goal

/-- The digest a job is owed when it is submitted. -/
def Job.goal (kern : Kernel J D) (j : J) (job : Job D) : D :=
  kern j job.buffer job.len.toNat job.resultDigest

/-- `Rep kern s jobs held goal` represents the jobs `held`, owed the digests `goal`. Jobs of up to
`maxBlocks` blocks of `B` bytes are submitted. -/
structure Scheduler.Correct (sch : Scheduler S J D) (B maxBlocks : ℕ)
    (Rep : Kernel J D → S → (J → Job D) → Finset J → (J → D) → Prop) : Prop where
  init : ∀ kern s jobs goal, Rep kern (sch.init s) jobs ∅ goal
  congr : ∀ {kern kern' : Kernel J D} {s jobs jobs' held goal goal'},
    (∀ j ∈ held, kern j = kern' j ∧ jobs j = jobs' j ∧ goal j = goal' j) →
    Rep kern s jobs held goal → Rep kern' s jobs' held goal'
  submit : ∀ {kern : Kernel J D} {s jobs held goal} (j : J), kern.Lawful B →
    Rep kern s jobs held goal → j ∉ held → 0 < (jobs j).len.toNat →
    (jobs j).len.toNat ≤ maxBlocks →
    Returns (Rep kern) jobs (insert j held) (Function.update goal j ((jobs j).goal kern j))
      (sch.submit kern s jobs j)
  flush : ∀ {kern : Kernel J D} {s jobs held goal}, kern.Lawful B → Rep kern s jobs held goal →
    Returns (Rep kern) jobs held goal (sch.flush kern s jobs) ∧
      ((sch.flush kern s jobs).2.2 = none → held = ∅)

end Contract

end IsalCrypto.Mb
