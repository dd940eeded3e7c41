/-
`packages/queue/src/index.ts`: the job table and the statements that change it.

A job is a row; each function below is one SQL statement (or, for `enqueue`, a
lookup and an insert in the caller's transaction) on the whole table. The columns
`last_error` and `finished_at` are written by the program and read by none of its
functions; they are left out. Times are milliseconds; the program passes its own
clock, so each statement takes its `now`.
-/
import Mathlib.Data.Rat.Floor

set_option autoImplicit false

namespace Postroom.Queue

open List

inductive JobStatus where
  | pending
  | running
  | done
  | dead
  deriving DecidableEq, Repr

structure Job (α : Type) where
  id : ℕ
  queue : String
  payload : α
  status : JobStatus := .pending
  runAt : ℤ
  attempts : ℕ := 0
  maxAttempts : ℕ := 10
  lockedAt : Option ℤ := none
  lockedBy : Option String := none
  idempotencyKey : Option String := none
  createdAt : ℤ
  deriving DecidableEq, Repr

variable {α : Type}

/-- The `job` table. -/
abbrev Jobs (α : Type) := List (Job α)

/-- `updateMany({ where, data })`. -/
def Jobs.updateMany (jobs : Jobs α) (rows : Job α → Bool) (data : Job α → Job α) : Jobs α :=
  jobs.map fun j => if rows j then data j else j

/-- `findUnique({ where: { id } })`. -/
def Jobs.findUnique (jobs : Jobs α) (id : ℕ) : Option (Job α) := jobs.find? fun j => j.id = id

/-! ## Enqueue -/

structure EnqueueOptions where
  runAt : Option ℤ := none
  maxAttempts : Option ℕ := none
  idempotencyKey : Option String := none

/-- The row `enqueue` creates; `id` is the database's `gen_random_uuid()`. -/
def newJob (id : ℕ) (queue : String) (payload : α) (options : EnqueueOptions) (now : ℤ) : Job α :=
  { id := id, queue := queue, payload := payload, runAt := options.runAt.getD now,
    maxAttempts := options.maxAttempts.getD 10, idempotencyKey := options.idempotencyKey,
    createdAt := now }

/-- Add a job, unless one with the same key exists in any status. -/
def enqueue (jobs : Jobs α) (id : ℕ) (queue : String) (payload : α) (options : EnqueueOptions)
    (now : ℤ) : Jobs α × Option (Job α) :=
  if options.idempotencyKey ≠ none
      ∧ jobs.any fun j => decide (j.idempotencyKey = options.idempotencyKey) then (jobs, none)
  else
    let job := newJob id queue payload options now
    (jobs ++ [job], some job)

/-- Exponential backoff with jitter: half the ceiling plus a random part of the other
half. `Math.round` is the floor after adding one half. -/
def backoffMs (attempt : ℕ) (random : ℚ) (baseMs : ℕ := 30000) (capMs : ℕ := 3600000) : ℤ :=
  let ceiling : ℚ := min capMs (baseMs * 2 ^ (attempt - 1))
  ⌊ceiling / 2 + random * ceiling / 2 + 1 / 2⌋

/-! ## Claim -/

/-- The `WHERE` of `claim`'s subselect. -/
def Claimable (queue : String) (now leaseMs : ℤ) (j : Job α) : Prop :=
  j.queue = queue
    ∧ ((j.status = .pending ∧ j.runAt ≤ now)
      ∨ (j.status = .running ∧ ∃ t ∈ j.lockedAt, t < now - leaseMs))

instance (queue : String) (now leaseMs : ℤ) (j : Job α) :
    Decidable (Claimable queue now leaseMs j) :=
  inferInstanceAs (Decidable (_ ∧ (_ ∨ _)))

/-- `ORDER BY run_at, created_at LIMIT 1`. -/
def firstDue : List (Job α) → Option (Job α)
  | [] => none
  | j :: js =>
    match firstDue js with
    | none => some j
    | some k =>
      if k.runAt < j.runAt ∨ (k.runAt = j.runAt ∧ k.createdAt < j.createdAt) then some k else some j

/-- The row the subselect locks: `skip` are the rows other transactions hold at that
moment (`FOR UPDATE SKIP LOCKED`). -/
def nextDue (jobs : Jobs α) (queue : String) (now leaseMs : ℤ) (skip : List ℕ) :
    Option (Job α) :=
  firstDue (jobs.filter fun j => decide (Claimable queue now leaseMs j) && !skip.contains j.id)

/-- The `SET` of `claim`'s update. -/
def Job.take (workerId : String) (now : ℤ) (j : Job α) : Job α :=
  { j with status := .running, lockedAt := some now, lockedBy := some workerId,
           attempts := j.attempts + 1 }

/-- `claim`'s update: the id it returns and the table after it. Reading the row
back is a statement of its own. -/
def claimUpdate (jobs : Jobs α) (queue workerId : String) (now leaseMs : ℤ) (skip : List ℕ) :
    Option (ℕ × Jobs α) :=
  (nextDue jobs queue now leaseMs skip).map fun j =>
    (j.id, jobs.updateMany (fun k => k.id = j.id) (Job.take workerId now))

/-! ## Complete, fail, replay -/

/-- The rows a claim's outcome may change. -/
def lockedRow (job : Job α) (j : Job α) : Bool :=
  j.id = job.id && j.status = .running && j.lockedBy = job.lockedBy

def complete (jobs : Jobs α) (job : Job α) : Jobs α :=
  jobs.updateMany (lockedRow job) fun j => { j with status := .done, lockedAt := none }

inductive FailOutcome where
  | retry
  | dead
  deriving DecidableEq, Repr

/-- Record a failure: retry after backoff, or `dead` once attempts are spent. -/
def fail (jobs : Jobs α) (job : Job α) (now : ℤ) (retryAt : Option ℤ) (random : ℚ) :
    Jobs α × FailOutcome :=
  if job.attempts ≥ job.maxAttempts then
    (jobs.updateMany (lockedRow job) fun j => { j with status := .dead, lockedAt := none }, .dead)
  else
    (jobs.updateMany (lockedRow job) fun j =>
      { j with status := .pending, lockedAt := none,
               runAt := retryAt.getD (now + backoffMs job.attempts random) }, .retry)

/-- Put a job back in line; `update` throws when there is no such row. -/
def replay (jobs : Jobs α) (id : ℕ) (now : ℤ) : Option (Jobs α) :=
  if jobs.any fun j => decide (j.id = id) then
    some (jobs.updateMany (fun j => j.id = id) fun j =>
      { j with status := .pending, attempts := 0, runAt := now, lockedAt := none,
               lockedBy := none })
  else none

/-! ## What the statements do -/

variable {jobs : Jobs α} {j : Job α} {rows : Job α → Bool} {data : Job α → Job α}

theorem mem_updateMany : j ∈ jobs.updateMany rows data ↔ ∃ k ∈ jobs, j = if rows k then data k
    else k := by
  simp only [Jobs.updateMany, mem_map, eq_comm]

/-- An update that keeps ids keeps the list of ids. -/
theorem map_id_updateMany (jobs : Jobs α) (rows : Job α → Bool) (data : Job α → Job α)
    (hid : ∀ j, (data j).id = j.id) : (jobs.updateMany rows data).map Job.id = jobs.map Job.id := by
  rw [Jobs.updateMany, map_map]
  refine map_congr_left ?_
  intro j _
  by_cases h : rows j = true
  · simp [h, hid]
  · simp [h]

/-- An update no row qualifies for changes nothing. -/
theorem updateMany_eq_self (h : ∀ j ∈ jobs, rows j = false) : jobs.updateMany rows data = jobs := by
  refine (map_congr_left ?_).trans (map_id jobs)
  intro j hj
  simp [h j hj]

theorem firstDue_mem {js : List (Job α)} (h : firstDue js = some j) : j ∈ js := by
  induction js with
  | nil => cases h
  | cons k js ih =>
    rw [firstDue] at h
    cases hk : firstDue js with
    | none =>
      rw [hk] at h
      injection h with h
      exact h ▸ mem_cons_self
    | some k' =>
      rw [hk] at h
      dsimp only at h
      split_ifs at h with hlt
      · injection h with h
        exact mem_cons_of_mem _ (ih (h ▸ hk))
      · injection h with h
        exact h ▸ mem_cons_self

/-- What `claim` picks is a due row of the table. -/
theorem nextDue_spec {queue : String} {now leaseMs : ℤ} {skip : List ℕ}
    (h : nextDue jobs queue now leaseMs skip = some j) :
    j ∈ jobs ∧ Claimable queue now leaseMs j := by
  have hmem := firstDue_mem h
  rw [mem_filter, Bool.and_eq_true] at hmem
  exact ⟨hmem.1, of_decide_eq_true hmem.2.1⟩

theorem findUnique_spec {id : ℕ} (h : jobs.findUnique id = some j) : j ∈ jobs ∧ j.id = id :=
  ⟨mem_of_find?_eq_some h, by simpa using find?_some h⟩

end Postroom.Queue
