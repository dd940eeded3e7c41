/-
Any number of workers on one job table (`startWorker.runOne`), and what bounds a
failing job.

A worker is idle, has claimed a job (`claim`'s UPDATE committed, the row not read
back), or runs the handler on the row it read back. Each action is one statement;
a worker that crashes forgets its job. The log records what the table does not:
who claimed, which handlers were started, when a job was replayed.

Attempts are counted by `claim` and checked only by `fail`, and `claim` reads its
row back in a second statement. `Safe` is the condition under which neither
matters, and `failing_job_bounded` is the contract under that condition;
`lease_takeover_exceeds_maxAttempts` is a run outside it.
-/
import Mathlib.Data.List.Nodup
import Postroom.Lib.Runs
import Postroom.Queue.Job

set_option autoImplicit false

namespace Postroom.Queue

open Lib List

variable {α : Type}

/-! ## The system -/

inductive Worker (α : Type) where
  | idle
  /-- The claim's update returned this id; the row is not read back yet. -/
  | claimed (id : ℕ)
  /-- The handler runs on this copy of the row. -/
  | running (job : Job α)

inductive QueueEvent where
  | claimed (workerId : String) (id : ℕ)
  | started (workerId : String) (id : ℕ)
  | replayed (id : ℕ)
  deriving DecidableEq, Repr

structure World (α : Type) where
  jobs : Jobs α := []
  workers : String → Worker α := fun _ => .idle
  /-- Newest first. -/
  log : List QueueEvent := []

inductive Action (α : Type) where
  | enqueue (id : ℕ) (queue : String) (payload : α) (options : EnqueueOptions) (now : ℤ)
  | claim (workerId queue : String) (now leaseMs : ℤ) (skip : List ℕ)
  | readBack (workerId : String)
  | complete (workerId : String)
  | fail (workerId : String) (now : ℤ) (retryAt : Option ℤ) (random : ℚ)
  | crash (workerId : String)
  | replay (id : ℕ) (now : ℤ)

/-- A worker's state changes. -/
def World.setWorker (w : World α) (workerId : String) (s : Worker α) : World α :=
  { w with workers := Function.update w.workers workerId s }

/-- One statement of one party; `none` where the party is not at that statement. -/
def step (w : World α) : Action α → Option (World α)
  | .enqueue id queue payload options now =>
    -- the primary key: a generated id is new
    if w.jobs.any fun j => decide (j.id = id) then none
    else some { w with jobs := (enqueue w.jobs id queue payload options now).1 }
  | .claim workerId queue now leaseMs skip =>
    match w.workers workerId with
    | .idle =>
      match claimUpdate w.jobs queue workerId now leaseMs skip with
      | none => some w
      | some (id, jobs) =>
        some { w.setWorker workerId (.claimed id) with
                 jobs := jobs, log := .claimed workerId id :: w.log }
    | _ => none
  | .readBack workerId =>
    match w.workers workerId with
    | .claimed id =>
      match w.jobs.findUnique id with
      | none => some (w.setWorker workerId .idle)
      | some job =>
        some { w.setWorker workerId (.running job) with log := .started workerId id :: w.log }
    | _ => none
  | .complete workerId =>
    match w.workers workerId with
    | .running job => some { w.setWorker workerId .idle with jobs := complete w.jobs job }
    | _ => none
  | .fail workerId now retryAt random =>
    match w.workers workerId with
    | .running job =>
      some { w.setWorker workerId .idle with jobs := (fail w.jobs job now retryAt random).1 }
    | _ => none
  | .crash workerId => some (w.setWorker workerId .idle)
  | .replay id now =>
    (replay w.jobs id now).map fun jobs => { w with jobs := jobs, log := .replayed id :: w.log }

/-! ## What the log says -/

/-- Handler starts of a job since it was last replayed. -/
def startsSinceReplay (id : ℕ) : List QueueEvent → ℕ
  | [] => 0
  | .started _ i :: log => (if i = id then 1 else 0) + startsSinceReplay id log
  | .replayed i :: log => if i = id then 0 else startsSinceReplay id log
  | .claimed _ _ :: log => startsSinceReplay id log

/-- Since `workerId` last claimed a job, another worker has claimed job `id`. -/
def takenOver (workerId : String) (id : ℕ) : List QueueEvent → Bool
  | [] => false
  | .claimed w i :: log =>
    if w = workerId then false else decide (i = id) || takenOver workerId id log
  | _ :: log => takenOver workerId id log

/-- The worker is at work on job `id`. -/
def Worker.On (id : ℕ) : Worker α → Prop
  | .idle => False
  | .claimed i => i = id
  | .running job => job.id = id

/-- The row is running under this worker's lock, and the worker is at work on it. -/
def Holds (w : World α) (workerId : String) (j : Job α) : Prop :=
  j.status = .running ∧ j.lockedBy = some workerId ∧ (w.workers workerId).On j.id

/-! ## The contract and its condition -/

/-- What the queue promises in a state, for itself and for the next action. -/
structure Contract (ok : World α → Action α → Prop) (w : World α) : Prop where
  /-- A handler is started at most `maxAttempts` times between replays. -/
  starts : ∀ j ∈ w.jobs, startsSinceReplay j.id w.log ≤ j.maxAttempts
  /-- A job with its attempts spent is done, dead, or in the hands of a worker
  whose failure makes it dead. -/
  dead : ∀ j ∈ w.jobs, j.maxAttempts ≤ j.attempts → j.status ≠ .done →
    j.status = .dead ∨ ∃ workerId, Holds w workerId j
      ∧ ∀ now retryAt random w', step w (.fail workerId now retryAt random) = some w' →
          ∃ j' ∈ w'.jobs, j'.id = j.id ∧ j'.status = .dead
  /-- A done job stays as it is and is not started again without a replay. -/
  done : ∀ j ∈ w.jobs, j.status = .done → ∀ a w', ok w a → step w a = some w' →
    (∀ now, a ≠ .replay j.id now) →
    j ∈ w'.jobs ∧ startsSinceReplay j.id w'.log = startsSinceReplay j.id w.log
  /-- The outcome of a worker whose job another worker has taken over changes no row. -/
  stale : ∀ workerId id, (w.workers workerId).On id → takenOver workerId id w.log = true →
    (∀ w', step w (.complete workerId) = some w' → w'.jobs = w.jobs)
      ∧ ∀ now retryAt random w', step w (.fail workerId now retryAt random) = some w' →
          w'.jobs = w.jobs

/-- The steps under which the contract holds: no job is enqueued without an
attempt, no claim takes an expired lease of a job with its attempts spent, a claim
reads back the row it updated, and no worker crashes on a last attempt. -/
def Safe (w : World α) : Action α → Prop
  | .enqueue _ _ _ options _ => options.maxAttempts ≠ some 0
  | .claim _ queue now leaseMs skip => ∀ j, nextDue w.jobs queue now leaseMs skip = some j →
      j.status = .running → j.attempts < j.maxAttempts
  | .readBack workerId => ∀ id, w.workers workerId = .claimed id → ∀ j ∈ w.jobs, j.id = id →
      j.status = .running ∧ j.lockedBy = some workerId
  | .crash workerId => ∀ j ∈ w.jobs, Holds w workerId j → j.attempts < j.maxAttempts
  | _ => True

/-! ## The invariant -/

/-- What holds of each row. -/
structure JobInv (w : World α) (j : Job α) : Prop where
  positive : 0 < j.maxAttempts
  starts : startsSinceReplay j.id w.log ≤ j.attempts
  attempts : j.attempts ≤ j.maxAttempts
  pending : j.status = .pending → j.attempts < j.maxAttempts
  /-- A claim that is not read back yet is an attempt without a start. -/
  claimed : ∀ workerId, j.status = .running → j.lockedBy = some workerId →
    w.workers workerId = .claimed j.id → startsSinceReplay j.id w.log < j.attempts
  /-- The lock's holder has a copy with the row's counters. -/
  copy : ∀ workerId job, w.workers workerId = .running job → job.id = j.id →
    j.status = .running → j.lockedBy = some workerId →
    job.attempts = j.attempts ∧ job.maxAttempts = j.maxAttempts
  /-- On its last attempt a running job is held. -/
  last : j.attempts = j.maxAttempts → j.status = .running → ∃ workerId, Holds w workerId j

structure Inv (w : World α) : Prop where
  nodup : (w.jobs.map Job.id).Nodup
  fresh : ∀ id, (∀ j ∈ w.jobs, j.id ≠ id) → startsSinceReplay id w.log = 0
  job : ∀ j ∈ w.jobs, JobInv w j
  lock : ∀ workerId job, w.workers workerId = .running job → job.lockedBy = some workerId
  stale : ∀ workerId id, (w.workers workerId).On id → takenOver workerId id w.log = true →
    ∀ j ∈ w.jobs, j.id = id → ¬ (j.status = .running ∧ j.lockedBy = some workerId)

variable {jobs : Jobs α} {j job : Job α} {id : ℕ} {workerId : String} {w w' : World α}
  {a : Action α}
variable {data : Job α → Job α}

theorem eq_of_id_eq (h : (jobs.map Job.id).Nodup) {k : Job α} (hj : j ∈ jobs) (hk : k ∈ jobs)
    (hid : j.id = k.id) : j = k :=
  inj_on_of_nodup_map h hj hk hid

/-- Tables with the same ids lack the same ids. -/
theorem absent_of_map_id_eq {jobs' : Jobs α} (hids : jobs'.map Job.id = jobs.map Job.id)
    (h : ∀ j ∈ jobs', j.id ≠ id) : ∀ j ∈ jobs, j.id ≠ id := by
  intro j hj heq
  have hmem : id ∈ jobs'.map Job.id := by
    rw [hids, ← heq]
    exact mem_map_of_mem hj
  obtain ⟨j', hj', hid'⟩ := mem_map.mp hmem
  exact h j' hj' hid'

theorem inv_init : Inv ({} : World α) where
  nodup := nodup_nil
  fresh _ _ := rfl
  job _ hj := by cases hj
  lock _ _ h := by cases h
  stale _ _ h := by cases h

@[simp] theorem setWorker_self (w : World α) (workerId : String) (s : Worker α) :
    (w.setWorker workerId s).workers workerId = s := Function.update_self ..

theorem setWorker_of_ne (w : World α) {workerId' : String} (s : Worker α)
    (h : workerId' ≠ workerId) :
    (w.setWorker workerId s).workers workerId' = w.workers workerId' := Function.update_of_ne h ..

theorem setWorker_cases {s s' : Worker α} {v : String}
    (h : (w.setWorker workerId s).workers v = s') :
    s = s' ∨ w.workers v = s' := by
  by_cases hv : v = workerId
  · rw [hv, setWorker_self] at h
    exact .inl h
  · rw [setWorker_of_ne w s hv] at h
    exact .inr h

/-! ### Steps that only read or forget

A worker that becomes idle is at work on nothing, so every part of the invariant
about workers gets weaker, except that a last attempt must keep its holder. -/

theorem workers_of_ne_idle {v : String}
    (hworkers : w'.workers = (w.setWorker workerId .idle).workers) (hv : w'.workers v ≠ .idle) :
    w'.workers v = w.workers v := by
  rw [hworkers] at hv ⊢
  by_cases heq : v = workerId
  · rw [heq, setWorker_self] at hv
    exact absurd rfl hv
  · exact setWorker_of_ne w .idle heq

/-- A row seen by workers of whom one became idle. -/
theorem JobInv.of_idle (h : JobInv w j)
    (hworkers : w'.workers = (w.setWorker workerId .idle).workers) (hlog : w'.log = w.log)
    (hlast : Holds w workerId j → j.attempts < j.maxAttempts) : JobInv w' j := by
  refine ⟨h.positive, hlog ▸ h.starts, h.attempts, h.pending, ?_, ?_, ?_⟩
  · intro v hs hl hv
    have heq := workers_of_ne_idle hworkers (v := v) (by rw [hv]; simp)
    rw [hlog]
    exact h.claimed v hs hl (heq ▸ hv)
  · intro v job hv
    have heq := workers_of_ne_idle hworkers (v := v) (by rw [hv]; simp)
    exact h.copy v job (heq ▸ hv)
  · intro hat hs
    obtain ⟨v, hv⟩ := h.last hat hs
    have hvw : v ≠ workerId := by
      intro heq
      subst heq
      have := hlast hv
      omega
    refine ⟨v, hv.1, hv.2.1, ?_⟩
    rw [hworkers, setWorker_of_ne w .idle hvw]
    exact hv.2.2

/-- The rest of the invariant when one worker becomes idle and no row starts to run. -/
theorem Inv.of_idle (h : Inv w) (hworkers : w'.workers = (w.setWorker workerId .idle).workers)
    (hlog : w'.log = w.log) (hids : w'.jobs.map Job.id = w.jobs.map Job.id)
    (hjob : ∀ j ∈ w'.jobs, JobInv w' j) (hrows : ∀ j ∈ w'.jobs, j.status = .running → j ∈ w.jobs) :
    Inv w' := by
  refine ⟨hids ▸ h.nodup, ?_, hjob, ?_, ?_⟩
  · intro id hid
    rw [hlog]
    exact h.fresh id (absent_of_map_id_eq hids hid)
  · intro v job hv
    have heq := workers_of_ne_idle hworkers (v := v) (by rw [hv]; simp)
    exact h.lock v job (heq ▸ hv)
  · intro v id hon htaken j hj hid hrun
    have hidle : w'.workers v ≠ .idle := by
      intro hidle
      rw [hidle] at hon
      exact hon
    have heq := workers_of_ne_idle hworkers hidle
    exact h.stale v id (heq ▸ hon) (hlog ▸ htaken) j (hrows j hj hrun.1) hid hrun

/-- **Crash**, and a claim whose row is gone. -/
theorem Inv.setIdle (h : Inv w) (workerId : String)
    (hlast : ∀ j ∈ w.jobs, Holds w workerId j → j.attempts < j.maxAttempts) :
    Inv (w.setWorker workerId .idle) :=
  h.of_idle rfl rfl rfl (fun j hj => (h.job j hj).of_idle rfl rfl (hlast j hj)) (fun _ hj _ => hj)

/-! ### The outcome of a handler -/

theorem lockedRow_iff :
    lockedRow job j = true ↔ j.id = job.id ∧ j.status = .running ∧ j.lockedBy = job.lockedBy := by
  simp [lockedRow, and_assoc]

/-- **`complete` and `fail`**: the rows under the lock stop running, and become
pending again only if they have an attempt left. -/
theorem Inv.release (h : Inv w) (hw : w.workers workerId = .running job)
    (hdata : ∀ j, (data j).id = j.id ∧ (data j).attempts = j.attempts
      ∧ (data j).maxAttempts = j.maxAttempts ∧ (data j).status ≠ .running
        ∧ ((data j).status = .pending → job.attempts < job.maxAttempts)) :
    Inv { w.setWorker workerId .idle with jobs := w.jobs.updateMany (lockedRow job) data } := by
  have hlock := h.lock workerId job hw
  refine h.of_idle rfl rfl (map_id_updateMany _ _ _ fun j => (hdata j).1) ?_ ?_
  · intro j hj
    obtain ⟨k, hk, rfl⟩ := mem_updateMany.mp hj
    have hinv := h.job k hk
    by_cases hrow : lockedRow job k = true
    · rw [if_pos hrow]
      obtain ⟨hid, hat, hmax, hrun, hpend⟩ := hdata k
      obtain ⟨hkid, hkrun, hkby⟩ := lockedRow_iff.mp hrow
      obtain ⟨hc1, hc2⟩ := hinv.copy workerId job hw hkid.symm hkrun (hkby.trans hlock)
      refine ⟨hmax ▸ hinv.positive, ?_, ?_, ?_, ?_, ?_, ?_⟩
      · rw [hid, hat]
        exact hinv.starts
      · rw [hat, hmax]
        exact hinv.attempts
      · intro hp
        rw [hat, hmax, ← hc1, ← hc2]
        exact hpend hp
      · intro v hr
        exact absurd hr hrun
      · intro v job' _ _ hr
        exact absurd hr hrun
      · intro _ hr
        exact absurd hr hrun
    · rw [if_neg hrow]
      refine hinv.of_idle rfl rfl ?_
      -- a row this worker holds would have been under the lock
      intro hheld
      refine absurd (lockedRow_iff.mpr ⟨?_, hheld.1, hheld.2.1.trans hlock.symm⟩) hrow
      have hon := hheld.2.2
      rw [hw] at hon
      exact hon.symm
  · intro j hj hrun
    obtain ⟨k, hk, rfl⟩ := mem_updateMany.mp hj
    by_cases hrow : lockedRow job k = true
    · rw [if_pos hrow] at hrun
      exact absurd hrun (hdata k).2.2.2.1
    · rw [if_neg hrow]
      exact hk

/-! ### New and replayed jobs -/

/-- **`enqueue`** with at least one attempt. -/
theorem Inv.enqueue (h : Inv w) (queue : String) (payload : α) (options : EnqueueOptions) (now : ℤ)
    (hid : ∀ j ∈ w.jobs, j.id ≠ id) (hmax : options.maxAttempts ≠ some 0) :
    Inv { w with jobs := (Queue.enqueue w.jobs id queue payload options now).1 } := by
  unfold Queue.enqueue
  split_ifs with hkey
  · exact h
  have hpos : 0 < options.maxAttempts.getD 10 := by
    cases hm : options.maxAttempts with
    | none => simp
    | some n =>
      rw [Option.getD_some]
      rw [hm] at hmax
      exact Nat.pos_of_ne_zero fun hn => hmax (by rw [hn])
  refine ⟨?_, ?_, ?_, h.lock, ?_⟩
  · rw [map_append, nodup_append']
    refine ⟨h.nodup, by simp, ?_⟩
    intro i hi hi'
    obtain ⟨j, hj, rfl⟩ := mem_map.mp hi
    exact hid j hj (by simpa [newJob] using hi')
  · intro i hi
    exact h.fresh i fun j hj => hi j (mem_append_left _ hj)
  · intro j hj
    rcases mem_append.mp hj with hj | hj
    · have hinv := h.job j hj
      exact { hinv with }
    · rw [mem_singleton] at hj
      subst hj
      have hzero : startsSinceReplay id w.log = 0 := h.fresh id hid
      refine ⟨hpos, hzero.le, Nat.zero_le _, fun _ => hpos, ?_, ?_, ?_⟩
      · intro v hr
        cases hr
      · intro v job _ _ hr
        cases hr
      · intro _ hr
        cases hr
  · intro v i hon htaken j hj hji hrun
    rcases mem_append.mp hj with hj | hj
    · exact h.stale v i hon htaken j hj hji hrun
    · rw [mem_singleton] at hj
      subst hj
      cases hrun.1

/-- **`replay`**: the row starts over, and so does the count of its starts. -/
theorem Inv.replay (h : Inv w) (id : ℕ) (now : ℤ) (hr : Queue.replay w.jobs id now = some jobs) :
    Inv { w with jobs := jobs, log := .replayed id :: w.log } := by
  unfold Queue.replay at hr
  split_ifs at hr with hany
  injection hr with hr
  subst hr
  have hids := map_id_updateMany w.jobs (fun j => decide (j.id = id))
    (fun j => { j with status := .pending, attempts := 0, runAt := now, lockedAt := none,
                       lockedBy := none }) (fun _ => rfl)
  refine ⟨hids ▸ h.nodup, ?_, ?_, h.lock, ?_⟩
  · intro i hi
    rw [startsSinceReplay]
    split_ifs
    · rfl
    exact h.fresh i (absent_of_map_id_eq hids hi)
  · intro j hj
    obtain ⟨k, hk, rfl⟩ := mem_updateMany.mp hj
    have hinv := h.job k hk
    by_cases hkid : k.id = id
    · simp only [hkid, decide_true, if_true]
      refine ⟨hinv.positive, ?_, Nat.zero_le _, fun _ => hinv.positive, ?_, ?_, ?_⟩
      · simp [startsSinceReplay]
      · intro v hrun
        cases hrun
      · intro v job _ _ hrun
        cases hrun
      · intro _ hrun
        cases hrun
    · simp only [hkid, decide_false, Bool.false_eq_true, if_false]
      have hstarts : startsSinceReplay k.id (.replayed id :: w.log)
          = startsSinceReplay k.id w.log := by
        rw [startsSinceReplay, if_neg (Ne.symm hkid)]
      exact { hinv with starts := hstarts ▸ hinv.starts, claimed := hstarts ▸ hinv.claimed }
  · intro v i hon htaken j hj hji hrun
    obtain ⟨k, hk, rfl⟩ := mem_updateMany.mp hj
    by_cases hkid : k.id = id
    · simp [hkid] at hrun
    · simp only [hkid, decide_false, Bool.false_eq_true, if_false] at hji hrun
      exact h.stale v i hon htaken k hk hji hrun

/-! ### Claims -/

/-- **`claim`'s update** on a row with an attempt left. -/
theorem Inv.claim (h : Inv w) (hw : w.workers workerId = .idle) {j0 : Job α} (hj0 : j0 ∈ w.jobs)
    (hleft : j0.attempts < j0.maxAttempts) (now : ℤ) :
    Inv { w.setWorker workerId (.claimed j0.id) with
            jobs := w.jobs.updateMany (fun k => k.id = j0.id) (Job.take workerId now)
            log := .claimed workerId j0.id :: w.log } := by
  have hids := map_id_updateMany w.jobs (fun k => decide (k.id = j0.id)) (Job.take workerId now)
    (fun _ => rfl)
  -- every row is the one taken, or an old one with another id
  have hrows : ∀ j ∈ w.jobs.updateMany (fun k => decide (k.id = j0.id)) (Job.take workerId now),
      j = Job.take workerId now j0 ∨ (j ∈ w.jobs ∧ j.id ≠ j0.id) := by
    intro j hj
    obtain ⟨k, hk, rfl⟩ := mem_updateMany.mp hj
    by_cases hkid : k.id = j0.id
    · left
      rw [eq_of_id_eq h.nodup hk hj0 hkid]
      simp
    · right
      simp only [hkid, decide_false, Bool.false_eq_true, if_false]
      exact ⟨hk, hkid⟩
  have hother : ∀ v, v ≠ workerId →
      (w.setWorker workerId (.claimed j0.id)).workers v = w.workers v :=
    fun v hv => setWorker_of_ne w _ hv
  refine ⟨hids ▸ h.nodup, ?_, ?_, ?_, ?_⟩
  · intro i hi
    exact h.fresh i (absent_of_map_id_eq hids hi)
  · intro j hj
    rcases hrows j hj with rfl | ⟨hj, hne⟩
    · have hinv := h.job j0 hj0
      refine ⟨hinv.positive, Nat.le_succ_of_le hinv.starts, hleft, fun hp => ?_, ?_, ?_, ?_⟩
      · cases hp
      · intro v _ _ _
        exact Nat.lt_succ_of_le hinv.starts
      · intro v job hv _ _ hby
        have hvw : workerId = v := Option.some.inj hby
        subst hvw
        rw [setWorker_self] at hv
        cases hv
      · intro _ _
        refine ⟨workerId, rfl, rfl, ?_⟩
        rw [setWorker_self]
        rfl
    · have hinv := h.job j hj
      refine { hinv with claimed := ?_, copy := ?_, last := ?_ }
      · intro v hr hby hv
        rcases setWorker_cases hv with hv | hv
        · injection hv with hv
          exact absurd hv.symm hne
        · exact hinv.claimed v hr hby hv
      · intro v job hv
        rcases setWorker_cases hv with hv | hv
        · cases hv
        · exact hinv.copy v job hv
      · intro hat hr
        obtain ⟨v, hv⟩ := hinv.last hat hr
        have hvw : v ≠ workerId := by
          intro heq
          have hon := hv.2.2
          rw [heq, hw] at hon
          exact hon
        exact ⟨v, hv.1, hv.2.1, (hother v hvw).symm ▸ hv.2.2⟩
  · intro v job hv
    rcases setWorker_cases hv with hv | hv
    · cases hv
    · exact h.lock v job hv
  · intro v i hon htaken j hj hji hrun
    by_cases hvw : v = workerId
    · subst hvw
      simp [takenOver] at htaken
    · rw [takenOver, if_neg (Ne.symm hvw)] at htaken
      rcases hrows j hj with rfl | ⟨hj, hne⟩
      · exact hvw (Option.some.inj hrun.2).symm
      · have hold : takenOver v i w.log = true := by
          have : j0.id ≠ i := fun heq => hne (hji.trans heq.symm)
          simpa [this] using htaken
        exact h.stale v i (hother v hvw ▸ hon) hold j hj hji hrun

/-- **The read-back** of the row the claim updated: the handler starts. -/
theorem Inv.readBack (h : Inv w) (hw : w.workers workerId = .claimed id) (hjob : job ∈ w.jobs)
    (hid : job.id = id) (hrun : job.status = .running) (hby : job.lockedBy = some workerId) :
    Inv { w.setWorker workerId (.running job) with log := .started workerId id :: w.log } := by
  subst hid
  have hself := setWorker_self w workerId (.running job)
  have hon : ∀ v i, ((w.setWorker workerId (.running job)).workers v).On i
      ↔ (w.workers v).On i := by
    intro v i
    by_cases hvw : v = workerId
    · rw [hvw, hself, hw]
      exact Iff.rfl
    · rw [setWorker_of_ne w _ hvw]
  refine ⟨h.nodup, ?_, ?_, ?_, ?_⟩
  · intro i hi
    rw [startsSinceReplay, if_neg (hi job hjob), Nat.zero_add]
    exact h.fresh i hi
  · intro j hj
    have hinv := h.job j hj
    by_cases hjid : j.id = job.id
    · obtain rfl := eq_of_id_eq h.nodup hj hjob hjid
      have hlt := hinv.claimed workerId hrun hby hw
      refine ⟨hinv.positive, ?_, hinv.attempts, hinv.pending, ?_, ?_, ?_⟩
      · rw [startsSinceReplay, if_pos rfl]
        omega
      · intro v _ hv hvc
        have hvw : workerId = v := Option.some.inj (hby.symm.trans hv)
        subst hvw
        rw [hself] at hvc
        cases hvc
      · intro v job' hv' _ _ hv
        have hvw : workerId = v := Option.some.inj (hby.symm.trans hv)
        subst hvw
        rw [hself] at hv'
        injection hv' with hv'
        subst hv'
        exact ⟨rfl, rfl⟩
      · intro _ _
        exact ⟨workerId, hrun, hby, (hon workerId j.id).mpr (hw ▸ rfl)⟩
    · have hstarts : startsSinceReplay j.id (.started workerId job.id :: w.log)
          = startsSinceReplay j.id w.log := by
        rw [startsSinceReplay, if_neg (Ne.symm hjid), Nat.zero_add]
      refine ⟨hinv.positive, hstarts ▸ hinv.starts, hinv.attempts, hinv.pending, ?_, ?_, ?_⟩
      · intro v hr hl hvc
        rcases setWorker_cases hvc with hvc | hvc
        · cases hvc
        · rw [hstarts]
          exact hinv.claimed v hr hl hvc
      · intro v job' hv' hid'
        rcases setWorker_cases hv' with hv' | hv'
        · injection hv' with hv'
          exact absurd (hv' ▸ hid').symm hjid
        · exact hinv.copy v job' hv' hid'
      · intro hat hr
        obtain ⟨v, hv⟩ := hinv.last hat hr
        exact ⟨v, hv.1, hv.2.1, (hon v j.id).mpr hv.2.2⟩
  · intro v job' hv
    by_cases hvw : v = workerId
    · subst hvw
      rw [hself] at hv
      injection hv with hv
      exact hv ▸ hby
    · exact h.lock v job' ((setWorker_of_ne w _ hvw).symm.trans hv)
  · intro v i hoi htaken
    exact h.stale v i ((hon v i).mp hoi) htaken

/-! ### Every step -/

/-- All that a step can do, with what it found. -/
inductive Effect (w : World α) : Action α → World α → Prop
  | enqueue {id : ℕ} {queue : String} {payload : α} {options : EnqueueOptions} {now : ℤ}
      (hid : ∀ j ∈ w.jobs, j.id ≠ id) :
      Effect w (.enqueue id queue payload options now)
        { w with jobs := (Queue.enqueue w.jobs id queue payload options now).1 }
  | claimNothing {workerId queue : String} {now leaseMs : ℤ} {skip : List ℕ} :
      Effect w (.claim workerId queue now leaseMs skip) w
  | claim {workerId queue : String} {now leaseMs : ℤ} {skip : List ℕ} {j : Job α}
      (hw : w.workers workerId = .idle) (hn : nextDue w.jobs queue now leaseMs skip = some j) :
      Effect w (.claim workerId queue now leaseMs skip)
        { w.setWorker workerId (.claimed j.id) with
            jobs := w.jobs.updateMany (fun k => k.id = j.id) (Job.take workerId now)
            log := .claimed workerId j.id :: w.log }
  | readBackNothing {workerId : String} {id : ℕ} (hw : w.workers workerId = .claimed id)
      (hf : ∀ j ∈ w.jobs, j.id ≠ id) :
      Effect w (.readBack workerId) (w.setWorker workerId .idle)
  | readBack {workerId : String} {job : Job α} (hw : w.workers workerId = .claimed job.id)
      (hj : job ∈ w.jobs) :
      Effect w (.readBack workerId)
        { w.setWorker workerId (.running job) with log := .started workerId job.id :: w.log }
  | complete {workerId : String} {job : Job α} (hw : w.workers workerId = .running job) :
      Effect w (.complete workerId) { w.setWorker workerId .idle with jobs := complete w.jobs job }
  | fail {workerId : String} {now : ℤ} {retryAt : Option ℤ} {random : ℚ} {job : Job α}
      (hw : w.workers workerId = .running job) :
      Effect w (.fail workerId now retryAt random)
        { w.setWorker workerId .idle with jobs := (fail w.jobs job now retryAt random).1 }
  | crash {workerId : String} : Effect w (.crash workerId) (w.setWorker workerId .idle)
  | replay {id : ℕ} {now : ℤ} {jobs : Jobs α} (hr : replay w.jobs id now = some jobs) :
      Effect w (.replay id now) { w with jobs := jobs, log := .replayed id :: w.log }

theorem effect_of_step (hs : step w a = some w') : Effect w a w' := by
  cases a with
  | enqueue id queue payload options now =>
    simp only [step] at hs
    split_ifs at hs with hany
    injection hs with hs
    subst hs
    refine .enqueue ?_
    intro j hj hjid
    exact hany (any_eq_true.mpr ⟨j, hj, by simpa using hjid⟩)
  | claim workerId queue now leaseMs skip =>
    simp only [step, claimUpdate] at hs
    split at hs
    · next hw =>
        cases hn : nextDue w.jobs queue now leaseMs skip with
        | none =>
          rw [hn] at hs
          injection hs with hs
          exact hs ▸ .claimNothing
        | some j =>
          rw [hn] at hs
          injection hs with hs
          exact hs ▸ .claim hw hn
    · cases hs
  | readBack workerId =>
    simp only [step] at hs
    split at hs
    · next id hw =>
        split at hs
        · next hf =>
            injection hs with hs
            refine hs ▸ .readBackNothing hw ?_
            intro j hj
            simpa using find?_eq_none.mp hf j hj
        · next job hf =>
            obtain ⟨hj, rfl⟩ := findUnique_spec hf
            injection hs with hs
            exact hs ▸ .readBack hw hj
    · cases hs
  | complete workerId =>
    simp only [step] at hs
    split at hs
    · next job hw =>
        injection hs with hs
        exact hs ▸ .complete hw
    · cases hs
  | fail workerId now retryAt random =>
    simp only [step] at hs
    split at hs
    · next job hw =>
        injection hs with hs
        exact hs ▸ .fail hw
    · cases hs
  | crash workerId =>
    injection hs with hs
    exact hs ▸ .crash
  | replay id now =>
    obtain ⟨jobs, hr, rfl⟩ := Option.map_eq_some_iff.mp hs
    exact .replay hr

/-- **The step lemma**: safe steps keep the invariant. -/
theorem Inv.preserved (h : Inv w) (hsafe : Safe w a) (hs : step w a = some w') : Inv w' := by
  cases effect_of_step hs with
  | enqueue hid => exact h.enqueue _ _ _ _ hid hsafe
  | claimNothing => exact h
  | claim hw hn =>
    obtain ⟨hj, hclaim⟩ := nextDue_spec hn
    refine h.claim hw hj ?_ _
    rcases hclaim.2 with ⟨hp, -⟩ | ⟨hr, -⟩
    · exact (h.job _ hj).pending hp
    · exact hsafe _ hn hr
  | readBackNothing hw hf =>
    refine h.setIdle _ ?_
    intro j hj hheld
    have hon := hheld.2.2
    rw [hw] at hon
    exact absurd hon.symm (hf j hj)
  | readBack hw hj =>
    obtain ⟨hrun, hby⟩ := hsafe _ hw _ hj rfl
    exact h.readBack hw hj rfl hrun hby
  | complete hw => exact h.release hw fun j => ⟨rfl, rfl, rfl, by simp, by simp⟩
  | @fail _ _ _ _ job hw =>
    unfold Queue.fail
    by_cases hspent : job.attempts ≥ job.maxAttempts
    · rw [if_pos hspent]
      exact h.release hw fun j => ⟨rfl, rfl, rfl, by simp, by simp⟩
    · rw [if_neg hspent]
      exact h.release hw fun j => ⟨rfl, rfl, rfl, by simp, fun _ => Nat.lt_of_not_le hspent⟩
  | crash => exact h.setIdle _ hsafe
  | replay hr => exact h.replay _ _ hr

/-! ## The contract -/

/-- A row that an update does not select stays in the table. -/
theorem mem_updateMany_of_not {rows : Job α → Bool} (hj : j ∈ jobs)
    (hrow : rows j = false) : j ∈ jobs.updateMany rows data :=
  mem_updateMany.mpr ⟨j, hj, by simp [hrow]⟩

theorem lockedRow_of_done (h : j.status = .done) : lockedRow job j = false := by
  simp [lockedRow, h]

theorem Inv.done (h : Inv w) (hj : j ∈ w.jobs) (hdone : j.status = .done) (hsafe : Safe w a)
    (hs : step w a = some w') (ha : ∀ now, a ≠ .replay j.id now) :
    j ∈ w'.jobs ∧ startsSinceReplay j.id w'.log = startsSinceReplay j.id w.log := by
  cases effect_of_step hs with
  | enqueue hid =>
    refine ⟨?_, rfl⟩
    unfold Queue.enqueue
    split_ifs
    · exact hj
    · exact mem_append_left _ hj
  | claimNothing | readBackNothing | crash => exact ⟨hj, rfl⟩
  | @claim _ _ _ _ _ k hw hn =>
    obtain ⟨hk, hclaim⟩ := nextDue_spec hn
    refine ⟨mem_updateMany_of_not hj ?_, rfl⟩
    -- the row claimed is pending or running
    have hne : j.id ≠ k.id := by
      intro heq
      rw [← eq_of_id_eq h.nodup hj hk heq] at hclaim
      rcases hclaim.2 with ⟨hp, -⟩ | ⟨hr, -⟩
      · exact absurd (hdone.symm.trans hp) (by simp)
      · exact absurd (hdone.symm.trans hr) (by simp)
    simpa using hne
  | @readBack _ job hw hjob =>
    refine ⟨hj, ?_⟩
    have hne : job.id ≠ j.id := by
      intro heq
      have hrun := (hsafe _ hw j hj heq.symm).1
      exact absurd (hdone.symm.trans hrun) (by simp)
    rw [startsSinceReplay, if_neg hne, Nat.zero_add]
  | complete hw => exact ⟨mem_updateMany_of_not hj (lockedRow_of_done hdone), rfl⟩
  | fail hw =>
    refine ⟨?_, rfl⟩
    unfold Queue.fail
    split_ifs <;> exact mem_updateMany_of_not hj (lockedRow_of_done hdone)
  | @replay id now jobs hr =>
    have hne : id ≠ j.id := fun heq => ha now (heq ▸ rfl)
    unfold Queue.replay at hr
    split_ifs at hr
    injection hr with hr
    subst hr
    refine ⟨mem_updateMany_of_not hj (by simpa using Ne.symm hne), ?_⟩
    rw [startsSinceReplay, if_neg hne]

theorem Inv.dead (h : Inv w) (hj : j ∈ w.jobs) (hspent : j.maxAttempts ≤ j.attempts)
    (hheld : Holds w workerId j) {now : ℤ} {retryAt : Option ℤ} {random : ℚ}
    (hs : step w (.fail workerId now retryAt random) = some w') :
    ∃ j' ∈ w'.jobs, j'.id = j.id ∧ j'.status = .dead := by
  cases effect_of_step hs with
  | @fail _ _ _ _ job hw =>
    have hid : job.id = j.id := by
      have hon := hheld.2.2
      rwa [hw] at hon
    obtain ⟨h₁, h₂⟩ := (h.job j hj).copy workerId job hw hid hheld.1 hheld.2.1
    have hlock := h.lock workerId job hw
    refine ⟨{ j with status := .dead, lockedAt := none }, ?_, rfl, rfl⟩
    unfold Queue.fail
    rw [if_pos (show job.attempts ≥ job.maxAttempts by rw [h₁, h₂]; exact hspent)]
    refine mem_updateMany.mpr ⟨j, hj, ?_⟩
    rw [if_pos (lockedRow_iff.mpr ⟨hid.symm, hheld.1, hheld.2.1.trans hlock.symm⟩)]

theorem Inv.stale_outcome (h : Inv w) (hw : w.workers workerId = .running job)
    (htaken : takenOver workerId job.id w.log = true) (data : Job α → Job α) :
    w.jobs.updateMany (lockedRow job) data = w.jobs := by
  refine updateMany_eq_self ?_
  intro j hj
  by_contra hrow
  obtain ⟨hid, hrun, hby⟩ := lockedRow_iff.mp (by simpa using hrow)
  exact h.stale workerId job.id (hw ▸ rfl) htaken j hj hid
    ⟨hrun, hby.trans (h.lock workerId job hw)⟩

/-- The invariant gives the contract. -/
theorem Inv.contract (h : Inv w) : Contract Safe w where
  starts j hj := (h.job j hj).starts.trans (h.job j hj).attempts
  dead := by
    intro j hj hspent hdone
    have hinv := h.job j hj
    cases hst : j.status with
    | pending =>
      have := hinv.pending hst
      omega
    | running =>
      obtain ⟨workerId, hheld⟩ := hinv.last (Nat.le_antisymm hinv.attempts hspent) hst
      exact .inr ⟨workerId, hheld, fun _ _ _ _ hs => h.dead hj hspent hheld hs⟩
    | done => exact absurd hst hdone
    | dead => exact .inl rfl
  done j hj hdone a w' hsafe hs ha := h.done hj hdone hsafe hs ha
  stale := by
    intro workerId id hon htaken
    refine ⟨?_, ?_⟩
    · intro w' hs
      cases effect_of_step hs with
      | complete hw =>
        rw [hw] at hon
        exact h.stale_outcome hw (hon ▸ htaken) _
    · intro now retryAt random w' hs
      cases effect_of_step hs with
      | fail hw =>
        rw [hw] at hon
        unfold Queue.fail
        split_ifs <;> exact h.stale_outcome hw (hon ▸ htaken) _

/-- **A failing job is bounded** in every run whose steps are all safe. -/
theorem failing_job_bounded {w : World α} (hrun : Run step Safe {} w) : Contract Safe w :=
  (hrun.invariant Inv inv_init fun _ _ _ h hsafe hs => h.preserved hsafe hs).contract

/-- A job with two attempts. The second worker takes over the expired lease of the first, whose
late completion changes nothing; when the second fails, the job is dead after two starts. -/
theorem failing_job_bounded_take_over : ∃ w : World Unit, Run step Safe {} w ∧ Contract Safe w
    ∧ w.jobs.map Job.status = [.dead] ∧ startsSinceReplay 1 w.log = 2 := by
  have h₁ : Run step Safe ({} : World Unit) _ :=
    .step (.enqueue 1 "q" () { maxAttempts := some 2 } 0) .refl (by simp [Safe]) rfl
  have h₂ := h₁.step (.claim "w1" "q" 0 300000 []) (by
    intro j hj hr
    cases hj
    cases hr) rfl
  have h₃ := h₂.step (.readBack "w1") (by
    intro id _ j hj _
    rw [mem_singleton.mp hj]
    exact ⟨rfl, rfl⟩) rfl
  -- the lease has expired, and the job has an attempt left
  have h₄ := h₃.step (.claim "w2" "q" 300001 300000 []) (by
    intro j hj _
    cases hj
    decide) rfl
  have h₅ := h₄.step (.readBack "w2") (by
    intro id _ j hj _
    rw [mem_singleton.mp hj]
    exact ⟨rfl, rfl⟩) rfl
  have h₆ := h₅.step (.complete "w1") (by exact trivial) rfl
  have h₇ := h₆.step (.fail "w2" 300002 none 0) (by exact trivial) rfl
  exact ⟨_, h₇, failing_job_bounded h₇, rfl, rfl⟩

/-- Outside the condition. A worker crashes on the only attempt of a job; when its
lease expires the job is claimed and started again. And a worker slow to read its
claim back starts a job that another has taken over and completed. -/
theorem lease_takeover_exceeds_maxAttempts : (∃ w : World Unit, Run step anyStep {} w
        ∧ ∃ j ∈ w.jobs, j.maxAttempts = 1 ∧ startsSinceReplay j.id w.log = 2)
      ∧ ∃ w w' : World Unit, Run step anyStep {} w ∧ step w (.readBack "w1") = some w'
        ∧ ∃ j ∈ w.jobs, j.status = .done
          ∧ startsSinceReplay j.id w'.log = startsSinceReplay j.id w.log + 1 := by
  refine ⟨⟨_, Run.runAll [.enqueue 1 "q" () { maxAttempts := some 1 } 0,
      .claim "w1" "q" 0 300000 [], .readBack "w1", .crash "w1",
      .claim "w2" "q" 300001 300000 [], .readBack "w2"] .refl rfl, _, mem_cons_self, rfl, rfl⟩,
    ⟨_, _, Run.runAll [.enqueue 1 "q" () { maxAttempts := some 3 } 0,
      .claim "w1" "q" 0 300000 [], .claim "w2" "q" 300001 300000 [], .readBack "w2",
      .complete "w2"] .refl rfl, rfl, _, mem_cons_self, rfl, rfl⟩⟩

end Postroom.Queue
