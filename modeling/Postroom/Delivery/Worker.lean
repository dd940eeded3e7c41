/-
`apps/delivery/src/worker.ts`, with `enqueue.ts` and `hold.ts`: the outbound
worker on the job queue.

One job stands for one (message, recipient domain) group. A `handle` call is a
sequence of transactions: crash recovery, the credential check, `begin`, one
outcome transaction per transport, and `scheduleNext` inside it (or on its own
when `begin` claimed nothing). The calls below take one transaction at a time, so
that calls on the same group, crashes, freezes, thaws and sweeps may come between
any two of them.

Left out, because nothing modelled reads them: the suppression list, message-id
aliases, what an attempt learned about the connection, and the log lines.
-/
import Postroom.Lib.Runs
import Postroom.Queue.Job
import Postroom.Delivery.State

set_option autoImplicit false

namespace Postroom.Delivery

open Lib Queue List

/-! ## Tables -/

/-- The job payload, and what `handle` works on. -/
structure Group where
  messageId : String
  domain : String
  deriving DecidableEq, Repr

/-- `delivery_attempt`: an attempt is open until `finishedAt` is set. -/
structure DeliveryAttempt where
  id : ℕ
  recipientId : ℕ
  startedAt : ℤ
  finishedAt : Option ℤ := none
  deriving DecidableEq, Repr

structure OutboundMessage where
  id : String
  appPasswordId : Option String
  createdAt : ℤ
  deriving DecidableEq, Repr

structure Db where
  messages : List OutboundMessage := []
  recipients : List OutboundRecipient := []
  attempts : List DeliveryAttempt := []
  jobs : Jobs Group := []
  /-- `app_password.frozen_at`. -/
  frozenAt : String → Option ℤ := fun _ => none

/-- A generated primary key: one that no row has. -/
def freshId (ids : List ℕ) : ℕ := ids.foldr max 0 + 1

/-- `UPDATE outbound_recipient SET … WHERE …`. -/
def Db.updateRecipients (db : Db) (rows : OutboundRecipient → Bool)
    (data : OutboundRecipient → OutboundRecipient) : Db :=
  { db with recipients := db.recipients.map fun r => if rows r then data r else r }

/-- The group's rows that wait for a worker. -/
def WaitingIn (g : Group) (r : OutboundRecipient) : Prop :=
  r.outboundMessageId = g.messageId ∧ r.domain = g.domain ∧ r.state.Waiting

instance (g : Group) (r : OutboundRecipient) : Decidable (WaitingIn g r) :=
  inferInstanceAs (Decidable (_ ∧ _ ∧ _))

/-! ## `enqueue.ts` -/

def OUTBOUND_QUEUE : String := "outbound"

def outboundJobKey (messageId domain generation : String) : String :=
  "outbound:" ++ messageId ++ ":" ++ domain ++ ":" ++ generation

/-- `enqueue` on the outbound queue, as every caller here does it. -/
def Db.enqueueJob (db : Db) (g : Group) (runAt : ℤ) (generation : String) (now : ℤ) : Db × Bool :=
  let (jobs, job) := enqueue db.jobs (freshId (db.jobs.map Job.id)) OUTBOUND_QUEUE g
    { runAt := some runAt, maxAttempts := some 1000,
      idempotencyKey := some (outboundJobKey g.messageId g.domain generation) } now
  ({ db with jobs := jobs }, job.isSome)

/-- The parts of an address before and after its last `@`. -/
def splitAddress (address : String) : Option (String × String) :=
  let chars := address.toList.reverse
  match chars.span (· ≠ '@') with
  | (_, []) => none
  | (domain, _ :: rest) => some (String.ofList rest.reverse, String.ofList domain.reverse)

/-- The domain of an address, lowercased. -/
def recipientDomain (text : Text) (address : String) : Except String String :=
  let failed := s!"outbound recipient has no domain: \"{address}\""
  match splitAddress address with
  | none => .error failed
  | some (localPart, domain) =>
    let domain := text.toLowerCase (text.trim domain)
    if localPart = "" ∨ domain = "" then .error failed else .ok domain

structure OutboundRecipientInput where
  address : String
  notify : Option String := none

/-- One entry per distinct address, in the order of first appearance. -/
def distinctRecipients (text : Text) :
    List OutboundRecipientInput → Except String (List (String × String × Option String))
  | [] => .ok []
  | r :: rs => do
    let domain ← recipientDomain text r.address
    let localPart := ((splitAddress r.address).map Prod.fst).getD ""
    let address := localPart ++ "@" ++ domain
    let rest ← distinctRecipients text rs
    .ok ((address, domain, r.notify) :: rest.filter fun e => e.1 ≠ address)

/-- Create the message, its recipients and one job per recipient domain. -/
def enqueueOutbound (text : Text) (policy : String → String) (db : Db) (messageId : String)
    (appPasswordId : Option String) (recipients : List OutboundRecipientInput) (now : ℤ) :
    Except String Db := do
  if recipients = [] then .error "an outbound message needs at least one recipient"
  else
    let entries ← distinctRecipients text recipients
    let base := freshId (db.recipients.map OutboundRecipient.id)
    let rows := entries.mapIdx fun i e =>
      { id := base + i, outboundMessageId := messageId, address := e.1, domain := e.2.1,
        nextAttemptAt := now, dsnNotify := e.2.2, transport := policy e.2.1, createdAt := now,
        updatedAt := now : OutboundRecipient }
    let db := { db with
      messages := db.messages ++ [⟨messageId, appPasswordId, now⟩]
      recipients := db.recipients ++ rows }
    -- the program sorts the domains; the order of the inserts is not observable
    let domains := (entries.map fun e => e.2.1).eraseDups
    .ok (domains.foldl (fun db domain => (db.enqueueJob ⟨messageId, domain⟩ now "0" now).1) db)

/-! ## `hold.ts` -/

def HELD_TEXT : String := "held: credential frozen"

def isCredentialFrozen (db : Db) (message : OutboundMessage) : Bool :=
  (message.appPasswordId.bind db.frozenAt).isSome

def holdGroup (db : Db) (g : Group) (now : ℤ) : Db :=
  db.updateRecipients (fun r => WaitingIn g r) fun r =>
    { r with lastText := some HELD_TEXT, updatedAt := now }

/-- Every group with recipients waiting on a credential. -/
def heldGroups (db : Db) (appPasswordId : String) : List Group :=
  let mine := fun r : OutboundRecipient => db.messages.any fun m =>
    m.id = r.outboundMessageId && m.appPasswordId = some appPasswordId
  ((db.recipients.filter fun r => decide r.state.Waiting && mine r).map fun r =>
    (⟨r.outboundMessageId, r.domain⟩ : Group)).eraseDups

/-- Clear a freeze and give every held group a fresh job. -/
def thawCredential (db : Db) (appPasswordId : String) (now : ℤ) : Db :=
  if db.frozenAt appPasswordId = none then db
  else
    let db := { db with frozenAt := Function.update db.frozenAt appPasswordId none }
    (heldGroups db appPasswordId).foldl
      (fun db g => (db.enqueueJob g now ("thaw-" ++ toString now) now).1) db

/-! ## Parts of `handle` -/

def INTERRUPTED : String := "interrupted: the worker stopped mid-attempt (crash or kill); retrying"

/-- A recipient whose attempt no live worker can own any more. -/
def Stuck (db : Db) (leaseMs now : ℤ) (r : OutboundRecipient) : Prop :=
  r.state = .attempting ∧ r.updatedAt < now - leaseMs
    ∧ ∀ a ∈ db.attempts, a.recipientId = r.id → a.finishedAt = none → a.startedAt < now - leaseMs

instance (db : Db) (leaseMs now : ℤ) (r : OutboundRecipient) : Decidable (Stuck db leaseMs now r) :=
  inferInstanceAs (Decidable (_ ∧ _ ∧ ∀ a ∈ db.attempts, _))

/-- Close the open attempts of stuck recipients and return these to `deferred`. -/
def recoverInterrupted (db : Db) (leaseMs now : ℤ) (scope : OutboundRecipient → Bool) : Db :=
  let stuck := (db.recipients.filter fun r => scope r && decide (Stuck db leaseMs now r)).map
    OutboundRecipient.id
  { db.updateRecipients (fun r => stuck.contains r.id && r.state = .attempting) fun r =>
      { r with state := .deferred, nextAttemptAt := now, lastCode := none, lastEnhanced := none,
               lastText := some INTERRUPTED, updatedAt := now } with
    attempts := db.attempts.map fun a =>
      if stuck.contains a.recipientId ∧ a.finishedAt = none then { a with finishedAt := some now }
      else a }

structure Claimed where
  recipient : OutboundRecipient
  attemptId : ℕ
  transport : String
  deriving DecidableEq, Repr

/-- The rows `begin` claims. -/
def Due (g : Group) (now : ℤ) (r : OutboundRecipient) : Prop :=
  WaitingIn g r ∧ r.nextAttemptAt ≤ now

instance (g : Group) (now : ℤ) (r : OutboundRecipient) : Decidable (Due g now r) :=
  inferInstanceAs (Decidable (_ ∧ _))

def markAttempting (now : ℤ) (r : OutboundRecipient) : OutboundRecipient :=
  { r with state := .attempting, attempts := r.attempts + 1, updatedAt := now }

/-- Mark the group's due recipients attempting and open their attempts. -/
def begin (route : String → String → String) (db : Db) (g : Group) (now : ℤ) : Db × List Claimed :=
  let rows := (db.recipients.filter fun r => Due g now r).map (markAttempting now)
  let base := freshId (db.attempts.map DeliveryAttempt.id)
  let claimed := rows.mapIdx fun i r =>
    { recipient := r, attemptId := base + i, transport := route g.domain r.transport : Claimed }
  ({ db.updateRecipients (fun r => Due g now r) (markAttempting now) with
      attempts := db.attempts ++ claimed.map fun c => ⟨c.attemptId, c.recipient.id, now, none⟩ },
   claimed)

/-- `byTransport`: batches in the order in which their transport first appears. -/
def byTransport : List Claimed → List (String × List Claimed)
  | [] => []
  | c :: cs =>
    let rest := byTransport cs
    (c.transport, c :: (rest.filter fun b => b.1 = c.transport).flatMap Prod.snd)
      :: rest.filter fun b => b.1 ≠ c.transport

/-- What the transport said about a recipient. -/
def outcomeFor (results : ℕ → Option AttemptOutcome) (id : ℕ) : AttemptOutcome :=
  (results id).getD (.error "transport returned no result for this recipient")

/-- Write a transition to a row. -/
def applyTransition (t : Transition) (finishedAt : ℤ) (r : OutboundRecipient) : OutboundRecipient :=
  { r with state := t.state, nextAttemptAt := t.nextAttemptAt, lastCode := t.lastCode,
           lastEnhanced := t.lastEnhanced, lastText := t.lastText,
           deliveredAt := t.deliveredAt <|> r.deliveredAt, updatedAt := finishedAt }

/-- The outcome of one claimed recipient, unless recovery took it meanwhile. -/
def recordOutcome (text : Text) (results : ℕ → Option AttemptOutcome) (finishedAt : ℤ)
    (random : ℕ → ℚ) (db : Db) (c : Claimed) : Db :=
  let t := nextState text c.recipient (outcomeFor results c.recipient.id) finishedAt
    (random c.recipient.id)
  { db.updateRecipients (fun r => r.id = c.recipient.id && r.state = .attempting)
      (applyTransition t finishedAt) with
    attempts := db.attempts.map fun a =>
      if a.id = c.attemptId then { a with finishedAt := some finishedAt } else a }

/-- Give the group's waiting recipients a job at the earliest next attempt. -/
def scheduleNext (db : Db) (g : Group) (generation : Option String) (now : ℤ) : Db × Bool :=
  let pending := db.recipients.filter fun r => WaitingIn g r
  match (pending.map OutboundRecipient.nextAttemptAt).min? with
  | none => (db, false)
  | some runAt =>
    let attempts := (pending.map OutboundRecipient.attempts).max?.getD 0
    db.enqueueJob g runAt (generation.getD (toString attempts)) now

/-- Groups with work to do and no live job. -/
def orphans (db : Db) : List Group :=
  let groups := (db.recipients.filter fun r => r.state.Waiting).map fun r =>
    (⟨r.outboundMessageId, r.domain⟩ : Group)
  (groups.filter fun g => !db.jobs.any fun j =>
    j.queue = OUTBOUND_QUEUE && (j.status = .pending || j.status = .running)
      && j.payload = g).eraseDups

/-- Crash recovery and orphan repair. -/
def sweep (db : Db) (leaseMs now : ℤ) : Db :=
  let db := recoverInterrupted db leaseMs now fun _ => true
  (orphans db).foldl (fun db g => (scheduleNext db g (some ("sweep-" ++ toString now)) now).1) db

/-! ## Calls -/

/-- Where a worker is in `runOne`: its claim, the `handle` call, the completion. -/
inductive Call where
  | idle
  | claimed (job : Job Group)
  /-- Recovered, and the credential is not frozen. -/
  | admitted (job : Job Group) (startedAt : ℤ)
  /-- `begin` claimed nothing. -/
  | nothing (job : Job Group)
  /-- The transports whose outcome is not committed yet. -/
  | sending (job : Job Group) (batches : List (String × List Claimed))
  | returned (job : Job Group)

structure Config where
  text : Text
  /-- The transport a domain is enqueued with. -/
  policy : String → String
  /-- The transport a recipient is attempted through. -/
  route : String → String → String
  leaseMs : ℤ := 300000

structure System where
  db : Db := {}
  calls : String → Call := fun _ => .idle

inductive Action where
  | accept (messageId : String) (appPasswordId : Option String)
      (recipients : List OutboundRecipientInput) (now : ℤ)
  | claim (workerId : String) (now : ℤ) (skip : List ℕ)
  | start (workerId : String) (now : ℤ)
  | begin (workerId : String)
  | outcome (workerId : String) (finishedAt : ℤ) (results : ℕ → Option AttemptOutcome)
      (random : ℕ → ℚ)
  | scheduleNothing (workerId : String) (now : ℤ)
  | complete (workerId : String)
  /-- The handler threw. -/
  | throw (workerId : String) (now : ℤ) (random : ℚ)
  | crash (workerId : String)
  | freeze (appPasswordId : String) (now : ℤ)
  | thaw (appPasswordId : String) (now : ℤ)
  | sweep (now : ℤ)
  | dsnSent (recipientId : ℕ) (kind : DsnKind) (now : ℤ)

def System.setCall (s : System) (workerId : String) (c : Call) (db : Db) : System :=
  { db := db, calls := Function.update s.calls workerId c }

/-- The outcome transaction of one batch. -/
def commitBatch (cfg : Config) (db : Db) (g : Group) (batch : List Claimed) (finishedAt : ℤ)
    (results : ℕ → Option AttemptOutcome) (random : ℕ → ℚ) : Db :=
  let db := batch.foldl (recordOutcome cfg.text results finishedAt random) db
  (scheduleNext db g none finishedAt).1

/-- `emitDsn`'s update after its hook succeeded. -/
def markDsnSent (db : Db) (recipientId : ℕ) (kind : DsnKind) (now : ℤ) : Db :=
  match kind with
  | .delay => db.updateRecipients (fun r => r.id = recipientId && r.delayDsnSentAt = none)
      fun r => { r with delayDsnSentAt := some now }
  | .failure => db.updateRecipients (fun r => r.id = recipientId && r.failureDsnSentAt = none)
      fun r => { r with failureDsnSentAt := some now }

def step (cfg : Config) (s : System) : Action → Option System
  | .accept messageId appPasswordId recipients now =>
    match enqueueOutbound cfg.text cfg.policy s.db messageId appPasswordId recipients now with
    | .error _ => none
    | .ok db => some { s with db := db }
  | .claim workerId now skip =>
    match s.calls workerId with
    | .idle =>
      match claimUpdate s.db.jobs OUTBOUND_QUEUE workerId now cfg.leaseMs skip with
      | none => some s
      | some (id, jobs) =>
        (jobs.findUnique id).map fun job =>
          s.setCall workerId (.claimed job) { s.db with jobs := jobs }
    | _ => none
  | .start workerId now =>
    match s.calls workerId with
    | .claimed job =>
      let g := job.payload
      let db := recoverInterrupted s.db cfg.leaseMs now fun r =>
        r.outboundMessageId = g.messageId && r.domain = g.domain
      match db.messages.find? fun m => m.id = g.messageId with
      | none => some (s.setCall workerId (.returned job) db)
      | some message =>
        if isCredentialFrozen db message then
          some (s.setCall workerId (.returned job) (holdGroup db g now))
        else some (s.setCall workerId (.admitted job now) db)
    | _ => none
  | .begin workerId =>
    match s.calls workerId with
    | .admitted job startedAt =>
      let (db, claimed) := Delivery.begin cfg.route s.db job.payload startedAt
      if claimed = [] then some (s.setCall workerId (.nothing job) db)
      else some (s.setCall workerId (.sending job (byTransport claimed)) db)
    | _ => none
  | .outcome workerId finishedAt results random =>
    match s.calls workerId with
    | .sending job ((_, batch) :: rest) =>
      let db := commitBatch cfg s.db job.payload batch finishedAt results random
      match rest with
      | [] => some (s.setCall workerId (.returned job) db)
      | _ => some (s.setCall workerId (.sending job rest) db)
    | _ => none
  | .scheduleNothing workerId now =>
    match s.calls workerId with
    | .nothing job =>
      some (s.setCall workerId (.returned job) (scheduleNext s.db job.payload none now).1)
    | _ => none
  | .complete workerId =>
    match s.calls workerId with
    | .returned job =>
      some (s.setCall workerId .idle { s.db with jobs := complete s.db.jobs job })
    | _ => none
  | .throw workerId now random =>
    match s.calls workerId with
    | .idle => none
    | .returned _ => none
    | .claimed job | .admitted job _ | .nothing job | .sending job _ =>
      some (s.setCall workerId .idle { s.db with jobs := (fail s.db.jobs job now none random).1 })
  | .crash workerId => some (s.setCall workerId .idle s.db)
  | .freeze appPasswordId now =>
    some { s with db := { s.db with
      frozenAt := Function.update s.db.frozenAt appPasswordId (some now) } }
  | .thaw appPasswordId now => some { s with db := thawCredential s.db appPasswordId now }
  | .sweep now => some { s with db := sweep s.db cfg.leaseMs now }
  | .dsnSent recipientId kind now => some { s with db := markDsnSent s.db recipientId kind now }

/-! ## What a returning call promises -/

/-- The group whose `handle` call this action ends normally, its credential not frozen.
(A call that finds no message row ends as well; the foreign key leaves it no recipients.) -/
def returnsFor (s : System) : Action → Option Group
  | .outcome workerId _ _ _ =>
    match s.calls workerId with
    | .sending job [_] => some job.payload
    | _ => none
  | .scheduleNothing workerId _ =>
    match s.calls workerId with
    | .nothing job => some job.payload
    | _ => none
  | _ => none

/-- A pending outbound job of the group. -/
def PendingFor (g : Group) (j : Job Group) : Prop :=
  j.status = .pending ∧ j.queue = OUTBOUND_QUEUE ∧ j.payload = g

instance (g : Group) (j : Job Group) : Decidable (PendingFor g j) :=
  inferInstanceAs (Decidable (_ ∧ _ ∧ _))

/-- If recipients of the group wait, a job of the group is pending that runs no later
than the earliest of their next attempts. -/
def Ready (db : Db) (g : Group) : Prop :=
  (∃ r ∈ db.recipients, WaitingIn g r) →
    ∃ j ∈ db.jobs, PendingFor g j ∧ ∀ r ∈ db.recipients, WaitingIn g r → j.runAt ≤ r.nextAttemptAt

instance (db : Db) (g : Group) : Decidable (Ready db g) := inferInstanceAs (Decidable (_ → _))

/-! ### The condition -/

/-- Attempts and next attempt of a recipient that will wait when the batch's outcomes
are committed: one of the batch with an inconclusive outcome before its fifth day, or
one that waits already. -/
def stayingAfter (results : ℕ → Option AttemptOutcome) (finishedAt : ℤ) (random : ℕ → ℚ)
    (batch : List Claimed) (g : Group) (r : OutboundRecipient) : Option (ℕ × ℤ) :=
  if r.outboundMessageId = g.messageId ∧ r.domain = g.domain then
    match batch.find? fun c => r.state = .attempting ∧ c.recipient.id = r.id with
    | some c =>
      if (outcomeFor results r.id).Transient ∧ finishedAt < expiresAt c.recipient then
        some (r.attempts, min (finishedAt + jitteredDelayMs c.recipient.attempts (random r.id))
          (expiresAt c.recipient))
      else none
    | none => if r.state.Waiting then some (r.attempts, r.nextAttemptAt) else none
  else none

/-- The recipients that will wait when a returning action is committed. -/
def staying (s : System) (g : Group) : Action → List (ℕ × ℤ)
  | .outcome workerId finishedAt results random =>
    match s.calls workerId with
    | .sending _ [(_, batch)] =>
      s.db.recipients.filterMap (stayingAfter results finishedAt random batch g)
    | _ => []
  | _ => s.db.recipients.filterMap fun r =>
    if WaitingIn g r then some (r.attempts, r.nextAttemptAt) else none

/-- No recipient stays, or no job has the key of the highest attempt count among those
that stay, or the group has a pending job that is early enough for all of them. -/
def Schedulable (jobs : Jobs Group) (g : Group) (stay : List (ℕ × ℤ)) : Prop :=
  stay = []
    ∨ (∀ j ∈ jobs, j.idempotencyKey
        ≠ some (outboundJobKey g.messageId g.domain (toString ((stay.map Prod.fst).max?.getD 0))))
    ∨ ∃ j ∈ jobs, PendingFor g j ∧ ∀ p ∈ stay, j.runAt ≤ p.2

/-! ## Proofs

An outcome transaction changes each row on its own (`foldl_recordOutcome`), so which
rows wait afterwards is read off the rows before (`waiting_commit`). The rest is what
`enqueue` does with a taken and with a free key (`ready_scheduleNext_iff`). -/

/-- Attempts and next attempt of the group's waiting rows. -/
def waitingPairs (recipients : List OutboundRecipient) (g : Group) : List (ℕ × ℤ) :=
  recipients.filterMap fun r => if WaitingIn g r then some (r.attempts, r.nextAttemptAt) else none

theorem waitingPairs_eq (recipients : List OutboundRecipient) (g : Group) :
    waitingPairs recipients g
      = (recipients.filter fun r => WaitingIn g r).map fun r => (r.attempts, r.nextAttemptAt) := by
  induction recipients with
  | nil => rfl
  | cons r rs ih =>
    by_cases hw : WaitingIn g r
    · simpa [waitingPairs, hw] using ih
    · simpa [waitingPairs, hw] using ih

theorem mem_waitingPairs {recipients : List OutboundRecipient} {g : Group} {p : ℕ × ℤ} :
    p ∈ waitingPairs recipients g ↔ ∃ r ∈ recipients, WaitingIn g r
      ∧ (r.attempts, r.nextAttemptAt) = p := by
  simp only [waitingPairs_eq, mem_map, mem_filter, decide_eq_true_eq, and_assoc]

/-- `Ready` in terms of the waiting rows' pairs. -/
theorem ready_iff (db : Db) (g : Group) : Ready db g ↔ (waitingPairs db.recipients g = []
      ∨ ∃ j ∈ db.jobs, PendingFor g j ∧ ∀ p ∈ waitingPairs db.recipients g, j.runAt ≤ p.2) := by
  have hpairs : ∀ j : Job Group, (∀ r ∈ db.recipients, WaitingIn g r → j.runAt ≤ r.nextAttemptAt)
      ↔ ∀ p ∈ waitingPairs db.recipients g, j.runAt ≤ p.2 := by
    intro j
    constructor
    · intro h p hp
      obtain ⟨r, hr, hw, rfl⟩ := mem_waitingPairs.mp hp
      exact h r hr hw
    · intro h r hr hw
      exact h _ (mem_waitingPairs.mpr ⟨r, hr, hw, rfl⟩)
  have hsome : (∃ r ∈ db.recipients, WaitingIn g r) ↔ waitingPairs db.recipients g ≠ [] := by
    constructor
    · rintro ⟨r, hr, hw⟩
      exact ne_nil_of_mem (mem_waitingPairs.mpr ⟨r, hr, hw, rfl⟩)
    · intro hne
      obtain ⟨p, hp⟩ := exists_mem_of_ne_nil _ hne
      obtain ⟨r, hr, hw, -⟩ := mem_waitingPairs.mp hp
      exact ⟨r, hr, hw⟩
  simp only [Ready, hsome, hpairs]
  by_cases hnil : waitingPairs db.recipients g = []
  · simp [hnil]
  · simp [hnil]

/-- What `enqueue` does with a key. -/
theorem enqueueJob_jobs (db : Db) (g : Group) (runAt : ℤ) (generation : String) (now : ℤ) :
    (db.enqueueJob g runAt generation now).1.recipients = db.recipients
      ∧ ((∃ j ∈ db.jobs, j.idempotencyKey = some (outboundJobKey g.messageId g.domain generation)) →
          (db.enqueueJob g runAt generation now).1.jobs = db.jobs)
      ∧ ((∀ j ∈ db.jobs, j.idempotencyKey ≠ some (outboundJobKey g.messageId g.domain generation)) →
          ∃ j, (db.enqueueJob g runAt generation now).1.jobs = db.jobs ++ [j]
            ∧ PendingFor g j ∧ j.runAt = runAt) := by
  unfold Db.enqueueJob enqueue
  refine ⟨rfl, ?_, ?_⟩
  · rintro ⟨j, hj, hkey⟩
    rw [if_pos ⟨by simp, any_eq_true.mpr ⟨j, hj, by simpa using hkey⟩⟩]
  · intro hfree
    rw [if_neg (by
      rintro ⟨-, hany⟩
      obtain ⟨j, hj, hkey⟩ := any_eq_true.mp hany
      exact hfree j hj (by simpa using hkey))]
    exact ⟨_, rfl, ⟨rfl, rfl, rfl⟩, rfl⟩

/-- **`scheduleNext`** leaves the group ready exactly when it can. -/
theorem ready_scheduleNext_iff (db : Db) (g : Group) (now : ℤ) :
    Ready (scheduleNext db g none now).1 g
      ↔ Schedulable db.jobs g (waitingPairs db.recipients g) := by
  unfold scheduleNext
  dsimp only
  have hfst : (db.recipients.filter fun r => WaitingIn g r).map OutboundRecipient.attempts
      = (waitingPairs db.recipients g).map Prod.fst := by
    rw [waitingPairs_eq, map_map]
    rfl
  have hsnd : (db.recipients.filter fun r => WaitingIn g r).map OutboundRecipient.nextAttemptAt
      = (waitingPairs db.recipients g).map Prod.snd := by
    rw [waitingPairs_eq, map_map]
    rfl
  rw [hfst, hsnd]
  cases hmin : ((waitingPairs db.recipients g).map Prod.snd).min? with
  | none =>
    have hnil : waitingPairs db.recipients g = [] := by
      rw [min?_eq_none_iff, map_eq_nil_iff] at hmin
      exact hmin
    rw [ready_iff]
    simp [Schedulable, hnil]
  | some runAt =>
    have hne : waitingPairs db.recipients g ≠ [] := by
      intro hnil
      rw [hnil] at hmin
      cases hmin
    have hle : ∀ p ∈ waitingPairs db.recipients g, runAt ≤ p.2 := by
      intro p hp
      exact (min?_eq_some_iff.mp hmin).2 p.2 (mem_map_of_mem hp)
    rw [Option.getD_none]
    obtain ⟨hrec, htaken, hfree⟩ := enqueueJob_jobs db g runAt
      (toString (((waitingPairs db.recipients g).map Prod.fst).max?.getD 0)) now
    rw [ready_iff, hrec]
    unfold Schedulable
    by_cases hkey : ∀ j ∈ db.jobs, j.idempotencyKey ≠ some (outboundJobKey g.messageId g.domain
        (toString (((waitingPairs db.recipients g).map Prod.fst).max?.getD 0)))
    · -- the key is free: the new job is early enough
      obtain ⟨j, hjobs, hpend, hrun⟩ := hfree hkey
      rw [hjobs]
      refine iff_of_true (.inr ⟨j, by simp, hpend, fun p hp => ?_⟩) (.inr (.inl hkey))
      rw [hrun]
      exact hle p hp
    · have htaken' := htaken (by simpa using hkey)
      rw [htaken']
      simp only [hne, hkey, false_or]

/-- A row after the outcomes of a batch: the first claim on it counts, if the row is
still being attempted. -/
def outcomeRow (text : Text) (results : ℕ → Option AttemptOutcome) (finishedAt : ℤ)
    (random : ℕ → ℚ) (batch : List Claimed) (r : OutboundRecipient) : OutboundRecipient :=
  match batch.find? fun c => r.state = .attempting ∧ c.recipient.id = r.id with
  | some c => applyTransition (nextState text c.recipient (outcomeFor results c.recipient.id)
      finishedAt (random c.recipient.id)) finishedAt r
  | none => r

section

variable (text : Text) (results : ℕ → Option AttemptOutcome) (finishedAt : ℤ) (random : ℕ → ℚ)
  (batch : List Claimed)

theorem outcomeRow_of_not_attempting {r : OutboundRecipient} (h : r.state ≠ .attempting) :
    outcomeRow text results finishedAt random batch r = r := by
  have hnone : (batch.find? fun c => decide (r.state = .attempting ∧ c.recipient.id = r.id))
      = none := by
    simp [h]
  unfold outcomeRow
  rw [hnone]

/-- **A batch row by row.** -/
theorem foldl_recordOutcome (db : Db) :
    (batch.foldl (recordOutcome text results finishedAt random) db).recipients
        = db.recipients.map (outcomeRow text results finishedAt random batch)
      ∧ (batch.foldl (recordOutcome text results finishedAt random) db).jobs = db.jobs := by
  induction batch generalizing db with
  | nil => exact ⟨(map_id db.recipients).symm, rfl⟩
  | cons c cs ih =>
    obtain ⟨hrec, hjobs⟩ := ih (recordOutcome text results finishedAt random db c)
    refine ⟨hrec.trans ?_, hjobs⟩
    have hstep : (recordOutcome text results finishedAt random db c).recipients
        = db.recipients.map fun r =>
            if decide (r.id = c.recipient.id) && decide (r.state = .attempting) then
              applyTransition (nextState text c.recipient (outcomeFor results c.recipient.id)
                finishedAt (random c.recipient.id)) finishedAt r
            else r := rfl
    rw [hstep, map_map]
    refine map_congr_left ?_
    intro r _
    rw [Function.comp_apply]
    by_cases hmine : r.state = .attempting ∧ c.recipient.id = r.id
    · -- the first claim moves the row out of `attempting`; later ones find nothing
      have hcond : (decide (r.id = c.recipient.id) && decide (r.state = .attempting)) = true := by
        simp [hmine.1, hmine.2]
      have hmoved : (applyTransition (nextState text c.recipient
          (outcomeFor results c.recipient.id) finishedAt (random c.recipient.id))
          finishedAt r).state ≠ .attempting := nextState_ne_attempting text c.recipient _ _ _
      rw [if_pos hcond, outcomeRow_of_not_attempting _ _ _ _ cs hmoved]
      unfold outcomeRow
      rw [find?_cons_of_pos (by simpa using hmine)]
    · have hcond : ¬ (decide (r.id = c.recipient.id) && decide (r.state = .attempting)) = true := by
        simp only [Bool.and_eq_true, decide_eq_true_eq]
        exact fun h => hmine ⟨h.2, h.1.symm⟩
      rw [if_neg hcond]
      unfold outcomeRow
      rw [find?_cons_of_neg (by simpa using hmine)]

/-- Which rows wait after a batch, and until when. -/
theorem stayingAfter_eq (g : Group) (r : OutboundRecipient) :
    stayingAfter results finishedAt random batch g r
      = if WaitingIn g (outcomeRow text results finishedAt random batch r) then
          some ((outcomeRow text results finishedAt random batch r).attempts,
            (outcomeRow text results finishedAt random batch r).nextAttemptAt) else none := by
  unfold stayingAfter
  cases hfind : batch.find? fun c => decide (r.state = .attempting ∧ c.recipient.id = r.id) with
  | none =>
    have hrow : outcomeRow text results finishedAt random batch r = r := by
      unfold outcomeRow
      rw [hfind]
    rw [hrow]
    by_cases hg : r.outboundMessageId = g.messageId ∧ r.domain = g.domain
    · by_cases hw : r.state.Waiting
      · rw [if_pos hg, if_pos hw, if_pos ⟨hg.1, hg.2, hw⟩]
      · rw [if_pos hg, if_neg hw, if_neg fun h => hw h.2.2]
    · rw [if_neg hg, if_neg fun h => hg ⟨h.1, h.2.1⟩]
  | some c =>
    have hid : c.recipient.id = r.id := by
      have := find?_some hfind
      simp only [decide_eq_true_eq] at this
      exact this.2
    have hrow : outcomeRow text results finishedAt random batch r
        = applyTransition (nextState text c.recipient (outcomeFor results r.id) finishedAt
            (random r.id)) finishedAt r := by
      unfold outcomeRow
      rw [hfind]
      dsimp only
      rw [hid]
    have hwaits := nextState_waits_iff text c.recipient (outcomeFor results r.id) finishedAt
      (random r.id)
    rw [hrow]
    dsimp only
    by_cases hg : r.outboundMessageId = g.messageId ∧ r.domain = g.domain
    · by_cases hstay : (outcomeFor results r.id).Transient ∧ finishedAt < expiresAt c.recipient
      · have hw := hwaits.mpr hstay
        rw [if_pos hg, if_pos hstay, if_pos ⟨hg.1, hg.2, hw⟩]
        simp only [applyTransition, nextState_deferred_next hw]
      · rw [if_pos hg, if_neg hstay, if_neg fun h => hstay (hwaits.mp h.2.2)]
    · rw [if_neg hg, if_neg fun h => hg ⟨h.1, h.2.1⟩]

end

/-- **The outcome transaction** leaves the group ready exactly when it can. -/
theorem ready_commitBatch_iff (cfg : Config) (db : Db) (g : Group) (batch : List Claimed)
    (finishedAt : ℤ) (results : ℕ → Option AttemptOutcome) (random : ℕ → ℚ) :
    Ready (commitBatch cfg db g batch finishedAt results random) g ↔ Schedulable db.jobs g
          (db.recipients.filterMap (stayingAfter results finishedAt random batch g)) := by
  obtain ⟨hrec, hjobs⟩ := foldl_recordOutcome cfg.text results finishedAt random batch db
  unfold commitBatch
  rw [ready_scheduleNext_iff, hrec, hjobs, waitingPairs, filterMap_map]
  have hfun : stayingAfter results finishedAt random batch g
      = (fun r => if WaitingIn g r then some (r.attempts, r.nextAttemptAt) else none)
          ∘ outcomeRow cfg.text results finishedAt random batch :=
    funext fun r => stayingAfter_eq cfg.text results finishedAt random batch g r
  rw [hfun]

/-- **A deferred recipient is left with a job exactly when** the generation of the next
job is not taken, or a job that is early enough is pending anyway. This is said of every
action that ends a `handle` call, in whatever state the system is. -/
theorem deferred_recipient_has_job_iff {cfg : Config} {s s' : System} {a : Action} {g : Group}
    (hs : step cfg s a = some s') (hret : returnsFor s a = some g) :
    Ready s'.db g ↔ Schedulable s.db.jobs g (staying s g a) := by
  cases a with
  | outcome workerId finishedAt results random =>
    simp only [returnsFor] at hret
    split at hret
    · next job b hc =>
        injection hret with hret
        subst hret
        simp only [step, hc, Option.some.injEq] at hs
        subst hs
        simp only [staying, hc]
        exact ready_commitBatch_iff cfg s.db job.payload b.2 finishedAt results random
    · cases hret
  | scheduleNothing workerId now =>
    simp only [returnsFor] at hret
    split at hret
    · next job hc =>
        injection hret with hret
        subst hret
        simp only [step, hc, Option.some.injEq] at hs
        subst hs
        exact ready_scheduleNext_iff s.db job.payload now
    · cases hret
  | _ => cases hret

/-- A thawed group whose only recipient is not due yet gets its job. -/
theorem deferred_recipient_has_job_iff_fresh_key : ∃ (cfg : Config) (s s' : System) (g : Group),
      step cfg s (.scheduleNothing "w" 0) = some s'
        ∧ returnsFor s (.scheduleNothing "w" 0) = some g
        ∧ (∃ r ∈ s'.db.recipients, WaitingIn g r) ∧ Ready s'.db g := by
  have hs : step ⟨⟨id, id, id⟩, id, fun _ t => t, 300000⟩
      { db := { recipients := [{ id := 1, outboundMessageId := "m", address := "a@d", domain := "d",
                                 state := .deferred, attempts := 1, nextAttemptAt := 300000,
                                 createdAt := 0, updatedAt := 0 }] }
        calls := fun _ => .nothing { id := 1, queue := OUTBOUND_QUEUE, payload := ⟨"m", "d"⟩,
                                     runAt := 0, createdAt := 0 } }
      (.scheduleNothing "w" 0) = some _ := rfl
  have hready := (deferred_recipient_has_job_iff (g := ⟨"m", "d"⟩) hs rfl).mpr
    (.inr (.inl (by simp)))
  exact ⟨_, _, _, _, hs, rfl, ⟨_, mem_cons_self, by decide⟩, hready⟩

/-- Two recipients deferred once with different jitter. The job of generation 1 finds
only the first one due and delivers it; the second still has one attempt, so the next
job would be of generation 1 again, and `enqueue` adds nothing. -/
theorem drifted_recipient_left_without_job :
    ∃ (cfg : Config) (s s' : System) (a : Action) (g : Group),
      Run (step cfg) anyStep {} s ∧ step cfg s a = some s' ∧ returnsFor s a = some g
        ∧ ¬ Ready s'.db g := by
  have hrun : ((runAll (step ⟨⟨id, id, id⟩, fun _ => "direct", fun _ t => t, 300000⟩) {}
      [.accept "m" none [{ address := "a@d" }, { address := "b@d" }] 0,
        .claim "w" 0 [], .start "w" 0, .begin "w",
        .outcome "w" 0 (fun _ => some (.temporary none none none))
          (fun id => if id = 1 then 0 else 1 / 2),
        .complete "w", .claim "w" 255000 [], .start "w" 255000, .begin "w"]).any fun s =>
      (step ⟨⟨id, id, id⟩, fun _ => "direct", fun _ t => t, 300000⟩ s
          (.outcome "w" 255000 (fun _ => some (.delivered none none none)) (fun _ => 0))).any
          fun s' =>
        decide (returnsFor s
            (.outcome "w" 255000 (fun _ => some (.delivered none none none)) (fun _ => 0))
              = some ⟨"m", "d"⟩
          ∧ ¬ Ready s'.db ⟨"m", "d"⟩)) = true := by
    decide +kernel
  obtain ⟨s, hs, hrest⟩ := (Option.any_eq_true _ _).mp hrun
  obtain ⟨s', hs', hbad⟩ := (Option.any_eq_true _ _).mp hrest
  obtain ⟨hret, hready⟩ := of_decide_eq_true hbad
  exact ⟨_, s, s', _, _, Run.runAll _ .refl hs, hs', hret, hready⟩

/-! ## Final rows -/

/-- Delivered, bounced or cancelled. -/
def RecipientState.Final (s : RecipientState) : Prop := ¬ s.Waiting ∧ s ≠ .attempting

/-- A row up to its DSN marks, which a final row may still get. -/
def OutboundRecipient.settled (r : OutboundRecipient) : OutboundRecipient :=
  { r with delayDsnSentAt := none, failureDsnSentAt := none, updatedAt := 0 }

/-- The row is in the table, up to its DSN marks. -/
def Db.Has (db : Db) (r : OutboundRecipient) : Prop := ∃ r' ∈ db.recipients, r'.settled = r.settled

section

variable {r : OutboundRecipient} {db : Db} (hf : r.state.Final) (h : db.Has r)
include hf h

/-- An UPDATE leaves a final row in place if it leaves final rows alone. -/
theorem has_update (rows : OutboundRecipient → Bool) (data : OutboundRecipient → OutboundRecipient)
    (hrows : ∀ r, rows r = true → r.state.Final → (data r).settled = r.settled) :
    (db.updateRecipients rows data).Has r := by
  obtain ⟨r', hr', heq⟩ := h
  have hstate : r'.state = r.state := congrArg (·.state) heq
  refine ⟨_, mem_map_of_mem hr', ?_⟩
  split_ifs with hrow
  · exact (hrows r' hrow (hstate ▸ hf)).trans heq
  · exact heq

theorem has_recoverInterrupted (leaseMs now : ℤ) (scope : OutboundRecipient → Bool) :
    (recoverInterrupted db leaseMs now scope).Has r :=
  has_update hf h _ _ fun r hr hf => absurd (by simpa using (Bool.and_eq_true_iff.mp hr).2) hf.2

omit hf in
theorem has_foldl {β : Type} {f : Db → β → Db} (l : List β)
    (hstep : ∀ db b, db.Has r → (f db b).Has r) :
    (l.foldl f db).Has r :=
  foldlRecOn l f h fun db h b _ => hstep db b h

omit hf in
theorem has_scheduleNext (g : Group) (generation : Option String) (now : ℤ) :
    (scheduleNext db g generation now).1.Has r := by
  unfold scheduleNext
  dsimp only
  split <;> exact h

end

theorem has_step {cfg : Config} {s s' : System} {a : Action} {r : OutboundRecipient}
    (hf : r.state.Final)
    (h : s.db.Has r) (hs : step cfg s a = some s') : s'.db.Has r := by
  cases a <;> simp only [step] at hs
  case accept recipients _ =>
    split at hs <;> cases hs
    rename_i hdb
    unfold enqueueOutbound at hdb
    split_ifs at hdb
    cases he : distinctRecipients cfg.text recipients <;> rw [he] at hdb <;> cases hdb
    obtain ⟨r', hr', heq⟩ := h
    -- the new rows come behind those of the table
    exact has_foldl ⟨r', mem_append_left _ hr', heq⟩ _ fun _ _ h => h
  case claim =>
    split at hs
    · split at hs
      · exact Option.some.inj hs ▸ h
      · obtain ⟨job, -, rfl⟩ := Option.map_eq_some_iff.mp hs
        exact h
    · cases hs
  case start now =>
    split at hs
    · have hdb := has_recoverInterrupted hf h cfg.leaseMs now
      split at hs
      · cases hs
        exact hdb _
      · split_ifs at hs <;> cases hs
        · exact has_update hf (hdb _) _ _ fun r hr hf => absurd (of_decide_eq_true hr).2.2 hf.1
        · exact hdb _
    · cases hs
  case begin =>
    split at hs
    · have hdb := fun g now => has_update hf h (Due g now ·) (markAttempting now) fun r hr hf =>
        absurd (of_decide_eq_true hr).1.2.2 hf.1
      split_ifs at hs <;> cases hs <;> exact hdb _ _
    · cases hs
  case outcome finishedAt results random =>
    -- an outcome is written where the row is still `attempting`
    have hdb : ∀ batch : List Claimed, (batch.foldl
        (recordOutcome cfg.text results finishedAt random) s.db).Has r :=
      fun batch => has_foldl h batch fun _ _ h => has_update hf h _ _ fun r hr hf =>
        absurd (by simpa using (Bool.and_eq_true_iff.mp hr).2) hf.2
    split at hs
    · split at hs <;> cases hs <;> exact has_scheduleNext (hdb _) _ _ _
    · cases hs
  case scheduleNothing =>
    split at hs <;> cases hs
    exact has_scheduleNext h _ _ _
  case complete | throw => split at hs <;> cases hs <;> exact h
  all_goals cases hs
  case crash | freeze => exact h
  case thaw =>
    dsimp only [thawCredential]
    split_ifs
    · exact h
    · refine has_foldl ?_ _ fun _ _ h => ?_ <;> exact h
  case sweep =>
    exact has_foldl (has_recoverInterrupted hf h _ _ _) _ fun _ _ h => has_scheduleNext h _ _ _
  case dsnSent kind _ => cases kind <;> exact has_update hf h _ _ fun _ _ _ => rfl

end Postroom.Delivery
