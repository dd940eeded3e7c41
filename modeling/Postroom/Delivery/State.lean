/-
`apps/delivery/src/state.ts`: the per-recipient outbound state machine.

`nextState` is pure: the recipient, what the attempt said, the clock and the
jitter. Times are milliseconds as integers; `random()` is a rational, and
`Math.round x` is `⌊x + 1/2⌋`. The string functions of the runtime that depend on
Unicode tables (`toUpperCase`, `trim`) are parameters, collected in `Text`.

`nextState_waits_iff` and `nextState_deferred_next` are all the worker's proofs
use: when an attempt leaves a recipient waiting, and until when.
-/
import Mathlib.Data.Rat.Floor

set_option autoImplicit false

namespace Postroom.Delivery

/-- The runtime's string functions that depend on Unicode tables. -/
structure Text where
  toUpperCase : String → String
  toLowerCase : String → String
  trim : String → String

/-! ## The schedule -/

def MINUTE : ℤ := 60000
def HOUR : ℤ := 60 * MINUTE
def DAY : ℤ := 24 * HOUR

/-- Delay after the Nth failed attempt; then the last entry for ever. -/
def retrySchedule : List ℤ :=
  [5 * MINUTE, 10 * MINUTE, 20 * MINUTE, 40 * MINUTE, 1 * HOUR, 2 * HOUR, 3 * HOUR, 4 * HOUR]

def JITTER : ℚ := 15 / 100
def MAX_QUEUE_AGE_MS : ℤ := 5 * DAY
def DELAY_DSN_AFTER_MS : ℤ := 4 * HOUR

/-- The un-jittered delay after `attempts` failed attempts. -/
def baseDelayMs (attempts : ℕ) : ℤ :=
  let last := retrySchedule.getLast?.getD (4 * HOUR)
  if attempts < 1 then retrySchedule.head?.getD last
  else (retrySchedule[attempts - 1]?).getD last

/-- `base * (1 + JITTER * (2r - 1))`, rounded. -/
def jitteredDelayMs (attempts : ℕ) (random : ℚ) : ℤ :=
  let base : ℚ := baseDelayMs attempts
  let r := min (max random 0) 1
  ⌊base * (1 + JITTER * (2 * r - 1)) + 1 / 2⌋

/-! ## DSN NOTIFY -/

structure NotifyPolicy where
  success : Bool
  failure : Bool
  delay : Bool
  deriving DecidableEq, Repr

/-- `null` or blank is the default, FAILURE and DELAY; NEVER turns every DSN off. -/
def parseNotify (text : Text) : Option String → NotifyPolicy
  | none => ⟨false, true, true⟩
  | some value =>
    if text.trim value = "" then ⟨false, true, true⟩
    else
      let words := ((text.toUpperCase value).splitOn ",").map text.trim
      if words.contains "NEVER" then ⟨false, false, false⟩
      else ⟨words.contains "SUCCESS", words.contains "FAILURE", words.contains "DELAY"⟩

/-! ## Transitions -/

/-- What one attempt said about one recipient. -/
inductive AttemptOutcome where
  | delivered (code : Option ℕ) (enhanced text : Option String)
  | temporary (code : Option ℕ) (enhanced text : Option String)
  | permanent (code : ℕ) (enhanced : Option String) (text : String)
  | error (error : String)
  deriving DecidableEq, Repr

inductive RecipientState where
  | queued
  | attempting
  | deferred
  | delivered
  | bounced
  | cancelled
  deriving DecidableEq, Repr

/-- The `outbound_recipient` row. -/
structure OutboundRecipient where
  id : ℕ
  outboundMessageId : String
  address : String
  domain : String
  state : RecipientState := .queued
  attempts : ℕ := 0
  nextAttemptAt : ℤ
  lastCode : Option ℕ := none
  lastEnhanced : Option String := none
  lastText : Option String := none
  dsnNotify : Option String := none
  delayDsnSentAt : Option ℤ := none
  failureDsnSentAt : Option ℤ := none
  deliveredAt : Option ℤ := none
  transport : String := "direct"
  createdAt : ℤ
  updatedAt : ℤ
  deriving DecidableEq, Repr

inductive DsnKind where
  | delay
  | failure
  deriving DecidableEq, Repr

inductive BounceReason where
  | permanent
  | expired
  deriving DecidableEq, Repr

/-- A DSN to generate after the state is committed. -/
structure DsnIntent where
  kind : DsnKind
  recipientId : ℕ
  outboundMessageId : String
  address : String
  code : Option ℕ
  enhanced : Option String
  text : String
  queuedAt : ℤ
  at_ : ℤ
  willRetryUntil : Option ℤ := none
  reason : Option BounceReason := none
  deriving DecidableEq, Repr

inductive AttemptRecord where
  | delivered
  | deferred
  | bounced
  | error
  deriving DecidableEq, Repr

structure Transition where
  state : RecipientState
  /-- `DeliveryAttempt.outcome` for the attempt just made. -/
  attemptOutcome : AttemptRecord
  nextAttemptAt : ℤ
  lastCode : Option ℕ
  lastEnhanced : Option String
  lastText : Option String
  deliveredAt : Option ℤ
  bounceReason : Option BounceReason
  dsn : List DsnIntent
  deriving DecidableEq, Repr

def describe : AttemptOutcome → Option ℕ × Option String × String
  | .error error => (none, none, error)
  | .delivered code enhanced text => (code, enhanced, text.getD "")
  | .temporary code enhanced text => (code, enhanced, text.getD "")
  | .permanent code enhanced text => (some code, enhanced, text)

/-- When a recipient gives up. -/
def expiresAt (r : OutboundRecipient) : ℤ := r.createdAt + MAX_QUEUE_AGE_MS

/-- The next state of a recipient after an attempt. -/
def nextState (text : Text) (r : OutboundRecipient) (outcome : AttemptOutcome) (now : ℤ)
    (random : ℚ) : Transition :=
  let (code, enhanced, said) := describe outcome
  let notify := parseNotify text r.dsnNotify
  let lastText := if said = "" then none else some said
  let intent (kind : DsnKind) : DsnIntent :=
    { kind := kind, recipientId := r.id, outboundMessageId := r.outboundMessageId,
      address := r.address, code := code, enhanced := enhanced, text := said,
      queuedAt := r.createdAt, at_ := now }
  let bounce (reason : BounceReason) : Transition :=
    { state := .bounced, attemptOutcome := .bounced, nextAttemptAt := now, deliveredAt := none,
      bounceReason := some reason, lastCode := code, lastEnhanced := enhanced,
      lastText := lastText,
      dsn := if notify.failure ∧ r.failureDsnSentAt = none then
          [{ intent .failure with reason := some reason }] else [] }
  let retry (record : AttemptRecord) : Transition :=
    -- still failing after five days
    if now ≥ expiresAt r then bounce .expired
    else
      { state := .deferred, attemptOutcome := record,
        nextAttemptAt := min (now + jitteredDelayMs r.attempts random) (expiresAt r),
        deliveredAt := none, bounceReason := none, lastCode := code, lastEnhanced := enhanced,
        lastText := lastText,
        dsn := if notify.delay ∧ r.delayDsnSentAt = none
              ∧ now - r.createdAt ≥ DELAY_DSN_AFTER_MS then
            [{ intent .delay with willRetryUntil := some (expiresAt r) }] else [] }
  match outcome with
  | .delivered _ _ _ =>
    { state := .delivered, attemptOutcome := .delivered, nextAttemptAt := now,
      deliveredAt := some now, bounceReason := none, lastCode := code, lastEnhanced := enhanced,
      lastText := lastText, dsn := [] }
  | .permanent _ _ _ => bounce .permanent
  | .temporary _ _ _ => retry .deferred
  | .error _ => retry .error

/-! ## When a recipient keeps waiting -/

/-- The remote or our side could not say yes or no. -/
def AttemptOutcome.Transient : AttemptOutcome → Prop
  | .temporary _ _ _ => True
  | .error _ => True
  | _ => False

instance (o : AttemptOutcome) : Decidable o.Transient :=
  match o with
  | .temporary _ _ _ => .isTrue trivial
  | .error _ => .isTrue trivial
  | .delivered _ _ _ => .isFalse id
  | .permanent _ _ _ => .isFalse id

/-- Waiting for a worker. -/
def RecipientState.Waiting (s : RecipientState) : Prop := s = .queued ∨ s = .deferred

instance (s : RecipientState) : Decidable s.Waiting := inferInstanceAs (Decidable (_ ∨ _))

/-- **An attempt leaves a recipient waiting** exactly when it was inconclusive and
the recipient is younger than five days. -/
theorem nextState_waits_iff (text : Text) (r : OutboundRecipient) (outcome : AttemptOutcome)
    (now : ℤ) (random : ℚ) : (nextState text r outcome now random).state.Waiting
      ↔ outcome.Transient ∧ now < expiresAt r := by
  cases outcome with
  | delivered | permanent => simp [nextState, RecipientState.Waiting, AttemptOutcome.Transient]
  | temporary | error =>
    by_cases h : now ≥ expiresAt r
    · simp [nextState, RecipientState.Waiting, AttemptOutcome.Transient, h]
    · simp [nextState, RecipientState.Waiting, AttemptOutcome.Transient, h, Int.lt_of_not_ge h]

/-- A waiting recipient's next attempt. -/
theorem nextState_deferred_next {text : Text} {r : OutboundRecipient} {outcome : AttemptOutcome}
    {now : ℤ} {random : ℚ} (h : (nextState text r outcome now random).state.Waiting) :
    (nextState text r outcome now random).nextAttemptAt
      = min (now + jitteredDelayMs r.attempts random) (expiresAt r) := by
  obtain ⟨htrans, hlt⟩ := (nextState_waits_iff text r outcome now random).mp h
  have hge : ¬ now ≥ expiresAt r := by omega
  cases outcome with
  | delivered => exact absurd htrans id
  | permanent => exact absurd htrans id
  | temporary => simp [nextState, hge]
  | error => simp [nextState, hge]

theorem nextState_ne_attempting (text : Text) (r : OutboundRecipient) (outcome : AttemptOutcome)
    (now : ℤ) (random : ℚ) : (nextState text r outcome now random).state ≠ .attempting := by
  cases outcome with
  | delivered => simp [nextState]
  | permanent => simp [nextState]
  | temporary | error =>
    by_cases h : now ≥ expiresAt r
    · simp [nextState, h]
    · simp [nextState, h]

end Postroom.Delivery
