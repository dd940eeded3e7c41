/-
A recipient's retries, over whole histories of attempts.

`state.ts` promises the sender that a message which cannot be delivered is bounced,
and not before five days. `nextState` decides one attempt; the promise is about any
number of them, so the argument is a measure over the history: from the eighth
attempt on each one waits at least 0.85 of the four hours at the end of the schedule
(`lastDelayMs`), and no attempt made before the five days are over is put off beyond
them. A recipient that still waits has therefore waited for at most five days.
-/
import Postroom.Delivery.Worker

set_option autoImplicit false

namespace Postroom.Delivery

/-! ## The schedule, jitter included -/

theorem baseDelayMs_nonneg (attempts : ℕ) : (0 : ℚ) ≤ baseDelayMs attempts := by
  have hall : ∀ d ∈ retrySchedule, 0 ≤ d := by decide
  refine Int.cast_nonneg ?_
  unfold baseDelayMs
  split
  · decide
  · cases hd : retrySchedule[attempts - 1]? with
    | none => decide
    | some d => exact hall d (List.mem_of_getElem? hd)

variable {attempts : ℕ}

theorem baseDelayMs_of_le (h : 8 ≤ attempts) : baseDelayMs attempts = 4 * HOUR := by
  obtain rfl | h := h.eq_or_lt
  · rfl
  · have hnone : retrySchedule[attempts - 1]? = none :=
      List.getElem?_eq_none (by simp only [retrySchedule, List.length]; omega)
    have hpos : ¬ attempts < 1 := by omega
    simp only [baseDelayMs, hnone, if_neg hpos]
    rfl

/-- The jitter takes at most 15 percent off. -/
theorem le_jitteredDelayMs {m : ℤ} (random : ℚ)
    (hm : (m : ℚ) ≤ baseDelayMs attempts * (85 / 100)) : m ≤ jitteredDelayMs attempts random := by
  have hrandom : 0 ≤ min (max random 0) 1 := le_min (le_max_right _ _) zero_le_one
  have hfactor : 85 / 100 ≤ 1 + JITTER * (2 * min (max random 0) 1 - 1) := by
    unfold JITTER
    linarith
  have hle := mul_le_mul_of_nonneg_left hfactor (baseDelayMs_nonneg attempts)
  refine Int.le_floor.mpr ?_
  linarith

/-- The least wait after the eighth attempt and every later one. -/
def lastDelayMs : ℤ := 12240000

theorem lastDelayMs_le (random : ℚ) (h : 8 ≤ attempts) :
    lastDelayMs ≤ jitteredDelayMs attempts random := by
  refine le_jitteredDelayMs random ?_
  rw [baseDelayMs_of_le h]
  norm_num [lastDelayMs, HOUR, MINUTE]

theorem jitteredDelayMs_nonneg (attempts : ℕ) (random : ℚ) :
    0 ≤ jitteredDelayMs attempts random := by
  refine le_jitteredDelayMs random ?_
  have hbase := baseDelayMs_nonneg attempts
  linarith

/-! ## Histories -/

/-- One attempt: its clock, what it said, the jitter, and the DSNs sent by then. -/
structure Attempt where
  now : ℤ
  outcome : AttemptOutcome
  random : ℚ
  delayDsnSentAt : Option ℤ
  failureDsnSentAt : Option ℤ

/-- The row the worker claims. -/
def Attempt.claims (a : Attempt) (r : OutboundRecipient) : OutboundRecipient :=
  { markAttempting a.now r with
    delayDsnSentAt := a.delayDsnSentAt, failureDsnSentAt := a.failureDsnSentAt }

def Attempt.transition (text : Text) (a : Attempt) (r : OutboundRecipient) : Transition :=
  nextState text (a.claims r) a.outcome a.now a.random

/-- `r` after the attempts `as` on `r₀`, last first: each on a waiting recipient and
not before its `nextAttemptAt`. -/
inductive Attempted (text : Text) (r₀ : OutboundRecipient) :
    List Attempt → OutboundRecipient → Prop
  | queued : Attempted text r₀ [] r₀
  | attempt {as : List Attempt} {r : OutboundRecipient} (a : Attempt) : Attempted text r₀ as r →
      r.state.Waiting → r.nextAttemptAt ≤ a.now →
      Attempted text r₀ (a :: as) (applyTransition (a.transition text r) a.now (a.claims r))

/-- A row as `enqueueOutbound` inserts it. -/
def Queued (r : OutboundRecipient) : Prop :=
  r.state = .queued ∧ r.attempts = 0 ∧ r.createdAt ≤ r.nextAttemptAt

/-- The NOTIFY parameter says NEVER. -/
def NotifyNever (text : Text) (r : OutboundRecipient) : Prop :=
  ∃ value, r.dsnNotify = some value ∧ text.trim value ≠ ""
    ∧ "NEVER" ∈ ((text.toUpperCase value).splitOn ",").map text.trim

/-- What `n` attempts leave of the row `r₀`. -/
structure Waited (r₀ : OutboundRecipient) (n : ℕ) (r : OutboundRecipient) : Prop where
  createdAt : r.createdAt = r₀.createdAt
  dsnNotify : r.dsnNotify = r₀.dsnNotify
  attempts : r.attempts = n
  -- five days hold 35 of the last delays, after the first seven
  waits : r.state.Waiting → n ≤ 43
    ∧ min (expiresAt r₀) (r₀.createdAt + lastDelayMs * (n - 7 : ℕ)) ≤ r.nextAttemptAt

variable {text : Text} {r₀ r : OutboundRecipient} {as : List Attempt} {n : ℕ}

theorem Waited.expires (h : Waited r₀ n r) (a : Attempt) :
    expiresAt (a.claims r) = expiresAt r₀ := congrArg (· + MAX_QUEUE_AGE_MS) h.createdAt

theorem Waited.attempt {a : Attempt} (h : Waited r₀ n r) (hw : r.state.Waiting)
    (hdue : r.nextAttemptAt ≤ a.now) :
    Waited r₀ (n + 1) (applyTransition (a.transition text r) a.now (a.claims r)) where
  createdAt := h.createdAt
  dsnNotify := h.dsnNotify
  attempts := congrArg (· + 1) h.attempts
  waits := by
    intro hwaits
    have hlt := ((nextState_waits_iff text (a.claims r) a.outcome a.now a.random).mp hwaits).2
    rw [h.expires] at hlt
    have hnow : r₀.createdAt + lastDelayMs * (n - 7 : ℕ) ≤ a.now :=
      (min_le_iff.mp ((h.waits hw).2.trans hdue)).resolve_left (not_le.mpr hlt)
    have hnext : (a.transition text r).nextAttemptAt
        = min (a.now + jitteredDelayMs (n + 1) a.random) (expiresAt r₀) := by
      rw [← h.expires a, ← h.attempts]
      exact nextState_deferred_next hwaits
    constructor
    · simp only [expiresAt, MAX_QUEUE_AGE_MS, DAY, HOUR, MINUTE, lastDelayMs] at hlt hnow
      omega
    · refine le_of_le_of_eq ?_ hnext.symm
      rw [min_comm]
      refine min_le_min_right _ ?_
      -- the first seven delays only have to be nonnegative
      by_cases hlate : 8 ≤ n + 1
      · have hwait := lastDelayMs_le a.random hlate
        have hn : n + 1 - 7 = n - 7 + 1 := by omega
        rw [hn, Nat.cast_succ, mul_add, mul_one]
        linarith
      · have hwait := jitteredDelayMs_nonneg (n + 1) a.random
        have hn : n + 1 - 7 = n - 7 := by omega
        rw [hn]
        linarith

/-- The run lemma, by induction over the history. -/
theorem Attempted.waited (hq : Queued r₀) (h : Attempted text r₀ as r) : Waited r₀ as.length r := by
  induction h with
  | queued =>
    refine ⟨rfl, rfl, hq.2.1, fun _ => ⟨Nat.zero_le _, min_le_of_right_le ?_⟩⟩
    simpa using hq.2.2
  | attempt a _ hw hdue ih => exact ih.attempt hw hdue

/-! ## One attempt -/

/-- What one attempt may decide and ask for. -/
theorem nextState_spec (text : Text) (r : OutboundRecipient) (outcome : AttemptOutcome) (now : ℤ)
    (random : ℚ) :
    let t := nextState text r outcome now random
    (t.bounceReason = some .expired → expiresAt r ≤ now)
      ∧ (outcome.Transient → t.state.Waiting ∨ t.state = .bounced)
      ∧ ∀ i ∈ t.dsn, ((parseNotify text r.dsnNotify).failure ∨ (parseNotify text r.dsnNotify).delay)
          ∧ (i.kind = .delay → r.createdAt + DELAY_DSN_AFTER_MS ≤ now
            ∧ r.delayDsnSentAt = none) := by
  cases outcome with
  | delivered => simp [nextState, AttemptOutcome.Transient]
  | permanent => simp +contextual [nextState, AttemptOutcome.Transient]
  | temporary | error =>
    by_cases h : now ≥ expiresAt r
    · simp +contextual [nextState, h, RecipientState.Waiting]
    · simp +contextual [nextState, h, RecipientState.Waiting]
      omega

theorem parseNotify_never (h : NotifyNever text r) :
    parseNotify text r.dsnNotify = ⟨false, false, false⟩ := by
  obtain ⟨value, hvalue, hblank, hnever⟩ := h
  simp only [hvalue, parseNotify, if_neg hblank, List.contains_iff_mem.mpr hnever, if_true]

/-- **Every queued recipient reaches an end.** In every history of attempts, none made
before its `nextAttemptAt`, with any outcomes, jitter and DSNs sent meanwhile:

* there are at most 50 attempts, and while every outcome is temporary the recipient
  is bounced or waits for another of the 50;
* an attempt bounces it as expired only five days after it was queued, and puts it off
  to a time from now until then;
* a delay DSN is asked for only after four hours and while none was sent, and with
  NOTIFY=NEVER no DSN is. -/
theorem every_recipient_reaches_an_end (hq : Queued r₀) (h : Attempted text r₀ as r) :
    as.length ≤ 50 ∧ ((∀ a ∈ as, a.outcome.Transient) → r.state.Waiting ∧ as.length < 50
      ∨ r.state = .bounced)
      ∧ ∀ a : Attempt, r.state.Waiting → r.nextAttemptAt ≤ a.now →
        let t := a.transition text r
        (t.bounceReason = some .expired → r₀.createdAt + 5 * DAY ≤ a.now)
        ∧ (t.state = .deferred → a.now ≤ t.nextAttemptAt ∧ t.nextAttemptAt ≤ r₀.createdAt + 5 * DAY)
        ∧ (∀ i ∈ t.dsn, i.kind = .delay → r₀.createdAt + 4 * HOUR ≤ a.now ∧ a.delayDsnSentAt = none)
        ∧ (NotifyNever text r₀ → t.dsn = []) := by
  have hwaited := h.waited hq
  refine ⟨?_, ?_, ?_⟩
  · cases h with
    | queued => simp
    | attempt a h hw _ => exact (Nat.succ_le_succ ((h.waited hq).waits hw).1).trans (by decide)
  · intro hall
    cases h with
    | queued => exact .inl ⟨.inl hq.1, by decide⟩
    | @attempt _ r a h hw _ =>
      have hstate := (nextState_spec text (a.claims r) a.outcome a.now a.random).2.1
        (hall a List.mem_cons_self)
      exact hstate.imp_left fun hwaits =>
        ⟨hwaits, lt_of_le_of_lt (hwaited.waits hwaits).1 (by decide)⟩
  · intro a hw hdue
    obtain ⟨hexpired, _, hdsn⟩ := nextState_spec text (a.claims r) a.outcome a.now a.random
    rw [hwaited.expires] at hexpired
    refine ⟨hexpired, ?_, ?_, ?_⟩
    · intro hdeferred
      have hwaits : (a.transition text r).state.Waiting := .inr hdeferred
      have hnext := nextState_deferred_next hwaits
      have hlt := ((nextState_waits_iff text (a.claims r) a.outcome a.now a.random).mp hwaits).2
      have hwait := jitteredDelayMs_nonneg (a.claims r).attempts a.random
      rw [hwaited.expires] at hlt hnext
      exact ⟨le_of_le_of_eq (le_min (by linarith) hlt.le) hnext.symm,
        le_of_eq_of_le hnext (min_le_right _ _)⟩
    · intro i hi hkind
      exact hwaited.createdAt ▸ (hdsn i hi).2 hkind
    · intro hnever
      refine List.eq_nil_iff_forall_not_mem.mpr fun i hi => ?_
      have hasked := (hdsn i hi).1
      rw [show (a.claims r).dsnNotify = r₀.dsnNotify from hwaited.dsnNotify,
        parseNotify_never hnever] at hasked
      exact hasked.elim Bool.false_ne_true Bool.false_ne_true

/-- A row queued at 0, and its first attempt. -/
def queuedAtZero : OutboundRecipient :=
  { id := 1, outboundMessageId := "m", address := "u@example.org", domain := "example.org",
    nextAttemptAt := 0, createdAt := 0, updatedAt := 0 }

theorem first_retry_reaches_an_end :
    ∃ r, Attempted ⟨id, id, id⟩ queuedAtZero [⟨0, .error "ETIMEDOUT", 0, none, none⟩] r
      ∧ (r.state.Waiting ∧ 1 < 50 ∨ r.state = .bounced) :=
  have h := .attempt ⟨0, .error "ETIMEDOUT", 0, none, none⟩ .queued (.inl rfl) le_rfl
  ⟨_, h, (every_recipient_reaches_an_end ⟨rfl, rfl, le_rfl⟩ h).2.1
    (by simp [AttemptOutcome.Transient])⟩

end Postroom.Delivery
