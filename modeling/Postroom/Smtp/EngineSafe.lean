/-
What a server session may do, whatever the peer sends and the hooks answer.

The purpose of the engine is stated over the session's history alone. `View` is
the protocol's own idea of a session -- TLS, greeting, identity, the recipients
of the open transaction -- computed from what was said, and `Allowed` says which
events may follow which history. `Safe` spells out what that means.

The engine is shown to keep its context equal to the view (`Inv`), up to the
transaction that DATA is about, which is over for the protocol as soon as the hook
is called (`Phase`). Most of what the engine does changes neither: `Steady` is that,
and a part of the engine all of whose steps are steady is `Calm`. Replies are calm
outside DATA only. What remains is one lemma for each handler.
-/
import Mathlib.Data.List.Induction
import Postroom.Smtp.CommandFraming
import Postroom.Smtp.Engine

set_option autoImplicit false

namespace Postroom.Smtp

open Lib List
open Program (wp wp_and wp_bind wp_get wp_handle wp_modify wp_mono wp_seq)

/-! ## The protocol's view of a session -/

/-- A session as its history tells it. -/
structure View where
  secure : Bool
  hello : Option Hello := none
  auth : Option Identity := none
  /-- The recipients of the open transaction. -/
  transaction : Option (List Recipient) := none
  deriving DecidableEq, Repr

/-- The event opens a transaction: MAIL was accepted. -/
def SessionEvent.opens : SessionEvent → Bool
  | .answered (.mail _ _) (.replied r) => (r.getD Replies.mailOk).isPositive
  | _ => false

/-- The recipient accepted by the event. -/
def SessionEvent.accepts : SessionEvent → Option Recipient
  | .answered (.rcpt to_ params) (.replied (some r)) =>
    if r.isPositive then some ⟨to_, params⟩ else none
  | _ => none

/-- The greeting accepted by the event. -/
def SessionEvent.greets : SessionEvent → Option Hello
  | .answered (.hello verb domain) (.replied r) =>
    if r.any fun r => r.code ≥ 400 then none else some ⟨verb, domain⟩
  | _ => none

/-- The event ends whatever transaction there is: EHLO or HELO, RSET, DATA, TLS. -/
def SessionEvent.closes : SessionEvent → Bool
  | .command (.hello _ _) => true
  | .command .rset => true
  | .called .data _ => true
  | .upgraded => true
  | e => e.greets.isSome

/-- TLS came up. -/
def SessionEvent.secures : SessionEvent → Bool
  | .upgraded => true
  | _ => false

/-- The identity established by the event. -/
def SessionEvent.identifies : SessionEvent → Option Identity
  | .authenticated identity => some identity
  | _ => none

/-- What one event does to the session. -/
def View.step (v : View) (e : SessionEvent) : View where
  secure := v.secure || e.secures
  hello := if e.secures then none else e.greets <|> v.hello
  auth := if e.secures then none else e.identifies <|> v.auth
  transaction :=
    if e.closes then none
    else if e.opens then some []
    else v.transaction.map fun rs => rs ++ e.accepts.toList

/-- The session a history tells of. -/
def view (options : ServerSessionOptions) (trace : List SessionEvent) : View :=
  trace.foldl View.step { secure := options.secure }

/-- The octets received since TLS came up, or since the start. -/
def receivedSince (trace : List SessionEvent) : List UInt8 :=
  trace.foldl (fun acc e =>
    match e with
    | .upgraded => []
    | .received bytes => acc ++ bytes
    | _ => acc) []

/-- The recipients accepted since MAIL was. -/
def acceptedIn (trace : List SessionEvent) : List Recipient :=
  trace.foldl (fun acc e => if e.opens then [] else acc ++ e.accepts.toList) []

/-- The DATA hook is called, or the engine turns to the next command. -/
def SessionEvent.startsOver : SessionEvent → Bool
  | .called .data _ => true
  | .ready _ => true
  | _ => false

/-- What has happened since the DATA hook was called, until the next command. -/
def sinceData (trace : List SessionEvent) : Option (List SessionEvent) :=
  trace.foldl (fun acc e =>
    match e with
    | .called .data _ => some []
    | .ready _ => none
    | e => acc.map (· ++ [e])) none

/-- The end of an acceptable message was seen, and after it the DATA hook returned `r`. -/
def Completed (since : List SessionEvent) (r : SmtpReply) : Prop :=
  ∃ read between after, since
    = read ++ .dataEnd none :: between ++ .answered .data (.replied (some r)) :: after

/-- The context is what the history tells, within the limit on recipients. -/
structure Matches (options : ServerSessionOptions) (ctx : SessionContext) (v : View) : Prop where
  secure : ctx.secure = v.secure
  hello : ctx.hello = v.hello
  auth : ctx.auth = v.auth
  transaction : ctx.transaction.map Transaction.recipients = v.transaction
  limit : ∀ tx, ctx.transaction = some tx → tx.recipients.length ≤ options.maxRecipients

/-- What a hook may be called for. -/
def CallAllowed (options : ServerSessionOptions) (ctx : SessionContext) : HookCall → Prop
  | .rcpt _ _ => ctx.hello ≠ none ∧ ctx.transaction ≠ none
  | .data => ∃ tx, ctx.transaction = some tx ∧ tx.recipients ≠ []
  | .auth _ _ => options.capabilities.authRequiresTls = true → ctx.secure = true
  | _ => True

/-- Which event may follow a history. -/
def Allowed (options : ServerSessionOptions) (before : List SessionEvent) : SessionEvent → Prop
  | .ready ctx => Matches options ctx (view options before)
  | .called call ctx =>
    Matches options ctx (view options before) ∧ CallAllowed options ctx call
  | .line l => l ++ [CR, LF] <:+: receivedSince before
  | .saslLine l => l ++ [CR, LF] <:+: receivedSince before
  | .sent r => ∀ since, sinceData before = some since → r.isPositive = true → Completed since r
  | _ => True

/-- The context a hook was called in, or the engine turned to the next command in. -/
def SessionEvent.context? : SessionEvent → Option SessionContext
  | .ready ctx => some ctx
  | .called _ ctx => some ctx
  | _ => none

/-- What a session may and may not do. -/
structure Safe (options : ServerSessionOptions) (trace : List SessionEvent) : Prop where
  /-- The RCPT hook is called only after a greeting, in a transaction. -/
  rcpt : ∀ before to_ params ctx after, trace = before ++ .called (.rcpt to_ params) ctx :: after →
    ctx.hello ≠ none ∧ ctx.transaction ≠ none
  /-- The DATA hook is called for exactly the recipients accepted since MAIL, of
  which there is one at least. -/
  data : ∀ before ctx after, trace = before ++ .called .data ctx :: after →
    ∃ tx, ctx.transaction = some tx ∧ tx.recipients ≠ [] ∧ tx.recipients = acceptedIn before
  /-- There are never too many recipients. -/
  limit : ∀ e ∈ trace, ∀ ctx, e.context? = some ctx → ∀ tx, ctx.transaction = some tx →
    tx.recipients.length ≤ options.maxRecipients
  /-- EHLO, HELO, RSET, DATA, however it ends, and TLS leave no transaction open. -/
  closed : ∀ before e mid e' after ctx, trace = before ++ e :: (mid ++ e' :: after) →
    e.closes = true → (∀ x ∈ mid, x.opens = false) → e'.context? = some ctx →
    ctx.transaction = none
  /-- After the TLS upgrade greeting and identity are gone. -/
  restarted : ∀ before mid e' after ctx, trace = before ++ .upgraded :: (mid ++ e' :: after) →
    e'.context? = some ctx →
    ((∀ x ∈ mid, x.greets.isSome = false) → ctx.hello = none)
      ∧ ((∀ x ∈ mid, x.identifies.isSome = false) → ctx.auth = none)
  /-- A command is a line of the octets received since the upgrade. -/
  line : ∀ before l after, trace = before ++ .line l :: after →
    l ++ [CR, LF] <:+: receivedSince before
  /-- The AUTH hook is called only over TLS, where that is required. -/
  auth : ∀ before mechanism ir ctx after,
    trace = before ++ .called (.auth mechanism ir) ctx :: after →
    options.capabilities.authRequiresTls = true → ctx.secure = true
  /-- A positive reply between the call of the DATA hook and the next command is the
  hook's, given after the whole message was seen. -/
  accepted : ∀ before ctx since r after,
    trace = before ++ .called .data ctx :: (since ++ .sent r :: after) →
    (∀ e ∈ since, e.startsOver = false) → r.isPositive = true → Completed since r

/-! ## How the view follows the history -/

variable (options : ServerSessionOptions) {α : Type}

section

variable (t : List SessionEvent)

theorem view_snoc (e : SessionEvent) : view options (t ++ [e]) = (view options t).step e := by
  unfold view
  rw [foldl_append]
  rfl

theorem receivedSince_snoc (e : SessionEvent) :
    receivedSince (t ++ [e]) = match e with
      | .upgraded => []
      | .received bytes => receivedSince t ++ bytes
      | _ => receivedSince t := by
  unfold receivedSince
  rw [foldl_append]
  rfl

theorem acceptedIn_snoc (e : SessionEvent) :
    acceptedIn (t ++ [e]) = if e.opens then [] else acceptedIn t ++ e.accepts.toList := by
  unfold acceptedIn
  rw [foldl_append]
  rfl

theorem sinceData_snoc (e : SessionEvent) (h : e.startsOver = false) :
    sinceData (t ++ [e]) = (sinceData t).map (· ++ [e]) := by
  unfold sinceData
  rw [foldl_append, foldl_cons, foldl_nil]
  split
  · cases h
  · cases h
  · rfl

theorem sinceData_append (ext : List SessionEvent) (h : ∀ e ∈ ext, e.startsOver = false) :
    sinceData (t ++ ext) = (sinceData t).map (· ++ ext) := by
  induction ext using List.reverseRecOn with
  | nil => simp
  | append_singleton ext e ih =>
    rw [← append_assoc, sinceData_snoc _ e (h e (mem_append_right _ (mem_singleton.mpr rfl))),
      ih fun e' he' => h e' (mem_append_left _ he'), Option.map_map]
    simp [Function.comp_def]

theorem sinceData_called (ctx : SessionContext) :
    sinceData (t ++ [.called .data ctx]) = some [] := by
  rw [sinceData, foldl_append]
  rfl

theorem sinceData_ready (ctx : SessionContext) : sinceData (t ++ [.ready ctx]) = none := by
  rw [sinceData, foldl_append]
  rfl

/-- The view's transaction holds the accepted recipients. -/
theorem view_transaction_eq
    (rs : List Recipient) (h : (view options t).transaction = some rs) : rs = acceptedIn t := by
  induction t using List.reverseRecOn generalizing rs with
  | nil => cases h
  | append_singleton t e ih =>
    rw [view_snoc] at h
    rw [acceptedIn_snoc]
    unfold View.step at h
    by_cases hc : e.closes = true
    · rw [if_pos hc] at h
      cases h
    rw [if_neg hc] at h
    by_cases ho : e.opens = true
    · rw [if_pos ho] at h ⊢
      exact (Option.some.inj h).symm
    · rw [if_neg ho] at h ⊢
      obtain ⟨rs', hrs', rfl⟩ := Option.map_eq_some_iff.mp h
      rw [ih rs' hrs']

end

/-- A field that is `none` stays so until an event fills it in. -/
theorem view_none (field : View → Option α) (fills : SessionEvent → Bool)
    (hstep : ∀ v e, field v = none → fills e = false → field (v.step e) = none)
    (t mid : List SessionEvent) (h : field (view options t) = none)
    (hmid : ∀ e ∈ mid, fills e = false) : field (view options (t ++ mid)) = none := by
  induction mid using List.reverseRecOn with
  | nil => rwa [append_nil]
  | append_singleton mid e ih =>
    have hprev := ih fun e' he' => hmid e' (mem_append_left _ he')
    rw [← append_assoc, view_snoc]
    exact hstep _ e hprev (hmid e (mem_append_right _ (mem_singleton.mpr rfl)))

variable {e : SessionEvent}

theorem view_closes (t : List SessionEvent) (h : e.closes = true) :
    (view options (t ++ [e])).transaction = none := by
  rw [view_snoc, View.step, if_pos h]

/-! ## Steady steps -/

/-- The event needs a reason to happen. -/
def SessionEvent.guarded : SessionEvent → Bool
  | .ready _ => true
  | .called _ _ => true
  | .line _ => true
  | .saslLine _ => true
  | .sent _ => true
  | _ => false

/-- The event changes nothing in the protocol's view. -/
def SessionEvent.inert (e : SessionEvent) : Bool :=
  !e.closes && !e.opens && !e.secures && e.accepts.isNone && e.greets.isNone
    && e.identifies.isNone

/-- The event needs no reason and changes nothing. -/
def SessionEvent.passive (e : SessionEvent) : Bool := !e.guarded && e.inert

/-- The event is passive, or a reply, where the engine may talk freely. -/
def SessionEvent.mild (talk : Bool) : SessionEvent → Bool
  | .sent _ => talk
  | e => e.passive

theorem View.step_of_inert (h : e.inert = true) (v : View) : v.step e = v := by
  simp only [SessionEvent.inert, Bool.and_eq_true, Bool.not_eq_true',
    Option.isNone_iff_eq_none] at h
  obtain ⟨⟨⟨⟨⟨hc, ho⟩, hs⟩, ha⟩, hg⟩, hi⟩ := h
  obtain ⟨secure, hello, auth, transaction⟩ := v
  unfold View.step
  rw [hc, ho, hs, ha, hg, hi]
  cases transaction with
  | none => simp
  | some rs => simp

/-- The event brings input, or ends what was read before it. -/
def SessionEvent.inputs : SessionEvent → Bool
  | .received _ => true
  | .upgraded => true
  | _ => false

theorem receivedSince_quiet (h : e.inputs = false) (t : List SessionEvent) :
    receivedSince (t ++ [e]) = receivedSince t := by
  rw [receivedSince_snoc]
  cases e with
  | received _ => cases h
  | upgraded => cases h
  | _ => rfl

theorem startsOver_of_unguarded (h : e.guarded = false) : e.startsOver = false := by
  cases e with
  | ready _ | called _ _ => cases h
  | _ => rfl

theorem inert_of_guarded (h : e.guarded = true) (hs : e.startsOver = false) : e.inert = true := by
  cases e with
  | called call ctx =>
    cases call with
    | data => cases hs
    | _ => rfl
  | line _ | saslLine _ | sent _ | ready _ => rfl
  | _ => cases h

theorem inputs_of_guarded (h : e.guarded = true) : e.inputs = false := by
  cases e <;> first | rfl | cases h

theorem unguarded_of_passive (h : e.passive = true) : e.guarded = false := by
  simpa using (Bool.and_eq_true_iff.mp h).1

variable {talk : Bool}

theorem mild_of_passive (h : e.passive = true) : e.mild talk = true := by
  cases e with
  | sent _ => cases h
  | _ => exact h

theorem inert_of_passive (h : e.passive = true) : e.inert = true :=
  (Bool.and_eq_true_iff.mp h).2

theorem inert_of_mild (h : e.mild talk = true) : e.inert = true := by
  cases e with
  | sent _ => rfl
  | _ => exact inert_of_passive h

theorem startsOver_of_mild (h : e.mild talk = true) : e.startsOver = false := by
  cases e with
  | sent _ => rfl
  | _ => exact startsOver_of_unguarded (unguarded_of_passive h)

theorem view_append_mild (t ext : List SessionEvent)
    (h : ∀ e ∈ ext, e.mild talk = true) : view options (t ++ ext) = view options t := by
  induction ext using List.reverseRecOn with
  | nil => rw [append_nil]
  | append_singleton ext e ih =>
    rw [← append_assoc, view_snoc, View.step_of_inert
        (inert_of_mild (h e (mem_append_right _ (mem_singleton.mpr rfl))))]
    exact ih fun e' he' => h e' (mem_append_left _ he')

theorem allowed_of_unguarded (h : e.guarded = false) (options : ServerSessionOptions)
    (before : List SessionEvent) : Allowed options before e := by
  cases e with
  | ready _ | called _ _ | line _ | saslLine _ | sent _ => cases h
  | _ => exact trivial

/-- From `s` to `s'` nothing happened that matters to the protocol, apart from replies
where the engine may talk. -/
structure Steady (talk : Bool) (s s' : EngineState) : Prop where
  context : s'.context = s.context
  trace : ∃ ext, s'.trace = s.trace ++ ext ∧ ∀ e ∈ ext, e.mild talk = true
  feeds : SmtpLineReader.Feeds (receivedSince s.trace) s.reader →
    SmtpLineReader.Feeds (receivedSince s'.trace) s'.reader

theorem Steady.refl (s : EngineState) : Steady talk s s :=
  ⟨rfl, ⟨[], (append_nil _).symm, fun e he => by cases he⟩, id⟩

theorem Steady.trans {s1 s2 s3 : EngineState} (h : Steady talk s1 s2) (h' : Steady talk s2 s3) :
    Steady talk s1 s3 := by
  obtain ⟨ext, ht, hp⟩ := h.trace
  obtain ⟨ext', ht', hp'⟩ := h'.trace
  refine ⟨h'.context.trans h.context, ⟨ext ++ ext', ?_, ?_⟩, fun hf => h'.feeds (h.feeds hf)⟩
  · rw [ht', ht, append_assoc]
  · exact forall_mem_append.mpr ⟨hp, hp'⟩

/-- Fields outside the protocol may change freely. -/
theorem Steady.of_eq {s s' : EngineState} (hc : s'.context = s.context)
    (ht : s'.trace = s.trace) (hr : s'.reader = s.reader) : Steady talk s s' := by
  refine ⟨hc, ⟨[], ht.trans (append_nil _).symm, fun e he => (by cases he)⟩, ?_⟩
  rw [ht, hr]
  exact id

/-- One more mild event; input is accounted for where it is read. -/
theorem Steady.log (s : EngineState) (h : e.mild talk = true) (hr : e.inputs = false) :
    Steady talk s { s with trace := s.trace ++ [e] } := by
  refine ⟨rfl, ⟨[e], rfl, ?_⟩, ?_⟩
  · intro e' he'
    rw [mem_singleton.mp he']
    exact h
  · intro hf
    rwa [receivedSince_quiet hr]

/-- Every step of the program is steady, however it ends. -/
def Calm {α : Type} (talk : Bool) (x : EngineM α) : Prop :=
  ∀ s, x.wp (fun _ s' => Steady talk s s') (fun _ s' => Steady talk s s')
    (fun _ s' => Steady talk s s') s

namespace Calm

variable {α β : Type}

theorem pure (a : α) : Calm talk (Pure.pure a : EngineM α) := fun s => Steady.refl s

theorem ret (u : Unit) : Calm talk (Program.ret u : EngineM α) := fun s => Steady.refl s

theorem raise (e : EngineError) : Calm talk (Program.raise e : EngineM α) := fun s => Steady.refl s

theorem get : Calm talk (Program.get : EngineM EngineState) := fun s => Steady.refl s

theorem bind {x : EngineM α} {f : α → EngineM β} (hx : Calm talk x) (hf : ∀ a, Calm talk (f a)) :
    Calm talk (x >>= f) := by
  intro s
  refine wp_seq (hx s) ?_
  intro a s1 h1
  refine wp_mono (hf a s1) ?_ ?_ ?_ <;>
  · intro _ s2 h2
    exact h1.trans h2

theorem log {e : SessionEvent} (h : e.mild talk = true) (hr : e.inputs = false) :
    Calm talk (Engine.log e) := fun s => Steady.log s h hr

theorem modify {f : EngineState → EngineState}
    (hc : ∀ s, (f s).context = s.context := by intro; rfl)
    (ht : ∀ s, (f s).trace = s.trace := by intro; rfl)
      (hr : ∀ s, (f s).reader = s.reader := by intro; rfl) :
    Calm talk (Program.modify f : EngineM Unit) := fun s => Steady.of_eq (hc s) (ht s) (hr s)

theorem ite {c : Prop} [Decidable c] {x y : EngineM α} (hx : Calm talk x) (hy : Calm talk y) :
    Calm talk (if c then x else y) := by
  split
  · exact hx
  · exact hy

end Calm

namespace Engine

variable (world : World) (options : ServerSessionOptions)
variable {R : Unit → EngineState → Prop} {E : EngineError → EngineState → Prop}

/-- What goes on after an event was recorded. -/
theorem wp_log {e : SessionEvent} {f : Unit → EngineM α} {Q : α → EngineState → Prop}
    {s : EngineState} :
    (log e >>= f).wp Q R E s ↔ (f ()).wp Q R E { s with trace := s.trace ++ [e] } := by
  rw [wp_bind, log, wp_modify]

theorem calm_send (r : SmtpReply) : Calm true (send options r) := by
  refine Calm.get.bind fun s => ?_
  split
  · exact Calm.raise _
  · refine Calm.bind Calm.modify fun _ => ?_
    exact Calm.log rfl rfl

theorem calm_interruption : Calm talk (interruption world options) := by
  refine Calm.get.bind fun s => ?_
  split
  · exact Calm.pure _
  · refine Calm.ite (Calm.pure _) ?_
    split
    · exact Calm.pure _
    · refine Calm.bind Calm.modify fun _ => ?_
      exact Calm.log rfl rfl
  · exact Calm.modify

theorem calm_flush : Calm talk (flush world options) :=
  Calm.bind Calm.modify fun _ =>
    calm_interruption world options

theorem calm_pull : Calm talk (pull world options) :=
  (calm_interruption world options).bind fun _ => Calm.get.bind fun _ =>
    Calm.ite (Calm.pure _) (Calm.pure _)

theorem calm_sendSome (r : Option SmtpReply) : Calm true (sendSome options r) := by
  cases r with
  | none => exact Calm.pure _
  | some r => exact calm_send options r

theorem calm_errorReply (r : Option SmtpReply) : Calm true (errorReply options r) := by
  refine (calm_sendSome options r).bind fun _ => ?_
  refine Calm.bind Calm.modify fun _ => ?_
  refine Calm.get.bind fun s => ?_
  exact Calm.ite ((calm_send options _).bind fun _ => Calm.pure _) (Calm.pure _)

theorem calm_lineError (error : LineError) : Calm true (lineError world options error) := by
  refine Calm.ite (calm_errorReply options _) ?_
  refine (calm_send options _).bind fun _ => ?_
  exact Calm.ite ((calm_flush world options).bind fun _ => Calm.pure _) (calm_errorReply options _)

/-- Reading is steady, and a line comes out of the octets received. -/
theorem wp_nextEvent (fuel : ℕ) (s : EngineState)
    (hf : SmtpLineReader.Feeds (receivedSince s.trace) s.reader) : (nextEvent world options fuel).wp
      (fun ev s' => Steady talk s s' ∧ ∀ l, ev = .inl (.line l) →
        l ++ [CR, LF] <:+: receivedSince s'.trace)
      (fun _ s' => Steady talk s s') (fun _ s' => Steady talk s s') s := by
  induction fuel generalizing s with
  | zero => exact Steady.refl s
  | succ fuel ih =>
    obtain ⟨hnext, hline⟩ := hf.next
    have h1 : Steady talk s { s with reader := s.reader.next.2 } :=
      ⟨rfl, ⟨[], (append_nil _).symm, fun e he => (by cases he)⟩, fun _ => hnext⟩
    rw [nextEvent, wp_bind, wp_get, wp_bind, wp_modify]
    cases hev : s.reader.next.1 with
    | some ev =>
      refine ⟨h1, ?_⟩
      intro l hl
      refine hline l ?_
      rw [hev]
      injection hl with hl
      rw [hl]
    | none =>
      rw [wp_bind]
      refine wp_mono (calm_flush world options _) ?_ (fun _ _ h => h1.trans h)
        (fun _ _ h => h1.trans h)
      intro _ s2 h2
      rw [wp_bind]
      have h12 := h1.trans h2
      refine wp_mono (calm_pull world options s2) ?_ (fun _ _ h => h12.trans h)
        (fun _ _ h => h12.trans h)
      intro got s3 h3
      have h13 := h12.trans h3
      cases got with
      | chunk bytes =>
        -- The octets are pushed and recorded in one go.
        have h4 : Steady talk s3 { s3 with
            reader := s3.reader.push bytes, trace := s3.trace ++ [.received bytes] } := by
          refine ⟨rfl, ⟨[.received bytes], rfl, ?_⟩, ?_⟩
          · intro e he
            rw [mem_singleton.mp he]
            rfl
          · intro hf₃
            have := hf₃.push bytes
            rw [receivedSince_snoc]
            exact this
        have h₁₄ := h13.trans h4
        refine wp_mono (ih _ (h₁₄.feeds hf)) ?_ ?_ ?_
        · rintro ev s5 ⟨h5, hl₅⟩
          exact ⟨h₁₄.trans h5, hl₅⟩
        · exact fun _ _ h5 => h₁₄.trans h5
        · exact fun _ _ h5 => h₁₄.trans h5
      | end_ | timeout | closed => exact ⟨h13, nofun⟩

/-! ## The invariant -/

/-- Every event so far had its reason. -/
def Trail (s : EngineState) : Prop := Guarded (Allowed options) s.trace

/-- Where the engine is: at a command, in the DATA handler once the hook is called, or
behind the message, until it turns to the next command. -/
inductive Phase where
  | command
  | message
  | done

/-- The transaction whose message is read is over for the protocol, not yet for the
engine. -/
def Phase.context : Phase → SessionContext → SessionContext
  | .message, ctx => { ctx with transaction := none }
  | .command, ctx | .done, ctx => ctx

/-- Whether the DATA hook has been called since the engine turned to the command. -/
def Phase.admits : Phase → Option (List SessionEvent) → Prop
  | .command, since => since = none
  | .message, since => since ≠ none
  | .done, _ => True

/-- Replies need no reason at a command. -/
def Phase.talks : Phase → Bool
  | .command => true
  | .message | .done => false

/-- Between two steps of the engine its context is what the history tells. -/
structure Inv (p : Phase) (s : EngineState) : Prop where
  trail : Guarded (Allowed options) s.trace
  agrees : Matches options (p.context s.context) (view options s.trace)
  feeds : SmtpLineReader.Feeds (receivedSince s.trace) s.reader
  since : p.admits (sinceData s.trace)

/-- The program ends as `Q` says, or early, and then with its trail. -/
abbrev Ends {α : Type} (Q : α → EngineState → Prop) (x : EngineM α) (s : EngineState) : Prop :=
  x.wp Q (fun _ s' => Trail options s') (fun _ s' => Trail options s') s

/-- The program keeps the invariant while it runs, and its trail however it ends. -/
def Keeps {α : Type} (p : Phase) (x : EngineM α) : Prop :=
  ∀ s, Inv options p s → Ends options (fun _ s' => Inv options p s') x s

variable {options} {s s' : EngineState} {e : SessionEvent} {call : HookCall} {p : Phase}

theorem Phase.admits_map {since : Option (List SessionEvent)} (h : p.admits since)
    (f : List SessionEvent → List SessionEvent) : p.admits (since.map f) := by
  cases p with
  | command => exact Option.map_eq_none_iff.mpr h
  | message => exact fun hnone => h (Option.map_eq_none_iff.mp hnone)
  | done => trivial

/-- Where the engine may talk a reply is allowed, as no DATA hook has been called. -/
theorem trail_steady (h : Steady talk s s') (hout : talk = true → sinceData s.trace = none)
    (ht : Trail options s) : Trail options s' := by
  obtain ⟨ext, hext, hp⟩ := h.trace
  unfold Trail
  rw [hext]
  refine ht.append fun e he u hu => ?_
  cases e with
  | sent r =>
    intro since hsince
    rw [sinceData_append _ u fun e' he' => startsOver_of_mild (hp e' (hu he')),
      hout (hp _ he)] at hsince
    cases hsince
  | _ => exact allowed_of_unguarded (unguarded_of_passive (hp _ he)) options _

theorem Inv.trail_steady (hi : Inv options p s) (h : Steady p.talks s s') : Trail options s' := by
  refine Engine.trail_steady h (fun ht => ?_) hi.trail
  cases p with
  | command => exact hi.since
  | message | done => cases ht

theorem Inv.steady (hi : Inv options p s) (h : Steady p.talks s s') : Inv options p s' := by
  have htrail := hi.trail_steady h
  obtain ⟨ext, hext, hp⟩ := h.trace
  refine ⟨htrail, ?_, h.feeds hi.feeds, ?_⟩
  · rw [h.context, hext, view_append_mild options _ _ hp]
    exact hi.agrees
  · rw [hext, sinceData_append _ _ fun e he => startsOver_of_mild (hp e he)]
    exact Phase.admits_map hi.since _

/-- A guarded event with its reason. -/
theorem Inv.guarded (hi : Inv options p s) (hg : e.guarded = true) (hs : e.startsOver = false)
    (ha : Allowed options s.trace e) : Inv options p { s with trace := s.trace ++ [e] } := by
  refine ⟨hi.trail.snoc ha, ?_, ?_, ?_⟩
  · rw [view_snoc, View.step_of_inert (inert_of_guarded hg hs)]
    exact hi.agrees
  · rw [receivedSince_quiet (inputs_of_guarded hg)]
    exact hi.feeds
  · rw [sinceData_snoc _ _ hs]
    exact Phase.admits_map hi.since _

/-- The engine turns to the next command. -/
theorem Inv.ready (hi : Inv options .done s) :
    Inv options .command { s with trace := s.trace ++ [.ready s.context] } := by
  refine ⟨hi.trail.snoc hi.agrees, ?_, ?_, sinceData_ready _ _⟩
  · rw [view_snoc, View.step_of_inert rfl]
    exact hi.agrees
  · rw [receivedSince_quiet rfl]
    exact hi.feeds

/-- The DATA hook is called, and the transaction is over for the protocol. -/
theorem Inv.calledData (hi : Inv options .command s) (hc : CallAllowed options s.context .data) :
    Inv options .message { s with trace := s.trace ++ [.called .data s.context] } := by
  have hm : Matches options s.context _ := hi.agrees
  refine ⟨hi.trail.snoc ⟨hm, hc⟩, ?_, ?_, ?_⟩
  · rw [view_snoc]
    exact ⟨hm.secure.trans (Bool.or_false _).symm, hm.hello, hm.auth, rfl, nofun⟩
  · rw [receivedSince_quiet rfl]
    exact hi.feeds
  · rw [sinceData_called]
    exact nofun

/-- The engine forgets the transaction. -/
theorem Inv.ended (hi : Inv options .message s) :
    Inv options .done { s with context := { s.context with transaction := none } } :=
  ⟨hi.trail, hi.agrees, hi.feeds, trivial⟩

theorem Inv.done (hi : Inv options .command s) : Inv options .done s :=
  ⟨hi.trail, hi.agrees, hi.feeds, trivial⟩

/-- An event that needs no reason but changes the view, with the change of context
that goes with it. -/
theorem Inv.moved (hi : Inv options .command s) (hg : e.guarded = false) (hin : e.inputs = false)
    (ht : s'.trace = s.trace ++ [e]) (hr : s'.reader = s.reader)
    (hsecure : s'.context.secure = s.context.secure)
    (hhello : s'.context.hello = (e.greets <|> s.context.hello))
    (hauth : s'.context.auth = (e.identifies <|> s.context.auth))
    (htx : s'.context.transaction.map Transaction.recipients
      = ((view options s.trace).step e).transaction)
    (hlimit : ∀ tx, s'.context.transaction = some tx →
      tx.recipients.length ≤ options.maxRecipients) : Inv options .command s' := by
  have hs : e.secures = false := by
    cases e with
    | upgraded => cases hin
    | _ => rfl
  have hm : Matches options s.context _ := hi.agrees
  refine ⟨?_, ?_, ?_, ?_⟩
  · rw [ht]
    exact hi.trail.snoc (allowed_of_unguarded hg options _)
  · rw [ht, view_snoc]
    show Matches options s'.context _
    refine ⟨?_, ?_, ?_, htx, hlimit⟩
    · simpa [View.step, hs] using hsecure.trans hm.secure
    · simpa [View.step, hs, ← hm.hello] using hhello
    · simpa [View.step, hs, ← hm.auth] using hauth
  · rw [ht, hr, receivedSince_quiet hin]
    exact hi.feeds
  · rw [ht, sinceData_snoc _ _ (startsOver_of_unguarded hg)]
    exact Phase.admits_map hi.since _

theorem Keeps.bind {β : Type} {x : EngineM α} {f : α → EngineM β} (hx : Keeps options p x)
    (hf : ∀ a, Keeps options p (f a)) : Keeps options p (x >>= f) := by
  intro s hi
  exact wp_seq (hx s hi) (fun a s1 h1 => hf a s1 h1)

/-- A program may look at the state it runs in. -/
theorem keeps_get {f : EngineState → EngineM α}
    (hf : ∀ s, Inv options p s → Ends options (fun _ s' => Inv options p s') (f s) s) :
    Keeps options p (Program.get >>= f) := by
  intro s hi
  exact hf s hi

/-- A program that is steady where it ends early leaves the trail then. -/
theorem Inv.wp_steady {x : EngineM α} {P Q : α → EngineState → Prop} (hi : Inv options p s)
    (hx : x.wp P (fun _ s' => Steady p.talks s s') (fun _ s' => Steady p.talks s s') s)
    (hQ : ∀ a s', P a s' → Q a s') : Ends options Q x s :=
  wp_mono hx hQ (fun _ _ h => hi.trail_steady h) (fun _ _ h => hi.trail_steady h)

/-- A calm part first: the invariant still holds behind it, and nothing was moved. -/
theorem Inv.wp_calm {β : Type} {x : EngineM α} {f : α → EngineM β} {Q : β → EngineState → Prop}
    (hi : Inv options p s) (hx : Calm p.talks x)
    (hf : ∀ a s', Steady p.talks s s' → Inv options p s' → Ends options Q (f a) s') :
    Ends options Q (x >>= f) s := by
  rw [Ends, wp_bind]
  exact hi.wp_steady (hx s) fun a s1 h => hf a s1 h (hi.steady h)

theorem Inv.wp_nextEvent (hi : Inv options p s) (fuel : ℕ) :
    Ends options (fun ev s' => Inv options p s'
        ∧ ∀ l, ev = .inl (.line l) → l ++ [CR, LF] <:+: receivedSince s'.trace)
      (nextEvent world options fuel) s :=
  hi.wp_steady (Engine.wp_nextEvent world options fuel s hi.feeds) fun _ _ h => ⟨hi.steady h.1, h.2⟩

theorem keeps_of_calm {x : EngineM α} (hx : Calm p.talks x) : Keeps options p x :=
  fun s hi => hi.wp_steady (hx s) fun _ _ h => hi.steady h

/-- A reply that is allowed, whether it can be written or not. -/
theorem Inv.wp_send {r : SmtpReply} (hi : Inv options p s)
    (ha : Allowed options s.trace (.sent r)) :
    (send options r).wp (fun _ s' => Inv options p s') R (fun _ s' => Inv options p s') s := by
  unfold send
  rw [wp_bind, wp_get]
  split
  · exact hi
  · exact Inv.guarded (s := { s with outbox := _ }) { hi with } rfl rfl ha

theorem keeps_errorReply (r : Option SmtpReply) : Keeps options .command (errorReply options r) :=
  keeps_of_calm (calm_errorReply options r)

/-- A reply and a verdict: how most handlers end. -/
theorem keeps_reply (r : SmtpReply) (b : Bool) :
    Keeps options .command (do send options r; pure b : EngineM Bool) :=
  keeps_of_calm ((calm_send options r).bind fun _ => Calm.pure b)

/-! ## Hooks -/

/-- A hook is called in a context that allows it; its answer is recorded last, so
that the handler can move the context along with it. -/
theorem wp_callHook (present : Bool) (hi : Inv options .command s) (hd : call ≠ .data)
    (hc : CallAllowed options s.context call) : Ends options
      (fun ans s' => ∃ s1, Inv options .command s1 ∧ s1.context = s.context
        ∧ s' = { s1 with trace := s1.trace ++ [.answered call ans] })
      (callHook world options present call) s := by
  unfold callHook
  split
  · have hs : (SessionEvent.called call s.context).startsOver = false := by
      cases call with
      | data => exact absurd rfl hd
      | _ => rfl
    have h1 := hi.guarded (e := .called call s.context) rfl hs ⟨hi.agrees, hc⟩
    refine h1.wp_calm (calm_interruption world options) ?_
    intro _ s2 hsteady h2
    exact ⟨s2, h2, hsteady.context, rfl⟩
  · exact ⟨s, hi, rfl, rfl⟩

/-- An answer that changes nothing. -/
theorem Inv.answered (hi : Inv options p s) (hp : e.passive = true)
    (hr : e.inputs = false) : Inv options p { s with trace := s.trace ++ [e] } :=
  hi.steady (Steady.log s (mild_of_passive hp) hr)

open SessionEvent (greets opens accepts closes secures identifies passive guarded inert answered)

/-- A hook's answer changes nothing unless it greets, opens or accepts. -/
theorem passive_answered {ans : HookAnswer} (hg : (answered call ans).greets = none)
    (ho : (answered call ans).opens = false) (ha : (answered call ans).accepts = none) :
    (answered call ans).passive = true := by
  simp [passive, guarded, inert, closes, secures, identifies, hg, ho, ha]

theorem keeps_hello (verb : HelloVerb) (domain : String)
    (hi : Inv options .command { s with context := { s.context with transaction := none } }) :
    Ends options (fun _ s' => Inv options .command s') (hello world options verb domain) s := by
  unfold hello
  rw [Ends, wp_bind, setContext, wp_modify]
  refine wp_seq (wp_callHook world options.onHello hi nofun trivial) ?_
  rintro ans s' ⟨s1, h1, hctx, rfl⟩
  cases ans with
  | threw e => exact keeps_reply _ _ _ (h1.answered rfl rfl)
  | replied r =>
    show wp (if _ then _ else _) _ _ _ _
    split
    · rename_i hbad
      refine keeps_reply _ _ _ (h1.answered (passive_answered ?_ rfl rfl) rfl)
      simp [greets, hbad]
    · rename_i hgood
      have hgreets : (answered (.hello verb domain) (.replied r)).greets = some ⟨verb, domain⟩ := by
        simp [greets, hgood]
      refine keeps_reply _ _ _ ?_
      have htx : s1.context.transaction = none := by rw [hctx]
      refine h1.moved (e := .answered (.hello verb domain) (.replied r)) rfl rfl rfl rfl rfl
        ?_ rfl ?_ ?_
      · rw [hgreets]
        rfl
      · simp [View.step, closes, hgreets, htx]
      · intro tx h
        rw [htx] at h
        cases h

theorem keeps_mail (from_ : ReversePath) (params : MailParams) :
    Keeps options .command (mail world options from_ params) := by
  refine keeps_get fun s hi => ?_
  split
  · exact keeps_errorReply _ s hi
  split
  · exact keeps_errorReply _ s hi
  split
  · exact keeps_errorReply _ s hi
  split
  · exact keeps_reply _ _ s hi
  refine wp_seq (wp_callHook world options.onMail hi nofun trivial) ?_
  rintro ans s' ⟨s1, h1, hctx, rfl⟩
  cases ans with
  | threw e => exact keeps_reply _ _ _ (h1.answered rfl rfl)
  | replied r =>
    show wp (if _ then _ else _) _ _ _ _
    have hopens : (answered (.mail from_ params) (.replied r)).opens
        = (r.getD Replies.mailOk).isPositive := rfl
    split
    · rename_i hpos
      refine keeps_reply _ _ _ ?_
      refine h1.moved (e := .answered (.mail from_ params) (.replied r)) rfl rfl rfl rfl rfl rfl
        rfl ?_ ?_
      · simp [View.step, closes, greets, hopens, hpos]
      · intro tx h
        rw [← Option.some.inj h]
        exact Nat.zero_le _
    · rename_i hneg
      refine keeps_reply _ _ _ (h1.answered (passive_answered rfl ?_ rfl) rfl)
      simp [hopens, hneg]

theorem keeps_rcpt (to_ : ForwardPath) (params : RcptParams) :
    Keeps options .command (rcpt world options to_ params) := by
  refine keeps_get fun s hi => ?_
  split
  · exact keeps_errorReply _ s hi
  rename_i hhello
  cases htx : s.context.transaction with
  | none => exact keeps_errorReply _ s hi
  | some tx =>
    show wp (if _ then _ else _) _ _ _ _
    split
    · exact keeps_errorReply _ s hi
    split
    · exact keeps_reply _ _ s hi
    have hallowed : CallAllowed options s.context (.rcpt to_ params) := by
      refine ⟨hhello, ?_⟩
      rw [htx]
      exact nofun
    have h1 := hi.guarded (e := .called (.rcpt to_ params) s.context) rfl rfl ⟨hi.agrees, hallowed⟩
    refine h1.wp_calm (calm_interruption world options) ?_
    intro _ s2 hsteady h2
    have hctx : s2.context = s.context := hsteady.context
    rw [Ends, wp_bind, wp_get]
    cases world.onRcpt s2.trace with
    | error e =>
      exact keeps_reply _ _ _ (h2.answered rfl rfl)
    | ok r =>
      show wp (_ >>= _) _ _ _ _
      have haccepts : (answered (.rcpt to_ params) (.replied (some r))).accepts
          = if r.isPositive then some ⟨to_, params⟩ else none := rfl
      split
      · rename_i hpos
        refine keeps_reply _ _ _ ?_
        refine h2.moved (e := .answered (.rcpt to_ params) (.replied (some r))) rfl rfl rfl rfl rfl
          rfl rfl ?_ ?_
        · have hv : s2.context.transaction.map _ = _ := h2.agrees.transaction
          rw [hctx, htx] at hv
          simp [View.step, closes, greets, opens, haccepts, hpos, ← hv]
        · intro tx' h
          rw [← Option.some.inj h]
          -- The limit was checked before the hook was called.
          rw [length_append, length_singleton]
          omega
      · rename_i hneg
        refine keeps_reply _ _ _ (h2.answered (passive_answered rfl rfl ?_) rfl)
        simp [haccepts, hneg]

/-! ## DATA -/

theorem calm_pollHook (d : DataLoop) : Calm talk (pollHook world d) := by
  refine Calm.get.bind fun s => ?_
  split
  · exact Calm.pure _
  split
  · refine (Calm.log ?_ rfl).bind fun _ => Calm.pure _
    rename_i x _
    cases x <;> rfl
  · exact Calm.pure _

/-- Polling appends nothing unless the hook has settled. -/
theorem wp_pollHook_trace (d : DataLoop) (s : EngineState) : (pollHook world d).wp
      (fun d' s' => d'.rejection = d.rejection ∧ (d'.settled = none → s'.trace = s.trace)) R E
      s := by
  unfold pollHook
  rw [wp_bind, wp_get]
  cases d.settled with
  | some x => exact ⟨rfl, nofun⟩
  | none =>
    cases world.dataSettled s.trace with
    | some x => exact ⟨rfl, nofun⟩
    | none => exact ⟨rfl, fun _ => rfl⟩

/-- Waiting for the hook ends with its answer. -/
theorem wp_awaitHook (s : EngineState) : (awaitHook world options none).wp
      (fun x s' => Steady talk s s' ∧ ∃ ext, s'.trace = s.trace ++ ext
        ++ [.answered .data (dataAnswer x)]
        ∧ ∀ e ∈ ext, e.mild talk = true) (fun _ s' => Steady talk s s')
        (fun _ s' => Steady talk s s') s := by
  refine wp_seq (calm_interruption world options s) ?_
  intro _ s1 h1
  have hpass : (answered .data (dataAnswer (world.onData s1.trace))).mild talk = true := by
    cases world.onData s1.trace <;> rfl
  obtain ⟨ext, hext, hp⟩ := h1.trace
  refine ⟨h1.trans (Steady.log s1 hpass rfl), ext, ?_, hp⟩
  show s1.trace ++ [_] = _
  rw [hext]

theorem calm_awaitHook (settled : Option (Except String SmtpReply)) :
    Calm talk (awaitHook world options settled) := by
  cases settled with
  | some x => exact Calm.pure _
  | none =>
    intro s
    exact wp_mono (wp_awaitHook world s) (fun _ _ h => h.1) (fun _ _ h => h)
      (fun _ _ h => h)

theorem done_abandonData (d : DataLoop) (why : Pulled) (hi : Inv options .message s) :
    Ends options (fun _ s' => Inv options .done s') (abandonData world options d why) s := by
  refine wp_seq (keeps_of_calm (calm_awaitHook world _) s hi) ?_
  intro _ s1 h1
  show wp (if _ then _ else _) _ _ _ _
  split
  · -- what is said is no acceptance
    exact wp_mono (h1.ended.wp_send nofun) (fun _ _ h => h) (fun _ _ h => h) (fun _ _ h => h.trail)
  · exact h1.ended

/-- The end of an acceptable message is the last thing that happened, unless the hook
answered early. -/
def AtEnd (d : DataLoop) (s : EngineState) : Prop :=
  d.rejection = none → d.settled = none → ∃ read, sinceData s.trace = some (read ++ [.dataEnd none])

/-- The loop stops behind the transaction, or at the end of the message. -/
def Stopped (options : ServerSessionOptions) : Option DataLoop → EngineState → Prop
  | none, s => Inv options .done s
  | some d, s => Inv options .message s ∧ AtEnd d s

theorem wp_dataLoop (fuel : ℕ) (d : DataLoop) (s : EngineState) (hi : Inv options .message s) :
    Ends options (Stopped options) (dataLoop world options fuel d) s := by
  induction fuel generalizing d s with
  | zero => exact hi.trail
  | succ fuel ih =>
    refine wp_seq (hi.wp_nextEvent world (fuel + 1)) ?_
    rintro ev s1 ⟨h1, -⟩
    -- Going on after the hook was polled.
    have hagain : ∀ f : DataLoop → DataLoop, Ends options (Stopped options)
          (do let d' ← pollHook world d; dataLoop world options fuel (f d') :
            EngineM (Option DataLoop)) s1 := by
      intro f
      exact wp_seq (keeps_of_calm (calm_pollHook world d) s1 h1) fun d' => ih (f d')
    cases ev with
    | inr why =>
      refine wp_seq (done_abandonData world d why h1) ?_
      exact fun _ s2 h2 => h2
    | inl ev =>
      cases ev with
      | line l => exact hagain id
      | lineError e => exact hagain id
      | dataRejected reason =>
        exact hagain fun d' =>
          { d' with rejection := d'.rejection <|> some reason, destroyed := true }
      | data chunk =>
        refine wp_seq (keeps_of_calm (calm_pollHook world d) s1 h1) ?_
        intro d' s2 h2
        split
        · exact ih d' s2 h2
        · rw [wp_log]
          have h3 := h2.answered (e := .body chunk) rfl rfl
          refine wp_seq (keeps_of_calm (calm_interruption world options) _ h3) ?_
          exact fun _ s4 h4 => ih d' s4 h4
      | dataEnd size rejection =>
        rw [wp_log, wp_bind]
        have h2 := h1.answered (e := .dataEnd rejection) rfl rfl
        have hboth := wp_and (keeps_of_calm (calm_pollHook world d) _ h2)
          (wp_pollHook_trace world d _ (R := fun _ _ => True) (E := fun _ _ => True))
        refine wp_mono hboth ?_ (fun _ _ h => h.1) (fun _ _ h => h.1)
        rintro d' s3 ⟨h3, hrej, htrace⟩
        refine ⟨h3, ?_⟩
        intro hnone hset
        obtain ⟨read, hread⟩ := Option.ne_none_iff_exists'.mp h1.since
        refine ⟨read, ?_⟩
        have : rejection = none := by
          cases hr : d'.rejection with
          | some x => simp [hr] at hnone
          | none => simpa [hr] using hnone
        rw [htrace hset, sinceData_snoc _ _ rfl, hread, this]
        rfl

theorem dataRejectionReply_negative (reason : DataRejection) :
    (dataRejectionReply reason).isPositive = false := by
  cases reason <;> rfl

/-- **A positive final reply is the hook's own**, given after the whole message was
read. -/
theorem wp_finishData (d : DataLoop) (hi : Inv options .message s) (hend : AtEnd d s) :
    Ends options (fun r s' => Inv options .message s' ∧ Allowed options s'.trace (.sent r))
      (finishData world options d) s := by
  unfold finishData
  cases hrej : d.rejection with
  | some reason =>
    refine wp_seq (keeps_of_calm (calm_awaitHook world _) s hi) ?_
    intro _ s1 h1
    refine ⟨h1, fun _ _ hpos => ?_⟩
    rw [dataRejectionReply_negative] at hpos
    cases hpos
  | none =>
    cases hset : d.settled with
    | some x =>
      cases x with
      | error e => exact ⟨hi, nofun⟩
      | ok r =>
        refine ⟨hi, fun _ _ hpos => ?_⟩
        split at hpos
        · simp only [SmtpReply.isPositive, Bool.and_eq_true, decide_eq_true_eq] at hpos
          omega
        · cases hpos
    | none =>
      obtain ⟨read, hread⟩ := hend hrej hset
      show wp (_ >>= _) _ _ _ _
      rw [wp_bind]
      refine hi.wp_steady (wp_awaitHook world s) ?_
      rintro x s1 ⟨hs, ext, hext, hp⟩
      cases x with
      | error e => exact ⟨hi.steady hs, nofun⟩
      | ok r =>
        refine ⟨hi.steady hs, fun since hsince _ => ⟨read, ext, [], ?_⟩⟩
        rw [hext, sinceData_snoc _ _ rfl, sinceData_append _ _ fun e he =>
          startsOver_of_mild (hp e he),
          hread] at hsince
        rw [← Option.some.inj hsince]
        simp [dataAnswer]

theorem done_closeData (d : DataLoop) (hi : Inv options .message s) (hend : AtEnd d s) :
    Ends options (fun _ s' => Inv options .done s') (closeData world options d) s := by
  refine wp_seq (wp_finishData world d hi hend) ?_
  rintro final s1 ⟨h1, hallowed⟩
  rw [wp_bind]
  apply wp_handle
  refine wp_mono (h1.wp_send hallowed) ?_ (fun _ _ h => h) ?_
  · exact fun _ s2 h2 => h2.ended
  · -- The reply could not be written: the transaction ends all the same.
    exact fun e s2 h2 => h2.trail

/-- What keeps the invariant at a command leaves the engine ready for the next. -/
theorem Keeps.done {x : EngineM α} (hx : Keeps options .command x) (hi : Inv options .command s) :
    Ends options (fun _ s' => Inv options .done s') x s :=
  wp_mono (hx s hi) (fun _ _ h => h.done) (fun _ _ h => h) (fun _ _ h => h)

theorem done_data (fuel : ℕ) (hi : Inv options .command s) :
    Ends options (fun _ s' => Inv options .done s') (data world options fuel) s := by
  unfold data
  rw [Ends, wp_bind, wp_get]
  split
  · exact (keeps_errorReply _).done hi
  cases htx : s.context.transaction with
  | none => exact (keeps_errorReply _).done hi
  | some tx =>
    show wp (if _ then _ else _) _ _ _ _
    split
    · exact (keeps_errorReply _).done hi
    rename_i hsome
    refine hi.wp_calm (calm_send options _) ?_
    intro _ s1 hs1 h1
    refine h1.wp_calm (calm_flush world options) ?_
    intro _ s2 hs2 h2
    have hs := hs1.trans hs2
    rw [Ends, wp_bind, wp_get]
    cases hstart : s2.reader.startData (some options.maxSize) with
    | error m => exact h2.trail
    | ok reader =>
      rw [wp_bind, wp_modify, wp_bind, wp_get, wp_log]
      have h3 : Inv options .command { s2 with reader := reader } :=
        ⟨h2.trail, h2.agrees, h2.feeds.startData hstart, h2.since⟩
      have hctx : s2.context.transaction = some tx := by rw [hs.context, htx]
      have hallowed : CallAllowed options s2.context .data := by
        refine ⟨tx, hctx, ?_⟩
        intro hnil
        rw [hnil] at hsome
        exact hsome rfl
      refine wp_seq (wp_dataLoop world fuel {} _ (h3.calledData hallowed)) ?_
      intro d s5 h5
      cases d with
      | none => exact h5
      | some d =>
        rw [wp_bind]
        exact done_closeData world d h5.1 h5.2

/-! ## AUTH and STARTTLS -/

theorem keeps_challenge (fuel : ℕ) (base64 : String) :
    Keeps options .command (challenge world options fuel base64) := by
  unfold challenge
  intro s hi
  split
  · rw [Ends, wp_bind, wp_modify]
    have h1 : Inv options .command { s with outbox := s.outbox ++ ["334 " ++ base64 ++ "\r\n"] } :=
      { hi with }
    refine wp_seq (keeps_of_calm (calm_flush world options) _ h1) ?_
    intro _ s2 h2
    refine wp_seq (h2.wp_nextEvent world fuel) ?_
    rintro ev s3 ⟨h3, hline⟩
    split
    · split
      · exact h3.answered rfl rfl
      · exact h3.guarded rfl rfl (hline _ rfl)
    · exact h3.answered rfl rfl
    · exact h3.answered rfl rfl
  · exact hi.answered rfl rfl

theorem keeps_authLoop (fuel : ℕ) : Keeps options .command (authLoop world options fuel) := by
  induction fuel with
  | zero => exact keeps_of_calm (Calm.ret _)
  | succ fuel ih =>
    refine Keeps.bind (keeps_of_calm (calm_interruption world options)) fun _ => ?_
    refine keeps_get fun s hi => ?_
    split
    · exact hi
    · exact hi
    · exact ((keeps_challenge world (fuel + 1) _).bind fun _ => ih) s hi

theorem keeps_auth (fuel : ℕ) (mechanism : String) (ir : Option String) :
    Keeps options .command (auth world options fuel mechanism ir) := by
  refine keeps_get fun s hi => ?_
  show wp (if _ then _ else _) _ _ _ _
  split
  · exact keeps_errorReply _ s hi
  split
  · exact keeps_errorReply _ s hi
  split
  · exact keeps_errorReply _ s hi
  split
  · exact keeps_errorReply _ s hi
  split
  · exact keeps_errorReply _ s hi
  rename_i htls
  split
  · exact keeps_errorReply _ s hi
  rw [wp_log, wp_bind]
  have hallowed : CallAllowed options s.context
      (.auth mechanism (if ir = some "=" then some "" else ir)) := by
    intro hreq
    rw [hreq] at htls
    simpa using htls
  refine wp_mono (keeps_authLoop world fuel _
    (hi.guarded (e := .called (.auth _ _) s.context) rfl rfl ⟨hi.agrees, hallowed⟩)) ?_
    (fun _ _ h => h)
    (fun _ _ h => h)
  intro result s1 h1
  split
  · exact keeps_errorReply _ s1 h1
  · exact keeps_of_calm (p := .command) (calm_lineError world options _) s1 h1
  · exact h1
  · exact keeps_reply _ _ s1 h1
  · rename_i identity r
    refine keeps_reply _ _ _ ?_
    have hm : Matches options s1.context _ := h1.agrees
    refine h1.moved (e := .authenticated ⟨mechanism, identity⟩) rfl rfl rfl rfl rfl rfl rfl ?_
      hm.limit
    simpa [View.step, closes, greets, opens, accepts] using hm.transaction
  · exact keeps_errorReply _ s1 h1

/-- **After the upgrade everything starts over.** -/
theorem keeps_startTls : Keeps options .command (startTls world options) := by
  refine keeps_get fun s hi => ?_
  split
  · exact keeps_errorReply _ s hi
  split
  · exact keeps_errorReply _ s hi
  rw [Ends, wp_bind, wp_modify, wp_log]
  have h1 : Inv options .command { s with reader := s.reader.discardPending.1 } :=
    ⟨hi.trail, hi.agrees, SmtpLineReader.Feeds.discardPending, hi.since⟩
  have h2 := h1.answered (e := .discarded (world.buffered s.trace)) rfl rfl
  refine wp_seq (keeps_of_calm (p := .command) (calm_send options _) _ h2) ?_
  intro _ s3 h3
  refine wp_seq (keeps_of_calm (calm_flush world options) s3 h3) ?_
  intro _ s4 h4
  rw [wp_bind, wp_get, wp_log]
  have h5 := h4.guarded (e := .called .upgradeTls s4.context) rfl rfl ⟨h4.agrees, trivial⟩
  refine wp_seq (keeps_of_calm (calm_interruption world options) _ h5) ?_
  intro _ s6 h6
  rw [wp_bind, wp_get]
  cases world.upgradeTls s6.trace with
  | error e => exact h6
  | ok _ =>
    refine ⟨h6.trail.snoc trivial, ?_, ?_, ?_⟩
    · rw [view_snoc]
      refine ⟨?_, rfl, rfl, rfl, nofun⟩
      simp [View.step, secures, Phase.context]
    · rw [receivedSince_snoc]
      exact SmtpLineReader.feeds_new _
    · rw [sinceData_snoc _ _ rfl]
      exact Phase.admits_map h6.since _

/-! ## The session -/

/-- The command itself ends the transaction, and the handler follows at once. -/
theorem Inv.closing (hi : Inv options .command s) {cmd : SmtpCommand}
    (hc : (SessionEvent.command cmd).closes = true) :
    Inv options .command { s with
      trace := s.trace ++ [.command cmd], context := { s.context with transaction := none } } := by
  refine hi.moved (e := .command cmd) rfl rfl rfl rfl rfl rfl rfl ?_ nofun
  rw [View.step, if_pos hc]
  rfl

theorem done_command (fuel : ℕ) (hi : Inv options .command s) {line : List UInt8}
    (hline : line ++ [CR, LF] <:+: receivedSince s.trace) :
    Ends options (fun _ s' => Inv options .done s') (command world options fuel line) s := by
  unfold command
  rw [Ends, wp_bind, wp_get, wp_log]
  have h1 := hi.guarded (e := .line line) rfl rfl hline
  dsimp only
  split
  · exact (keeps_errorReply _).done h1
  rename_i cmd _
  rw [wp_log]
  -- Every command but EHLO, HELO and RSET leaves the view alone.
  have hinert : (SessionEvent.command cmd).closes = false →
      Inv options .command { s with trace := s.trace ++ [.line line] ++ [.command cmd] } := by
    intro hc
    refine h1.answered (e := .command cmd) ?_ rfl
    simp [passive, guarded, inert, hc, opens, secures, accepts, greets, identifies]
  cases cmd with
  | hello verb domain =>
    refine wp_mono (keeps_hello world verb domain (h1.closing rfl)) ?_ (fun _ _ h => h)
      (fun _ _ h => h)
    exact fun _ _ h => h.done
  | mail from_ params => exact (keeps_mail world from_ params).done (hinert rfl)
  | rcpt to_ params => exact (keeps_rcpt world to_ params).done (hinert rfl)
  | data => exact done_data world fuel (hinert rfl)
  | rset => exact (keeps_reply _ _).done (h1.closing rfl)
  | quit =>
    have hcalm : Calm true (do send options Replies.bye; flush world options; pure false) :=
      (calm_send options _).bind fun _ => (calm_flush world options).bind fun _ => Calm.pure _
    exact (keeps_of_calm (p := .command) hcalm).done (hinert rfl)
  | starttls => exact (keeps_startTls world).done (hinert rfl)
  | noop _ | help _ | vrfy _ => exact (keeps_reply _ _).done (hinert rfl)
  | auth mechanism ir => exact (keeps_auth world fuel mechanism ir).done (hinert rfl)

theorem keeps_mainLoop (fuel : ℕ) : Keeps options .done (mainLoop world options fuel) := by
  induction fuel with
  | zero => exact keeps_of_calm (Calm.ret _)
  | succ fuel ih =>
    refine keeps_get fun s hi => ?_
    split
    · exact hi
    have hcont : ∀ keepGoing : Bool,
        Keeps options .done (if keepGoing then mainLoop world options fuel else pure ()) := by
      intro keepGoing
      cases keepGoing with
      | true => exact ih
      | false => exact keeps_of_calm (Calm.pure _)
    rw [Ends, wp_log]
    refine wp_seq (hi.ready.wp_nextEvent world (fuel + 1)) ?_
    rintro ev s2 ⟨h2, hline⟩
    split
    · have hcalm : Calm true (do send options Replies.idleTimeout; flush world options) :=
        (calm_send options _).bind fun _ => calm_flush world options
      exact (keeps_of_calm (p := .command) hcalm).done h2
    · exact h2.done
    · rename_i error
      exact wp_seq ((keeps_of_calm (p := .command) (calm_lineError world options error)).done h2)
        hcont
    · exact wp_seq (done_command world (fuel + 1) h2 (hline _ rfl)) hcont
    · exact ih s2 h2.done

theorem inv_init : Inv options .command (init options) :=
  ⟨guarded_nil _, ⟨rfl, rfl, rfl, rfl, nofun⟩, SmtpLineReader.feeds_new _, rfl⟩

theorem done_run (fuel : ℕ) (hi : Inv options .command s) :
    Ends options (fun _ s' => Inv options .done s') (run world options fuel) s := by
  refine wp_seq (wp_callHook world options.onConnect hi nofun trivial) ?_
  rintro ans s' ⟨s1, h1, hctx, rfl⟩
  have h2 : Inv options .command { s1 with trace := s1.trace ++ [.answered .connect ans] } := by
    refine h1.answered ?_ rfl
    cases ans <;> rfl
  have hsend : Keeps options .command (send options (greeting options ans)) :=
    keeps_of_calm (p := .command) (calm_send options _)
  refine wp_seq (hsend.done h2) ?_
  intro _ s3 h3
  split
  · exact keeps_of_calm (calm_flush world options) s3 h3
  · exact keeps_mainLoop world fuel s3 h3

/-- Every session leaves a trail of events that all had their reason. -/
theorem session_trail (world : World) (options : ServerSessionOptions) (fuel : ℕ) :
    Guarded (Allowed options) (session world options fuel).trace := by
  have hcalm : Calm false (finish world options) := by
    refine Calm.get.bind fun s => ?_
    refine Calm.ite (Calm.pure _) ((calm_flush world options).bind fun _ => ?_)
    exact Calm.modify
  have hfinish : ∀ s, Trail options s →
      Ends options (fun _ s' => Trail options s') (finish world options) s := by
    intro s hs
    exact wp_mono (hcalm s) (fun _ _ h => trail_steady h nofun hs)
      (fun _ _ h => trail_steady h nofun hs) (fun _ _ h => trail_steady h nofun hs)
  refine Program.state_of_wp (P := Trail options) ?_
  rw [wp_bind]
  apply wp_handle
  refine wp_mono (done_run world fuel inv_init) ?_ (fun _ _ h => h) ?_
  · exact fun _ s1 h1 => hfinish s1 h1.trail
  · exact fun _ s1 h1 => hfinish s1 h1

end Engine

/-- A snapshot in a trail is what the history before it tells. -/
theorem matches_of_guarded {options : ServerSessionOptions} {before after : List SessionEvent}
    {ctx : SessionContext} (h : Guarded (Allowed options) (before ++ e :: after))
    (he : e.context? = some ctx) : Matches options ctx (view options before) := by
  have ha := h before e after rfl
  cases e with
  | ready c =>
    cases he
    exact ha
  | called call c =>
    cases he
    exact ha.1
  | _ => cases he

/-- A client that sends a message in one go, to hooks that accept everything; the
parser looks at the first letter only. -/
def friendlyWorld (input : List UInt8) : World where
  parseCommand line _ := match line.head? with
    | some 69 => .ok (.hello .ehlo "client.example")
    | some 77 => .ok (.mail .null {})
    | some 82 => .ok (.rcpt .postmaster {})
    | some 68 => .ok .data
    | _ => .error Replies.unknownCommand
  answer _ _ := .replied none
  onRcpt _ := .ok Replies.rcptOk
  dataSettled _ := none
  onData _ := .ok Replies.ok
  bodyDestroyed _ := false
  onAuth _ := .throw .connectionClosed
  upgradeTls _ := .error "no TLS"
  pull t := if receivedSince t = [] then .chunk input else .end_
  buffered _ := []
  interrupt _ := .nothing
  lineText _ := ""

-- EHLO, MAIL, RCPT, DATA, a line of text, the dot: the message is taken.
example : SessionEvent.answered .data (.replied (some Replies.ok)) ∈
    (Engine.session (friendlyWorld [69, 13, 10, 77, 13, 10, 82, 13, 10, 68, 13, 10, 104, 105, 13,
      10, 46, 13, 10]) { hostname := "mx.example", maxSize := 1000 } 9).trace := by
  decide +kernel

end Postroom.Smtp
