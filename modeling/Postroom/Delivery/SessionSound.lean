/-
What a client session may do and what its result says.

`Sound` is the contract of `runSession`: every MAIL, RCPT, DATA and body octet
comes after a verified TLS session when the policy demands one, every AUTH after
an authorised one, the outcomes cover the recipients, nobody is delivered without
two positive answers, and giving up on the host is only possible before MAIL.

The proof follows the session through its two phases. Until MAIL is sent the
state is `Opening`: nothing of the transaction is in the history and no outcome
is set. From then on it is `Sending`: the policy's gate has been passed and no
outcome says delivered. Both are kept by everything that only makes the history
grow, so each part of the program needs one short lemma.
-/
import Postroom.Delivery.Session

set_option autoImplicit false

namespace Postroom.Delivery

open Lib Smtp List
open Program (wp wp_bind wp_foldEach wp_get wp_handle wp_modify wp_mono wp_ret wp_seq)

/-! ## The contract -/

/-- A MAIL, RCPT or DATA line, or octets of the message. -/
def Event.inTransaction : Event → Bool
  | .sent .mail _ => true
  | .sent .rcpt _ => true
  | .sent .data _ => true
  | .wrote _ => true
  | _ => false

def Event.isAuth : Event → Bool
  | .sent .auth _ => true
  | _ => false

/-- The octets of the message written so far. -/
def written (trace : List Event) : List UInt8 :=
  (trace.filterMap fun
    | .wrote bytes => some bytes
    | _ => none).flatten

/-- The reply the session took as the answer to what it had written by `asked`:
between the two only replies arrived, and unless the server had sent a reply
ahead of time, so that one was still unread at `asked`, this one arrived in
between. -/
def Answered (asked : List Event) (stage : Stage) (reply : SmtpReply) (trace : List Event) : Prop :=
  ∃ rest after, trace = asked ++ rest ++ .got stage reply :: after ∧ OnlyArrivals rest
    ∧ (arrivals asked = reads asked → .arrived reply ∈ rest)

section Contract

variable (rt : Runtime) (target : Target) (request : DeliveryRequest)

/-- TLS was established on this connection and the policy accepted the peer. -/
def Verified (before : List Event) : Prop :=
  ∃ policy p reason, target.policy = some policy ∧ .secured p ∈ before
    ∧ verifyPeer rt policy p target.host = .ok ⟨true, reason⟩

/-- TLS was established and the runtime authorised the peer. -/
def Authorized (before : List Event) : Prop := ∃ p, .secured p ∈ before ∧ p.authorized = true

/-- What may follow a history. -/
def Allowed (before : List Event) (e : Event) : Prop :=
  (e.inTransaction = true → isMandatory target.policy = true → Verified rt target before)
    ∧ (e.isAuth = true → Authorized before)

/-- The recipient's own RCPT was answered with a 2xx. -/
def RcptAccepted (r : DeliveryRecipient) (trace : List Event) : Prop :=
  ∃ before params reply, Answered (before ++ [.sent .rcpt (rcptLine r.address params)]) .rcpt
    reply trace ∧ Positive reply

/-- The whole message was written, up to the final dot, and what was then read as
the answer is a 2xx; `r`'s RCPT had been accepted by then. -/
def Accepted (r : DeliveryRecipient) (trace : List Event) : Prop :=
  ∃ before tail chunks reply, request.message = .ok ⟨chunks, none⟩
    ∧ DotStuffer.wire chunks = .ok (written (before ++ [.wrote tail]))
    ∧ Answered (before ++ [.wrote tail]) .dataEnd reply trace ∧ Positive reply
    ∧ RcptAccepted r before

/-- What a result and the history of its connection have to do with each other. -/
structure Sound (result : SessionResult) (trace : List Event) : Prop where
  guarded : Guarded (Allowed rt target) trace
  covers : ∀ results, result = .definitive results →
    ∀ id, (results id).isSome = true ↔ ∃ r ∈ request.recipients, r.id = id
  delivered : ∀ results, result = .definitive results →
    ∀ id outcome, results id = some outcome → outcome.isDelivered = true →
      ∃ r ∈ request.recipients, r.id = id ∧ Accepted request r trace
  next : ∀ outcome, result = .next outcome → ∀ line, .sent .mail line ∉ trace

end Contract

/-! ## Histories that grow -/

variable {reply : SmtpReply} {asked trace : List Event}

theorem Answered.append {stage : Stage} (h : Answered asked stage reply trace) (u : List Event) :
    Answered asked stage reply (trace ++ u) := by
  obtain ⟨rest, after, htrace, hrest, hin⟩ := h
  refine ⟨rest, after ++ u, ?_, hrest, hin⟩
  rw [htrace, append_assoc, cons_append]

theorem RcptAccepted.append {r : DeliveryRecipient}
    (h : RcptAccepted r trace) (u : List Event) : RcptAccepted r (trace ++ u) := by
  obtain ⟨before, params, reply, hans, hpos⟩ := h
  exact ⟨before, params, reply, hans.append u, hpos⟩

/-- Replies being read in order, an unread reply is the only way to be early. -/
theorem Fifo.answered {s : SessionState} {rest : List Event} {stage : Stage} (hf : Fifo s)
    (ht : s.trace = asked ++ rest ++ [.got stage reply]) (hrest : OnlyArrivals rest) :
    Answered asked stage reply s.trace := by
  refine ⟨rest, [], ht, hrest, ?_⟩
  intro heven
  unfold Fifo at hf
  rw [ht, arrivals_append, arrivals_append, reads_append, reads_append, hrest.reads, heven] at hf
  have hrep : arrivals rest = reply :: s.queue := by
    simpa [arrivals, reads] using hf
  have hmem : reply ∈ arrivals rest := by
    rw [hrep]
    exact mem_cons_self ..
  obtain ⟨e, he, heq⟩ := mem_filterMap.mp hmem
  obtain ⟨r, rfl⟩ := hrest e he
  obtain rfl : r = reply := Option.some.inj heq
  exact he

@[simp] theorem written_append (t u : List Event) : written (t ++ u) = written t ++ written u := by
  unfold written
  rw [filterMap_append, flatten_append]

theorem OnlyArrivals.written {ext : List Event} (h : OnlyArrivals ext) : written ext = [] := by
  unfold Delivery.written
  rw [flatten_eq_nil_iff]
  rintro bytes hb
  obtain ⟨e, he, heq⟩ := mem_filterMap.mp hb
  obtain ⟨r, rfl⟩ := h e he
  cases heq

/-- Something that, once true of a history, stays true of it. -/
def Lasting (K : List Event → Prop) : Prop := ∀ t u, K t → K (t ++ u)

section Phases

variable (rt : Runtime) (peer : Peer) (target : Target) (request : DeliveryRequest)
  (cfg : SessionConfig)

/-- The policy's gate. -/
def Gate (trace : List Event) : Prop := isMandatory target.policy = true → Verified rt target trace

theorem Gate.lasting : Lasting (Gate rt target) := by
  intro t u h hm
  obtain ⟨policy, p, reason, hpol, hp, hv⟩ := h hm
  exact ⟨policy, p, reason, hpol, mem_append_left _ hp, hv⟩

theorem Authorized.lasting : Lasting Authorized := by
  rintro t u ⟨p, hp, ha⟩
  exact ⟨p, mem_append_left _ hp, ha⟩

/-! ## Before MAIL -/

/-- Nothing of a transaction has happened. -/
structure Opening (s : SessionState) : Prop where
  fifo : Fifo s
  guarded : Guarded (Allowed rt target) s.trace
  quiet : ∀ e ∈ s.trace, e.inTransaction = false
  results : s.results = fun _ => none
  out : s.inTransaction = false
  tls : ∀ p, s.tlsSocket = some p → .secured p ∈ s.trace

/-- The session has given up on the host. -/
def GaveUp (r : SessionResult) (s : SessionState) : Prop :=
  Opening rt target s ∧ ∃ outcome, r = .next outcome

/-- Run from `s`, the program ends before MAIL, and with `K` unless it gave up. -/
abbrev Opens {α : Type} (K : List Event → Prop) (x : Session α) (s : SessionState) : Prop :=
  x.wp (fun _ s' => Opening rt target s' ∧ K s'.trace) (GaveUp rt target)
    (fun _ s' => Opening rt target s') s

variable {rt peer target request cfg}

variable {ext : List Event} {s s' : SessionState} {outcome : AttemptOutcome} {K : List Event → Prop}
  {stage : Stage} {R Q : SessionResult → SessionState → Prop} {E : String → SessionState → Prop}
  {r : DeliveryRecipient} {done accepted : List DeliveryRecipient}
variable {e : Event} {α : Type}

section

variable (h : Opening rt target s)
include h

theorem Opening.grown (hg : Grown ext s s') (hquiet : ∀ e ∈ ext, e.inTransaction = false)
    (hauth : ∀ e ∈ ext, e.isAuth = true → Authorized s.trace) : Opening rt target s' := by
  refine ⟨hg.fifo h.fifo, ?_, ?_, hg.results.trans h.results, hg.inTransaction.trans h.out, ?_⟩
  · rw [hg.trace]
    refine h.guarded.append fun e he u _ => ⟨fun ht => ?_, fun ha => ?_⟩
    · rw [hquiet e he] at ht
      cases ht
    · exact Authorized.lasting _ _ (hauth e he ha)
  · intro e he
    rw [hg.trace] at he
    rcases mem_append.mp he with h1 | h1
    · exact h.quiet e h1
    · exact hquiet e h1
  · intro p hp
    rw [hg.trace]
    rcases hg.tlsSocket p hp with h1 | h1
    · exact mem_append_left _ (h.tls p h1)
    · exact mem_append_right _ h1

/-- Nothing was appended. -/
theorem Opening.still (hg : Grown [] s s') : Opening rt target s' :=
  h.grown hg nofun nofun

/-- One event was appended. -/
theorem Opening.grown_one (hg : Grown [e] s s')
    (hquiet : e.inTransaction = false) (hauth : e.isAuth = true → Authorized s.trace) :
    Opening rt target s' := by
  refine h.grown hg ?_ ?_
  · intro e' he'
    rw [mem_singleton.mp he']
    exact hquiet
  · intro e' he' ha
    rw [mem_singleton.mp he'] at ha
    exact hauth ha

theorem Opening.next : Sound rt target request (.next outcome) s.trace := by
  refine ⟨h.guarded, nofun, nofun, ?_⟩
  intro _ _ line hmem
  have := h.quiet _ hmem
  cases this

end

/-- A command that is neither of the transaction nor, before TLS is authorised,
AUTH. -/
theorem Opening.command (hK : Lasting K) (h : Opening rt target s) (hk : K s.trace) (line : String)
    (hquiet : (Event.sent stage line).inTransaction = false)
    (hauth : (Event.sent stage line).isAuth = true → Authorized s.trace) :
    Opens rt target K (Conn.command peer stage line) s := by
  refine wp_mono (Conn.wp_command peer stage line s) ?_ (fun _ _ h' => h') ?_
  · rintro r s' ⟨rest, hrest, hg⟩
    -- Arrivals and reads are never part of a transaction, so only the line counts.
    have hheard : ∀ e ∈ Event.sent stage line :: rest ++ [.got stage r],
        e = .sent stage line ∨ (e.inTransaction = false ∧ e.isAuth = false) := by
      intro e he
      rcases mem_cons.mp he with rfl | he
      · exact .inl rfl
      rcases mem_append.mp he with he | he
      · obtain ⟨r', rfl⟩ := hrest e he
        exact .inr ⟨rfl, rfl⟩
      · rw [mem_singleton.mp he]
        exact .inr ⟨rfl, rfl⟩
    refine ⟨h.grown hg ?_ ?_, ?_⟩
    · intro e he
      rcases hheard e he with rfl | ⟨h1, _⟩
      · exact hquiet
      · exact h1
    · intro e he ha
      rcases hheard e he with rfl | ⟨_, h1⟩
      · exact hauth ha
      · rw [h1] at ha
        cases ha
    · rw [hg.trace]
      exact hK _ _ hk
  · rintro e s' ⟨ext, rfl | rfl, hg⟩
    · exact h.still hg
    · exact h.grown_one hg hquiet hauth

theorem nextFromReply_next (text : Text) (target : Target) (stage : String) (r : SmtpReply) :
    ∃ outcome, nextFromReply text target stage r = .next outcome := by
  unfold nextFromReply
  split
  · exact ⟨_, rfl⟩
  · exact ⟨_, rfl⟩

theorem Opening.hello (hK : Lasting K) (h : Opening rt target s) (hk : K s.trace)
    (afterTls : Bool) : Opens rt target K (hello rt peer target cfg afterTls) s := by
  refine wp_seq (h.command hK hk _ rfl (fun ha => by cases ha)) ?_
  rintro ehlo s1 ⟨h₁, hk1⟩
  split
  · exact ⟨h₁, hk1⟩
  split
  · refine wp_seq (h₁.command hK hk1 _ rfl (fun ha => by cases ha)) ?_
    rintro helo s2 ⟨h₂, hk2⟩
    split
    · exact ⟨h₂, hk2⟩
    · exact ⟨h₂, nextFromReply_next ..⟩
  · exact ⟨h₁, nextFromReply_next ..⟩

/-! ## The TLS gate -/

theorem Grown.details (s : SessionState) (d : AttemptDetails) :
    Grown [] s { s with details := d } :=
  ⟨(append_nil _).symm, id, rfl, rfl, fun _ h => .inl h⟩

theorem Opening.details (h : Opening rt target s) (d : AttemptDetails) :
    Opening rt target { s with details := d } := h.still (Grown.details s d)

theorem Opening.failed (h : Opening rt target s) (hext : ext = [] ∨ ∃ e, ext = [.failed e])
    (hg : Grown ext s s') : Opening rt target s' := by
  rcases hext with rfl | ⟨e, rfl⟩
  · exact h.still hg
  · exact h.grown_one hg rfl nofun

theorem Opening.refuse (h : Opening rt target s) {Q : α → SessionState → Prop}
    (reason : String) : (refuse target reason : Session α).wp Q (GaveUp rt target)
      (fun _ s' => Opening rt target s') s := by
  unfold Delivery.refuse
  cases target.policy with
  | none => exact h
  | some policy =>
    rw [wp_bind, recordPolicy, wp_modify]
    refine wp_seq (Conn.wp_fail _ _) ?_
    rintro _ s2 ⟨ext, hext, hg⟩
    exact ⟨(h.details _).failed (hext.imp id fun he => ⟨_, he⟩) hg, _, rfl⟩

/-- Recording what the policy said changes nothing else. -/
theorem wp_note (verified : Bool) (reason : String) (tlsHappened : Bool) (s : SessionState) :
    (note target verified reason tlsHappened).wp (fun _ s' => Grown [] s s') R E s := by
  unfold note
  cases target.policy with
  | none => exact Grown.refl s
  | some policy =>
    dsimp only
    split
    · exact Grown.refl s
    · exact Grown.details s _

theorem Opening.note (h : Opening rt target s) (hK : Lasting K) (hk : K s.trace) (verified : Bool)
    (reason : String) (tlsHappened : Bool) : (note target verified reason tlsHappened).wp
      (fun _ s' => Opening rt target s' ∧ K s'.trace) R E s := by
  refine wp_mono (wp_note verified reason tlsHappened s) ?_ (fun _ _ h' => h')
    (fun _ _ h' => h')
  rintro _ s' hg
  refine ⟨h.still hg, ?_⟩
  rw [hg.trace]
  exact hK _ _ hk

theorem wp_orThrow {Q : α → SessionState → Prop} {x : Except String α}
    (hok : ∀ a, x = .ok a → Q a s) (herr : ∀ e, E e s) : (orThrow x).wp Q R E s := by
  cases x with
  | ok a => exact hok a rfl
  | error e => exact herr e

/-- A mandatory policy lets the session go on only with a verified peer. -/
theorem Opening.judge (h : Opening rt target s) {secure : TlsPeer}
    (hsec : Event.secured secure ∈ s.trace) :
    Opens rt target (Gate rt target) (judge rt target secure) s := by
  unfold Delivery.judge
  cases hpol : target.policy with
  | none =>
    refine ⟨h, fun hm => ?_⟩
    rw [hpol] at hm
    cases hm
  | some policy =>
    rw [Opens, wp_bind]
    refine wp_orThrow ?_ (fun _ => h)
    intro verdict hv
    split
    · exact h.refuse _
    · rename_i hpass
      refine h.note (Gate.lasting rt target) ?_ _ _ _
      intro hm
      rw [hpol] at hm
      obtain ⟨verified, reason⟩ := verdict
      cases verified with
      | false => exact absurd ⟨rfl, hm⟩ hpass
      | true => exact ⟨policy, secure, reason, hpol, hsec, hv⟩

/-- **The handshake opens the gate, or the host is given up.** -/
theorem Opening.upgrade (h : Opening rt target s) :
    Opens rt target (Gate rt target) (upgrade rt peer target cfg) s := by
  unfold Delivery.upgrade
  rw [Opens, wp_bind]
  apply wp_handle
  refine wp_mono (Conn.wp_startTls peer _ s) ?_ (fun _ _ h' => h') ?_
  · intro secure s1 hg
    have h₁ : Opening rt target s1 := h.grown_one hg rfl nofun
    have hsec : Event.secured secure ∈ s1.trace := by
      rw [hg.trace]
      exact mem_append_right _ (mem_singleton.mpr rfl)
    rw [wp_bind, wp_modify]
    refine wp_seq ((h₁.details _).judge hsec) ?_
    rintro _ s2 ⟨h₂, hgate⟩
    exact h₂.hello (Gate.lasting rt target) hgate true
  · rintro error s1 ⟨ext, hext, hg⟩
    have h₁ := h.failed hext hg
    split
    · exact h₁.refuse _
    · exact h₁

theorem Opening.secureSession (h : Opening rt target s) (caps : Capabilities) :
    Opens rt target (Gate rt target) (secureSession rt peer target cfg caps) s := by
  -- Without TLS the session goes on only where the policy is not mandatory.
  have hplain : ∀ {s : SessionState}, Opening rt target s → isMandatory target.policy ≠ true →
      ∀ reason, Opens rt target (Gate rt target)
        (do Delivery.note target false reason false; pure caps : Session Capabilities) s := by
    intro s h hm reason
    rw [Opens, wp_bind]
    exact h.note (Gate.lasting rt target) (fun hm' => absurd hm' hm) _ _ _
  unfold Delivery.secureSession
  split
  · refine wp_seq (h.command (K := fun _ => True) (fun _ _ _ => trivial) trivial _ rfl (fun
      ha => by cases ha)) ?_
    rintro starttls s1 ⟨h₁, -⟩
    split
    · exact h₁.upgrade
    split
    · exact h₁.refuse _
    · rename_i hm
      exact hplain h₁ hm _
  split
  · exact h.refuse _
  · rename_i hm
    exact hplain h hm _

/-! ## AUTH -/

theorem Opening.authenticate (hK : Lasting K) (h : Opening rt target s) (hk : K s.trace)
    (hauth : Authorized s.trace) (auth : SmarthostAuth) (caps : Capabilities) :
    Opens rt target K (authenticate rt peer target auth caps) s := by
  -- Every AUTH line keeps the authorised session that allowed it.
  have hK' : Lasting fun t => K t ∧ Authorized t := fun t u hk' =>
    ⟨hK t u hk'.1, Authorized.lasting t u hk'.2⟩
  have hline : ∀ {s : SessionState}, Opening rt target s → K s.trace ∧ Authorized s.trace →
      ∀ line, Opens rt target (fun t => K t ∧ Authorized t) (Conn.command peer .auth line) s :=
    fun h hk line =>
    h.command hK' hk line rfl fun _ => hk.2
  have hcont : ∀ {s : SessionState}, Opening rt target s → K s.trace ∧ Authorized s.trace →
      ∀ reply line, Opens rt target (fun t => K t ∧ Authorized t)
        (authContinue peer reply line) s := by
    intro s h hk reply line
    unfold authContinue
    split
    · exact hline h hk line
    · exact ⟨h, hk⟩
  have hfinal : ∀ {s : SessionState}, Opening rt target s → K s.trace → ∀ reply : SmtpReply,
      Opens rt target K (authFinal rt target reply) s := by
    intro s h hk reply
    unfold authFinal
    split
    · exact ⟨h, hk⟩
    · exact ⟨h, nextFromReply_next ..⟩
  show wp (if _ then _ else _) _ _ _ _
  split
  · refine wp_seq (hline h ⟨hk, hauth⟩ _) ?_
    rintro reply s1 ⟨h₁, hk1, -⟩
    exact hfinal h₁ hk1 reply
  split
  · refine wp_seq (hline h ⟨hk, hauth⟩ _) ?_
    rintro reply₁ s1 ⟨h₁, hk1⟩
    refine wp_seq (hcont h₁ hk1 _ _) ?_
    rintro reply₂ s2 ⟨h₂, hk2⟩
    refine wp_seq (hcont h₂ hk2 _ _) ?_
    rintro reply₃ s3 ⟨h3, hk₃, -⟩
    exact hfinal h3 hk₃ reply₃
  · exact ⟨h, _, rfl⟩

theorem Opening.smarthostLogin (hK : Lasting K) (h : Opening rt target s) (hk : K s.trace)
    (caps : Capabilities) : Opens rt target K (smarthostLogin rt peer target cfg caps) s := by
  unfold Delivery.smarthostLogin
  cases cfg.smarthost with
  | none => exact ⟨h, hk⟩
  | some auth =>
    rw [Opens, wp_bind, wp_get]
    cases htls : s.tlsSocket with
    | none => exact ⟨h, _, rfl⟩
    | some secure =>
      show wp (if _ then _ else _) _ _ _ _
      split
      · refine wp_seq (Conn.wp_fail _ s) ?_
        rintro _ s1 ⟨ext, hext, hg⟩
        exact ⟨h.failed (hext.imp id fun he => ⟨_, he⟩) hg, _, rfl⟩
      · rename_i hauth
        refine h.authenticate hK hk ⟨secure, h.tls secure htls, ?_⟩ auth caps
        simpa using hauth

/-! ## From MAIL on -/

variable (rt target request) in
/-- The gate has been passed and no outcome says delivered. -/
structure Sending (s : SessionState) : Prop where
  fifo : Fifo s
  guarded : Guarded (Allowed rt target) s.trace
  gate : Gate rt target s.trace
  inside : s.inTransaction = true
  keys : ∀ id, (s.results id).isSome = true → ∃ r ∈ request.recipients, r.id = id
  undelivered : ∀ id outcome, s.results id = some outcome → outcome.isDelivered = false

/-- No AUTH line; everything else may be sent now. -/
def NoAuth (ext : List Event) : Prop := ∀ e ∈ ext, e.isAuth = false

theorem NoAuth.append {t u : List Event} (ht : NoAuth t) (hu : NoAuth u) : NoAuth (t ++ u) :=
  forall_mem_append.mpr ⟨ht, hu⟩

theorem OnlyArrivals.noAuth (h : OnlyArrivals ext) : NoAuth ext := by
  intro e he
  obtain ⟨r, rfl⟩ := h e he
  rfl

theorem noAuth_singleton (h : e.isAuth = false) : NoAuth [e] := forall_mem_singleton.mpr h

/-- What a command and its answer append. -/
theorem OnlyArrivals.noAuth_command {rest : List Event} (hrest : OnlyArrivals rest) {line : String}
    {r : SmtpReply} (h : (Event.sent stage line).isAuth = false) :
    NoAuth (.sent stage line :: rest ++ [.got stage r]) :=
  (noAuth_singleton h).append (hrest.noAuth.append (noAuth_singleton rfl))

theorem Sending.grown (h : Sending rt target request s) (hg : Grown ext s s') (hext : NoAuth ext) :
    Sending rt target request s' := by
  refine ⟨hg.fifo h.fifo, ?_, ?_, hg.inTransaction.trans h.inside, ?_, ?_⟩
  · rw [hg.trace]
    refine h.guarded.append fun e he u _ => ⟨fun _ => Gate.lasting _ _ _ _ h.gate, fun ha => ?_⟩
    rw [hext e he] at ha
    cases ha
  · rw [hg.trace]
    exact Gate.lasting _ _ _ _ h.gate
  · rw [hg.results]
    exact h.keys
  · rw [hg.results]
    exact h.undelivered

theorem Sending.command (h : Sending rt target request s) (line : String)
    (hline : (Event.sent stage line).isAuth = false) : (Conn.command peer stage line).wp
      (fun r s' => ∃ rest, OnlyArrivals rest
        ∧ Grown (.sent stage line :: rest ++ [.got stage r]) s s') R
      (fun _ s' => Sending rt target request s') s := by
  refine wp_mono (Conn.wp_command peer stage line s) (fun _ _ h' => h') (fun _ _ h' => h') ?_
  rintro e s' ⟨ext, rfl | rfl, hg⟩
  · exact h.grown hg nofun
  · exact h.grown hg (noAuth_singleton hline)

/-! ### Outcomes -/

theorem classifyReply_isDelivered (text : Text) (r : SmtpReply) :
    (classifyReply text r).isDelivered = true ↔ Positive r := by
  unfold classifyReply
  by_cases hp : Positive r
  · simp [hp, AttemptOutcome.isDelivered]
  · simp only [hp, if_false, iff_false]
    split
    · simp [AttemptOutcome.isDelivered]
    split
    · simp [AttemptOutcome.isDelivered]
    · simp [AttemptOutcome.isDelivered]

theorem Sending.update (h : Sending rt target request s) (hr : r ∈ request.recipients)
    (ho : outcome.isDelivered = false) : Sending rt target request
      { s with results := Function.update s.results r.id (some outcome) } := by
  refine { h with keys := ?_, undelivered := ?_ }
  · intro id hid
    by_cases hrid : r.id = id
    · exact ⟨r, hr, hrid⟩
    · refine h.keys id ?_
      simpa [Function.update_of_ne (Ne.symm hrid)] using hid
  · intro id o hid
    by_cases hrid : id = r.id
    · subst hrid
      have : outcome = o := by simpa using hid
      rw [← this]
      exact ho
    · refine h.undelivered id o ?_
      simpa [Function.update_of_ne hrid] using hid

/-- Assigning one outcome to a list of recipients. -/
theorem foldl_update (l : List DeliveryRecipient) (outcome : AttemptOutcome)
    (results : ℕ → Option AttemptOutcome) (id : ℕ) :
    (l.foldl (fun (results : ℕ → Option AttemptOutcome) r =>
        Function.update results r.id (some outcome)) results) id
      = if ∃ r ∈ l, r.id = id then some outcome else results id := by
  induction l generalizing results with
  | nil => simp
  | cons r l ih =>
    rw [foldl_cons, ih]
    by_cases hl : ∃ r' ∈ l, r'.id = id
    · simp [hl]
    · by_cases hr : r.id = id
      · subst hr
        simp
      · have hne : id ≠ r.id := fun h => hr h.symm
        simp [hl, hr, Function.update_of_ne hne]

/-- The helper `all` fills in what is missing. -/
theorem all_apply (outcome : AttemptOutcome) (results : ℕ → Option AttemptOutcome) (id : ℕ) :
    all request outcome results id = if ∃ r ∈ request.recipients, r.id
      = id then results id <|> some outcome
        else results id := by
  unfold all
  induction request.recipients generalizing results with
  | nil => simp
  | cons r l ih =>
    rw [foldl_cons, ih]
    by_cases hr : r.id = id
    · subst hr
      by_cases hl : ∃ r' ∈ l, r'.id = r.id
      · cases results r.id <;> simp [hl]
      · simp [hl]
    · have hne : id ≠ r.id := fun h => hr h.symm
      by_cases hl : ∃ r' ∈ l, r'.id = id
      · simp [hl, hr, Function.update_of_ne hne]
      · simp [hl, hr, Function.update_of_ne hne]

/-- Outcomes that cover the recipients. -/
theorem sound_definitive {results : ℕ → Option AttemptOutcome}
    (hg : Guarded (Allowed rt target) trace)
    (hcovers : ∀ id, (results id).isSome = true ↔ ∃ r ∈ request.recipients, r.id = id)
    (hdel : ∀ id outcome, results id = some outcome → outcome.isDelivered = true →
      ∃ r ∈ request.recipients, r.id = id ∧ Accepted request r trace) :
    Sound rt target request (.definitive results) trace := by
  refine ⟨hg, ?_, ?_, nofun⟩
  · rintro _ ⟨⟩
    exact hcovers
  · rintro _ ⟨⟩
    exact hdel

theorem Sending.definitive (h : Sending rt target request s)
    (hall : ∀ r ∈ request.recipients, (s.results r.id).isSome = true) :
    Sound rt target request (.definitive s.results) s.trace := by
  refine sound_definitive h.guarded (fun id => ⟨h.keys id, ?_⟩) fun id outcome hres hdel => ?_
  · rintro ⟨r, hr, rfl⟩
    exact hall r hr
  · rw [h.undelivered id outcome hres] at hdel
    cases hdel

/-- One outcome for everyone who had none. -/
theorem sound_all {results : ℕ → Option AttemptOutcome} (hg : Guarded (Allowed rt target) trace)
    (hkeys : ∀ id, (results id).isSome = true → ∃ r ∈ request.recipients, r.id = id)
    (hundelivered : ∀ id outcome, results id = some outcome → outcome.isDelivered = false)
    (ho : outcome.isDelivered = false) :
    Sound rt target request (.definitive (all request outcome results)) trace := by
  refine sound_definitive hg (fun id => ?_) fun id o hid hdel => ?_
  · rw [all_apply]
    split
    · rename_i hin
      cases results id <;> simp [hin]
    · rename_i hout
      exact ⟨hkeys id, fun hin => absurd hin hout⟩
  · have hnot : o.isDelivered = false := by
      rw [all_apply] at hid
      cases hres : results id with
      | some o' =>
        rw [hres] at hid
        have : o' = o := by
          split at hid <;> exact Option.some.inj hid
        exact hundelivered id o (by rw [hres, this])
      | none =>
        rw [hres] at hid
        split at hid
        · rw [← Option.some.inj hid]
          exact ho
        · cases hid
    rw [hnot] at hdel
    cases hdel

/-! ### RCPT -/

variable (rt target request) in
/-- The loop has asked for the recipients `done`. -/
structure Polled (done accepted : List DeliveryRecipient) (s : SessionState) : Prop where
  sending : Sending rt target request s
  unwritten : written s.trace = []
  accepted_ok : ∀ r ∈ accepted, r ∈ request.recipients ∧ RcptAccepted r s.trace
  decided : ∀ r ∈ done, r ∈ accepted ∨ (s.results r.id).isSome = true

/-- A recipient with an outcome of its own is decided. -/
theorem Polled.update (h : Polled rt target request done accepted s) (hr : r ∈ request.recipients)
    (ho : outcome.isDelivered = false) : Polled rt target request (done ++ [r]) accepted
      { s with results := Function.update s.results r.id (some outcome) } := by
  refine ⟨h.sending.update hr ho, h.unwritten, h.accepted_ok, ?_⟩
  intro r' hr'
  by_cases hid : r'.id = r.id
  · right
    show (Function.update s.results r.id (some outcome) r'.id).isSome = true
    rw [hid, Function.update_self]
    rfl
  rcases mem_append.mp hr' with h1 | h1
  · refine (h.decided r' h1).imp id fun h2 => ?_
    show (Function.update s.results r.id (some outcome) r'.id).isSome = true
    rw [Function.update_of_ne hid]
    exact h2
  · exact absurd (by rw [mem_singleton.mp h1]) hid

/-- The history grows while the loop asks. -/
theorem Polled.grown (h : Polled rt target request done accepted s) (hg : Grown ext s s')
    (hext : NoAuth ext) (hw : written ext = []) : Polled rt target request done accepted s' := by
  refine ⟨h.sending.grown hg hext, ?_, ?_, ?_⟩
  · rw [hg.trace, written_append, h.unwritten, hw]
    rfl
  · intro r hr
    rw [hg.trace]
    exact ⟨(h.accepted_ok r hr).1, (h.accepted_ok r hr).2.append _⟩
  · rw [hg.results]
    exact h.decided

theorem written_command {rest : List Event} (hrest : OnlyArrivals rest) (stage : Stage)
    (line : String) (r : SmtpReply) : written (.sent stage line :: rest ++ [.got stage r])
      = [] := by
  have h : Event.sent stage line :: rest ++ [.got stage r]
      = [.sent stage line] ++ rest ++ [.got stage r] := rfl
  rw [h, written_append, written_append, hrest.written]
  rfl

theorem Polled.rcptTurn (h : Polled rt target request done accepted s) (hr : r ∈ request.recipients)
    (caps : Capabilities) : (rcptTurn rt peer caps accepted r).wp
      (fun accepted' => Polled rt target request (done ++ [r]) accepted') R
      (fun _ s' => Sending rt target request s') s := by
  unfold Delivery.rcptTurn
  split
  · exact h.update hr rfl
  · rw [wp_bind]
    refine wp_orThrow ?_ (fun _ => h.sending)
    intro params _
    refine wp_seq (h.sending.command _ rfl) ?_
    rintro rcpt s1 ⟨rest, hrest, hg⟩
    have h₁ := h.grown hg (hrest.noAuth_command rfl) (written_command hrest _ _ _)
    split
    · rename_i hpos
      have hans : RcptAccepted r s1.trace := by
        refine ⟨s.trace, params, rcpt, h₁.sending.fifo.answered ?_ hrest, hpos⟩
        rw [hg.trace]
        simp
      refine ⟨h₁.sending, h₁.unwritten, ?_, ?_⟩
      · intro r' hr'
        rcases mem_append.mp hr' with h2 | h2
        · exact h₁.accepted_ok r' h2
        · rw [mem_singleton.mp h2]
          exact ⟨hr, hans⟩
      · intro r' hr'
        rcases mem_append.mp hr' with h2 | h2
        · exact (h₁.decided r' h2).imp (mem_append_left _) id
        · exact .inl (mem_append_right _ h2)
    · rename_i hpos
      refine h₁.update hr ?_
      rw [← Bool.not_eq_true, classifyReply_isDelivered]
      exact hpos

/-! ### The body -/

theorem pushAll_snoc (d : DotStuffer) (chunks : List (List UInt8)) (chunk : List UInt8)
    {d1 d2 : DotStuffer} {out out' : List UInt8} (h : d.pushAll chunks = .ok (d1, out))
    (h' : d1.push chunk = .ok (d2, out')) : d.pushAll (chunks ++ [chunk])
      = .ok (d2, out ++ out') := by
  induction chunks generalizing d out with
  | nil =>
    injection h with h
    injection h with h₁ h₂
    subst h₁
    subst h₂
    simp [DotStuffer.pushAll, h', bind, Except.bind]
  | cons c cs ih =>
    rw [DotStuffer.pushAll] at h
    rw [cons_append, DotStuffer.pushAll]
    cases hc : d.push c with
    | error e =>
      rw [hc] at h
      cases h
    | ok p =>
      obtain ⟨dc, outc⟩ := p
      rw [hc] at h
      cases hcs : dc.pushAll cs with
      | error e =>
        simp [hcs, bind, Except.bind] at h
      | ok q =>
        obtain ⟨dcs, outcs⟩ := q
        have h : dcs = d1 ∧ outc ++ outcs = out := by
          simpa [hcs, bind, Except.bind] using h
        obtain ⟨rfl, rfl⟩ := h
        simp [ih dc hcs, bind, Except.bind]

/-- The body loop, from the state `s₀` it started in: what was written is what the
encoder made of the chunks so far. -/
def Streamed (s₀ : SessionState) (done : List (List UInt8)) (stuffer : DotStuffer)
    (s : SessionState) : Prop :=
  ∃ ext, Grown ext s₀ s ∧ NoAuth ext ∧ DotStuffer.pushAll {} done = .ok (stuffer, written ext)

theorem Streamed.bodyTurn {s₀ : SessionState} {done : List (List UInt8)} {stuffer : DotStuffer}
    (h0 : Sending rt target request s₀) (h : Streamed s₀ done stuffer s) (chunk : List UInt8) :
    (bodyTurn peer stuffer chunk).wp (fun stuffer' => Streamed s₀ (done ++ [chunk]) stuffer') R
      (fun _ s' => Sending rt target request s') s := by
  obtain ⟨ext, hg, hna, hpush⟩ := h
  unfold Delivery.bodyTurn
  rw [wp_bind]
  refine wp_mono (Conn.wp_pause peer s) ?_ (fun _ _ h' => h') ?_
  · rintro _ s1 ⟨rest, hrest, hg1⟩
    have hgs := hg.trans hg1
    have hna1 := hna.append hrest.noAuth
    rw [wp_bind]
    refine wp_orThrow ?_ (fun _ => h0.grown hgs hna1)
    rintro ⟨stuffer', out⟩ hout
    have hsnoc := pushAll_snoc {} done chunk hpush hout
    show wp (if _ then _ else _) _ _ _ _
    split
    · rw [wp_bind]
      refine wp_mono (Conn.wp_write peer out s1) ?_ (fun _ _ h' => h') ?_
      · rintro _ s2 ⟨rest2, hrest2, hg2⟩
        refine ⟨_, hgs.trans hg2, hna1.append
          ((noAuth_singleton (e := .wrote out) rfl).append hrest2.noAuth), ?_⟩
        rw [hsnoc, ← singleton_append, written_append, written_append, written_append,
          hrest.written, hrest2.written]
        simp [written]
      · rintro e s2 ⟨ext2, rfl | rfl, hg2⟩
        · exact h0.grown (hgs.trans hg2) (hna1.append nofun)
        · exact h0.grown (hgs.trans hg2) (hna1.append (noAuth_singleton rfl))
    · rename_i hempty
      refine ⟨_, hgs, hna1, ?_⟩
      have : out = [] := by
        cases out with
        | nil => rfl
        | cons b bs => exact absurd (Nat.succ_pos _) hempty
      rw [hsnoc, written_append, hrest.written, this]
  · rintro e s1 hg1
    exact h0.grown (hg.trans hg1) (hna.append nofun)

/-- **The body is written whole or the session throws.** -/
theorem Sending.streamBody (h : Sending rt target request s) : (streamBody peer request).wp
      (fun _ s' => ∃ ext tail chunks rest, request.message = .ok ⟨chunks, none⟩
        ∧ DotStuffer.wire chunks = .ok (written (ext ++ [.wrote tail])) ∧ OnlyArrivals rest
        ∧ NoAuth (ext ++ [.wrote tail] ++ rest) ∧ Grown (ext ++ [.wrote tail] ++ rest) s s') R
      (fun _ s' => Sending rt target request s') s := by
  unfold Delivery.streamBody
  rw [wp_bind]
  refine wp_orThrow ?_ (fun _ => h)
  rintro ⟨chunks, error⟩ hmsg
  have hloop := wp_foldEach (f := bodyTurn peer) (R := R)
    (E := fun _ s' => Sending rt target request s') (Streamed s) [] chunks {} s
    ⟨[], Grown.refl s, nofun, rfl⟩
    fun done chunk _ stuffer s' h' => h'.bodyTurn h chunk
  refine wp_seq hloop ?_
  rintro stuffer s1 ⟨ext, hg, hna, hpush⟩
  rw [wp_bind]
  refine wp_mono (Conn.wp_pause peer s1) ?_ (fun _ _ h' => h') ?_
  · rintro _ s2 ⟨rest, hrest, hg2⟩
    have hgs := hg.trans hg2
    have hna2 := hna.append hrest.noAuth
    cases error with
    | some e => exact h.grown hgs hna2
    | none =>
      rw [wp_bind]
      refine wp_orThrow ?_ (fun _ => h.grown hgs hna2)
      rintro ⟨stuffer', tail⟩ htail
      refine wp_mono (Conn.wp_write peer tail s2) ?_ (fun _ _ h' => h') ?_
      · rintro _ s3 ⟨rest3, hrest3, hg3⟩
        refine ⟨ext ++ rest, tail, chunks, rest3, hmsg, ?_, hrest3, ?_, ?_⟩
        · rw [DotStuffer.wire, ← nil_append chunks, hpush]
          simp [bind, Except.bind, htail, written_append, hrest.written]
          simp [written]
        · exact (hna2.append (noAuth_singleton rfl)).append hrest3.noAuth
        · rw [append_assoc]
          exact hgs.trans hg3
      · rintro e s3 ⟨ext3, rfl | rfl, hg3⟩
        · exact h.grown (hgs.trans hg3) (hna2.append nofun)
        · exact h.grown (hgs.trans hg3) (hna2.append (noAuth_singleton rfl))
  · rintro e s2 hg2
    exact h.grown (hg.trans hg2) (hna.append nofun)

/-! ### The whole transaction -/

/-- The last outcome goes to the accepted recipients; it may say delivered only
for those the server took the message for. -/
theorem Sending.finish (h : Sending rt target request s)
    (hacc : ∀ r ∈ accepted, r ∈ request.recipients)
    (hdec : ∀ r ∈ request.recipients, r ∈ accepted ∨ (s.results r.id).isSome = true)
    (hdel : outcome.isDelivered = true → ∀ r ∈ accepted, Accepted request r s.trace) :
    (do assignEach accepted outcome; Delivery.definitive : Session SessionResult).wp Q
      (fun r s' => Sound rt target request r s'.trace) E s := by
  refine sound_definitive h.guarded (fun id => ?_) fun id o hres ho => ?_
  · dsimp only
    rw [foldl_update]
    split
    · rename_i hin
      obtain ⟨r, hr, hid⟩ := hin
      exact ⟨fun _ => ⟨r, hacc r hr, hid⟩, fun _ => rfl⟩
    · rename_i hout
      refine ⟨h.keys id, ?_⟩
      rintro ⟨r, hr, rfl⟩
      rcases hdec r hr with h1 | h1
      · exact absurd ⟨r, h1, rfl⟩ hout
      · exact h1
  · dsimp only at hres ⊢
    rw [foldl_update] at hres
    split at hres
    · rename_i hin
      obtain ⟨r, hr, hid⟩ := hin
      rw [← Option.some.inj hres] at ho
      exact ⟨r, hacc r hr, hid, hdel ho r hr⟩
    · rw [h.undelivered id o hres] at ho
      cases ho

theorem Sending.definitiveAll (h : Sending rt target request s) (ho : outcome.isDelivered = false) :
    (definitiveAll request outcome : Session SessionResult).wp Q
      (fun r s' => Sound rt target request r s'.trace) E s := by
  exact sound_all h.guarded h.keys h.undelivered ho

/-- A positive reply where none is due is not taken for a delivery. -/
theorem isDelivered_replaced {other : AttemptOutcome} (h : other.isDelivered = false) :
    (if outcome.isDelivered = true then other else outcome).isDelivered = false := by
  split
  · exact h
  · rename_i hn
    simpa using hn

theorem Polled.dataPhase (h : Polled rt target request request.recipients accepted s) : (do
      Delivery.streamBody peer request let final ← Conn.read peer .dataEnd
      assignEach accepted (classifyReply rt.toText final)
      Delivery.definitive : Session SessionResult).wp
      (fun r s' => Sound rt target request r s'.trace)
      (fun r s' => Sound rt target request r s'.trace)
      (fun _ s' => Sending rt target request s') s := by
  refine wp_seq h.sending.streamBody ?_
  rintro _ s1 ⟨ext, tail, chunks, rest, hmsg, hwire, hrest, hna, hg⟩
  have h₁ := h.sending.grown hg hna
  rw [wp_bind]
  refine wp_mono (Conn.wp_read peer .dataEnd s1) ?_ (fun _ _ h' => h') ?_
  · rintro final s2 ⟨rest2, hrest2, hg2⟩
    have h₂ : Sending rt target request s2 :=
      h₁.grown hg2 (hrest2.noAuth.append (noAuth_singleton rfl))
    refine h₂.finish (fun r hr => (h.accepted_ok r hr).1) ?_ ?_
    · rw [hg2.results, hg.results]
      exact h.decided
    · intro hdel r hr
      refine ⟨s.trace ++ ext, tail, chunks, final, hmsg, ?_, ?_, ?_, ?_⟩
      · rw [hwire, append_assoc, written_append s.trace, h.unwritten, nil_append]
      · refine h₂.fifo.answered ?_ (hrest.append hrest2)
        rw [hg2.trace, hg.trace]
        simp
      · exact (classifyReply_isDelivered rt.toText final).mp hdel
      · exact (h.accepted_ok r hr).2.append ext
  · rintro e s2 hg2
    exact h₁.grown hg2 nofun

theorem Opening.transaction (h : Opening rt target s) (hgate : Gate rt target s.trace)
    (caps : Capabilities) :
    (transaction rt peer request caps).wp (fun r s' => Sound rt target request r s'.trace)
      (fun r s' => Sound rt target request r s'.trace)
      (fun _ s' => Sending rt target request s') s := by
  have h0 : Sending rt target request { s with inTransaction := true } := by
    refine ⟨h.fifo, h.guarded, hgate, rfl, ?_, ?_⟩
    · intro id hid
      rw [h.results] at hid
      cases hid
    · intro id o hid
      rw [h.results] at hid
      cases hid
  have hw0 : written s.trace = [] := by
    unfold written
    rw [flatten_eq_nil_iff]
    rintro bytes hb
    obtain ⟨e, he, heq⟩ := mem_filterMap.mp hb
    have := h.quiet e he
    cases e with
    | wrote _ => cases this
    | _ => cases heq
  unfold Delivery.transaction
  rw [wp_bind, wp_modify, wp_bind]
  refine wp_orThrow ?_ (fun _ => h0)
  intro params _
  refine wp_seq (h0.command _ rfl) ?_
  rintro mail s1 ⟨rest, hrest, hg⟩
  have h₁ := h0.grown hg (hrest.noAuth_command rfl)
  split
  · -- MAIL was refused, and its reply is everyone's outcome
    exact h₁.definitiveAll (isDelivered_replaced rfl)
  have hpolled : Polled rt target request [] [] s1 := by
    refine ⟨h₁, ?_, nofun, nofun⟩
    rw [hg.trace, written_append, written_command hrest, hw0]
    rfl
  have hloop := wp_foldEach (f := rcptTurn rt peer caps)
    (R := fun r s' => Sound rt target request r s'.trace)
    (E := fun _ s' => Sending rt target request s') (Polled rt target request) []
    request.recipients [] s1 hpolled fun done r hr accepted s' h' => h'.rcptTurn hr caps
  refine wp_seq hloop ?_
  intro accepted s2 h₂
  split
  · -- Nobody was accepted: everyone has an outcome already.
    rename_i hnone
    refine h₂.sending.definitive fun r hr => ?_
    rcases h₂.decided r hr with h3 | h3
    · rw [length_eq_zero_iff.mp hnone] at h3
      cases h3
    · exact h3
  refine wp_seq (h₂.sending.command _ rfl) ?_
  rintro data s3 ⟨rest3, hrest3, hg3⟩
  have h3 := h₂.grown hg3 (hrest3.noAuth_command rfl) (written_command hrest3 _ _ _)
  split
  · -- DATA was refused: the outcome of those accepted so far
    refine h3.sending.finish (fun r hr => (h3.accepted_ok r hr).1) h3.decided ?_
    intro hdel
    rw [isDelivered_replaced rfl] at hdel
    cases hdel
  · exact h3.dataPhase

/-! ## The session -/

theorem opening_init : Opening rt target {} :=
  ⟨rfl, guarded_nil _, nofun, rfl, rfl, nofun⟩

/-- An invalid sender is everyone's outcome before anything is sent. -/
theorem Opening.invalidSender (h : Opening rt target s) (ho : outcome.isDelivered = false) :
    (definitiveAll request outcome : Session SessionResult).wp Q
      (fun r s' => Sound rt target request r s'.trace) E s := by
  refine sound_all h.guarded ?_ ?_ ho
  · rw [h.results]
    nofun
  · rw [h.results]
    nofun

/-- Every throw leaves the session in one of its two phases. -/
theorem wp_attempt : (attempt rt peer target request cfg).wp
    (fun r s' => Sound rt target request r s'.trace)
      (fun r s' => Sound rt target request r s'.trace)
      (fun _ s' => Opening rt target s' ∨ Sending rt target request s') {} := by
  have hgaveUp : ∀ r s', GaveUp rt target r s' → Sound rt target request r s'.trace := by
    rintro r s' ⟨h, outcome, rfl⟩
    exact h.next
  unfold attempt
  rw [wp_bind]
  refine wp_mono (Conn.wp_read peer .greeting {}) ?_ (fun _ _ h => h)
    (fun _ _ hg => .inl (opening_init.still hg))
  rintro greeting s1 ⟨rest, hrest, hg⟩
  have h₁ : Opening rt target s1 := by
    refine opening_init.grown hg ?_ ?_
    · intro e he
      rcases mem_append.mp he with he | he
      · obtain ⟨r, rfl⟩ := hrest e he
        rfl
      · rw [mem_singleton.mp he]
        rfl
    · intro e he ha
      rw [(hrest.noAuth.append (noAuth_singleton rfl)) e he] at ha
      cases ha
  split
  · obtain ⟨outcome, hnext⟩ := nextFromReply_next rt.toText target "greeting" greeting
    rw [wp_ret, hnext]
    exact h₁.next
  rw [wp_bind]
  refine wp_mono (h₁.hello (K := fun _ => True) (fun _ _ _ => trivial) trivial false) ?_
    hgaveUp (fun _ _ h => .inl h)
  rintro caps1 s2 ⟨h₂, -⟩
  rw [wp_bind]
  refine wp_mono (h₂.secureSession caps1) ?_ hgaveUp (fun _ _ h => .inl h)
  rintro caps2 s3 ⟨h3, hgate3⟩
  rw [wp_bind]
  refine wp_mono (h3.smarthostLogin (Gate.lasting rt target) hgate3 caps2) ?_ hgaveUp
    (fun _ _ h => .inl h)
  rintro _ s4 ⟨h4, hgate4⟩
  split
  · exact h4.invalidSender rfl
  · exact wp_mono (h4.transaction hgate4 caps2) (fun _ _ h => h) (fun _ _ h => h)
      (fun _ _ h => .inr h)

theorem grown_dropConnection (error : String) (s : SessionState) :
    ∃ ext, (ext = [] ∨ ∃ e, ext = [Event.failed e]) ∧ Grown ext s (dropConnection error s) := by
  unfold dropConnection
  cases s.failure with
  | some e => exact ⟨[], .inl rfl, Grown.refl s⟩
  | none =>
    exact ⟨_, .inr ⟨error, rfl⟩, ⟨rfl, fun hf => hf.event, rfl, rfl, fun _ h => .inl h⟩⟩

/-- Before MAIL a throw gives the host up; from MAIL on it is an outcome for
everyone who has none. -/
theorem onError_sound (error : String) (h : Opening rt target s ∨ Sending rt target request s) :
    Sound rt target request (onError target request error s).1
    (onError target request error s).2.trace := by
  obtain ⟨ext, hext, hg⟩ := grown_dropConnection error s
  unfold onError
  rcases h with h | h
  · have h₁ := h.failed hext hg
    simp only [h₁.out, if_true]
    exact h₁.next
  · have h₁ : Sending rt target request (dropConnection error s) := by
      refine h.grown hg ?_
      rcases hext with rfl | ⟨e, rfl⟩
      · intro e he
        cases he
      · exact noAuth_singleton rfl
    simp only [h₁.inside, Bool.true_eq_false, if_false]
    exact sound_all h₁.guarded h₁.keys h₁.undelivered rfl

end Phases

/-- **Outbound sessions are sound**, whatever the server, the network and the
message store do: see `Sound`. -/
theorem runSession_sound (rt : Runtime) (peer : Peer) (target : Target)
    (request : DeliveryRequest) (cfg : SessionConfig) :
    Sound rt target request (runSession rt peer target request cfg).1
      (runSession rt peer target request cfg).2.trace := by
  refine Program.finish_of_wp (P := fun (out : SessionResult × SessionState) =>
    Sound rt target request out.1 out.2.trace) ?_
  refine wp_mono wp_attempt (fun _ _ h => h) (fun _ _ h => h) ?_
  intro error s h
  exact onError_sound error h

/-! ## A server that answers ahead of time

Replies are matched to commands in order, and nothing checks that the answer to
the body was not already there. A server that sends its 250 together with the 354
has the message recorded as delivered, before it has seen an octet of it. -/

/-- A positive reply arrived after the last octet of the body was written. -/
def AcceptedAfterBody (request : DeliveryRequest) (trace : List Event) : Prop :=
  ∃ before reply after chunks, trace = before ++ .arrived reply :: after ∧ Positive reply
    ∧ request.message = .ok ⟨chunks, none⟩ ∧ DotStuffer.wire chunks = .ok (written before)

/-- A runtime for text that is already trimmed and in upper case. -/
def plainRuntime : Runtime where
  toUpperCase := id
  toLowerCase := id
  trim := id
  words line := [line]
  base64 := id
  isIP _ := false
  peerChain _ := .error "no certificate"
  verifyDane _ _ _ := .error "no certificate"
  checkServerIdentity _ _ := none

/-- A server without extensions that sends the final 250 with the 354. -/
def hastyPeer : Peer where
  failure _ := none
  await stage _ := match stage with
    | .greeting => .ok (⟨220, none, ["ready"]⟩, [])
    | .data => .ok (⟨354, none, ["go ahead"]⟩, [⟨250, none, ["queued"]⟩])
    | _ => .ok (⟨250, none, ["ok"]⟩, [])
  pause _ := .ok []
  pending _ := false
  handshake _ _ := .error "no TLS"

def oneRecipient : DeliveryRequest where
  envelopeFrom := "a@example.org"
  recipients := [{ id := 1, address := "b@example.net" }]
  message := .ok { chunks := [[104, 105, 13, 10]] }
  size := 4

/-- Every reply arrived before the first octet of the body was written. -/
def allEarly (t : List Event) : Bool :=
  (List.range t.length).all fun i =>
    match t[i]? with
    | some (.arrived _) => written (t.take i) == []
    | _ => true

theorem written_before_of_allEarly {before after : List Event}
    (h : allEarly (before ++ .arrived reply :: after) = true) : written before = [] := by
  unfold allEarly at h
  rw [all_eq_true] at h
  have hi := h before.length (mem_range.mpr (by simp))
  rw [getElem?_append_right le_rfl, Nat.sub_self, take_left] at hi
  simpa using hi

/-- Delivery is recorded on a reply that came before the body. -/
theorem early_reply_taken_for_delivery :
    ¬ ∀ (rt : Runtime) (peer : Peer) (target : Target) (request : DeliveryRequest)
        (cfg : SessionConfig) (results : ℕ → Option AttemptOutcome),
      (runSession rt peer target request cfg).1 = .definitive results →
      ∀ r ∈ request.recipients, (results r.id).any AttemptOutcome.isDelivered = true →
        AcceptedAfterBody request (runSession rt peer target request cfg).2.trace := by
  intro hclaim
  have hrun := hclaim plainRuntime hastyPeer ⟨"mx.example.net", "192.0.2.1", none⟩ oneRecipient
    ⟨"mail.example.org", {}, none⟩ _ rfl _ (mem_singleton.mpr rfl) (by decide +kernel)
  obtain ⟨before, reply, after, chunks, htrace, -, hmsg, hwire⟩ := hrun
  have hearly : allEarly (runSession plainRuntime hastyPeer ⟨"mx.example.net", "192.0.2.1", none⟩
      oneRecipient ⟨"mail.example.org", {}, none⟩).2.trace = true := by decide +kernel
  rw [htrace] at hearly
  rw [written_before_of_allEarly hearly] at hwire
  -- The encoder always writes at least the final dot.
  obtain rfl : [[104, 105, 13, 10]] = chunks := by
    injection hmsg with hmsg
    injection hmsg
  cases hwire

end Postroom.Delivery
