/-
`apps/delivery/src/client/connection.ts` and the parts of `policy/index.ts` the
session uses: one outbound SMTP connection and how its TLS peer is judged.

Everything that is not the program -- the server, the network, the clock -- is a
`Peer`: what it does next is an arbitrary function of the history of the
connection, so that a statement about every peer is a statement about every
sequence of replies, TLS events and failures, at every point.

The history records replies twice, when they arrive and when the session reads
them. The two differ: a reply that arrives while nobody waits for one is kept in
`queue` and answers the next read, whatever was sent in between.

Timeouts, closed sockets, aborts and replies that do not parse all end in
`conn.fail`; here they are the errors a peer can choose. An error is its message.
-/
import Postroom.Lib.Program
import Postroom.Smtp.Reply
import Postroom.Delivery.State

set_option autoImplicit false

namespace Postroom.Delivery

open Lib Smtp List
open Program (wp_bind wp_get wp_modify wp_mono wp_seq)

/-! ## TLS policy -/

structure TlsaRecord where
  usage : ℕ
  selector : ℕ
  matchingType : ℕ
  data : List UInt8
  deriving DecidableEq, Repr

inductive TlsPolicy where
  | opportunistic (note : Option String)
  | mtaStsTesting (policyId : String) (mxMatches : Bool)
  | mtaStsEnforce (policyId : String)
  | dane (records : List TlsaRecord) (names : List String)
  deriving DecidableEq, Repr

def TlsPolicy.kind : TlsPolicy → String
  | .opportunistic _ => "opportunistic"
  | .mtaStsTesting _ _ => "mta-sts-testing"
  | .mtaStsEnforce _ => "mta-sts-enforce"
  | .dane _ _ => "dane"

/-- Whether a policy forbids delivery without a verified TLS session. -/
def isMandatory : Option TlsPolicy → Bool
  | some (.dane _ _) => true
  | some (.mtaStsEnforce _) => true
  | _ => false

/-- What the session reads of a `TLSSocket` once the handshake is done. -/
structure TlsPeer where
  authorized : Bool
  authorizationError : String := ""
  protocol : Option String := some "TLSv1.3"
  cipher : String := ""
  subjectCN : Option String := none
  issuerCN : Option String := none
  raw : List (List UInt8) := []
  deriving DecidableEq, Repr

inductive DaneVerdict where
  | ok (detail : String)
  | refused (reason : String)
  deriving DecidableEq, Repr

/-- The runtime's own functions: strings, and certificates. -/
structure Runtime extends Text where
  /-- The parts of `line.trim().split(/\s+/)` that are not empty. -/
  words : String → List String
  base64 : String → String
  isIP : String → Bool
  peerChain : TlsPeer → Except String (List (List UInt8))
  verifyDane : List TlsaRecord → List (List UInt8) → List String → Except String DaneVerdict
  checkServerIdentity : String → TlsPeer → Option String

/-- The source writes `name.replace(/\.$/, '')`. -/
def dropFinalDot (name : String) : String :=
  if name.toList.getLast? = some '.' then String.ofList name.toList.dropLast else name

def bareName (rt : Runtime) (name : String) : String := dropFinalDot (rt.toLowerCase name)

structure PeerVerdict where
  verified : Bool
  reason : String
  deriving DecidableEq, Repr

def webPki (rt : Runtime) (secure : TlsPeer) (host : String) : PeerVerdict :=
  if !secure.authorized then
    ⟨false, "certificate did not verify: " ++ secure.authorizationError⟩
  else
    match rt.checkServerIdentity (bareName rt host) secure with
    | some message =>
      ⟨false, "certificate not valid for " ++ bareName rt host ++ ": " ++ message⟩
    | none => ⟨true, "certificate valid for " ++ bareName rt host⟩

/-- Judge the peer against the host's policy; what a certificate routine throws
is thrown on, except by `peerChain`. -/
def verifyPeer (rt : Runtime) (policy : TlsPolicy) (secure : TlsPeer) (host : String) :
    Except String PeerVerdict :=
  match policy with
  | .dane records names =>
    match rt.peerChain secure with
    | .error e => .ok ⟨false, "DANE: unreadable peer certificate: " ++ e⟩
    | .ok chain =>
      match rt.verifyDane records chain names with
      | .error e => .error e
      | .ok (.ok detail) => .ok ⟨true, detail⟩
      | .ok (.refused reason) => .ok ⟨false, reason⟩
  | .mtaStsEnforce _ => .ok (webPki rt secure host)
  | .mtaStsTesting _ mxMatches =>
    let verdict := webPki rt secure host
    if !mxMatches then
      .ok ⟨false, "MX " ++ bareName rt host ++ " is not in the MTA-STS policy"
        ++ (if verdict.verified then "" else "; " ++ verdict.reason)⟩
    else .ok verdict
  | .opportunistic _ =>
    .ok (if secure.authorized then ⟨true, "opportunistic; certificate verified"⟩
      else ⟨false, "opportunistic; " ++ secure.authorizationError⟩)

def describePolicy (kind : String) (verified : Bool) (reason : String) : String :=
  "tls-policy=" ++ kind ++ "; policy-verified=" ++ (if verified then "yes" else "no")
    ++ "; policy-reason="
    ++ String.ofList (reason.toList.map fun c => if c = ';' then ',' else c)

/-! ## The connection and its peer -/

inductive Stage where
  | connect
  | greeting
  | ehlo
  | helo
  | starttls
  | tls
  | auth
  | mail
  | rcpt
  | data
  | dataBody
  | dataEnd
  | quit
  deriving DecidableEq, Repr

def Stage.name : Stage → String
  | .connect => "connect"
  | .greeting => "greeting"
  | .ehlo => "ehlo"
  | .helo => "helo"
  | .starttls => "starttls"
  | .tls => "tls"
  | .auth => "auth"
  | .mail => "mail"
  | .rcpt => "rcpt"
  | .data => "data"
  | .dataBody => "data-body"
  | .dataEnd => "data-end"
  | .quit => "quit"

/-- The message of an `SmtpClientError`. -/
def smtpClientError (stage : Stage) (message : String) : String := stage.name ++ ": " ++ message

/-- What happens on a connection. -/
inductive Event where
  /-- A reply has arrived. -/
  | arrived (reply : SmtpReply)
  /-- The session has read the oldest reply it had not read. -/
  | got (stage : Stage) (reply : SmtpReply)
  /-- A command line was written. -/
  | sent (stage : Stage) (line : String)
  /-- Octets of the message were written. -/
  | wrote (bytes : List UInt8)
  /-- The TLS handshake has completed. -/
  | secured (peer : TlsPeer)
  /-- The session gave the connection up. -/
  | failed (error : String)
  deriving DecidableEq, Repr

structure TlsOptions where
  minVersion : Option String := none
  servername : Option String := none
  rejectUnauthorized : Option Bool := none
  deriving DecidableEq, Repr

/-- The source writes `{ ...a, ...b }`. -/
def TlsOptions.override (a b : TlsOptions) : TlsOptions :=
  ⟨b.minVersion <|> a.minVersion, b.servername <|> a.servername,
    b.rejectUnauthorized <|> a.rejectUnauthorized⟩

/-- The other side, and everything that can go wrong on the way. -/
structure Peer where
  /-- Why the connection is dead by now, if it is. -/
  failure : List Event → Option String
  /-- A read that has to wait: the reply that ends the wait and those that come
  with it, or why none came. -/
  await : Stage → List Event → Except String (SmtpReply × List SmtpReply)
  /-- What arrives while the session waits for something else: a full socket
  buffer to drain, the next chunk of the message. -/
  pause : List Event → Except String (List SmtpReply)
  /-- Whether the reply parser holds a part of a reply. -/
  pending : List Event → Bool
  handshake : TlsOptions → List Event → Except String TlsPeer

/-- What an attempt learned about the connection. -/
structure AttemptDetails where
  tlsVersion : Option String := none
  tlsCipher : Option String := none
  tlsPeer : Option String := none
  deriving DecidableEq, Repr

/-- The connection (`queue`, `failure`, `tlsSocket`) and the variables of
`runSession`, with the history of the connection. -/
structure SessionState where
  trace : List Event := []
  queue : List SmtpReply := []
  failure : Option String := none
  tlsSocket : Option TlsPeer := none
  details : AttemptDetails := {}
  results : ℕ → Option AttemptOutcome := fun _ => none
  inTransaction : Bool := false

inductive SessionResult where
  | definitive (results : ℕ → Option AttemptOutcome)
  | next (outcome : AttemptOutcome)

/-- A part of the session. -/
abbrev Session (α : Type) : Type := Program SessionState SessionResult String α

namespace Conn

/-- Every operation starts by throwing the connection's failure, if there is one. -/
def alive (peer : Peer) : Session Unit := do
  let s ← Program.get
  match s.failure <|> peer.failure s.trace with
  | some e =>
    Program.modify fun s => { s with failure := some e }
    Program.raise e
  | none => pure ()

/-- Give the connection up; only the first time counts. -/
def fail (error : String) : Session Unit := do
  let s ← Program.get
  match s.failure with
  | some _ => pure ()
  | none => Program.modify fun s =>
    { s with failure := some error, trace := s.trace ++ [.failed error] }

/-- The connection fails while the session waits. -/
def broken {α : Type} (error : String) : Session α := do
  Program.modify fun s => { s with failure := some error }
  Program.raise error

/-- The next reply: the oldest queued one, or the one waited for. -/
def read (peer : Peer) (stage : Stage) : Session SmtpReply := do
  alive peer
  let s ← Program.get
  match s.queue with
  | r :: rest =>
    Program.modify fun s => { s with queue := rest, trace := s.trace ++ [.got stage r] }
    pure r
  | [] =>
    match peer.await stage s.trace with
    | .error e => broken e
    | .ok (r, more) =>
      Program.modify fun s =>
        { s with queue := more, trace := s.trace ++ (r :: more).map .arrived ++ [.got stage r] }
      pure r

def send (peer : Peer) (stage : Stage) (line : String) : Session Unit := do
  alive peer
  if line.toList.any fun c => c = '\r' || c = '\n' then
    Program.raise (smtpClientError stage "refusing to send a command containing CR or LF")
  else
    Program.modify fun s => { s with trace := s.trace ++ [.sent stage line] }

def command (peer : Peer) (stage : Stage) (line : String) : Session SmtpReply := do
  send peer stage line
  read peer stage

/-- Wait for something that is not a reply. -/
def pause (peer : Peer) : Session Unit := do
  let s ← Program.get
  match peer.pause s.trace with
  | .error e => broken e
  | .ok more => Program.modify fun s =>
    { s with queue := s.queue ++ more, trace := s.trace ++ more.map .arrived }

def write (peer : Peer) (bytes : List UInt8) : Session Unit := do
  alive peer
  Program.modify fun s => { s with trace := s.trace ++ [.wrote bytes] }
  pause peer

/-- Replies that are already here were sent in plaintext: the connection is
dropped rather than have them read as if they came over TLS. The socket is set
before the handshake in the source; a failed handshake ends the session. -/
def startTls (peer : Peer) (options : TlsOptions) : Session TlsPeer := do
  alive peer
  let s ← Program.get
  if s.queue ≠ [] ∨ peer.pending s.trace then
    let error := smtpClientError .tls
      "plaintext bytes after the STARTTLS 220 reply (response injection?)"
    fail error
    Program.raise error
  else
    match peer.handshake options s.trace with
    | .error e =>
      Program.modify fun s => { s with failure := some e }
      Program.raise (smtpClientError .tls ("handshake failed: " ++ e))
    | .ok secure =>
      Program.modify fun s =>
        { s with tlsSocket := some secure, trace := s.trace ++ [.secured secure] }
      pure secure

end Conn

/-! ## What the operations do

Each operation appends to the history and touches nothing the session keeps for
itself. `Grown ext s s'` says so once; the rules below only say what is appended. -/

def arrivals (trace : List Event) : List SmtpReply :=
  trace.filterMap fun
    | .arrived r => some r
    | _ => none

def reads (trace : List Event) : List SmtpReply :=
  trace.filterMap fun
    | .got _ r => some r
    | _ => none

/-- Replies are read in the order in which they arrived; the queue is the rest. -/
def Fifo (s : SessionState) : Prop := arrivals s.trace = reads s.trace ++ s.queue

/-- Only replies arriving. -/
def OnlyArrivals (ext : List Event) : Prop := ∀ e ∈ ext, ∃ r, e = .arrived r

@[simp] theorem arrivals_append (t u : List Event) :
    arrivals (t ++ u) = arrivals t ++ arrivals u := filterMap_append

@[simp] theorem reads_append (t u : List Event) : reads (t ++ u) = reads t ++ reads u :=
  filterMap_append

theorem arrivals_map (rs : List SmtpReply) : arrivals (rs.map .arrived) = rs := by
  unfold arrivals
  rw [filterMap_map]
  exact filterMap_some

theorem reads_map (rs : List SmtpReply) : reads (rs.map .arrived) = [] := by
  unfold reads
  rw [filterMap_eq_nil_iff]
  rintro e he
  obtain ⟨r, _, rfl⟩ := mem_map.mp he
  rfl

theorem onlyArrivals_map (rs : List SmtpReply) : OnlyArrivals (rs.map .arrived) := by
  intro e he
  obtain ⟨r, _, rfl⟩ := mem_map.mp he
  exact ⟨r, rfl⟩

theorem OnlyArrivals.append {t u : List Event} (ht : OnlyArrivals t) (hu : OnlyArrivals u) :
    OnlyArrivals (t ++ u) :=
  forall_mem_append.mpr ⟨ht, hu⟩

theorem OnlyArrivals.reads {ext : List Event} (h : OnlyArrivals ext) : reads ext = [] := by
  unfold Delivery.reads
  rw [filterMap_eq_nil_iff]
  intro e he
  obtain ⟨r, rfl⟩ := h e he
  rfl

/-- The connection has seen `ext` happen, and nothing else has changed. -/
structure Grown (ext : List Event) (s s' : SessionState) : Prop where
  trace : s'.trace = s.trace ++ ext
  fifo : Fifo s → Fifo s'
  results : s'.results = s.results
  inTransaction : s'.inTransaction = s.inTransaction
  tlsSocket : ∀ p, s'.tlsSocket = some p → s.tlsSocket = some p ∨ Event.secured p ∈ ext

theorem Grown.refl (s : SessionState) : Grown [] s s :=
  ⟨(append_nil _).symm, id, rfl, rfl, fun _ h => .inl h⟩

theorem Grown.trans {ext ext' : List Event} {s1 s2 s3 : SessionState} (h : Grown ext s1 s2)
    (h' : Grown ext' s2 s3) : Grown (ext ++ ext') s1 s3 := by
  refine ⟨?_, fun hf => h'.fifo (h.fifo hf), h'.results.trans h.results,
    h'.inTransaction.trans h.inTransaction, ?_⟩
  · rw [h'.trace, h.trace, append_assoc]
  · intro p hp
    rcases h'.tlsSocket p hp with h2 | h2
    · rcases h.tlsSocket p h2 with h1 | h1
      · exact .inl h1
      · exact .inr (mem_append_left _ h1)
    · exact .inr (mem_append_right _ h2)

theorem Grown.failure (s : SessionState) (f : Option String) : Grown [] s { s with failure := f } :=
  ⟨(append_nil _).symm, id, rfl, rfl, fun _ h => .inl h⟩

/-- What is neither a reply arriving nor one being read leaves the order alone. -/
theorem Fifo.event {s s' : SessionState} {e : Event} (hf : Fifo s)
    (htrace : s'.trace = s.trace ++ [e] := by rfl)
    (hqueue : s'.queue = s.queue := by rfl) (harrivals : arrivals [e] = [] := by rfl)
    (hreads : reads [e] = [] := by rfl) : Fifo s' := by
  unfold Fifo at hf ⊢
  rw [htrace, hqueue, arrivals_append, reads_append, harrivals, hreads, append_nil, append_nil, hf]

namespace Conn

variable (peer : Peer) {R : SessionResult → SessionState → Prop}

theorem wp_alive (s : SessionState) :
    (alive peer).wp (fun _ s' => s' = s) R (fun _ s' => Grown [] s s') s := by
  unfold alive
  rw [wp_bind, wp_get]
  cases s.failure <|> peer.failure s.trace with
  | none => exact rfl
  | some e => exact Grown.failure s _

theorem wp_broken {α : Type} {Q : α → SessionState → Prop} (e : String) (s : SessionState) :
    (broken e : Session α).wp Q R (fun _ s' => Grown [] s s') s := by
  exact Grown.failure s _

/-- Reading takes the oldest reply that was not read, waiting for one if need be. -/
theorem wp_read (stage : Stage) (s : SessionState) : (read peer stage).wp
      (fun r s' => ∃ rest, OnlyArrivals rest ∧ Grown (rest ++ [.got stage r]) s s') R
      (fun _ s' => Grown [] s s') s := by
  refine wp_seq (wp_alive peer s) ?_
  rintro _ _ rfl
  rw [wp_bind, wp_get]
  rename_i s
  cases hq : s.queue with
  | cons r rest =>
    refine ⟨[], nofun, ⟨rfl, ?_, rfl, rfl, fun _ h => .inl h⟩⟩
    intro hf
    unfold Fifo at hf ⊢
    rw [hq] at hf
    simpa [arrivals, reads] using hf
  | nil =>
    cases peer.await stage s.trace with
    | error e => exact wp_broken e s
    | ok answer =>
      obtain ⟨r, more⟩ := answer
      refine ⟨(r :: more).map .arrived, onlyArrivals_map _,
        ⟨append_assoc _ _ _, ?_, rfl, rfl, fun _ h => .inl h⟩⟩
      intro hf
      unfold Fifo at hf ⊢
      rw [hq, append_nil] at hf
      show arrivals (s.trace ++ (r :: more).map .arrived ++ [.got stage r])
        = reads (s.trace ++ (r :: more).map .arrived ++ [.got stage r]) ++ more
      rw [arrivals_append, arrivals_append, reads_append, reads_append, arrivals_map, reads_map, hf]
      simp [arrivals, reads]

theorem wp_send (stage : Stage) (line : String) (s : SessionState) :
    (send peer stage line).wp (fun _ s' => Grown [.sent stage line] s s') R
    (fun _ s' => Grown [] s s') s := by
  unfold send
  refine wp_seq (wp_alive peer s) ?_
  rintro _ _ rfl
  split
  · exact Grown.refl _
  · exact ⟨rfl, fun hf => hf.event, rfl, rfl, fun _ h => .inl h⟩

/-- A command is written, if at all, and answered by the oldest unread reply. -/
theorem wp_command (stage : Stage) (line : String) (s : SessionState) : (command peer stage line).wp
      (fun r s' => ∃ rest, OnlyArrivals rest
        ∧ Grown (.sent stage line :: rest ++ [.got stage r]) s s') R
      (fun _ s' => ∃ ext, (ext = [] ∨ ext = [.sent stage line]) ∧ Grown ext s s') s := by
  unfold command
  rw [wp_bind]
  refine wp_mono (wp_send peer stage line s) ?_ (fun _ _ h => h)
    (fun _ _ h => ⟨[], .inl rfl, h⟩)
  rintro _ s1 h₁
  refine wp_mono (wp_read peer stage s1) ?_ (fun _ _ h => h) ?_
  · rintro r s2 ⟨rest, hrest, h₂⟩
    exact ⟨rest, hrest, h₁.trans h₂⟩
  · rintro e s2 h₂
    exact ⟨_, .inr rfl, h₁.trans h₂⟩

theorem wp_pause (s : SessionState) :
    (pause peer).wp (fun _ s' => ∃ rest, OnlyArrivals rest ∧ Grown rest s s') R
      (fun _ s' => Grown [] s s') s := by
  unfold pause
  rw [wp_bind, wp_get]
  cases peer.pause s.trace with
  | error e => exact wp_broken e s
  | ok more =>
    refine ⟨more.map .arrived, onlyArrivals_map _, ⟨rfl, ?_, rfl, rfl, fun _ h => .inl h⟩⟩
    intro hf
    show arrivals (s.trace ++ more.map .arrived) = reads (s.trace ++ more.map .arrived) ++ _
    rw [arrivals_append, reads_append, arrivals_map, reads_map, hf, append_nil, append_assoc]

theorem wp_write (bytes : List UInt8) (s : SessionState) : (write peer bytes).wp
      (fun _ s' => ∃ rest, OnlyArrivals rest ∧ Grown (.wrote bytes :: rest) s s') R
      (fun _ s' => ∃ ext, (ext = [] ∨ ext = [.wrote bytes]) ∧ Grown ext s s') s := by
  unfold write
  rw [wp_bind]
  refine wp_mono (wp_alive peer s) ?_ (fun _ _ h => h)
    (fun _ _ h => ⟨[], .inl rfl, h⟩)
  rintro _ _ rfl
  rename_i s
  have h₁ : Grown [.wrote bytes] s { s with trace := s.trace ++ [.wrote bytes] } := by
    exact ⟨rfl, fun hf => hf.event, rfl, rfl, fun _ h => .inl h⟩
  refine wp_mono (wp_pause peer _) ?_ (fun _ _ h => h) ?_
  · rintro _ s2 ⟨rest, hrest, h₂⟩
    exact ⟨rest, hrest, h₁.trans h₂⟩
  · rintro e s2 h₂
    exact ⟨_, .inr rfl, h₁.trans h₂⟩

/-- Giving up appends at most the fact itself. -/
theorem wp_fail (error : String) (s : SessionState) {E : String → SessionState → Prop} :
    (fail error).wp (fun _ s' => ∃ ext, (ext = [] ∨ ext = [.failed error]) ∧ Grown ext s s') R E
    s := by
  unfold fail
  rw [wp_bind, wp_get]
  cases hf : s.failure with
  | some e => exact ⟨[], .inl rfl, Grown.refl s⟩
  | none =>
    exact ⟨_, .inr rfl, ⟨rfl, fun hf => hf.event, rfl, rfl, fun _ h => .inl h⟩⟩

theorem wp_startTls (options : TlsOptions) (s : SessionState) :
    (startTls peer options).wp (fun p s' => Grown [.secured p] s s') R
      (fun _ s' => ∃ ext, (ext = [] ∨ ∃ e, ext = [.failed e]) ∧ Grown ext s s') s := by
  unfold startTls
  rw [wp_bind]
  refine wp_mono (wp_alive peer s) ?_ (fun _ _ h => h)
    (fun _ _ h => ⟨[], .inl rfl, h⟩)
  rintro _ _ rfl
  rename_i s
  rw [wp_bind, wp_get]
  split
  · refine wp_seq (wp_fail _ s) ?_
    rintro _ s1 ⟨ext, hext, h₁⟩
    exact ⟨ext, hext.imp id fun h => ⟨_, h⟩, h₁⟩
  · cases peer.handshake options s.trace with
    | error e => exact ⟨[], .inl rfl, Grown.failure s _⟩
    | ok secure =>
      refine ⟨rfl, fun hf => hf.event, rfl, rfl, ?_⟩
      intro p hp
      obtain rfl : secure = p := Option.some.inj hp
      exact .inr (mem_singleton.mpr rfl)

end Conn

end Postroom.Delivery
