/-
`apps/delivery/src/client/session.ts`: one SMTP session against one MX address.

`runSession` follows the source statement by statement; `return` from inside it
is `Program.ret` and a throw is `Program.raise`, so that what the `catch` sees is
the state at the throw. Durations of the timeouts and the log lines are left out:
which wait ends in a timeout is the peer's choice.

The session's variables are part of the state, the outcomes (`results`) above
all: they are filled in at five places and a throw can come between any two.
-/
import Postroom.Smtp.Command
import Postroom.Delivery.DotStuff
import Postroom.Delivery.Connection

set_option autoImplicit false

namespace Postroom.Delivery

open Lib Smtp

/-! ## The request -/

structure DeliveryRecipient where
  id : ℕ
  address : String
  notify : Option String := none
  deriving DecidableEq, Repr

/-- The message stream: its chunks, and the error it breaks off with, if it does. -/
structure MessageStream where
  chunks : List (List UInt8)
  error : Option String := none
  deriving DecidableEq, Repr

structure DeliveryRequest where
  envelopeFrom : String
  recipients : List DeliveryRecipient
  message : Except String MessageStream
  size : ℕ
  dsnRet : Option String := none
  dsnEnvid : Option String := none

structure SmarthostAuth where
  user : String
  password : String
  deriving DecidableEq, Repr

structure SessionConfig where
  heloName : String
  tlsOptions : TlsOptions := {}
  smarthost : Option SmarthostAuth := none
  deriving DecidableEq, Repr

structure Target where
  host : String
  ip : String
  policy : Option TlsPolicy := none
  deriving DecidableEq, Repr

def Target.label (target : Target) : String := target.host ++ " [" ++ target.ip ++ "]"

/-! ## Replies as outcomes -/

def replyText (text : Text) (r : SmtpReply) : String := text.trim (" ".intercalate r.lines)

/-- Whether a reply is a 2xx. -/
def Positive (r : SmtpReply) : Prop := 200 ≤ r.code ∧ r.code < 300

instance (r : SmtpReply) : Decidable (Positive r) := inferInstanceAs (Decidable (_ ∧ _))

def classifyReply (text : Text) (r : SmtpReply) : AttemptOutcome :=
  let body := replyText text r
  if Positive r then .delivered (some r.code) r.enhanced (some body)
  else if 500 ≤ r.code then .permanent r.code r.enhanced body
  else if 400 ≤ r.code then .temporary (some r.code) r.enhanced (some body)
  else .temporary (some r.code) r.enhanced (some ("unexpected reply: " ++ body))

def AttemptOutcome.isDelivered : AttemptOutcome → Bool
  | .delivered _ _ _ => true
  | _ => false

/-- The outcome of giving up on this MX after a reply. -/
def nextFromReply (text : Text) (target : Target) (stage : String) (r : SmtpReply) :
    SessionResult :=
  let body := target.label ++ " " ++ stage ++ ": " ++ toString r.code ++ " " ++ replyText text r
  if 400 ≤ r.code ∧ r.code < 500 then .next (.temporary (some r.code) r.enhanced (some body))
  else .next (.error body)

/-! ## Command lines -/

/-- The word of a NOTIFY list, if it is one. -/
def dsnNotify (word : String) : Option DsnNotify := DsnNotify.values.find? fun n => n.word = word

def notifyWords (text : Text) : Option String → List DsnNotify
  | none => []
  | some notify =>
    (notify.splitOn ",").filterMap fun w => dsnNotify (text.toUpperCase (text.trim w))

def dsnRet (text : Text) (value : Option String) : Option DsnRet :=
  match value.map text.toUpperCase with
  | some "FULL" => some .full
  | some "HDRS" => some .hdrs
  | _ => none

/-- An address that could break command framing never reaches the wire. -/
def unsafeAddress (address : String) : Bool :=
  address.toList.any fun c => c.toNat ≤ 0x20 || c = '<' || c = '>' || c.toNat = 0x7f

/-- The RCPT line of an address. -/
def rcptLine (address params : String) : String := "RCPT TO:<" ++ address ++ ">" ++ params

/-- Go on with what a throwing function returns. -/
def orThrow {α : Type} : Except String α → Session α
  | .ok a => pure a
  | .error e => Program.raise e

/-! ## The session -/

section Session

variable (rt : Runtime) (peer : Peer) (target : Target) (request : DeliveryRequest)
  (cfg : SessionConfig)

/-- EHLO, falling back to HELO before TLS when the server does not know EHLO. -/
def hello (afterTls : Bool) : Session Capabilities := do
  let ehlo ← Conn.command peer .ehlo ("EHLO " ++ cfg.heloName)
  if ehlo.code = 250 then pure (parseEhloCapabilities rt.words rt.toUpperCase ehlo)
  else if 500 ≤ ehlo.code ∧ afterTls = false then
    let helo ← Conn.command peer .helo ("HELO " ++ cfg.heloName)
    if helo.code = 250 then pure []
    else Program.ret (nextFromReply rt.toText target "HELO" helo)
  else
    Program.ret
      (nextFromReply rt.toText target (if afterTls then "EHLO after STARTTLS" else "EHLO") ehlo)

def describePeer (secure : TlsPeer) : String :=
  "; ".intercalate
    ((secure.subjectCN.map fun cn => "CN=" ++ cn).toList
      ++ (secure.issuerCN.map fun cn => "issuer=CN=" ++ cn).toList
      ++ ["verified=" ++ (if secure.authorized then "true" else "false")]
      ++ (if secure.authorized then [] else ["reason=" ++ secure.authorizationError]))

def tlsOptionsFor : TlsOptions :=
  let host := dropFinalDot target.host
  let base : TlsOptions :=
    { minVersion := some "TLSv1.2", servername := if rt.isIP host then none else some host }
  if cfg.smarthost.isSome then
    { base.override cfg.tlsOptions with rejectUnauthorized := some true }
  else ({ base with rejectUnauthorized := some false } : TlsOptions).override cfg.tlsOptions

/-- The line kept of what a policy said, in front of what is known of the peer. -/
def recordPolicy (policy : TlsPolicy) (verified : Bool) (reason : String) : Session Unit :=
  Program.modify fun s =>
    let known := match s.details.tlsPeer with
      | none => ""
      | some p => "; " ++ p
    { s with details :=
        { s.details with tlsPeer := some (describePolicy policy.kind verified reason ++ known) } }

/-- A mandatory policy that is not met: give up on this host. -/
def refuse {α : Type} (reason : String) : Session α :=
  match target.policy with
  | none => Program.raise "refuse() without a policy"
  | some policy => do
    recordPolicy policy false reason
    Conn.fail (smtpClientError .tls (policy.kind ++ ": " ++ reason))
    Program.ret (.next (.temporary none (some "4.7.5")
      (some (target.label ++ " " ++ policy.kind ++ " requires verified TLS: " ++ reason))))

/-- A policy that is not mandatory: record what it said and carry on. -/
def note (verified : Bool) (reason : String) (tlsHappened : Bool) : Session Unit :=
  match target.policy with
  | none => pure ()
  | some policy =>
    match policy, tlsHappened with
    | .opportunistic _, false => pure ()
    | _, _ => recordPolicy policy verified reason

/-- The policy's verdict on the peer, before any command crosses the new session. -/
def judge (secure : TlsPeer) : Session Unit :=
  match target.policy with
  | none => pure ()
  | some policy => do
    let verdict ← orThrow (verifyPeer rt policy secure target.host)
    if verdict.verified = false ∧ isMandatory target.policy then refuse target verdict.reason
    else note target verdict.verified verdict.reason true

/-- The 220 to STARTTLS has been read: the handshake, the verdict, EHLO again. -/
def upgrade : Session Capabilities := do
  let secure ← Program.handle (Conn.startTls peer (tlsOptionsFor rt target cfg)) fun error =>
    if isMandatory target.policy then refuse target ("TLS handshake failed: " ++ error)
    else Program.raise error
  Program.modify fun s =>
    { s with details :=
        { tlsVersion := secure.protocol <|> s.details.tlsVersion
          tlsCipher := some secure.cipher
          tlsPeer := some (describePeer secure) } }
  judge rt target secure
  hello rt peer target cfg true

/-- STARTTLS when it is offered, and the policy's word when there is no TLS. -/
def secureSession (caps : Capabilities) : Session Capabilities := do
  if caps.has "STARTTLS" then
    let starttls ← Conn.command peer .starttls "STARTTLS"
    if starttls.code = 220 then upgrade rt peer target cfg
    else if isMandatory target.policy then
      refuse target ("STARTTLS refused: " ++ toString starttls.code ++ " "
        ++ replyText rt.toText starttls)
    else
      note target false ("STARTTLS refused: " ++ toString starttls.code) false
      pure caps
  else if isMandatory target.policy then refuse target "STARTTLS not offered"
  else
    note target false "STARTTLS not offered" false
    pure caps

/-- Answer a 334 with the next line of the exchange. -/
def authContinue (reply : SmtpReply) (line : String) : Session SmtpReply :=
  if reply.code = 334 then Conn.command peer .auth line else pure reply

/-- A refusal is never a verdict on the message. -/
def authFinal (reply : SmtpReply) : Session Unit :=
  if reply.code = 235 then pure ()
  else Program.ret (nextFromReply rt.toText target "AUTH" reply)

/-- AUTH PLAIN when offered, else LOGIN. -/
def authenticate (auth : SmarthostAuth) (caps : Capabilities) : Session Unit := do
  let mechanisms := ((caps.get "AUTH").getD []).map rt.toUpperCase
  if mechanisms.contains "PLAIN" then
    let reply ← Conn.command peer .auth
      ("AUTH PLAIN " ++ rt.base64 ("\x00" ++ auth.user ++ "\x00" ++ auth.password))
    authFinal rt target reply
  else if mechanisms.contains "LOGIN" then
    let reply ← Conn.command peer .auth "AUTH LOGIN"
    let reply ← authContinue peer reply (rt.base64 auth.user)
    let reply ← authContinue peer reply (rt.base64 auth.password)
    authFinal rt target reply
  else
    Program.ret (.next (.error
      (target.label ++ " smarthost offers neither AUTH PLAIN nor AUTH LOGIN")))

/-- Never AUTH over plaintext, nor over TLS whose certificate did not verify. -/
def smarthostLogin (caps : Capabilities) : Session Unit :=
  match cfg.smarthost with
  | none => pure ()
  | some auth => do
    let s ← Program.get
    match s.tlsSocket with
    | none =>
      Program.ret (.next (.error (target.label
        ++ " smarthost did not complete STARTTLS: refusing to authenticate in plaintext")))
    | some secure =>
      if secure.authorized = false then
        Conn.fail "smarthost certificate did not verify"
        Program.ret (.next (.error (target.label ++ " smarthost certificate did not verify: "
          ++ secure.authorizationError)))
      else authenticate rt peer target auth caps

/-- One assignment `results[id] = outcome`. -/
def assign (id : ℕ) (outcome : AttemptOutcome) : Session Unit :=
  Program.modify fun s => { s with results := Function.update s.results id (some outcome) }

/-- The helper `all`: an outcome for everyone who has none. -/
def all (outcome : AttemptOutcome) (results : ℕ → Option AttemptOutcome) :
    ℕ → Option AttemptOutcome :=
  request.recipients.foldl
    (fun results r => Function.update results r.id (results r.id <|> some outcome)) results

/-- Return the outcomes as they stand. -/
def definitive {α : Type} : Session α := do
  let s ← Program.get
  Program.ret (.definitive s.results)

def definitiveAll {α : Type} (outcome : AttemptOutcome) : Session α := do
  Program.modify fun s => { s with results := all request outcome s.results }
  definitive

def mailParams (caps : Capabilities) : MailParams :=
  { size := if caps.has "SIZE" then some request.size else none
    body := if caps.has "8BITMIME" then some .eightBitMime else none
    smtputf8 := caps.has "SMTPUTF8" && (hasNonAscii request.envelopeFrom
      || request.recipients.any fun r => hasNonAscii r.address)
    ret := if caps.has "DSN" then dsnRet rt.toText request.dsnRet else none
    envid := if caps.has "DSN" then request.dsnEnvid else none }

/-- One turn of the RCPT loop. -/
def rcptTurn (caps : Capabilities) (accepted : List DeliveryRecipient) (r : DeliveryRecipient) :
    Session (List DeliveryRecipient) := do
  if unsafeAddress r.address then
    assign r.id (.permanent 553 (some "5.1.3") "invalid recipient address")
    pure accepted
  else
    let notify := if caps.has "DSN" then notifyWords rt.toText r.notify else []
    let params ← orThrow (formatRcptParams
      { notify := if notify.length > 0 then some notify else none })
    let rcpt ← Conn.command peer .rcpt (rcptLine r.address params)
    if Positive rcpt then pure (accepted ++ [r])
    else
      assign r.id (classifyReply rt.toText rcpt)
      pure accepted

/-- One turn of the body loop. The connection may fail, or replies may come, while
the next chunk is waited for. -/
def bodyTurn (stuffer : DotStuffer) (chunk : List UInt8) : Session DotStuffer := do
  Conn.pause peer
  let (stuffer', out) ← orThrow (stuffer.push chunk)
  if out.length > 0 then Conn.write peer out
  pure stuffer'

def streamBody : Session Unit := do
  let stream ← orThrow request.message
  let stuffer ← Program.foldEach (bodyTurn peer) {} stream.chunks
  Conn.pause peer
  match stream.error with
  | some e => Program.raise e
  | none => do
    let (_, tail) ← orThrow stuffer.end
    Conn.write peer tail

/-- Assign one outcome to every accepted recipient. -/
def assignEach (accepted : List DeliveryRecipient) (outcome : AttemptOutcome) : Session Unit :=
  Program.modify fun s =>
    { s with results :=
        accepted.foldl (fun results r => Function.update results r.id (some outcome)) s.results }

/-- From MAIL FROM on. -/
def transaction (caps : Capabilities) : Session SessionResult := do
  Program.modify fun s => { s with inTransaction := true }
  let params ← orThrow (formatMailParams (mailParams rt request caps))
  let mail ← Conn.command peer .mail ("MAIL FROM:<" ++ request.envelopeFrom ++ ">" ++ params)
  if ¬ Positive mail then
    let outcome := classifyReply rt.toText mail
    definitiveAll request (if outcome.isDelivered
      then .temporary none none (some "unexpected reply to MAIL") else outcome)
  else
    let accepted ← Program.foldEach (rcptTurn rt peer caps) [] request.recipients
    if accepted.length = 0 then definitive
    else
      let data ← Conn.command peer .data "DATA"
      if data.code ≠ 354 then
        let outcome := classifyReply rt.toText data
        assignEach accepted (if outcome.isDelivered
          then .temporary (some data.code) none
            (some ("unexpected reply to DATA: " ++ replyText rt.toText data)) else outcome)
        definitive
      else
        streamBody peer request
        let final ← Conn.read peer .dataEnd
        assignEach accepted (classifyReply rt.toText final)
        definitive

/-- The body of the `try`. -/
def attempt : Session SessionResult := do
  let greeting ← Conn.read peer .greeting
  if greeting.code ≠ 220 then
    Program.ret (nextFromReply rt.toText target "greeting" greeting)
  else
    let caps ← hello rt peer target cfg false
    let caps ← secureSession rt peer target cfg caps
    smarthostLogin rt peer target cfg caps
    if unsafeAddress request.envelopeFrom then
      definitiveAll request (.permanent 553 (some "5.1.7") "invalid envelope sender")
    else transaction rt peer request caps

/-- `conn.fail` from the `catch`: a partial message is discarded. -/
def dropConnection (error : String) (s : SessionState) : SessionState :=
  match s.failure with
  | some _ => s
  | none => { s with failure := some error, trace := s.trace ++ [.failed error] }

/-- The `catch`. -/
def onError (error : String) (s : SessionState) : SessionResult × SessionState :=
  let text := target.label ++ " " ++ error
  let s := dropConnection error s
  if s.inTransaction = false then (.next (.error text), s)
  else
    let results := all request (.error text) s.results
    (.definitive results, { s with results := results })

/-- Run one session on a fresh connection. -/
def runSession : SessionResult × SessionState :=
  Program.finish (attempt rt peer target request cfg) (onError target request) {}

end Session

end Postroom.Delivery
