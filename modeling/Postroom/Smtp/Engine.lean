/-
`packages/smtp-proto/src/session.ts`: the server session engine.

The engine is one thread of control that waits in many places: for octets, for
the answer of a hook, for the TLS upgrade, for a socket to drain. What happens at
each wait is chosen by a `World`, an arbitrary function of the session so far, so
that a statement about every world is a statement about every sequence of input
octets, hook answers and throws, upgrades, timeouts and calls of `close()`.

The session so far is a list of `SessionEvent`s; the engine appends to it and
never reads it. Loops take fuel, and running out of it cuts the session where it
is, so that a statement about every fuel is one about every finite beginning of a
session. Statistics, the message identifier and the body stream's buffering are
left out; what reaches the hook of a body is the event `body`.
-/
import Postroom.Lib.Program
import Postroom.Smtp.LineReader
import Postroom.Smtp.Command

set_option autoImplicit false

namespace Postroom.Smtp

open Lib

/-! ## Context and options -/

structure Recipient where
  to_ : ForwardPath
  params : RcptParams
  deriving DecidableEq, Repr

structure Transaction where
  from_ : ReversePath
  params : MailParams
  recipients : List Recipient
  deriving DecidableEq, Repr

structure Hello where
  verb : HelloVerb
  domain : String
  deriving DecidableEq, Repr

structure Identity where
  mechanism : String
  identity : String
  deriving DecidableEq, Repr

structure SessionContext where
  secure : Bool
  hello : Option Hello := none
  auth : Option Identity := none
  transaction : Option Transaction := none
  deriving DecidableEq, Repr

structure ServerCapabilities where
  pipelining : Bool := true
  eightBitMime : Bool := true
  smtpUtf8 : Bool := true
  enhancedStatusCodes : Bool := true
  dsn : Bool := false
  auth : List String := []
  authRequiresTls : Bool := true
  startTls : Bool := true
  deriving DecidableEq, Repr

/-- The options, and which of the optional hooks there are. -/
structure ServerSessionOptions where
  hostname : String
  maxSize : ℕ
  capabilities : ServerCapabilities := {}
  secure : Bool := false
  greeting : String := "ESMTP Postroom"
  maxLineLength : ℕ := DEFAULT_MAX_LINE_LENGTH
  maxRecipients : ℕ := 100
  maxErrors : ℕ := 10
  closeOnBareLineEnding : Bool := true
  onConnect : Bool := false
  onHello : Bool := false
  onMail : Bool := false
  onAuth : Bool := false
  upgradeTls : Bool := false
  deriving DecidableEq, Repr

/-- A reply is positive when it is a 2xx. -/
def SmtpReply.isPositive (r : SmtpReply) : Bool := 200 ≤ r.code && r.code < 300

/-! ## What happens in a session -/

inductive HookCall where
  | connect
  | hello (verb : HelloVerb) (domain : String)
  | mail (from_ : ReversePath) (params : MailParams)
  | rcpt (to_ : ForwardPath) (params : RcptParams)
  | data
  | auth (mechanism : String) (initialResponse : Option String)
  | upgradeTls
  deriving DecidableEq, Repr

/-- How a hook that returns a reply ended; `none` is `undefined`, also the answer
of a hook that is not there. -/
inductive HookAnswer where
  | replied (reply : Option SmtpReply)
  | threw (error : String)
  deriving DecidableEq, Repr

inductive EngineError where
  | saslCancelled
  | lineErrorDuringSasl (error : LineError)
  | connectionClosed
  | other (message : String)
  deriving DecidableEq, Repr

inductive SessionEvent where
  /-- Octets were taken from the socket and given to the reader. -/
  | received (bytes : List UInt8)
  /-- Octets waiting in the socket were thrown away before the TLS handshake. -/
  | discarded (bytes : List UInt8)
  /-- A line was handed to the command interpreter. -/
  | line (line : List UInt8)
  /-- It was this command. -/
  | command (command : SmtpCommand)
  /-- A line was handed to the AUTH hook. -/
  | saslLine (line : List UInt8)
  /-- The AUTH hook's challenge threw. -/
  | challengeFailed (error : EngineError)
  /-- A hook was called with this context. -/
  | called (call : HookCall) (context : SessionContext)
  /-- A hook ended. -/
  | answered (call : HookCall) (answer : HookAnswer)
  /-- The AUTH hook authenticated the client. -/
  | authenticated (identity : Identity)
  /-- Octets of the message were given to the DATA hook. -/
  | body (chunk : List UInt8)
  /-- The reader saw the end of the message. -/
  | dataEnd (rejection : Option DataRejection)
  /-- TLS is up. -/
  | upgraded
  /-- A reply was queued for the peer. -/
  | sent (reply : SmtpReply)
  /-- The daemon called `close()`. -/
  | closing (reply : SmtpReply)
  /-- The engine turns to the next command in this context. -/
  | ready (context : SessionContext)
  deriving DecidableEq, Repr

inductive Pulled where
  | chunk (bytes : List UInt8)
  | end_
  | timeout
  | closed
  deriving DecidableEq, Repr

inductive AuthResult where
  | ok (identity : String) (reply : Option SmtpReply)
  | refused (reply : SmtpReply)
  deriving DecidableEq, Repr

/-- What the AUTH hook does next. -/
inductive AuthMove where
  | challenge (base64 : String)
  | done (result : AuthResult)
  | throw (error : EngineError)
  deriving DecidableEq, Repr

/-- What can come from outside while the engine waits. -/
inductive Interruption where
  | nothing
  | close (reply : SmtpReply)
  | closed
  deriving DecidableEq, Repr

/-- Everything that is not the engine. -/
structure World where
  /-- The command parser; the flag says whether the transaction is SMTPUTF8. -/
  parseCommand : List UInt8 → Bool → Except SmtpReply SmtpCommand
  /-- Hooks that return a reply. -/
  answer : HookCall → List SessionEvent → HookAnswer
  /-- The RCPT hook has to return a reply. -/
  onRcpt : List SessionEvent → Except String SmtpReply
  /-- Whether the DATA hook has settled by now, and how. -/
  dataSettled : List SessionEvent → Option (Except String SmtpReply)
  /-- How the DATA hook settles once it is waited for. -/
  onData : List SessionEvent → Except String SmtpReply
  /-- Whether the DATA hook has destroyed the body stream. -/
  bodyDestroyed : List SessionEvent → Bool
  onAuth : List SessionEvent → AuthMove
  upgradeTls : List SessionEvent → Except String Unit
  pull : List SessionEvent → Pulled
  /-- The octets waiting in the plaintext socket. -/
  buffered : List SessionEvent → List UInt8
  interrupt : List SessionEvent → Interruption
  /-- The text of a line, `line.toString('latin1').trim()`. -/
  lineText : List UInt8 → String

/-! ## The engine -/

structure EngineState where
  context : SessionContext
  reader : SmtpLineReader
  outbox : List String := []
  closed : Bool := false
  errors : ℕ := 0
  trace : List SessionEvent := []

/-- A part of the engine; `ret` cuts the session. -/
abbrev EngineM (α : Type) : Type := Program EngineState Unit EngineError α

namespace Engine

variable (world : World) (options : ServerSessionOptions)

def log (e : SessionEvent) : EngineM Unit :=
  Program.modify fun s => { s with trace := s.trace ++ [e] }

def setContext (f : SessionContext → SessionContext) : EngineM Unit :=
  Program.modify fun s => { s with context := f s.context }

/-- The client has greeted with EHLO. -/
def saidEhlo (context : SessionContext) : Bool := context.hello.any fun h => h.verb = .ehlo

def useEnhanced (context : SessionContext) : Bool :=
  options.capabilities.enhancedStatusCodes && saidEhlo context

/-- Queue a reply; a reply that cannot be written is a throw. -/
def send (r : SmtpReply) : EngineM Unit := do
  let s ← Program.get
  match formatReply r (useEnhanced options s.context) with
  | .error m => Program.raise (.other m)
  | .ok text =>
    Program.modify fun s => { s with outbox := s.outbox ++ [text] }
    log (.sent r)

/-- The daemon may call `close()` at any wait: its reply is queued, and some time
later the session is closed. What `close()` throws is the daemon's business. -/
def interruption : EngineM Unit := do
  let s ← Program.get
  match world.interrupt s.trace with
  | .nothing => pure ()
  | .close r =>
    if s.closed then pure ()
    else
      match formatReply r (useEnhanced options s.context) with
      | .error _ => pure ()
      | .ok text =>
        Program.modify fun s => { s with outbox := s.outbox ++ [text] }
        log (.closing r)
  | .closed => Program.modify fun s => { s with closed := true }

/-- Write the queued replies and wait for the socket. -/
def flush : EngineM Unit := do
  Program.modify fun s => { s with outbox := [] }
  interruption world options

def pull : EngineM Pulled := do
  interruption world options
  let s ← Program.get
  if s.closed then pure .closed else pure (world.pull s.trace)

/-- The next event of the reader, or why there is none. -/
def nextEvent : ℕ → EngineM (LineReaderEvent ⊕ Pulled)
  | 0 => Program.ret ()
  | fuel + 1 => do
    let s ← Program.get
    Program.modify fun s => { s with reader := s.reader.next.2 }
    match s.reader.next.1 with
    | some ev => pure (.inl ev)
    | none => do
      flush world options
      let got ← pull world options
      match got with
      | .chunk bytes => do
        Program.modify fun s => { s with reader := s.reader.push bytes }
        log (.received bytes)
        nextEvent fuel
      | other => pure (.inr other)

def sendSome : Option SmtpReply → EngineM Unit
  | some r => send options r
  | none => pure ()

/-- Queue an error reply and count it; `false` when the budget is spent. -/
def errorReply (r : Option SmtpReply) : EngineM Bool := do
  sendSome options r
  Program.modify fun s => { s with errors := s.errors + 1 }
  let s ← Program.get
  if s.errors ≥ options.maxErrors then
    send options Replies.tooManyErrors
    pure false
  else pure true

/-- Reply to a malformed line. -/
def lineError (error : LineError) : EngineM Bool :=
  if error = .lineTooLong then errorReply options (some Replies.lineTooLong)
  else do
    send options Replies.bareLineEnding
    if options.closeOnBareLineEnding then
      flush world options
      pure false
    else errorReply options none

/-- Call a hook that returns a reply, if it is there. -/
def callHook (present : Bool) (call : HookCall) : EngineM HookAnswer := do
  if present then
    let s ← Program.get
    log (.called call s.context)
    interruption world options
    let s ← Program.get
    let answer := world.answer call s.trace
    log (.answered call answer)
    pure answer
  else
    log (.answered call (.replied none))
    pure (.replied none)

/-! ### EHLO, MAIL, RCPT -/

def startTlsAvailable (context : SessionContext) : Bool :=
  options.capabilities.startTls && options.upgradeTls && !context.secure

def authAvailable : Bool := options.onAuth && options.capabilities.auth ≠ []

def capabilityLines (context : SessionContext) : List String :=
  let c := options.capabilities
  (if c.pipelining then ["PIPELINING"] else [])
    ++ ["SIZE " ++ toString options.maxSize]
    ++ (if c.eightBitMime then ["8BITMIME"] else [])
    ++ (if c.smtpUtf8 && c.eightBitMime then ["SMTPUTF8"] else [])
    ++ (if c.enhancedStatusCodes then ["ENHANCEDSTATUSCODES"] else [])
    ++ (if c.dsn then ["DSN"] else [])
    ++ (if startTlsAvailable options context then ["STARTTLS"] else [])
    ++ (if authAvailable options && (context.secure || !c.authRequiresTls)
        then ["AUTH " ++ " ".intercalate c.auth] else [])

/-- The reply to a successful EHLO or HELO. -/
def helloReply (verb : HelloVerb) (domain : String) (context : SessionContext) : SmtpReply :=
  match verb with
  | .helo => reply 250 none [options.hostname]
  | .ehlo => buildEhloReply options.hostname ("greets " ++ domain) (capabilityLines options context)

def hello (verb : HelloVerb) (domain : String) : EngineM Bool := do
  setContext fun c => { c with transaction := none }
  let r ← callHook world options options.onHello (.hello verb domain)
  match r with
  | .threw _ =>
    send options Replies.localError
    pure true
  | .replied r =>
    if r.any fun r => r.code ≥ 400 then
      send options (r.getD Replies.localError)
      pure true
    else
      setContext fun c => { c with hello := some ⟨verb, domain⟩ }
      let s ← Program.get
      send options (helloReply options verb domain s.context)
      pure true

/-- Parameters the session did not advertise. -/
def unadvertised (context : SessionContext) (params : MailParams) : Option String :=
  let c := options.capabilities
  if !saidEhlo context && !params.isEmpty then some "parameters require EHLO"
  else if params.body = some .eightBitMime ∧ !c.eightBitMime then some "BODY=8BITMIME"
  else if params.smtputf8 ∧ !(c.smtpUtf8 && c.eightBitMime) then some "SMTPUTF8"
  else if (params.ret ≠ none ∨ params.envid ≠ none) ∧ !c.dsn then some "RET/ENVID"
  else if params.auth ≠ none ∧ !authAvailable options then some "AUTH"
  else none

def mail (from_ : ReversePath) (params : MailParams) : EngineM Bool := do
  let s ← Program.get
  if s.context.hello = none then errorReply options (some Replies.ehloFirst)
  else if s.context.transaction ≠ none then errorReply options (some Replies.nestedMail)
  else
    match unadvertised options s.context params with
    | some bad =>
      errorReply options (some (reply 555 (some "5.5.4") ["Unsupported parameter: " ++ bad]))
    | none =>
      if params.size.any fun size => size > options.maxSize then do
        send options Replies.messageTooBig
        pure true
      else do
        let r ← callHook world options options.onMail (.mail from_ params)
        match r with
        | .threw _ => do
          send options Replies.localError
          pure true
        | .replied r => do
          let answer := r.getD Replies.mailOk
          if answer.isPositive then
            setContext fun c => { c with transaction := some ⟨from_, params, []⟩ }
            send options answer
            pure true
          else
            send options answer
            pure true

def rcpt (to_ : ForwardPath) (params : RcptParams) : EngineM Bool := do
  let s ← Program.get
  if s.context.hello = none then errorReply options (some Replies.ehloFirst)
  else
    match s.context.transaction with
    | none => errorReply options (some Replies.mailFirst)
    | some tx =>
      if (params.notify ≠ none ∨ params.orcpt ≠ none) ∧ !options.capabilities.dsn then
        errorReply options
          (some (reply 555 (some "5.5.4") ["Unsupported parameter: NOTIFY/ORCPT"]))
      else if tx.recipients.length ≥ options.maxRecipients then do
        send options Replies.tooManyRecipients
        pure true
      else do
        log (.called (.rcpt to_ params) s.context)
        interruption world options
        let s ← Program.get
        match world.onRcpt s.trace with
        | .error e => do
          log (.answered (.rcpt to_ params) (.threw e))
          send options Replies.localError
          pure true
        | .ok r => do
          log (.answered (.rcpt to_ params) (.replied (some r)))
          if r.isPositive then
            setContext fun c =>
              { c with
                transaction := some { tx with recipients := tx.recipients ++ [⟨to_, params⟩] } }
            send options r
            pure true
          else
            send options r
            pure true

/-! ### DATA -/

/-- The variables of the DATA loop. -/
structure DataLoop where
  rejection : Option DataRejection := none
  settled : Option (Except String SmtpReply) := none
  destroyed : Bool := false

def dataAnswer : Except String SmtpReply → HookAnswer
  | .ok r => .replied (some r)
  | .error e => .threw e

/-- The hook may settle, and may destroy the body, while the engine waits. -/
def pollHook (d : DataLoop) : EngineM DataLoop := do
  let s ← Program.get
  let destroyed := d.destroyed || world.bodyDestroyed s.trace
  match d.settled with
  | some x => pure { d with settled := some x, destroyed := destroyed }
  | none =>
    match world.dataSettled s.trace with
    | some x => do
      log (.answered .data (dataAnswer x))
      pure { d with settled := some x, destroyed := destroyed }
    | none => pure { d with destroyed := destroyed }

/-- Wait for the hook to settle. -/
def awaitHook (settled : Option (Except String SmtpReply)) : EngineM (Except String SmtpReply) := do
  match settled with
  | some x => pure x
  | none => do
    interruption world options
    let s ← Program.get
    let x := world.onData s.trace
    log (.answered .data (dataAnswer x))
    pure x

/-- Every way out of DATA ends the transaction. -/
def endTransaction : EngineM Unit := setContext fun c => { c with transaction := none }

/-- The connection is gone, or idle, in the middle of a message. -/
def abandonData (d : DataLoop) (why : Pulled) : EngineM Unit := do
  let _ ← awaitHook world options d.settled
  endTransaction
  if why = .timeout then send options Replies.idleTimeout else pure ()

/-- Read events until the end of the message; `none` when it never came. -/
def dataLoop : ℕ → DataLoop → EngineM (Option DataLoop)
  | 0, _ => Program.ret ()
  | fuel + 1, d => do
    let ev ← nextEvent world options (fuel + 1)
    match ev with
    | .inr why => do
      abandonData world options d why
      pure none
    | .inl (.data chunk) => do
      let d ← pollHook world d
      if d.settled.isSome ∨ d.destroyed then dataLoop fuel d
      else
        log (.body chunk)
        interruption world options
        dataLoop fuel d
    | .inl (.dataRejected reason) => do
      let d ← pollHook world d
      dataLoop fuel { d with rejection := d.rejection <|> some reason, destroyed := true }
    | .inl (.dataEnd _ rejection) => do
      log (.dataEnd rejection)
      let d ← pollHook world d
      pure (some { d with rejection := d.rejection <|> rejection })
    | .inl _ => do
      let d ← pollHook world d
      dataLoop fuel d

def dataRejectionReply : DataRejection → SmtpReply
  | .bareLf => Replies.bareLineEndingInData
  | .bareCr => Replies.bareLineEndingInData
  | .nul => Replies.nulInData
  | .tooLarge => Replies.messageTooBig

/-- The final reply; an early answer of the hook can only be a refusal. -/
def finishData (d : DataLoop) : EngineM SmtpReply := do
  match d.rejection with
  | some reason => do
    let _ ← awaitHook world options d.settled
    pure (dataRejectionReply reason)
  | none =>
    match d.settled with
    | some (.error _) => pure Replies.localError
    | some (.ok r) => pure (if r.code ≥ 400 then r else Replies.localError)
    | none => do
      let final ← awaitHook world options none
      match final with
      | .error _ => pure Replies.localError
      | .ok r => pure r

/-- Send the final reply; the transaction ends even when that throws. -/
def closeData (d : DataLoop) : EngineM Unit := do
  let final ← finishData world options d
  Program.handle (send options final) fun e => do
    endTransaction
    Program.raise e
  endTransaction

def data (fuel : ℕ) : EngineM Bool := do
  let s ← Program.get
  if s.context.hello = none then errorReply options (some Replies.ehloFirst)
  else
    match s.context.transaction with
    | none => errorReply options (some Replies.mailFirst)
    | some tx =>
      if tx.recipients.length = 0 then errorReply options (some Replies.noValidRecipients)
      else do
        send options Replies.startData
        flush world options
        let s ← Program.get
        match s.reader.startData (some options.maxSize) with
        | .error m => Program.raise (.other m)
        | .ok reader => do
          Program.modify fun s => { s with reader := reader }
          let s ← Program.get
          log (.called .data s.context)
          let d ← dataLoop world options fuel {}
          match d with
          | none => pure false
          | some d => do
            closeData world options d
            pure true

/-! ### AUTH -/

def isBase64 (text : String) : Bool :=
  text.toList.all fun c => c.isAlphanum || c = '+' || c = '/' || c = '='

/-- One challenge: the client's next line, or what the hook is thrown. -/
def challenge (fuel : ℕ) (base64 : String) : EngineM Unit := do
  if isBase64 base64 then
    Program.modify fun s => { s with outbox := s.outbox ++ ["334 " ++ base64 ++ "\r\n"] }
    flush world options
    let ev ← nextEvent world options fuel
    match ev with
    | .inl (.line line) =>
      if world.lineText line = "*" then log (.challengeFailed .saslCancelled)
      else log (.saslLine line)
    | .inl (.lineError error) => log (.challengeFailed (.lineErrorDuringSasl error))
    | _ => log (.challengeFailed .connectionClosed)
  else log (.challengeFailed (.other "challenge must be base64"))

/-- The exchange: the hook moves until it returns or throws. A challenge that
failed is in the history, so the hook can go on or throw what it was thrown. -/
def authLoop : ℕ → EngineM (Except EngineError AuthResult)
  | 0 => Program.ret ()
  | fuel + 1 => do
    interruption world options
    let s ← Program.get
    match world.onAuth s.trace with
    | .done result => pure (.ok result)
    | .throw error => pure (.error error)
    | .challenge base64 => do
      challenge world options (fuel + 1) base64
      authLoop fuel

def auth (fuel : ℕ) (mechanism : String) (initialResponse : Option String) : EngineM Bool := do
  let s ← Program.get
  if !authAvailable options then errorReply options (some Replies.authUnavailable)
  else if !saidEhlo s.context then errorReply options (some Replies.ehloFirst)
  else if s.context.auth ≠ none then errorReply options (some Replies.alreadyAuthenticated)
  else if s.context.transaction ≠ none then errorReply options (some Replies.authInTransaction)
  else if options.capabilities.authRequiresTls && !s.context.secure then
    errorReply options (some Replies.authNeedsTls)
  else if !options.capabilities.auth.contains mechanism then
    errorReply options (some Replies.authMechanism)
  else do
    let ir := if initialResponse = some "=" then some "" else initialResponse
    log (.called (.auth mechanism ir) s.context)
    let result ← authLoop world options fuel
    match result with
    | .error .saslCancelled => errorReply options (some Replies.authCancelled)
    | .error (.lineErrorDuringSasl e) => lineError world options e
    | .error .connectionClosed => pure false
    | .error (.other _) => do
      send options Replies.authTempFail
      pure true
    | .ok (.ok identity r) => do
      setContext fun c => { c with auth := some ⟨mechanism, identity⟩ }
      log (.authenticated ⟨mechanism, identity⟩)
      send options (r.getD Replies.authOk)
      pure true
    | .ok (.refused r) => errorReply options (some r)

/-! ### STARTTLS -/

def newReader : SmtpLineReader := { maxLineLength := options.maxLineLength }

/-- Everything sent after the STARTTLS line in plaintext is thrown away before
the 220, and the session starts over. -/
def startTls : EngineM Bool := do
  let s ← Program.get
  if s.context.secure then errorReply options (some Replies.alreadyTls)
  else if !startTlsAvailable options s.context then
    errorReply options (some Replies.tlsUnavailable)
  else do
    Program.modify fun s => { s with reader := s.reader.discardPending.1 }
    log (.discarded (world.buffered s.trace))
    send options Replies.startTls
    flush world options
    let s ← Program.get
    log (.called .upgradeTls s.context)
    interruption world options
    let s ← Program.get
    match world.upgradeTls s.trace with
    | .error _ => pure false
    | .ok _ => do
      Program.modify fun s =>
        { s with reader := newReader options,
                 context := { secure := true, hello := none, auth := none, transaction := none } }
      log .upgraded
      pure true

/-! ### The main loop -/

/-- Interpret one line; `false` ends the session. -/
def command (fuel : ℕ) (line : List UInt8) : EngineM Bool := do
  let s ← Program.get
  log (.line line)
  let utf8 := s.context.transaction.any fun tx => tx.params.smtputf8
  match world.parseCommand line utf8 with
  | .error r => errorReply options (some r)
  | .ok cmd => do
    log (.command cmd)
    match cmd with
    | .hello verb domain => hello world options verb domain
    | .mail from_ params => mail world options from_ params
    | .rcpt to_ params => rcpt world options to_ params
    | .data => data world options fuel
    | .rset => do
      setContext fun c => { c with transaction := none }
      send options Replies.reset
      pure true
    | .noop _ => do
      send options Replies.ok
      pure true
    | .vrfy _ => do
      send options Replies.vrfy
      pure true
    | .help _ => do
      send options Replies.help
      pure true
    | .quit => do
      send options Replies.bye
      flush world options
      pure false
    | .starttls => startTls world options
    | .auth mechanism ir => auth world options fuel mechanism ir

def mainLoop : ℕ → EngineM Unit
  | 0 => Program.ret ()
  | fuel + 1 => do
    let s ← Program.get
    if s.closed then pure ()
    else do
      log (.ready s.context)
      let ev ← nextEvent world options (fuel + 1)
      match ev with
      | .inr .timeout => do
        send options Replies.idleTimeout
        flush world options
      | .inr _ => pure ()
      | .inl (.lineError error) => do
        let keepGoing ← lineError world options error
        if keepGoing then mainLoop fuel else pure ()
      | .inl (.line line) => do
        let keepGoing ← command world options (fuel + 1) line
        if keepGoing then mainLoop fuel else pure ()
      | .inl _ => mainLoop fuel

/-- The greeting, which the daemon may turn into a refusal. -/
def greeting : HookAnswer → SmtpReply
  | .threw _ => reply 421 (some "4.3.0") ["Service not available"]
  | .replied r => r.getD (reply 220 none [options.hostname ++ " " ++ options.greeting])

def run (fuel : ℕ) : EngineM Unit := do
  let custom ← callHook world options options.onConnect .connect
  let r := greeting options custom
  send options r
  if r.code ≠ 220 then flush world options
  else mainLoop world options fuel

/-- The `finally` of the main routine. -/
def finish : EngineM Unit := do
  let s ← Program.get
  if s.closed then pure ()
  else
    flush world options
    Program.modify fun s => { s with closed := true }

def init : EngineState := { context := { secure := options.secure }, reader := newReader options }

/-- A whole session: the state when it is over, or where it was cut. -/
def session (fuel : ℕ) : EngineState :=
  ((do
    Program.handle (run world options fuel) fun _ => pure ()
    finish world options : EngineM Unit) (init options)).2

end Engine

end Postroom.Smtp
