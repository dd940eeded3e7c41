/-
Recipient caps of the submission path: apps/submission's caps/index.ts, caps/account.ts
and the accepting transaction of accept.ts, with enqueueOutbound of apps/delivery.

A message is queued along a path: under an app password, from the webmail of an
account, or as a vacation reply. Each path but the last has an hourly and a daily
cap, and all paths of an account have one together. A cap is checked in the
transaction that queues the message, under an advisory lock. Going over the cap of
an app password freezes it; `checkCaps`, which is asked at RCPT time and takes no
lock, freezes it too, in two statements of its own.

The messages of one path are one row of the model's table, an app password with the
audit rows about it is another, in the order in which they were committed. What the
seeding route of the end-to-end tests adds is a row the surroundings write. The
accounts' app passwords and all caps are constant (`Config`).
-/
import Postroom.Lib.Processes
import Postroom.Lib.Window
import Postroom.Lib.Strings

set_option autoImplicit false

namespace Postroom.Submission

open Lib

/-! ## 1. Caps and paths -/

abbrev Text := List Char

def HOUR_MS : ℕ := 60 * 60 * 1000

def DAY_MS : ℕ := 24 * HOUR_MS

/-- How many recipients are allowed in an hour and in a day. -/
structure Caps where
  hourly : ℕ
  daily : ℕ

/-- The app password's own cap takes the place of the daily default, and bounds the hour. -/
def capsFor (dailyOverride : Option ℕ) (hourlyDefault dailyDefault : ℕ) : Caps :=
  let daily := dailyOverride.getD dailyDefault
  ⟨min hourlyDefault daily, daily⟩

/-- How a message came in, and for whom. -/
inductive Path
  | submission (appPasswordId : ℕ)
  | webmail (accountId : ℕ)
  | vacation (accountId : ℕ)
  deriving DecidableEq

/-- The caps, who owns which app password, and the text functions of the runtime. -/
structure Config where
  hourlyDefault : ℕ
  dailyDefault : ℕ
  /-- `dailyRecipientCap` of an app password. -/
  dailyRecipientCap : ℕ → Option ℕ
  accountCap : Caps
  accountOf : ℕ → ℕ
  appPasswords : ℕ → List ℕ
  mem_appPasswords : ∀ accountId appPasswordId,
    appPasswordId ∈ appPasswords accountId ↔ accountOf appPasswordId = accountId
  nodup_appPasswords : ∀ accountId, (appPasswords accountId).Nodup
  trim : Text → Text
  toLowerCase : Text → Text

variable (cfg : Config)

/-- The account that a path sends for. -/
def Path.accountId : Path → ℕ
  | .submission appPasswordId => cfg.accountOf appPasswordId
  | .webmail accountId => accountId
  | .vacation accountId => accountId

/-- Every path of an account. -/
def paths (accountId : ℕ) : List Path :=
  .webmail accountId :: .vacation accountId :: (cfg.appPasswords accountId).map .submission

/-- The cap of the path itself. -/
def Path.caps : Path → Option Caps
  | .submission appPasswordId =>
    some (capsFor (cfg.dailyRecipientCap appPasswordId) cfg.hourlyDefault cfg.dailyDefault)
  | .webmail _ => some (capsFor none cfg.hourlyDefault cfg.dailyDefault)
  | .vacation _ => none

/-- The account-wide cap, as `enforceAccountCap` reads it. -/
def accountCaps : Caps := ⟨min cfg.accountCap.hourly cfg.accountCap.daily, cfg.accountCap.daily⟩

/-! ## 2. Addresses -/

def lastIndexOf (c : Char) (text : Text) : Option ℕ :=
  (text.reverse.findIdx? (· = c)).map fun i => text.length - 1 - i

/-- The domain of an address; none when it has no domain, where the source throws. -/
def recipientDomain (address : Text) : Option Text :=
  (lastIndexOf '@' address).bind fun i =>
    let domain := cfg.toLowerCase (cfg.trim (address.drop (i + 1)))
    if i < 1 ∨ domain = [] then none else some domain

/-- The address that is queued. -/
def queuedAddress (address : Text) : Option Text :=
  (recipientDomain cfg address).bind fun domain =>
    (lastIndexOf '@' address).map fun i => address.take i ++ '@' :: domain

/-- `byKey`: each address once, in the order of its first occurrence. -/
def distinct (addresses : List Text) : List Text :=
  addresses.foldl (fun seen address => if address ∈ seen then seen else seen ++ [address]) []

/-- The recipients as they are queued; `none` if one has no domain. -/
def queuedAddresses (recipients : List Text) : Option (List Text) :=
  (recipients.mapM (queuedAddress cfg)).map distinct

/-! ## 3. The table -/

/-- A row of `outbound_recipient`; the counts go by `createdAt`. -/
structure Recipient where
  address : Text
  createdAt : ℕ

/-- A row of `outbound_message`, with its recipients. -/
structure Message where
  id : ℕ
  /-- The recipients it was submitted for; no column of the table holds them. -/
  envelope : List Text
  createdAt : ℕ
  recipients : List Recipient

/-- The audit rows about an app password. -/
inductive AuditRow
  | freeze
  | thaw
  deriving DecidableEq

/-- A row of `app_password`, with the audit rows about it. -/
structure AppPassword where
  frozenAt : Option ℕ
  rows : List AuditRow
  /-- The call that has frozen it and has not written its audit row yet. -/
  owing : Option ℕ
  deriving DecidableEq

/-- What a statement can read or write. -/
inductive Place
  | clock
  | outbound (path : Path)
  | appPassword (id : ℕ)
  /-- When the recipients of the seeding route were created. -/
  | seeded (accountId : ℕ)
  deriving DecidableEq

/-- What is kept at a place. -/
inductive Row
  | instant (t : ℕ)
  | outbound (messages : List Message)
  | appPassword (row : AppPassword)
  | seeded (stamps : List ℕ)

/-- Advisory locks by their name, and one row lock. -/
inductive Lock
  /-- `caps:<appPasswordId>`. -/
  | caps (appPasswordId : ℕ)
  /-- `caps:webmail:<accountId>`. -/
  | webmail (accountId : ℕ)
  /-- `caps:account:<accountId>`. -/
  | account (accountId : ℕ)
  /-- The row lock of an app password. -/
  | appPassword (id : ℕ)
  deriving DecidableEq

abbrev Db := Table Place Row

def clockOf (db : Db) : ℕ :=
  match db .clock with
  | some (.instant t) => t
  | _ => 0

/-- The messages of a path; none where there is no row. -/
def outboundOf (db : Db) (path : Path) : List Message :=
  match db (.outbound path) with
  | some (.outbound messages) => messages
  | _ => []

/-- An app password without a row is one that was never frozen. -/
def appPasswordOf (db : Db) (id : ℕ) : AppPassword :=
  match db (.appPassword id) with
  | some (.appPassword row) => row
  | _ => ⟨none, [], none⟩

def seededOf (db : Db) (accountId : ℕ) : List ℕ :=
  match db (.seeded accountId) with
  | some (.seeded stamps) => stamps
  | _ => []

/-- When the recipients of the messages were created. -/
def stamps (messages : List Message) : List ℕ :=
  messages.flatMap fun m => m.recipients.map (·.createdAt)

/-- When the recipients of all paths of an account were created. -/
def accountStamps (db : Db) (accountId : ℕ) : List ℕ :=
  (paths cfg accountId).flatMap fun path => stamps (outboundOf db path)

/-- Whose recipients are counted. -/
inductive Counted
  | path (path : Path)
  | account (accountId : ℕ)

/-- `recipientCount` from `start` on: of a path, or of a whole account. -/
def recipientCount (db : Db) (counted : Counted) (start : ℕ) : ℕ :=
  match counted with
  | .path path => since start (stamps (outboundOf db path))
  | .account accountId =>
    since start (accountStamps cfg db accountId) + since start (seededOf db accountId)

/-- The statements of this package. -/
inductive Stmt
  | clock
  | lock (lock : Lock)
  | findAppPassword (id : ℕ)
  | count (counted : Counted) (start : ℕ)
  | createMessage (path : Path) (id : ℕ) (envelope : List Text) (createdAt : ℕ)
  | createRecipients (path : Path) (id : ℕ) (recipients : List Recipient)
  /-- `updateMany` where `frozenAt` is null; `owing` is the call whose audit row is to come. -/
  | freeze (id t : ℕ) (owing : Option ℕ)
  | recordFreeze (id : ℕ)
  /-- `freezeAndAudit` in a transaction of its own, over another connection. -/
  | freezeAndAudit (id t : ℕ)
  | thaw (id : ℕ)
  | recordThaw (id : ℕ)

abbrev Stmt.Result : Stmt → Type
  | .clock => ℕ
  | .findAppPassword _ => Option ℕ
  | .count .. => ℕ
  | .freeze .. => ℕ
  | .freezeAndAudit .. => ℕ
  | _ => Unit

/-- An app password is written under its row lock. An audit row is inserted without
one; that it waits for an open change of the app password only fixes the order of two
rows that do not read each other. -/
def writeAppPassword {α : Type} (a : α) (id : ℕ) (row : AppPassword) :
    Option (Effect Place Row Lock α) :=
  some ⟨a, Table.single (.appPassword id) (.appPassword row), [.appPassword id]⟩

/-- A statement on a view; it is `none` where PostgreSQL raises an error. -/
def exec (db : Db) : (s : Stmt) → Option (Effect Place Row Lock s.Result)
  | .clock => reading (clockOf db)
  | .lock lock => some ⟨(), Table.empty, [lock]⟩
  | .findAppPassword id => reading (appPasswordOf db id).frozenAt
  | .count counted start => reading (recipientCount cfg db counted start)
  | .createMessage path id envelope createdAt =>
    -- the primary key
    if id ∈ (outboundOf db path).map (·.id) then none
    else some ⟨(), Table.single (.outbound path)
      (.outbound (outboundOf db path ++ [⟨id, envelope, createdAt, []⟩])), []⟩
  | .createRecipients path id recipients =>
    let messages := (outboundOf db path).map fun m =>
      if m.id = id then { m with recipients := m.recipients ++ recipients } else m
    some ⟨(), Table.single (.outbound path) (.outbound messages), []⟩
  | .freeze id t owing =>
    if (appPasswordOf db id).frozenAt = none then
      writeAppPassword (1 : ℕ) id { appPasswordOf db id with frozenAt := some t, owing := owing }
    else reading (0 : ℕ)
  | .recordFreeze id =>
    writeAppPassword () id
      { appPasswordOf db id with rows := (appPasswordOf db id).rows ++ [.freeze], owing := none }
  | .freezeAndAudit id _ => reading (if (appPasswordOf db id).frozenAt = none then (1 : ℕ) else 0)
  | .thaw id => writeAppPassword () id { appPasswordOf db id with frozenAt := none }
  | .recordThaw id =>
    writeAppPassword () id
      { appPasswordOf db id with rows := (appPasswordOf db id).rows ++ [.thaw] }

/-- What is written over another connection, and committed there. -/
def aside (db : Db) : Stmt → Aside Place Row Lock
  | .freezeAndAudit id t =>
    if (appPasswordOf db id).frozenAt = none then
      ⟨Table.single (.appPassword id) (.appPassword { appPasswordOf db id with
        frozenAt := some t, rows := (appPasswordOf db id).rows ++ [.freeze] }), [.appPassword id]⟩
    else ⟨Table.empty, []⟩
  | _ => ⟨Table.empty, []⟩

/-! ## 4. The accepting transaction -/

/-- Why a transaction is rolled back. -/
inductive Failure
  /-- `RecipientSuppressedError`. -/
  | suppressed
  /-- `CapExceededError(CapReplies.frozen)`. -/
  | frozen
  /-- `CapExceededError(CapReplies.capReached)`. -/
  | capReached
  /-- `AccountCapExceededError`. -/
  | accountCap
  /-- No recipient, or one without a domain. -/
  | recipients
  /-- The caller's part of the transaction failed. -/
  | caller
  | database
  deriving DecidableEq

abbrev Script := Txn Stmt Stmt.Result Failure

/-- `Txn.exec` at these statements. -/
def sql (s : Stmt) : Script s.Result := Txn.exec s

/-- Whether `n` more recipients go over the daily or the hourly cap. -/
def exceeds (caps : Caps) (hourCount dayCount n : ℕ) : Bool :=
  caps.daily < dayCount + n || caps.hourly < hourCount + n

/-- `createCapsEnforcer`. -/
def enforceCaps (appPasswordId : ℕ) (recipients : List Text) (now : ℕ) : Script Unit :=
  if recipients = [] then pure ()
  else do
    sql (.lock (.caps appPasswordId))
    let frozenAt : Option ℕ ← sql (.findAppPassword appPasswordId)
    if frozenAt.isSome then .fail .frozen
    else do
      let hourCount : ℕ ← sql (.count (.path (.submission appPasswordId)) (now - HOUR_MS))
      let dayCount : ℕ ← sql (.count (.path (.submission appPasswordId)) (now - DAY_MS))
      let caps := capsFor (cfg.dailyRecipientCap appPasswordId) cfg.hourlyDefault cfg.dailyDefault
      if exceeds caps hourCount dayCount recipients.length then do
        -- this transaction is rolled back, the freeze is not
        let _ : ℕ ← sql (.freezeAndAudit appPasswordId now)
        .fail .capReached
      else pure ()

/-- `createWebmailCapsEnforcer`. -/
def enforceWebmailCaps (accountId : ℕ) (recipients : List Text) (now : ℕ) : Script Unit :=
  if recipients = [] then pure ()
  else do
    sql (.lock (.webmail accountId))
    let hourCount : ℕ ← sql (.count (.path (.webmail accountId)) (now - HOUR_MS))
    let dayCount : ℕ ← sql (.count (.path (.webmail accountId)) (now - DAY_MS))
    if exceeds (capsFor none cfg.hourlyDefault cfg.dailyDefault) hourCount dayCount
      recipients.length then .fail .capReached
    else pure ()

/-- The `enforceCaps` that the callers of `acceptSubmission` pass to it. -/
def Path.enforceCaps (recipients : List Text) (now : ℕ) : Path → Script Unit
  | .submission appPasswordId => Submission.enforceCaps cfg appPasswordId recipients now
  | .webmail accountId => enforceWebmailCaps cfg accountId recipients now
  | .vacation _ => pure ()

/-- The cap over all paths of an account, under a lock of its own. -/
def enforceAccountCap (accountId : ℕ) (recipients now : ℕ) : Script Unit :=
  if recipients = 0 then pure ()
  else do
    sql (.lock (.account accountId))
    let hourCount : ℕ ← sql (.count (.account accountId) (now - HOUR_MS))
    let dayCount : ℕ ← sql (.count (.account accountId) (now - DAY_MS))
    if exceeds (accountCaps cfg) hourCount dayCount recipients then .fail .accountCap else pure ()

/-- The rows of one message; their time is read here, after both checks. -/
def enqueueOutbound (path : Path) (id : ℕ) (recipients : List Text) : Script Unit :=
  if recipients = [] then .fail .recipients
  else do
    let now : ℕ ← sql .clock
    match queuedAddresses cfg recipients with
    | none => .fail .recipients
    | some addresses => do
      sql (.createMessage path id recipients now)
      sql (.createRecipients path id (addresses.map fun address => ⟨address, now⟩))

/-- One message of a submission: who it is for, and for how many the path's cap is
checked (with copies to come, the first one checks for all of them). -/
structure Copy where
  id : ℕ
  recipients : List Text
  capRecipients : List Text
  covers : recipients.length ≤ capRecipients.length
  /-- A recipient is on the suppression list. -/
  suppressed : Bool
  /-- What the caller adds to the transaction after this message fails. -/
  fails : Bool

/-- The accepting transaction, for one message. -/
def acceptCopy (path : Path) (copy : Copy) : Script Unit :=
  if copy.suppressed then .fail .suppressed
  else do
    let now : ℕ ← sql .clock
    path.enforceCaps cfg copy.capRecipients now
    let now' : ℕ ← sql .clock
    enforceAccountCap cfg (path.accountId cfg) copy.recipients.length now'
    enqueueOutbound cfg path copy.id copy.recipients
    if copy.fails then .fail .caller else pure ()

/-- A held send with several copies accepts the later ones inside the transaction of
the first; a refusal of any of them rolls everything back. -/
def acceptScript (path : Path) (copies : List Copy) : Script Unit :=
  Txn.forEach copies () fun _ copy => acceptCopy cfg path copy

/-- The operator thaws an app password. -/
def thawScript (appPasswordId : ℕ) : Script Bool := do
  let frozenAt : Option ℕ ← sql (.findAppPassword appPasswordId)
  if frozenAt = none then pure false
  else do
    sql (.thaw appPasswordId)
    sql (.recordThaw appPasswordId)
    pure true

/-- The two kinds of transaction. -/
inductive Command
  | accept (path : Path) (copies : List Copy)
  | thaw (appPasswordId : ℕ)

abbrev Command.Result : Command → Type
  | .accept .. => Unit
  | .thaw _ => Bool

def script : (c : Command) → Script c.Result
  | .accept path copies => acceptScript cfg path copies
  | .thaw appPasswordId => thawScript appPasswordId

/-! ## 5. Calls -/

/-- What a refused client is told. -/
inductive Refusal
  | suppressed
  | frozen
  | capReached
  | accountCap
  deriving DecidableEq

/-- What a call comes to. -/
inductive Outcome
  | accepted
  | refused (refusal : Refusal)
  /-- The decisions of `checkCaps`. -/
  | allow
  | reject (refusal : Refusal)
  | thawed (thawed : Bool)
  deriving DecidableEq

abbrev Prog := Proc Stmt Stmt.Result Command Command.Result Failure

/-- `Proc.ask` at these statements. -/
def ask (s : Stmt) : Prog s.Result := Proc.ask s

/-- `Proc.transact` at these transactions. -/
def transact (c : Command) : Prog c.Result := Proc.transact c

/-- `Proc.attempt` at these transactions. -/
def attempt (c : Command) : Prog (Except Failure c.Result) := Proc.attempt c

/-- What is answered for a transaction that was rolled back. -/
def refusalFor : Failure → Prog Outcome
  | .suppressed => pure (.refused .suppressed)
  | .frozen => pure (.refused .frozen)
  | .capReached => pure (.refused .capReached)
  | .accountCap => pure (.refused .accountCap)
  | e => .fail e

/-- One attempt; the errors that are no refusal are thrown on. -/
def acceptSubmission (path : Path) (copies : List Copy) : Prog Outcome := do
  let result : Except Failure Unit ← attempt (.accept path copies)
  match result with
  | .ok _ => pure .accepted
  | .error e => refusalFor e

/-- `freezeAndAudit` outside of a transaction: the update and the audit row are two
statements. -/
def freezeThenAudit (me appPasswordId now : ℕ) : Prog Unit := do
  let updated : ℕ ← ask (.freeze appPasswordId now (some me))
  if updated = 0 then pure () else ask (.recordFreeze appPasswordId)

/-- `createCapsChecker`, in the process with the number `me`. -/
def checkCaps (me appPasswordId : ℕ) (recipients : List Text) : Prog Outcome :=
  if recipients = [] then pure .allow
  else do
    let frozenAt : Option ℕ ← ask (.findAppPassword appPasswordId)
    if frozenAt.isSome then pure (.reject .frozen)
    else do
      let now : ℕ ← ask .clock
      let hourCount : ℕ ← ask (.count (.path (.submission appPasswordId)) (now - HOUR_MS))
      let dayCount : ℕ ← ask (.count (.path (.submission appPasswordId)) (now - DAY_MS))
      let caps := capsFor (cfg.dailyRecipientCap appPasswordId) cfg.hourlyDefault cfg.dailyDefault
      if exceeds caps hourCount dayCount recipients.length then do
        freezeThenAudit me appPasswordId now
        pure (.reject .capReached)
      else pure .allow

/-- What is called from outside. -/
inductive Call
  | submit (appPasswordId : ℕ) (copy : Copy)
  /-- A send from the webmail, or a held send with all its copies. -/
  | webmail (accountId : ℕ) (copies : List Copy)
  | vacation (accountId : ℕ) (copy : Copy)
  | checkCaps (appPasswordId : ℕ) (recipients : List Text)
  | thaw (appPasswordId : ℕ)

/-- The code of each call. -/
def body (me : ℕ) : Call → Prog Outcome
  | .submit appPasswordId copy => acceptSubmission (.submission appPasswordId) [copy]
  | .webmail accountId copies => acceptSubmission (.webmail accountId) copies
  | .vacation accountId copy => acceptSubmission (.vacation accountId) [copy]
  | .checkCaps appPasswordId recipients => checkCaps cfg me appPasswordId recipients
  | .thaw appPasswordId => do
    let thawed : Bool ← transact (.thaw appPasswordId)
    pure (.thawed thawed)

/-- What the surroundings do: time passes, the seeding route adds a recipient. -/
inductive Around
  | tick (ms : ℕ)
  | seed (accountId : ℕ)

def around : Around → Db → Option Db
  | .tick ms, db => some ((Table.single .clock (.instant (clockOf db + ms))).over db)
  | .seed accountId, db =>
    some ((Table.single (.seeded accountId) (.seeded (seededOf db accountId ++ [clockOf db]))).over
      db)

/-- The processes of this package over one database. -/
def system : System Place Row Lock Stmt Stmt.Result Command Command.Result Failure Call Outcome
    Around where
  exec := exec cfg
  aside := aside
  script := script cfg
  broken := .database
  body := body cfg
  env := around

abbrev CapsWorld := World Place Row Lock Stmt Stmt.Result Command Command.Result Failure Call
    Outcome

end Postroom.Submission
