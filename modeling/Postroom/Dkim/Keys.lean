/-
DKIM keys of a sending domain and their rotation, as `apps/submission/src/dkim.ts`
and `apps/submission/src/dkim-rotation.ts` have them.

Per domain and algorithm a key is created `pending`, becomes `active` once its TXT
record is seen in DNS, is `retiring` for seven days after its successor took over
and `retired` then. `ensureDkimKeys`, `rotateDkimKeys` and `loadSigningKeys` are
processes: each reads the clock once, at its start, reads rows outside any
transaction, and writes in transactions that begin with the domain's advisory lock.

The keys of a domain are one row of the model's table, guarded by that lock; the
database's random identifiers are replaced by positions in the list, which only
grows. The clock and what DNS answers are rows that the surroundings set, and every
answer that was given is kept in one more row.
-/
import Postroom.AuthChecks.Tags
import Postroom.Lib.Decimal
import Postroom.Lib.Processes
import Postroom.Lib.Strings

set_option autoImplicit false

namespace Postroom.Dkim

open Lib AuthChecks

/-! ## 1. Keys -/

/-- What the code takes from the JavaScript runtime: texts in lower case and
trimmed, the ASCII form of a domain, and the calendar. Instants are milliseconds. -/
structure Runtime where
  toLowerCase : Text → Text
  trim : Text → Text
  domainToASCII : Text → Text
  /-- The UTC year in four digits and the month in two. -/
  yearMonth : ℕ → Text
  addUtcMonths : ℕ → ℕ → ℕ

inductive Algorithm
  | ed25519
  | rsa
  deriving DecidableEq, Repr

/-- Signing order: Ed25519 first, then RSA (both always). -/
def DKIM_ALGORITHMS : List Algorithm := [.ed25519, .rsa]

inductive KeyState
  | pending
  | active
  | retiring
  | retired
  deriving DecidableEq, Repr

/-- A `dkim_key` row. -/
structure DkimKey where
  id : ℕ
  selector : Text
  algorithm : Algorithm
  dnsRecord : Text
  activeFrom : ℕ
  retiredAt : Option ℕ
  state : KeyState
  dnsVerifiedAt : Option ℕ
  retireAfter : Option ℕ
  deriving DecidableEq

def ROTATION_PERIOD_MONTHS : ℕ := 3
def OVERLAP_DAYS : ℕ := 7
def DAY_MS : ℕ := 86400000

variable (rt : Runtime)

/-- When an active key's successor is due to be created. -/
def rotationDueAt (activeFrom : ℕ) : ℕ := rt.addUtcMonths activeFrom ROTATION_PERIOD_MONTHS

/-- The earliest a key superseded at `switchedAt` may be retired. -/
def retireAfterFor (switchedAt : ℕ) : ℕ := switchedAt + OVERLAP_DAYS * DAY_MS

/-- `pr<yyyy><mm>r` or `pr<yyyy><mm>e`. -/
def selectorFor (date : ℕ) (algorithm : Algorithm) : Text :=
  "pr".toList ++ rt.yearMonth date ++ [if algorithm = .rsa then 'r' else 'e']

/-- The first of `base n`, `base n+1`, … that is not taken; at most `fuel` are. -/
def firstFree (base : Text) (taken : List Text) : ℕ → ℕ → Text
  | 0, n => base ++ decimal n
  | fuel + 1, n =>
    if base ++ decimal n ∈ taken then firstFree base taken fuel (n + 1) else base ++ decimal n

/-- A dated selector, with a counter appended when it is already taken. -/
def datedSelector (now : ℕ) (algorithm : Algorithm) (taken : List Text) : Text :=
  let base := selectorFor rt now algorithm
  if base ∉ taken then base else firstFree base taken taken.length 2

/-- The TXT record to publish for a public key, given in base64. -/
def dnsRecordFor (algorithm : Algorithm) (publicKey : Text) : Text :=
  match algorithm with
  | .rsa => "v=DKIM1; k=rsa; p=".toList ++ publicKey
  | .ed25519 => "v=DKIM1; k=ed25519; p=".toList ++ publicKey

def dnsNameOf (selector domain : Text) : Text := selector ++ "._domainkey.".toList ++ domain

/-! ## 2. What DNS publishes -/

/-- What the resolver gives: TXT values, or a result code with records (`none` for a
record that is not TXT), or an exception. -/
inductive Answer
  | strings (records : List Text)
  | result (rcode : ℕ) (answers : List (Option (List Text)))
  | thrown

def RCODE_NOERROR : ℕ := 0
def RCODE_NXDOMAIN : ℕ := 3

/-- The TXT values of an answer; `none` when the lookup failed. -/
def Answer.records : Answer → Option (List Text)
  | .strings records => some records
  | .result rcode answers =>
    if rcode ≠ RCODE_NOERROR ∧ rcode ≠ RCODE_NXDOMAIN then none
    else some (answers.filterMap fun a => a.map List.flatten)
  | .thrown => none

/-- The `k=` and `p=` of a key record. -/
def keyTag (record : Text) : Option (Text × Text) :=
  match parseTagList record with
  | .error _ => none
  | .ok tags =>
    if (tags.get ['v']).any (· ≠ "DKIM1".toList) then none
    else some (rt.toLowerCase ((tags.get ['k']).getD "rsa".toList),
      stripWhitespace ((tags.get ['p']).getD []))

/-- Whether any of the published values carries the key of `expected`. -/
def txtMatches (published : List Text) (expected : Text) : Bool :=
  match keyTag rt expected with
  | none => false
  | some want => want.2 ≠ [] && published.any fun txt => keyTag rt txt = some want

inductive DnsVisibility
  | visible
  | failed
  | noRecord
  | otherKey
  deriving DecidableEq

/-- Whether the answer publishes the key of `dnsRecord`. -/
def Answer.visibility (answer : Answer) (dnsRecord : Text) : DnsVisibility :=
  match answer.records with
  | none => .failed
  | some records =>
    if records.length = 0 then .noRecord
    else if !txtMatches rt records dnsRecord then .otherKey
    else .visible

/-! ## 3. The table -/

inductive Place
  | clock
  | domain (name : Text)
  | txt (dnsName : Text)
  | heard
  deriving DecidableEq

inductive Row
  | instant (t : ℕ)
  | keys (ks : List DkimKey)
  | answer (a : Answer)
  | heard (answers : List (Text × Answer))

abbrev Db := Table Place Row

def clockOf (db : Db) : ℕ :=
  match db .clock with
  | some (.instant t) => t
  | _ => 0

/-- The keys of a domain. -/
def keysOf (db : Db) (name : Text) : List DkimKey :=
  match db (.domain name) with
  | some (.keys ks) => ks
  | _ => []

/-- Whether there is a row for the domain. -/
def hasDomain (db : Db) (name : Text) : Bool :=
  match db (.domain name) with
  | some (.keys _) => true
  | _ => false

/-- What DNS has answered so far, and for which name. -/
def heardIn (db : Db) : List (Text × Answer) :=
  match db .heard with
  | some (.heard answers) => answers
  | _ => []

/-- What DNS answers now. -/
def answerIn (db : Db) (dnsName : Text) : Answer :=
  match db (.txt dnsName) with
  | some (.answer a) => a
  | _ => .strings []

/-- The statements. The clock and the resolver are asked like the database. -/
inductive Stmt
  | clock
  | findDomain (name : Text)
  | lookupTxt (dnsName : Text)
  | lockDomain (name : Text)
  | liveRows (name : Text) (algorithm : Algorithm)
  | activeKeys (name : Text) (now : ℕ)
  | findActive (name : Text) (algorithm : Algorithm) (now : ℕ)
  | findPending (name : Text) (algorithm : Algorithm)
  | otherActive (name : Text) (algorithm : Algorithm) (id : ℕ)
  | takenSelectors (name : Text)
  | retire (name : Text) (id now : ℕ)
  | activate (name : Text) (id now : ℕ)
  | supersede (name : Text) (id retireAfter : ℕ)
  | create (name selector : Text) (algorithm : Algorithm) (dnsRecord : Text) (activeFrom : ℕ)
    (state : KeyState)

def Stmt.Result : Stmt → Type
  | .clock => ℕ
  | .findDomain _ => Bool
  | .lookupTxt _ => Answer
  | .lockDomain _ => Unit
  | .liveRows .. => List DkimKey
  | .activeKeys .. => Algorithm → Option DkimKey
  | .findActive .. => Option DkimKey
  | .findPending .. => Option Text
  | .otherActive .. => List DkimKey
  | .takenSelectors _ => List Text
  | .retire .. => ℕ
  | .activate .. => ℕ
  | .supersede .. => Unit
  | .create .. => DkimKey

/-- `orderBy: { activeFrom: 'desc' }`. -/
def newestFirst (ks : List DkimKey) : List DkimKey :=
  ks.insertionSort fun a b => b.activeFrom ≤ a.activeFrom

/-- What signs at `now`: `state: active, retiredAt: null, activeFrom: { lte: now }`. -/
def DkimKey.signsAt (k : DkimKey) (now : ℕ) : Bool :=
  k.state = .active && k.retiredAt = none && k.activeFrom ≤ now

/-- `updateMany`: the rows that match are changed and counted. -/
def updateWhere (p : DkimKey → Bool) (f : DkimKey → DkimKey) (ks : List DkimKey) : List DkimKey :=
  ks.map fun k => if p k then f k else k

/-- The rows `retire` changes, and how. -/
def DkimKey.retirable (id now : ℕ) (k : DkimKey) : Bool :=
  k.id = id && k.state = .retiring && k.retireAfter.any (· ≤ now)

def DkimKey.retire (now : ℕ) (k : DkimKey) : DkimKey :=
  { k with state := .retired, retiredAt := some now }

def DkimKey.awaits (id : ℕ) (k : DkimKey) : Bool := k.id = id && k.state = .pending

def DkimKey.activate (now : ℕ) (k : DkimKey) : DkimKey :=
  { k with state := .active, activeFrom := now, dnsVerifiedAt := some now }

def DkimKey.supersede (retireAfter : ℕ) (k : DkimKey) : DkimKey :=
  { k with state := .retiring, retireAfter := some retireAfter }

/-- A statement that changes the keys of a domain. -/
def writing {α : Type} (name : Text) (ks : List DkimKey) (a : α) :
    Option (Effect Place Row Place α) :=
  some ⟨a, Table.single (.domain name) (.keys ks), []⟩

def exec (db : Db) : (s : Stmt) → Option (Effect Place Row Place s.Result)
  | .clock => reading (clockOf db)
  | .findDomain name => reading (hasDomain db name)
  | .lookupTxt dnsName =>
    some ⟨answerIn db dnsName, Table.single .heard
      (.heard (heardIn db ++ [(dnsName, answerIn db dnsName)])), []⟩
  | .lockDomain name => some ⟨(), Table.empty, [.domain name]⟩
  | .liveRows name algorithm =>
    reading (newestFirst ((keysOf db name).filter fun k =>
      k.algorithm = algorithm && k.state ≠ .retired))
  | .activeKeys name now =>
    let rows := newestFirst ((keysOf db name).filter (·.signsAt now))
    reading fun algorithm => rows.find? (·.algorithm = algorithm)
  | .findActive name algorithm now =>
    reading (newestFirst ((keysOf db name).filter fun k =>
      k.algorithm = algorithm && k.signsAt now)).head?
  | .findPending name algorithm =>
    reading (((keysOf db name).find? fun k => k.algorithm = algorithm && k.state = .pending).map
      (·.selector))
  | .otherActive name algorithm id =>
    reading ((keysOf db name).filter fun k => k.algorithm = algorithm && k.state = .active
      && k.id ≠ id)
  | .takenSelectors name => reading ((keysOf db name).map (·.selector))
  | .retire name id now =>
    writing name (updateWhere (·.retirable id now) (·.retire now) (keysOf db name))
      ((keysOf db name).countP (·.retirable id now))
  | .activate name id now =>
    writing name (updateWhere (·.awaits id) (·.activate now) (keysOf db name))
      ((keysOf db name).countP (·.awaits id))
  | .supersede name id retireAfter =>
    -- `update` throws when there is no such row
    if (keysOf db name).any (·.id = id) then
      writing name (updateWhere (·.id = id) (·.supersede retireAfter) (keysOf db name)) ()
    else none
  | .create name selector algorithm dnsRecord activeFrom state =>
    -- the unique index on (domain, selector)
    if (keysOf db name).any (·.selector = selector) then none
    else
      let key : DkimKey := ⟨(keysOf db name).length, selector, algorithm, dnsRecord, activeFrom,
        none, state, none, none⟩
      writing name (keysOf db name ++ [key]) key

/-! ## 4. Transactions -/

inductive Failure
  | unknownDomain (name : Text)
  | emptyDomainName
  | invalidDomainName (input : Text)
  | database

abbrev Script := Txn Stmt Stmt.Result Failure

/-- `Txn.exec` at these statements. -/
def sql (s : Stmt) : Script s.Result := Txn.exec s

inductive Command
  | retire (name : Text) (id now : ℕ)
  | switch (name : Text) (algorithm : Algorithm) (id now : ℕ)
  | createPending (name : Text) (algorithm : Algorithm) (now : ℕ) (dnsRecord : Text)
  | createActive (name : Text) (algorithm : Algorithm) (now : ℕ) (dnsRecord : Text)

def Command.Result : Command → Type
  | .retire .. => Bool
  | .switch .. => Option (List Text)
  | .createPending .. => Option Text
  | .createActive .. => DkimKey × Bool

def retireScript (name : Text) (id now : ℕ) : Script Bool := do
  sql (.lockDomain name)
  let count : ℕ ← sql (.retire name id now)
  pure (count ≠ 0)

def switchScript (name : Text) (algorithm : Algorithm) (id now : ℕ) :
    Script (Option (List Text)) := do
  sql (.lockDomain name)
  let count : ℕ ← sql (.activate name id now)
  if count = 0 then pure none
  else do
    let previous : List DkimKey ← sql (.otherActive name algorithm id)
    Txn.forEach previous () fun _ old => sql (.supersede name old.id (retireAfterFor now))
    pure (some (previous.map (·.selector)))

def createPendingScript (name : Text) (algorithm : Algorithm) (now : ℕ) (dnsRecord : Text) :
    Script (Option Text) := do
  sql (.lockDomain name)
  let raced : Option Text ← sql (.findPending name algorithm)
  match raced with
  | some _ => pure none
  | none => do
    let taken : List Text ← sql (.takenSelectors name)
    let selector := datedSelector rt now algorithm taken
    let _ ← sql (.create name selector algorithm dnsRecord now .pending)
    pure (some selector)

def createActiveScript (name : Text) (algorithm : Algorithm) (now : ℕ) (dnsRecord : Text) :
    Script (DkimKey × Bool) := do
  sql (.lockDomain name)
  -- someone else created one while we generated: keep theirs and write nothing
  let raced : Option DkimKey ← sql (.findActive name algorithm now)
  match raced with
  | some row => pure (row, false)
  | none => do
    let taken : List Text ← sql (.takenSelectors name)
    let row :
        DkimKey
        ← sql (.create name (datedSelector rt now algorithm taken) algorithm dnsRecord now .active)
    pure (row, true)

def script : (c : Command) → Script c.Result
  | .retire name id now => retireScript name id now
  | .switch name algorithm id now => switchScript name algorithm id now
  | .createPending name algorithm now dnsRecord =>
    createPendingScript rt name algorithm now dnsRecord
  | .createActive name algorithm now dnsRecord => createActiveScript rt name algorithm now dnsRecord

/-! ## 5. Calls -/

inductive RotationEventKind
  | retired
  | switched
  | awaitingDns (reason : DnsVisibility)
  | createdPending
  | notDue
  | noActiveKey

structure RotationEvent where
  algorithm : Algorithm
  kind : RotationEventKind
  selector : Option Text
  dnsRecord : Option Text

structure DkimKeyInfo where
  domain : Text
  selector : Text
  algorithm : Algorithm
  dnsRecord : Text
  created : Bool

inductive Outcome
  | keys (infos : List DkimKeyInfo)
  | rotated (events : List RotationEvent)
  /-- The selector and algorithm of each signing key, or null. -/
  | loaded (keys : Option (List (Text × Algorithm)))

abbrev Prog := Proc Stmt Stmt.Result Command Command.Result Failure

/-- `Proc.ask` at these statements. -/
def ask (s : Stmt) : Prog s.Result := Proc.ask s

/-- `Proc.transact` at these transactions. -/
def transact (c : Command) : Prog c.Result := Proc.transact c

/-- `normalizeDomain` (packages/db). -/
def normalizeDomain (input : Text) : Except Failure Text :=
  let lower := rt.toLowerCase (rt.trim input)
  let name := if lower.getLast? = some '.' then lower.dropLast else lower
  if name = [] then .error .emptyDomainName
  else
    let ascii := rt.domainToASCII name
    if ascii = [] then .error (.invalidDomainName input) else .ok ascii

/-- The public keys generated for a call, in base64. -/
abbrev Pairs := Algorithm → Text

/-- Retire one key of the rows that were read, when its seven days are up. -/
def retireOne (name : Text) (algorithm : Algorithm) (now : ℕ) (events : List RotationEvent)
    (key : DkimKey) :
    Prog (List RotationEvent) :=
  if key.state ≠ .retiring ∨ key.retireAfter.all (now < ·) then pure events
  else do
    let retired : Bool ← transact (.retire name key.id now)
    if retired then pure (events ++ [⟨algorithm, .retired, some key.selector, some key.dnsRecord⟩])
      else pure events

/-- A pending key switches in only once our resolver sees its TXT. -/
def switchTo (name : Text) (algorithm : Algorithm) (now : ℕ) (pending : DkimKey)
    (events : List RotationEvent) :
    Prog (List RotationEvent) := do
  let answer : Answer ← ask (.lookupTxt (dnsNameOf pending.selector name))
  let seen := Answer.visibility rt answer pending.dnsRecord
  if seen ≠ .visible then
    pure (events ++ [⟨algorithm, .awaitingDns seen, some pending.selector, some pending.dnsRecord⟩])
  else do
    let switched : Option (List Text) ← transact (.switch name algorithm pending.id now)
    match switched with
    | some _ =>
      pure (events ++ [⟨algorithm, .switched, some pending.selector, some pending.dnsRecord⟩])
    | none => pure events

/-- The successor of a key that is due is created as `pending`. -/
def succeed (name : Text) (pairs : Pairs) (force : Bool) (algorithm : Algorithm) (now : ℕ)
    (active : DkimKey)
    (events : List RotationEvent) : Prog (List RotationEvent) :=
  if !force && now < rotationDueAt rt active.activeFrom then
    pure (events ++ [⟨algorithm, .notDue, some active.selector, none⟩])
  else do
    let dnsRecord := dnsRecordFor algorithm (pairs algorithm)
    let created : Option Text ← transact (.createPending name algorithm now dnsRecord)
    match created with
    | some selector =>
      pure (events ++ [⟨algorithm, .createdPending, some selector, some dnsRecord⟩])
    | none => pure events

/-- What the live rows call for: the switch to a pending key, or a successor. -/
def rotateRows (name : Text) (pairs : Pairs) (force : Bool) (now : ℕ) (algorithm : Algorithm)
    (events : List RotationEvent) (rows : List DkimKey) : Prog (List RotationEvent) :=
  match rows.find? (·.state = .pending), rows.find? (·.state = .active) with
  | some pending, _ => switchTo rt name algorithm now pending events
  | none, none => pure (events ++ [⟨algorithm, .noActiveKey, none, none⟩])
  | none, some active => succeed rt name pairs force algorithm now active events

/-- One rotation pass over one algorithm. -/
def rotateOne (name : Text) (pairs : Pairs) (force : Bool) (now : ℕ) (events : List RotationEvent)
    (algorithm : Algorithm) : Prog (List RotationEvent) := do
  let live : List DkimKey ← ask (.liveRows name algorithm)
  let events ← Txn.forEach live events (retireOne name algorithm now)
  let rows : List DkimKey ← ask (.liveRows name algorithm)
  rotateRows rt name pairs force now algorithm events rows

/-- The domain a call is about. -/
def findDomain (name : Text) : Prog Unit := do
  let found : Bool ← ask (.findDomain name)
  if found then pure () else .fail (.unknownDomain name)

def rotateDkimKeys (domainName : Text) (pairs : Pairs) (force : Bool) :
    Prog (List RotationEvent) := do
  let now : ℕ ← ask .clock
  match normalizeDomain rt domainName with
  | .error e => .fail e
  | .ok name => do
    findDomain name
    Txn.forEach DKIM_ALGORITHMS [] (rotateOne rt name pairs force now)

/-- One algorithm of `ensureDkimKeys`. -/
def ensureOne (name : Text) (pairs : Pairs) (now : ℕ) (out : List DkimKeyInfo)
    (algorithm : Algorithm) :
    Prog (List DkimKeyInfo) := do
  let byAlg : Algorithm → Option DkimKey ← ask (.activeKeys name now)
  match byAlg algorithm with
  | some existing => pure (out ++ [⟨name, existing.selector, algorithm, existing.dnsRecord, false⟩])
  | none => do
    let result : DkimKey × Bool
        ← transact (.createActive name algorithm now (dnsRecordFor algorithm (pairs algorithm)))
    pure (out ++ [⟨name, result.1.selector, algorithm, result.1.dnsRecord, result.2⟩])

def ensureDkimKeys (domainName : Text) (pairs : Pairs) : Prog (List DkimKeyInfo) := do
  let now : ℕ ← ask .clock
  match normalizeDomain rt domainName with
  | .error e => .fail e
  | .ok name => do
    findDomain name
    Txn.forEach DKIM_ALGORITHMS [] (ensureOne name pairs now)

/-- The selected rows in signing order; null unless both algorithms have one. -/
def signingKeys (byAlg : Algorithm → Option DkimKey) :
    List Algorithm → Option (List (Text × Algorithm))
  | [] => some []
  | algorithm :: rest =>
    match byAlg algorithm with
    | none => none
    | some row => (signingKeys byAlg rest).map ((row.selector, algorithm) :: ·)

def loadSigningKeys (domainName : Text) : Prog (Option (List (Text × Algorithm))) := do
  let now : ℕ ← ask .clock
  match normalizeDomain rt domainName with
  | .error e => .fail e
  | .ok name => do
    let found : Bool ← ask (.findDomain name)
    if found then do
      let byAlg : Algorithm → Option DkimKey ← ask (.activeKeys name now)
      pure (signingKeys byAlg DKIM_ALGORITHMS)
    else pure none

inductive Call
  | ensure (domainName : Text) (pairs : Pairs)
  | rotate (domainName : Text) (pairs : Pairs) (force : Bool)
  | load (domainName : Text)

def body : Call → Prog Outcome
  | .ensure domainName pairs => do
    let infos ← ensureDkimKeys rt domainName pairs
    pure (.keys infos)
  | .rotate domainName pairs force => do
    let events ← rotateDkimKeys rt domainName pairs force
    pure (.rotated events)
  | .load domainName => do
    let keys ← loadSigningKeys rt domainName
    pure (.loaded keys)

/-- What happens around the calls: time passes, and DNS answers something else. -/
inductive Around
  | tick (ms : ℕ)
  | publish (dnsName : Text) (answer : Answer)

def around : Around → Db → Option Db
  | .tick ms, db => some ((Table.single .clock (.instant (clockOf db + ms))).over db)
  | .publish dnsName answer, db => some ((Table.single (.txt dnsName) (.answer answer)).over db)

/-- The whole system. -/
def system : System Place Row Place Stmt Stmt.Result Command Command.Result Failure Call Outcome
    Around where
  exec := exec
  aside := noAside
  script := script rt
  broken := .database
  body := fun _ => body rt
  env := around

abbrev DkimWorld := World Place Row Place Stmt Stmt.Result Command Command.Result Failure Call
    Outcome

end Postroom.Dkim
