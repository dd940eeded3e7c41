/-
`packages/auth-throttle`: repeated authentication failures slow every further
attempt down.

A daemon makes four steps around a credential check, and other attempts make theirs
in between. `before` reads the clock and its own memory of successes, then counts the
failures in the ledger, then sleeps; only after that the credentials are checked; and
`failure` or `success` puts the outcome on record. The ledger is shared by all
daemons, the memory of successes is not.

Addresses become keys in `network.ts`: the /24 of an IPv4 address and the /64 of an
IPv6 address for the streak of a username, the IPv4 address itself or the /64 for the
ceiling of a source.

`streakThen` and `sourceThen` of a `Try` and `successes` of a `World` are not in the
source: they note what was the case when the attempt was made, and which attempts have
succeeded anywhere. Nothing reads them.
-/
import Postroom.Mime.Header
import Postroom.Lib.Decimal
import Postroom.Lib.Runs

set_option autoImplicit false

namespace Postroom.AuthThrottle

open Mime (Text trim)

/-- What the code takes from Node: `node:net` and the lower case of a string. -/
structure Platform where
  isIPv4 : Text → Bool
  isIPv6 : Text → Bool
  toLowerCase : Text → Text
  /-- Lower case makes no NUL of anything else. -/
  lower_nul : ∀ text, '\x00' ∉ text → '\x00' ∉ toLowerCase text

variable (js : Platform)

/-! ## 1. Addresses -/

def isDigit (c : Char) : Bool := '0' ≤ c && c ≤ '9'

/-- `\d+\.\d+\.\d+\.\d+`. -/
def isDotted (text : Text) : Bool :=
  let parts := text.splitOn '.'
  parts.length = 4 && parts.all fun part => part ≠ [] && part.all isDigit

/-- Strip an IPv6 zone and unwrap an IPv4-mapped IPv6 address. -/
def normalizeIp (ip : Text) : Text :=
  let bare := (js.toLowerCase (trim ip)).takeWhile (· ≠ '%')
  let mapped := bare.drop 7
  if bare.take 7 = "::ffff:".toList ∧ isDotted mapped = true ∧ js.isIPv4 mapped = true then mapped
    else bare

/-- `n.toString(16)`. -/
def hexText (n : ℕ) : Text :=
  if n = 0 then ['0'] else (Nat.digits 16 n).reverse.map fun d =>
    "0123456789abcdef".toList.getD d '0'

/-- The value of a hexadecimal digit. -/
def hexDigit? (c : Char) : Option ℕ :=
  if isDigit c then some (c.toNat - 48) else if 'a' ≤ c ∧ c ≤ 'f' then some (c.toNat - 87) else none

/-- `parseInt(text, 16)` of a group: the digits at its start. -/
def parseHex (text : Text) : Option ℕ :=
  let digits := (text.takeWhile fun c => (hexDigit? c).isSome).filterMap hexDigit?
  if digits = [] then none else some (digits.foldl (fun n d => 16 * n + d) 0)

/-- `text.split('::')`. -/
def splitDouble : Text → List Text
  | [] => [[]]
  | ':' :: ':' :: rest => [] :: splitDouble rest
  | c :: rest =>
    match splitDouble rest with
    | [] => [[c]]
    | part :: parts => (c :: part) :: parts

/-- An embedded IPv4 tail becomes two groups. -/
def unfoldTail (text : Text) : Text :=
  let tail := (text.reverse.takeWhile (· ≠ ':')).reverse
  if isDotted tail then
    match (tail.splitOn '.').map Lib.bigInt with
    | [a, b, c, d] =>
      text.take (text.length - tail.length) ++ hexText (a <<< 8 ||| b)
        ++ ':' :: hexText (c <<< 8 ||| d)
    | _ => text
  else text

/-- `text === '' ? [] : text.split(':')`. -/
def splitGroups (text : Text) : List Text := if text = [] then [] else text.splitOn ':'

/-- Eight 16-bit groups of an IPv6 address, when it is one. -/
def ipv6Groups (ip : Text) : Option (List ℕ) :=
  if !js.isIPv6 ip then none
  else
    let halves := splitDouble (unfoldTail ip)
    let head := splitGroups (halves.getD 0 [])
    let tail := splitGroups (halves.getD 1 [])
    let fill := if halves.length = 2 then 8 - head.length - tail.length else 0
    let groups := (head ++ List.replicate fill ['0'] ++ tail).map parseHex
    if groups.length = 8 ∧ groups.all (fun g => g.any (· ≤ 0xffff)) then some (groups.filterMap id)
      else none

/-- `parts.join(separator)`. -/
def join (separator : Char) : List Text → Text
  | [] => []
  | [part] => part
  | part :: rest => part ++ separator :: join separator rest

/-- `192.0.2.0/24` or `2001:db8:1:2::/64`; anything unparseable is its own key. -/
def networkOf (ip : Text) : Text :=
  let addr := normalizeIp js ip
  if js.isIPv4 addr then join '.' ((addr.splitOn '.').take 3) ++ ".0/24".toList
  else
    match ipv6Groups js addr with
    | none => addr
    | some groups => join ':' ((groups.take 4).map hexText) ++ "::/64".toList

/-- The key the per-source ceiling counts by. -/
def sourceOf (ip : Text) : Text :=
  let addr := normalizeIp js ip
  if js.isIPv4 addr then addr else networkOf js addr

/-! ## 2. The ledger -/

structure FailureEntry where
  protocol : Text
  username : Text
  ip : Text
  network : Text
  source : Text
  reason : Text
  at_ : ℕ

structure FailureQuery where
  username : Text
  network : Text
  source : Text
  /-- The window starts here: `windowMs` before `now`. -/
  now : ℕ
  windowMs : ℕ
  /-- The last success, where it lies in the window. -/
  streakSince : Option ℕ

structure FailureCounts where
  streak : ℕ
  source : ℕ
  deriving DecidableEq

/-- `e.at > since`. -/
def FailureQuery.covers (q : FailureQuery) (e : FailureEntry) : Bool := q.now < e.at_ + q.windowMs

def FailureQuery.ofSource (q : FailureQuery) (e : FailureEntry) : Bool :=
  q.covers e && e.source = q.source

def FailureQuery.ofStreak (q : FailureQuery) (e : FailureEntry) : Bool :=
  q.covers e && e.username = q.username && e.network = q.network && q.streakSince.all (· ≤ e.at_)

/-- `ledger.count(query)`. -/
def countFailures (ledger : List FailureEntry) (q : FailureQuery) : FailureCounts :=
  ⟨ledger.countP q.ofStreak, ledger.countP q.ofSource⟩

/-! ## 3. The throttle -/

structure AuthAttempt where
  protocol : Text
  username : Text
  /-- The address of a socket. -/
  ip : Text
  ip_nul : '\x00' ∉ ip

structure Options where
  windowMs : ℕ := 15 * 60000
  freeFailures : ℕ := 3
  baseDelayMs : ℕ := 1000
  maxDelayMs : ℕ := 30000
  sourceCeiling : ℕ := 20
  maxTracked : ℕ := 10000

variable (options : Options)

structure Keys where
  username : Text
  ip : Text
  network : Text
  source : Text
  streakKey : Text

def keys (a : AuthAttempt) : Keys :=
  let username := js.toLowerCase (trim a.username)
  let ip := normalizeIp js a.ip
  let network := networkOf js ip
  ⟨username, ip, network, sourceOf js ip, username ++ '\x00' :: network⟩

/-- The delay `before` applies for these counts. -/
def delayFor (streak sourceFailures : ℕ) : ℕ :=
  if options.sourceCeiling ≤ sourceFailures then options.maxDelayMs
  else if streak < options.freeFailures then 0
  else min options.maxDelayMs (options.baseDelayMs * 2 ^ (streak - options.freeFailures))

/-- `lastSuccess`: a map, in the order of its insertions. -/
abbrev Successes := List (Text × ℕ)

def Successes.get (m : Successes) (key : Text) : Option ℕ :=
  (m.find? fun entry => entry.1 = key).map Prod.snd

/-- `success(attempt)`: the key is inserted anew, and the oldest one goes when there
are too many. -/
def Successes.remember (m : Successes) (key : Text) (now : ℕ) : Successes :=
  let others := m.filter fun entry => entry.1 ≠ key
  (if options.maxTracked ≤ others.length then others.drop 1 else others) ++ [(key, now)]

/-- The query of `before`, for an attempt that is made at `t`. -/
def queryFor (k : Keys) (t : ℕ) (succeeded : Option ℕ) : FailureQuery where
  username := k.username
  network := k.network
  source := k.source
  now := t
  windowMs := options.windowMs
  streakSince := succeeded.filter fun at_ => t < at_ + options.windowMs

/-! ## 4. Attempts side by side -/

/-- Where an attempt is. -/
inductive Phase
  /-- `before` has read the clock and the last success. -/
  | began (query : FailureQuery)
  /-- It has counted, at the given time, and sleeps. -/
  | waiting (counts : FailureCounts) (since : ℕ)
  | aborted
  | refused
  /-- The credentials are being checked, since the given time. -/
  | checking (start : ℕ)
  | failed (start ended : ℕ)
  | passed (start ended : ℕ)
  | failureRecorded (start ended recorded : ℕ)
  | successRecorded (start ended : ℕ)

structure Try where
  daemon : ℕ
  attempt : AuthAttempt
  madeAt : ℕ
  phase : Phase
  streakThen : ℕ
  sourceThen : ℕ

/-- A successful attempt: whose, and when. -/
structure Success where
  username : Text
  network : Text
  at_ : ℕ

structure World where
  clock : ℕ
  ledger : List FailureEntry
  lastSuccess : ℕ → Successes
  tries : List Try
  successes : List Success

/-- Nobody has tried anything yet. -/
def World.start : World := ⟨0, [], fun _ => [], [], []⟩

inductive Act
  /-- `before` is called: in a daemon, for an attempt. -/
  | begin_ (daemon : ℕ) (attempt : AuthAttempt)
  | count (i : ℕ)
  /-- The client goes away. -/
  | abort (i : ℕ)
  | wake (i : ℕ)
  /-- The credential check ends. -/
  | check (i : ℕ) (ok : Bool)
  /-- `failure` or `success`. -/
  | record (i : ℕ) (reason : Text)
  | tick (ms : ℕ)

/-- The failures of the streak at this moment: in the window, and not before a success. -/
def World.streak (w : World) (k : Keys) : ℕ :=
  w.ledger.countP fun e => w.clock < e.at_ + options.windowMs && e.username = k.username
    && e.network = k.network
    && w.successes.all fun s => s.username ≠ k.username || s.network ≠ k.network || s.at_ ≤ e.at_

/-- The failures of the source at this moment. -/
def World.sourceFailures (w : World) (source : Text) : ℕ :=
  w.ledger.countP fun e => w.clock < e.at_ + options.windowMs && e.source = source

/-- The `i`-th attempt goes on. -/
def World.put (w : World) (i : ℕ) (t : Try) (phase : Phase) : World :=
  { w with tries := w.tries.set i { t with phase := phase } }

def entryOf (t : Try) (reason : Text) (now : ℕ) : FailureEntry :=
  let k := keys js t.attempt
  ⟨t.attempt.protocol, k.username, k.ip, k.network, k.source, reason, now⟩

def World.step (w : World) : Act → Option World
  | .begin_ daemon attempt =>
    let k := keys js attempt
    let query := queryFor options k w.clock ((w.lastSuccess daemon).get k.streakKey)
    some { w with tries := w.tries ++
      [⟨daemon, attempt, w.clock, .began query, w.streak options k,
      w.sourceFailures options k.source⟩] }
  | .count i => (w.tries[i]?).bind fun t =>
    match t.phase with
    | .began query => some (w.put i t (.waiting (countFailures w.ledger query) w.clock))
    | _ => none
  | .abort i => (w.tries[i]?).bind fun t =>
    match t.phase with
    | .waiting .. => some (w.put i t .aborted)
    | _ => none
  | .wake i => (w.tries[i]?).bind fun t =>
    match t.phase with
    | .waiting counts since =>
      if w.clock < since + delayFor options counts.streak counts.source then none
      else if options.sourceCeiling ≤ counts.source then some (w.put i t .refused)
      else some (w.put i t (.checking w.clock))
    | _ => none
  | .check i ok => (w.tries[i]?).bind fun t =>
    match t.phase with
    | .checking start =>
      some (w.put i t (if ok then .passed start w.clock else .failed start w.clock))
    | _ => none
  | .record i reason => (w.tries[i]?).bind fun t =>
    match t.phase with
    | .failed start ended =>
      some { w.put i t (.failureRecorded start ended w.clock) with
        ledger := w.ledger ++ [entryOf js t reason w.clock] }
    | .passed start ended =>
      let k := keys js t.attempt
      some { w.put i t (.successRecorded start ended) with
        lastSuccess := fun d =>
          if d = t.daemon then (w.lastSuccess d).remember options k.streakKey w.clock
          else w.lastSuccess d
        successes := w.successes ++ [⟨k.username, k.network, w.clock⟩] }
    | _ => none
  | .tick ms => some { w with clock := w.clock + ms }

end Postroom.AuthThrottle
