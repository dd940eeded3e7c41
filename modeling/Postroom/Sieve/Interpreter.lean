/-
`packages/sieve/src/{match,interpreter}.ts`: the interpreter of compiled scripts.

`Run` is a program over the run's variables: `stop` leaves it (`Program.ret`), and
a runtime error is raised. The work charged so far survives an error, the actions do
not. Two fields are not the source's and nothing reads them: the last charge, and
the log of every `keep` and `fileinto` that is run, with its mailbox and its flags. The
log is written by the command itself, before and apart from what `deliver` does.
-/
import Postroom.Lib.Program
import Postroom.Sieve.Script

set_option autoImplicit false

namespace Postroom.Sieve

open Lib Program

/-! ## The run -/

/-- What is decided so far. -/
structure Outbox where
  actions : List SieveAction := []
  /-- Where the delivery to a mailbox stands among the actions. -/
  filed : Str → Option ℕ := fun _ => none
  redirected : List Str := []
  implicitKeep : Bool := true
  /-- Every delivery a command has asked for, by mailbox key, with its flags. -/
  filings : List (Str × Option (List Str)) := []

structure RunState where
  work : ℕ := 0
  lastCharge : ℕ := 0
  pos : SourcePos := {}
  vars : Str → Option Str := fun _ => none
  matchVars : List Str := []
  flags : List Str := []
  outbox : Outbox := {}
  bucket : Option Str := none
  vacationDone : Bool := false
  trace : List TraceEntry := []

abbrev Run := Program RunState Unit SieveRuntimeError

/-- What a run is about. -/
structure Env where
  host : Host
  msg : SieveMessage
  opts : ExecuteOptions
  useVariables : Bool
  useFlags : Bool

section

variable (env : Env)

def fail {α : Type} (code : RuntimeErrorCode) (detail : Str) : Run α := do
  let s ← get
  raise { code := code, detail := detail, line := s.pos.line, column := s.pos.column }

def charge (n : ℕ) : Run Unit := do
  modify fun s => { s with work := s.work + n, lastCharge := n }
  let s ← get
  if env.opts.maxWork < s.work then
    fail .workLimit (lit "script exceeded its work limit (" ++ num env.opts.maxWork ++ lit ")")
  else pure ()

def note (event : Str) : Run Unit :=
  modify fun s =>
    if s.trace.length < env.opts.maxTrace then
      { s with
        trace := s.trace ++ [{ line := s.pos.line, column := s.pos.column, event := event }] }
    else s

def setPos (pos : SourcePos) : Run Unit := modify fun s => { s with pos := pos }

/-- `f` for each element, in order. -/
def forEach {α β : Type} (f : α → Run β) : List α → Run (List β)
  | [] => pure []
  | a :: as => do
    let b ← f a
    let bs ← forEach f as
    pure (b :: bs)

/-! ## Strings and variables -/

/-- The value of a reference, if the name is one. -/
def reference (s : RunState) (name : Str) : Option Str :=
  if name ≠ [] && name.all isDigit then
    some ((s.matchVars[name.foldl (fun n c => 10 * n + (c.toNat - 0x30)) 0]?).getD [])
  else if isIdentifier name then some ((s.vars (env.host.toLowerCase name)).getD [])
  else none

/-- The loop of `expand`: what is left of the string, what is collected, and the
length counted. Every turn uses up part of the string. -/
def expandFrom : ℕ → Str → Str → ℕ → Run Str
  | 0, _, out, _ => pure out
  | fuel + 1, rest, out, length => do
    match cut (lit "$\x7b") rest with
    | none => pure (out ++ rest)
    | some (before, after) =>
      let s ← get
      let name := ((cut (lit "\x7d") after).map Prod.fst).getD []
      match reference env s name with
      | none =>
        charge env 1
        let out := out ++ before ++ lit "$\x7b"
        let length := length + before.length + 2
        if env.opts.maxStringLength < length then pure out else expandFrom fuel after out length
      | some value =>
        charge env (1 + value.length)
        let out := out ++ before ++ value
        let length := length + before.length + value.length
        if env.opts.maxStringLength < length then pure out
        else expandFrom fuel (((cut (lit "\x7d") after).map Prod.snd).getD []) out length

def expand (s : Str) : Run Str := do
  if !env.useVariables || !includes s (lit "$\x7b") then pure s
  else
    let result ← expandFrom env (s.length + 1) s [] 0
    pure (result.take env.opts.maxStringLength)

def expandAll (list : List Str) : Run (List Str) := forEach (expand env) list

/-- Surrogate pairs, read from the left. -/
def surrogatePairs : Str → ℕ
  | [] => 0
  | [_] => 0
  | c :: d :: s =>
    if 0xd800 ≤ c && c ≤ 0xdbff && 0xdc00 ≤ d && d ≤ 0xdfff then surrogatePairs s + 1
      else surrogatePairs (d :: s)

def modifyValue (v : Str) : SetModifier → Str
  | .lower => env.host.toLowerCase v
  | .upper => env.host.toUpperCase v
  | .lowerfirst => env.host.toLowerCase (v.take 1) ++ v.drop 1
  | .upperfirst => env.host.toUpperCase (v.take 1) ++ v.drop 1
  | .quotewildcard =>
    v.flatMap fun c => if c == 0x2a || c == 0x3f || c == 0x5c then [0x5c, c] else [c]
  | .length => num (v.length - surrogatePairs v)

/-! ## Flags -/

def isFlagSpace (c : UInt16) : Bool := c == 0x20 || c == 9 || c == 13 || c == 10

/-- The pieces between runs of white space, without empty ones. -/
def wordsFrom (word : Str) : Str → List Str
  | [] => if word = [] then [] else [word]
  | c :: s =>
    if isFlagSpace c then (if word = [] then [] else [word]) ++ wordsFrom [] s
      else wordsFrom (word ++ [c]) s

def words (s : Str) : List Str := wordsFrom [] s

/-- Flags not seen before, ignoring case. -/
def addFlags (out : List Str) : List Str → List Str
  | [] => out
  | f :: fs =>
    if env.host.toLowerCase f ∈ out.map env.host.toLowerCase then addFlags out fs
      else addFlags (out ++ [f]) fs

def splitFlags (list : List Str) : List Str := addFlags env [] (list.flatMap words)

def getFlags (s : RunState) : Option Str → List Str
  | none => s.flags
  | some v => splitFlags env [(s.vars v).getD []]

def putFlags (target : Option Str) (flags : List Str) : Run Unit :=
  match target with
  | none => modify fun s => { s with flags := flags }
  | some v =>
    modify fun s =>
      { s with
        vars :=
          Function.update s.vars v (some ((join (lit " ") flags).take env.opts.maxStringLength)) }

/-! ## Actions -/

def push (action : SieveAction) : Run Unit := do
  let s ← get
  if env.opts.maxActions ≤ s.outbox.actions.length then
    fail .actionLimit (lit "more than " ++ num env.opts.maxActions ++ lit " actions")
  else modify fun s =>
    { s with outbox := { s.outbox with actions := s.outbox.actions ++ [action] } }

def mailboxKey (mailbox : Str) : Str :=
  if env.host.toUpperCase mailbox = lit "INBOX" then lit "INBOX" else mailbox

inductive DeliveryType where
  | keep
  | fileinto
  deriving DecidableEq

def DeliveryType.name : DeliveryType → String
  | .keep => "keep"
  | .fileinto => "fileinto"

def mergeFlags : Option (List Str) → Option (List Str) → Option (List Str)
  | none, none => none
  | prev, flags => some (splitFlags env (prev.getD [] ++ flags.getD []))

/-- A delivery to a mailbox that has one already. -/
def mergeDelivery (flags : Option (List Str)) (create : Bool) : SieveAction → SieveAction
  | .keep mailbox prev implicit line => .keep mailbox (mergeFlags env prev flags) implicit line
  | .fileinto mailbox prev prevCreate line =>
    .fileinto mailbox (mergeFlags env prev flags) (prevCreate || create) line
  | a => a

def deliveryAction (type : DeliveryType) (mailbox : Str) (flags : Option (List Str)) (create : Bool)
    (line : ℕ) : SieveAction :=
  match type with
  | .keep => .keep mailbox flags false line
  | .fileinto => .fileinto mailbox flags create line

def deliver (type : DeliveryType) (mailbox : Str) (flags : Option (List Str)) (create : Bool) :
    Run Unit := do
  let s ← get
  match s.outbox.filed (mailboxKey env mailbox) with
  | some existing =>
    modify fun s =>
      { s with
        outbox :=
          { s.outbox with
            implicitKeep := false
            actions := s.outbox.actions.modify existing (mergeDelivery env flags create) } }
    note env (lit type.name ++ lit " \"" ++ mailbox
      ++ lit "\" merged with an earlier delivery to the same mailbox")
  | none =>
    modify fun s =>
      { s with
        outbox :=
          { s.outbox with
            implicitKeep := false
            filed :=
              Function.update s.outbox.filed (mailboxKey env mailbox)
                (some s.outbox.actions.length) } }
    push env (deliveryAction type mailbox flags create s.pos.line)
    note env (lit type.name ++ lit " \"" ++ mailbox ++ lit "\""
      ++ (if (flags.getD []).length > 0 then lit " flags " ++ join (lit " ") (flags.getD [])
      else []))

/-- A command asks for a delivery. -/
def logFiling (mailbox : Str) (flags : Option (List Str)) : Run Unit :=
  modify fun s =>
    { s with
      outbox :=
        { s.outbox with filings := s.outbox.filings ++ [(mailboxKey env mailbox, flags)] } }

def owns (address : Str) : Bool :=
  match env.opts.ownsAddress with
  | some owns => owns address
  | none =>
    env.opts.userAddresses.any fun a => env.host.toLowerCase a = env.host.toLowerCase address

def redirect (address : Str) : Run Unit := do
  if !isAddress address then
    fail .badValue (lit "redirect: \"" ++ address ++ lit "\" is not a valid address")
  else
    let s ← get
    let key := env.host.toLowerCase address
    if key ∈ s.outbox.redirected then
      note env (lit "redirect to " ++ address ++ lit " already recorded")
    else if env.opts.maxRedirects ≤ s.outbox.redirected.length then
      fail .actionLimit (lit "more than " ++ num env.opts.maxRedirects ++ lit " redirects")
    else
      let allowed := owns env address
      modify fun s =>
        { s with
          outbox :=
            { s.outbox with
              redirected := s.outbox.redirected ++ [key]
              implicitKeep := if allowed then false else s.outbox.implicitKeep } }
      push env (.redirect address allowed
        (if allowed then none
          else some (lit
            "redirect refused: the address does not belong to this account and Postroom never relays"))
        s.pos.line)
      note env (if allowed then lit "redirect to " ++ address
        else lit "redirect to " ++ address ++ lit " refused (not the account's own address)")

def LIST_HEADERS : List Str :=
  ["list-id", "list-help", "list-subscribe", "list-unsubscribe", "list-post", "list-owner",
    "list-archive"].map lit

def RECIPIENT_HEADERS : List Str :=
  ["to", "cc", "bcc", "resent-to", "resent-cc", "resent-bcc"].map lit

/-- A character that `.` matches. -/
def isPlainChar (c : UInt16) : Bool := c ≠ 0x0a && c ≠ 0x0d && c ≠ 0x2028 && c ≠ 0x2029

/-- `/^(owner-.*|.*-request|mailer-daemon|listserv|majordomo|no-?reply|postmaster)$/i`. -/
def automatedSender (localpart : Str) : Bool :=
  let s := foldAscii localpart
  ((lit "owner-").isPrefixOf s && (s.drop 6).all isPlainChar)
    || ((lit "-request").isSuffixOf s && (s.take (s.length - 8)).all isPlainChar)
    || s ∈ ["mailer-daemon", "listserv", "majordomo", "noreply", "no-reply", "postmaster"].map lit

/-- Is one of the addresses in the header values? -/
def anyAddressed (mine : List Str) : List Str → Run Bool
  | [] => pure false
  | value :: values => do
    charge env (1 + value.length)
    if (env.host.addresses value).any fun a => env.host.toLowerCase a ∈ mine then pure true
    else anyAddressed mine values

def addressedToMe (mine : List Str) : Run Bool :=
  anyAddressed env mine (RECIPIENT_HEADERS.flatMap env.msg.header)

def suppression (sender handle : Str) (mine : List Str) (days : ℕ) : Run (Option Str) := do
  if sender = [] then pure (some (lit "the message has a null envelope sender"))
  else if automatedSender (sender.takeWhile (· ≠ 0x40)) then
    pure (some (lit "the sender looks like an automated or list address"))
  else if (env.msg.header (lit "auto-submitted")).head?.any fun v =>
    env.host.toLowerCase (env.host.trim v) ≠ lit "no" then
    pure (some (lit "the message is Auto-Submitted"))
  else if LIST_HEADERS.any (fun h => (env.msg.header h).length > 0)
      || env.host.toLowerCase (env.host.trim ((env.msg.header (lit "precedence")).headD []))
        ∈ ["bulk", "list", "junk"].map lit then
    pure (some (lit "the message came from a mailing list"))
  else if env.host.toLowerCase sender ∈ mine then
    pure (some (lit "the sender is the account itself"))
  else
    let addressed ← addressedToMe env mine
    if !addressed then pure (some (lit "none of the account's addresses is in To, Cc or Bcc"))
    else if (env.opts.recentlyResponded.map fun f => f sender handle days) = some true then
      pure (some (lit "already replied to this sender within " ++ num days ++ lit " days"))
    else pure none

/-- An optional string, expanded if it is there. -/
def expandOption : Option Str → Run (Option Str)
  | none => pure none
  | some s => do
    let v ← expand env s
    pure (some v)

def vacation (cmd : VacationCommand) : Run Unit := do
  let s ← get
  if s.vacationDone then fail .duplicateVacation (lit "vacation may only run once")
  else
    modify fun s => { s with vacationDone := true }
    let reason ← expand env cmd.reason
    let sender ← expandOption env cmd.sender
    let explicitSubject ← expandOption env cmd.subject
    let addresses ← expandAll env cmd.addresses
    let days := min env.opts.maxVacationDays (max env.opts.minVacationDays (cmd.days.getD 7))
    let given ← expandOption env cmd.handle
    let handle := given.getD (env.host.vacationHandle reason explicitSubject sender cmd.mime)
    let subject := explicitSubject.getD
      (match (env.msg.header (lit "subject")).head? with
        | none => lit "Automated reply"
        | some original =>
          if env.host.trim original = [] then lit "Automated reply"
          else lit "Auto: " ++ env.host.decodeEncodedWords original)
    let mine := ((env.opts.userAddresses ++ addresses ++ [env.msg.recipient]).map
      env.host.toLowerCase).filter (· ≠ [])
    let suppressed ← suppression env env.msg.sender handle mine days
    push env (.vacation {
      recipient := env.msg.sender, subject := subject, sender := sender, reason := reason, mime :=
      cmd.mime
      handle := handle, days := days, respond := suppressed.isNone, suppressed :=
      suppressed, line := s.pos.line })
    note env (match suppressed with
      | none => lit "vacation reply to " ++ env.msg.sender
      | some why => lit "vacation suppressed: " ++ why)

/-! ## Matching -/

inductive PieceKind where
  | lit
  | star
  | one
  deriving DecidableEq

structure PatternPiece where
  kind : PieceKind
  ch : UInt16

def compilePattern : Str → List PatternPiece
  | [] => []
  | [c] => [if c == 0x2a then ⟨.star, c⟩ else if c == 0x3f then ⟨.one, c⟩ else ⟨.lit, c⟩]
  | c :: d :: s =>
    if c == 0x5c then ⟨.lit, d⟩ :: compilePattern s
    else (if c == 0x2a then ⟨.star, c⟩ else if c == 0x3f then ⟨.one, c⟩
      else ⟨.lit, c⟩) :: compilePattern (d :: s)

/-- The number of wildcards before a piece. -/
def wildcardIndex (p : List PatternPiece) (i : ℕ) : ℕ := (p.take i).countP fun q => q.kind ≠ .lit

/-- Where the match of a text against a pattern stands: `star` is the last star seen,
by its index in the pattern and where its match ends. -/
structure GlobState where
  ti : ℕ
  pi : ℕ
  star : Option (ℕ × ℕ)
  ranges : List (ℕ × ℕ)

/-- Grow the last star by one character and retry everything after it. -/
def GlobState.retry (p : List PatternPiece) (g : GlobState) : Option GlobState :=
  g.star.map fun (starP, starT) => {
    ti := starT + 1, pi := starP + 1, star := some (starP, starT + 1)
    ranges := g.ranges.modify (wildcardIndex p starP) fun r => (r.1, starT + 1) }

/-- One turn of the loop of `globRanges`, at the character `c`. -/
def GlobState.turn (text : Str) (p : List PatternPiece) (c : UInt16) (g : GlobState) :
    Option GlobState :=
  match p[g.pi]? with
  | some ⟨.star, _⟩ =>
    some { g with
      pi := g.pi + 1
      star := some (g.pi, g.ti)
      ranges := g.ranges.set (wildcardIndex p g.pi) (g.ti, g.ti) }
  | some ⟨.one, _⟩ =>
    -- a surrogate pair counts as one character
    let width := if 0xd800 ≤ c && c ≤ 0xdbff && decide (g.ti + 1 < text.length) then 2 else 1
    some { g with
      ti := g.ti + width, pi := g.pi + 1, ranges :=
      g.ranges.set (wildcardIndex p g.pi) (g.ti, g.ti + width) }
  | some ⟨.lit, ch⟩ => if ch = c then some { g with ti := g.ti + 1, pi := g.pi + 1 } else g.retry p
  | none => g.retry p

/-- The loop of `globRanges`. A turn charges work, so the allowance is fuel enough. -/
def globLoop (text : Str) (p : List PatternPiece) : ℕ → GlobState → Run (Option GlobState)
  | 0, _ => pure none
  | fuel + 1, g => do
    match text[g.ti]? with
    | none => pure (some g)
    | some c =>
      charge env 1
      match g.turn text p c with
      | none => pure none
      | some g => globLoop text p fuel g

def globRanges (text pattern : Str) : Run (Option (List (ℕ × ℕ))) := do
  let p := compilePattern pattern
  let found ← globLoop env text p (env.opts.maxWork + 1)
    { ti := 0, pi := 0, star := none, ranges := List.replicate (wildcardIndex p p.length) (0, 0) }
  match found with
  | none => pure none
  | some g =>
    let stars := ((p.drop g.pi).takeWhile fun q => q.kind = .star).length
    if g.pi + stars = p.length then
      pure (some ((List.range stars).foldl
        (fun r i => r.set (wildcardIndex p (g.pi + i)) (text.length, text.length)) g.ranges))
    else pure none

/-- The captures of a match: none of a `:is` or `:contains`. -/
def matchOne (value key : Str) (m : MatchSpec) : Run (Option (Option (List Str))) := do
  let v := if m.comparator = .asciiCasemap then foldAscii value else value
  let k := if m.comparator = .asciiCasemap then foldAscii key else key
  match m.type with
  | .is =>
    charge env (1 + min v.length k.length)
    pure (if v = k then some none else none)
  | .contains =>
    charge env (1 + v.length + k.length)
    pure (if includes v k then some none else none)
  | .matches =>
    let ranges ← globRanges env v k
    pure (ranges.map fun rs => some (value :: rs.map fun r => (value.drop r.1).take (r.2 - r.1)))

/-- The first pair that matches. -/
def matchPairs (m : MatchSpec) : List (Str × Str) → Run (Option (Option (List Str)))
  | [] => pure none
  | (value, key) :: rest => do
    let r ← matchOne env value key m
    match r with
    | some captures => pure (some captures)
    | none => matchPairs m rest

def matchAny (values keys : List Str) (m : MatchSpec) : Run (Option (Option (List Str))) :=
  matchPairs env m (values.flatMap fun v => keys.map fun k => (v, k))

/-! ## Tests -/

def addressPart (address : Str) : AddressPart → Str
  | .all => address
  | .localpart =>
    if 0x40 ∈ address then (address.reverse.dropWhile (· ≠ 0x40)).tail.reverse else address
  | .domain => if 0x40 ∈ address then (address.reverse.takeWhile (· ≠ 0x40)).reverse else []

def compare (values keys : List Str) (m : MatchSpec) : Run Bool := do
  let keys ← expandAll env keys
  let r ← matchAny env values keys m
  match r with
  | some (some captures) =>
    if env.useVariables then modify fun s => { s with matchVars := captures } else pure ()
    pure true
  | some none => pure true
  | none => pure false

def chargeAll (values : List Str) : Run Unit := do
  let _ ← forEach (fun v => charge env (1 + v.length)) values
  pure ()

def headerValues (name : Str) : Run (List Str) := do
  chargeAll env (env.msg.header name)
  pure (env.msg.header name)

/-- Tags are dropped; what follows an unclosed one is kept. -/
def dropTags : ℕ → Str → Str
  | 0, s => s
  | fuel + 1, s =>
    match cut (lit "<") s with
    | none => s
    | some (before, after) =>
      match cut (lit ">") after with
      | none => s
      | some (_, rest) => before ++ dropTags fuel rest

/-- `replace(/entity/gi, by)`. -/
def replaceFolded (entity by_ : Str) : ℕ → Str → Str
  | 0, s => s
  | _ + 1, [] => []
  | fuel + 1, c :: s =>
    if entity.isPrefixOf (foldAscii (c :: s)) then
      by_ ++ replaceFolded entity by_ fuel ((c :: s).drop entity.length)
    else c :: replaceFolded entity by_ fuel s

def stripTags (html : Str) : Str :=
  [("&nbsp;", " "), ("&lt;", "<"), ("&gt;", ">"), ("&quot;", "\""), ("&#39;", "'"),
    ("&amp;", "&")].foldl
    (fun s e => replaceFolded (lit e.1) (lit e.2) (s.length + 1) s)
      (dropTags (html.length + 1) html)

/-- The content of the parts whose type is asked for. The types are expanded anew for every part. -/
def contentValues (types : List Str) (p : SieveBodyPart) : Run (List Str) := do
  let types ← expandAll env types
  let major := p.contentType.takeWhile (· ≠ 0x2f)
  pure (if (types.map env.host.toLowerCase).any fun t =>
    t = [] || t = p.contentType || (!includes t (lit "/") && t = major)
    then [p.content] else [])

def bodyValues : BodyTransform → Run (List Str)
  | .raw => pure [env.msg.rawBody]
  | .text =>
    pure (env.msg.bodyParts.flatMap fun p =>
      if !(lit "text/").isPrefixOf p.contentType || p.disposition = some (lit "attachment") then []
      else [if p.contentType = lit "text/html" then stripTags p.content else p.content])
  | .content types => do
    let values ← forEach (contentValues env types) env.msg.bodyParts
    pure values.flatten

def ADDRESS_HEADERS : List Str :=
  ["from", "to", "cc", "bcc", "sender", "reply-to", "resent-from", "resent-to", "resent-cc",
    "resent-bcc", "resent-sender",
    "resent-reply-to", "return-path", "delivered-to", "envelope-to", "x-original-to", "errors-to",
    "mail-followup-to",
    "mail-reply-to", "disposition-notification-to"].map lit

def addressValues (part : AddressPart) (name : Str) : Run (List Str) := do
  if env.host.toLowerCase name ∈ ADDRESS_HEADERS then
    let values ← headerValues env name
    pure ((values.flatMap env.host.addresses).map fun a => addressPart a part)
  else pure []

/-- The tests that have no tests inside them. -/
def evaluate : CompiledTest → Run Bool
  | .true _ => pure true
  | .false _ => pure false
  | .header names keys m _ => do
    let names ← expandAll env names
    let values ← forEach (headerValues env) names
    compare env (values.flatten.map env.host.decodeEncodedWords) keys m
  | .address names keys m part _ => do
    let names ← expandAll env names
    let values ← forEach (addressValues env part) names
    compare env values.flatten keys m
  | .envelope names keys m part _ => do
    let names ← expandAll env names
    compare env (names.flatMap fun name =>
      if env.host.toLowerCase name = lit "from" then [addressPart env.msg.sender part]
      else if env.host.toLowerCase name = lit "to" then [addressPart env.msg.recipient part]
      else []) keys m
  | .exists names _ => do
    let names ← expandAll env names
    pure (names.all fun n => (env.msg.header n).length > 0)
  | .size over_ limit _ => pure (if over_ then limit < env.msg.size else env.msg.size < limit)
  | .body transform keys m _ => do
    let values ← bodyValues env transform
    chargeAll env values
    compare env values keys m
  | .hasflag vars keys m _ => do
    let s ← get
    compare env (match vars with
      | none => s.flags
      | some vs => vs.flatMap fun v => getFlags env s (some v)) keys m
  | .string sources keys m _ => do
    let sources ← expandAll env sources
    compare env sources keys m
  | .mailboxexists names _ =>
    match env.opts.mailboxExists with
    | none => pure false
    | some mailboxExists => do
      let names ← expandAll env names
      pure (names.all mailboxExists)
  | _ => pure false

/-- What surrounds the evaluation of a test. -/
def around (t : CompiledTest) (x : Run Bool) : Run Bool := do
  setPos t.pos
  charge env 1
  let result ← x
  setPos t.pos
  match t.traced with
  | some kind =>
    note env (lit kind ++ lit (if result then " test matched" else " test did not match"))
  | none => pure ()
  pure result

mutual

def test : CompiledTest → Run Bool
  | .not t pos =>
    around env (.not t pos) do
      let result ← test t
      pure !result
  | .anyof ts pos => around env (.anyof ts pos) (testAny ts)
  | .allof ts pos => around env (.allof ts pos) (testAll ts)
  | t => around env t (evaluate env t)

def testAny : List CompiledTest → Run Bool
  | [] => pure false
  | t :: ts => do
    let result ← test t
    if result then pure true else testAny ts

def testAll : List CompiledTest → Run Bool
  | [] => pure true
  | t :: ts => do
    let result ← test t
    if result then testAll ts else pure false

end

/-! ## Commands -/

def flagsFor (explicit : Option (List Str)) : Run (Option (List Str)) := do
  if !env.useFlags then pure none
  else
    match explicit with
    | none =>
      let s ← get
      pure (some s.flags)
    | some list =>
      let list ← expandAll env list
      pure (some (splitFlags env list))

def discard (line : ℕ) : Run Unit := do
  modify fun s => { s with outbox := { s.outbox with implicitKeep := false } }
  push env (.discard line)
  note env (lit "discard")

def flagCommand (operation : FlagOperation) (target : Option Str) (flags : List Str) :
    Run Unit := do
  let flags ← expandAll env flags
  let given := splitFlags env flags
  let s ← get
  let current := getFlags env s target
  let next :=
    match operation with
    | .setflag => given
    | .addflag => splitFlags env (current ++ given)
    | .removeflag => current.filter fun f => env.host.toLowerCase f ∉ given.map env.host.toLowerCase
  putFlags env target next
  note env (lit operation.name ++ (match target with | none => [] | some v => lit " " ++ v)
    ++ lit ": "
    ++ (if join (lit " ") next = [] then lit "(none)" else join (lit " ") next))

/-- The commands without blocks inside them. -/
def simpleCommand : CompiledCommand → Run Unit
  | .cond _ _ => pure ()
  | .stop _ => do
    note env (lit "stop")
    ret ()
  | .keep flags _ => do
    let flags ← flagsFor env flags
    logFiling env env.opts.inbox flags
    deliver env .keep env.opts.inbox flags false
  | .discard pos => discard env pos.line
  | .fileinto mailbox flags create _ => do
    let mailbox ← expand env mailbox
    if mailbox = [] then fail .badValue (lit "fileinto: the mailbox name expanded to nothing")
    else
      let flags ← flagsFor env flags
      logFiling env mailbox flags
      deliver env .fileinto mailbox flags create
  | .redirect address _ => do
    let address ← expand env address
    redirect env address
  | .flag operation target flags _ => flagCommand env operation target flags
  | .set name value modifiers _ => do
    let value ← expand env value
    let value := (modifiers.foldl (modifyValue env) value).take env.opts.maxStringLength
    modify fun s => { s with vars := Function.update s.vars name (some value) }
    charge env (1 + value.length)
    note env (lit "set " ++ name)
  | .vacation cmd _ => vacation env cmd
  | .bucket name _ => do
    let name ← expand env name
    if isBucketName name then
      modify fun s => { s with bucket := some name }
      note env (lit "bucket \"" ++ name ++ lit "\"")
    else fail .badValue (lit "bucket: \"" ++ name ++ lit "\" is not a valid bucket name")

def enter (pos : SourcePos) : Run Unit := do
  setPos pos
  charge env 1

mutual

def command : CompiledCommand → Run Unit
  | .cond bs pos => do
    enter env pos
    branches bs
  | c => do
    enter env c.pos
    simpleCommand env c

def branches : List Branch → Run Unit
  | [] => pure ()
  | b :: bs => do
    let taken ← branch b
    if taken then pure () else branches bs

/-- Is the branch taken? -/
def branch : Branch → Run Bool
  | .mk none commands => do
    block commands
    pure true
  | .mk (some t) commands => do
    let result ← test env t
    if result then
      block commands
      pure true
    else pure false

def block : List CompiledCommand → Run Unit
  | [] => pure ()
  | c :: cs => do
    command c
    block cs

end

end

/-! ## Whole runs -/

def envOf (host : Host) (script : CompiledScript) (msg : SieveMessage) (opts : ExecuteOptions) :
    Env where
  host := host
  msg := msg
  opts := opts
  useVariables := lit "variables" ∈ script.capabilities
  useFlags := lit "imap4flags" ∈ script.capabilities

/-- The result of a run that was not abandoned. -/
def finishRun (env : Env) (s : RunState) : SieveResult where
  actions :=
    if s.outbox.implicitKeep then
      s.outbox.actions ++ [.keep env.opts.inbox (if env.useFlags then some s.flags
        else none) true 0]
    else s.outbox.actions
  implicitKeep := s.outbox.implicitKeep
  bucket := s.bucket
  error := none
  trace := s.trace

/-- The result of a run that was abandoned. -/
def abandonRun (env : Env) (e : SieveRuntimeError) (s : RunState) : SieveResult where
  actions := [.keep env.opts.inbox none true 0]
  implicitKeep := true
  bucket := none
  error := some e
  trace := s.trace ++ [{
    line := e.line, column := e.column
    event := lit "runtime error: " ++ e.detail ++ lit "; falling back to the implicit keep" }]

/-- `execute`, with the variables the run ends with. -/
def execute (host : Host) (script : CompiledScript) (msg : SieveMessage) (opts : ExecuteOptions) :
    SieveResult × RunState :=
  let env := envOf host script msg opts
  match block env script.commands {} with
  | (.value _, s) => (finishRun env s, s)
  | (.ret _, s) => (finishRun env s, s)
  | (.raise e, s) => (abandonRun env e s, s)

end Postroom.Sieve
