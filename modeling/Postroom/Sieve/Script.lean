/-
`packages/sieve/src/{compile,message,interpreter}.ts`: compiled scripts, and what
the interpreter is given and answers.

Strings are JavaScript's: lists of UTF-16 code units. What the interpreter takes
from elsewhere is a parameter (`Host`): Unicode case mapping, the MIME package's
address lists and encoded words, and the hash that names a vacation reply.
-/
import Mathlib.Data.List.Basic

set_option autoImplicit false

namespace Postroom.Sieve

/-! ## Strings -/

/-- A JavaScript string, as its UTF-16 code units. -/
abbrev Str := List UInt16

/-- An ASCII text. -/
def lit (text : String) : Str := text.toList.map fun c => c.toNat.toUInt16

/-- `String(n)`. -/
def num (n : ℕ) : Str := lit (toString n)

/-- `list.join(sep)`. -/
def join (sep : Str) : List Str → Str
  | [] => []
  | [s] => s
  | s :: rest => s ++ sep ++ join sep rest

def isUpperAscii (c : UInt16) : Bool := 0x41 ≤ c && c ≤ 0x5a

def isLowerAscii (c : UInt16) : Bool := 0x61 ≤ c && c ≤ 0x7a

def isDigit (c : UInt16) : Bool := 0x30 ≤ c && c ≤ 0x39

/-- A–Z folded to a–z, everything else left alone. -/
def foldAscii (s : Str) : Str := s.map fun c => if isUpperAscii c then c + 0x20 else c

/-- `\s`. -/
def isWhite (c : UInt16) : Bool :=
  (9 ≤ c && c ≤ 13) || c == 0x20 || c == 0xa0 || c == 0x1680 || (0x2000 ≤ c && c ≤ 0x200a)
    || c == 0x2028 || c == 0x2029
    || c == 0x202f || c == 0x205f || c == 0x3000 || c == 0xfeff

/-- What stands before the first `sub`, and what follows it. -/
def cut (sub : Str) : Str → Option (Str × Str)
  | [] => if sub = [] then some ([], []) else none
  | c :: s =>
    if sub.isPrefixOf (c :: s) then some ([], (c :: s).drop sub.length)
    else (cut sub s).map fun (before, after) => (c :: before, after)

/-- `s.includes(sub)`. -/
def includes (s sub : Str) : Bool := (cut sub s).isSome

/-- `/^[A-Za-z_][A-Za-z0-9_]*$/`. -/
def isIdentifier (s : Str) : Bool :=
  match s with
  | [] => false
  | c :: rest =>
    (isUpperAscii c || isLowerAscii c || c == 0x5f)
      && rest.all fun c => isUpperAscii c || isLowerAscii c || isDigit c || c == 0x5f

/-- `/^[A-Za-z0-9][A-Za-z0-9 _.-]{0,63}$/`. -/
def isBucketName (s : Str) : Bool :=
  match s with
  | [] => false
  | c :: rest =>
    (isUpperAscii c || isLowerAscii c || isDigit c) && rest.length ≤ 63
      && rest.all fun c => isUpperAscii c || isLowerAscii c || isDigit c || c == 0x20 || c == 0x5f
        || c == 0x2e || c == 0x2d

/-- `[^\s@<>()",;:]`. -/
def isLocalChar (c : UInt16) : Bool :=
  !(isWhite c || c == 0x40 || c == 0x3c || c == 0x3e || c == 0x28 || c == 0x29 || c == 0x22
    || c == 0x2c || c == 0x3b || c == 0x3a)

/-- The same without brackets. -/
def isDomainText (s : Str) : Bool := s ≠ [] && s.all fun c => isLocalChar c && c ≠ 0x5b && c ≠ 0x5d

/-- An address the interpreter accepts: a plain local part, or a quoted one. -/
def isAddress (s : Str) : Bool :=
  (match cut [0x40] s with
    | some (l, domain) => l ≠ [] && l.all isLocalChar && isDomainText domain
    | none => false)
  || (s.head? = some 0x22
    && match cut [0x22] s.tail with
      | some (text, after) => text.all (fun c => c ≠ 0x0d && c ≠ 0x0a) && after.head? = some 0x40
      && isDomainText after.tail
      | none => false)

/-! ## Scripts -/

/-- Where a command stands in the source; errors and traces name it. -/
structure SourcePos where
  line : ℕ := 1
  column : ℕ := 1
  deriving DecidableEq

/-- `:is`, `:contains` and `:matches`. -/
inductive MatchType where
  | is
  | contains
  | matches
  deriving DecidableEq

/-- The two comparators; one looks at octets, the other folds ASCII case. -/
inductive Comparator where
  | octet
  | asciiCasemap
  deriving DecidableEq

structure MatchSpec where
  type : MatchType
  comparator : Comparator

/-- What of an address is compared. -/
inductive AddressPart where
  | all
  | localpart
  | domain
  deriving DecidableEq

/-- What of the body is compared (RFC 5173). -/
inductive BodyTransform where
  | raw
  | text
  | content (types : List Str)

/-- The modifiers of `set`, applied by precedence. -/
inductive SetModifier where
  | lower
  | upper
  | lowerfirst
  | upperfirst
  | quotewildcard
  | length
  deriving DecidableEq

/-- Tests, after the compiler has checked their arguments. -/
inductive CompiledTest where
  | true (pos : SourcePos)
  | false (pos : SourcePos)
  | not (test : CompiledTest) (pos : SourcePos)
  | anyof (tests : List CompiledTest) (pos : SourcePos)
  | allof (tests : List CompiledTest) (pos : SourcePos)
  | header (names keys : List Str) (match_ : MatchSpec) (pos : SourcePos)
  | address (names keys : List Str) (match_ : MatchSpec) (part : AddressPart) (pos : SourcePos)
  | envelope (names keys : List Str) (match_ : MatchSpec) (part : AddressPart) (pos : SourcePos)
  | exists (names : List Str) (pos : SourcePos)
  | size (over_ : Bool) (limit : ℕ) (pos : SourcePos)
  | body (transform : BodyTransform) (keys : List Str) (match_ : MatchSpec) (pos : SourcePos)
  | hasflag (vars : Option (List Str)) (keys : List Str) (match_ : MatchSpec) (pos : SourcePos)
  | string (sources keys : List Str) (match_ : MatchSpec) (pos : SourcePos)
  | mailboxexists (names : List Str) (pos : SourcePos)

def CompiledTest.pos : CompiledTest → SourcePos
  | .true pos => pos
  | .false pos => pos
  | .not _ pos => pos
  | .anyof _ pos => pos
  | .allof _ pos => pos
  | .header _ _ _ pos => pos
  | .address _ _ _ _ pos => pos
  | .envelope _ _ _ _ pos => pos
  | .exists _ pos => pos
  | .size _ _ pos => pos
  | .body _ _ _ pos => pos
  | .hasflag _ _ _ pos => pos
  | .string _ _ _ pos => pos
  | .mailboxexists _ pos => pos

/-- The name a test is traced under; the connectives and constants are not traced. -/
def CompiledTest.traced : CompiledTest → Option String
  | .true _ => none
  | .false _ => none
  | .not _ _ => none
  | .anyof _ _ => none
  | .allof _ _ => none
  | .header .. => some "header"
  | .address .. => some "address"
  | .envelope .. => some "envelope"
  | .exists .. => some "exists"
  | .size .. => some "size"
  | .body .. => some "body"
  | .hasflag .. => some "hasflag"
  | .string .. => some "string"
  | .mailboxexists .. => some "mailboxexists"

/-- The three commands of imap4flags. -/
inductive FlagOperation where
  | setflag
  | addflag
  | removeflag
  deriving DecidableEq

def FlagOperation.name : FlagOperation → String
  | .setflag => "setflag"
  | .addflag => "addflag"
  | .removeflag => "removeflag"

/-- The arguments of `vacation`. -/
structure VacationCommand where
  reason : Str
  days : Option ℕ
  subject : Option Str
  sender : Option Str
  addresses : List Str
  mime : Bool
  handle : Option Str

mutual

/-- Commands, after the compiler has checked their arguments. -/
inductive CompiledCommand where
  | cond (branches : List Branch) (pos : SourcePos)
  | stop (pos : SourcePos)
  | discard (pos : SourcePos)
  | keep (flags : Option (List Str)) (pos : SourcePos)
  | fileinto (mailbox : Str) (flags : Option (List Str)) (create : Bool) (pos : SourcePos)
  | redirect (address : Str) (pos : SourcePos)
  | flag (operation : FlagOperation) (target : Option Str) (flags : List Str) (pos : SourcePos)
  | set (name value : Str) (modifiers : List SetModifier) (pos : SourcePos)
  | vacation (command : VacationCommand) (pos : SourcePos)
  | bucket (name : Str) (pos : SourcePos)

/-- `elsif` and `else` are further branches; `else` has no test. -/
inductive Branch where
  | mk (test : Option CompiledTest) (block : List CompiledCommand)

end

def CompiledCommand.pos : CompiledCommand → SourcePos
  | .cond _ pos => pos
  | .stop pos => pos
  | .discard pos => pos
  | .keep _ pos => pos
  | .fileinto _ _ _ pos => pos
  | .redirect _ pos => pos
  | .flag _ _ _ pos => pos
  | .set _ _ _ pos => pos
  | .vacation _ pos => pos
  | .bucket _ pos => pos

structure CompiledScript where
  capabilities : List Str
  commands : List CompiledCommand

/-! ## Messages, options and results -/

/-- A decoded leaf of the message. -/
structure SieveBodyPart where
  contentType : Str
  content : Str
  disposition : Option Str

/-- The message as a script sees it. -/
structure SieveMessage where
  size : ℕ
  /-- The envelope; the sender is empty for the null reverse-path. -/
  sender : Str
  recipient : Str
  header : Str → List Str
  rawBody : Str
  bodyParts : List SieveBodyPart

/-- What comes from outside the package. -/
structure Host where
  toLowerCase : Str → Str
  toUpperCase : Str → Str
  trim : Str → Str
  decodeEncodedWords : Str → Str
  /-- The addresses of `parseAddressList`, groups taken apart. -/
  addresses : Str → List Str
  /-- The hash of a vacation's reason, subject, sender and whether it is MIME. -/
  vacationHandle : Str → Option Str → Option Str → Bool → Str

/-- The account the script runs for, and the bounds of a run. -/
structure ExecuteOptions where
  userAddresses : List Str := []
  ownsAddress : Option (Str → Bool) := none
  mailboxExists : Option (Str → Bool) := none
  recentlyResponded : Option (Str → Str → ℕ → Bool) := none
  inbox : Str := lit "INBOX"
  maxWork : ℕ := 5000000
  maxRedirects : ℕ := 4
  maxActions : ℕ := 64
  maxStringLength : ℕ := 64 * 1024
  maxTrace : ℕ := 500
  minVacationDays : ℕ := 1
  maxVacationDays : ℕ := 30

/-- A reply to be sent, or the reason why it is not. -/
structure VacationAction where
  recipient : Str
  subject : Str
  sender : Option Str
  reason : Str
  mime : Bool
  handle : Str
  days : ℕ
  respond : Bool
  suppressed : Option Str
  line : ℕ
  deriving DecidableEq

/-- What the mail store is to do; `implicit` marks the keep nobody asked for. -/
inductive SieveAction where
  | keep (mailbox : Str) (flags : Option (List Str)) (implicit : Bool) (line : ℕ)
  | fileinto (mailbox : Str) (flags : Option (List Str)) (create : Bool) (line : ℕ)
  | discard (line : ℕ)
  | redirect (address : Str) (allowed : Bool) (reason : Option Str) (line : ℕ)
  | vacation (action : VacationAction)
  deriving DecidableEq

/-- The ways a run can end early. -/
inductive RuntimeErrorCode where
  | workLimit
  | actionLimit
  | badValue
  | duplicateVacation
  deriving DecidableEq

/-- An error, and the command it was raised at. -/
structure SieveRuntimeError where
  code : RuntimeErrorCode
  detail : Str
  line : ℕ
  column : ℕ
  deriving DecidableEq

/-- A line of the trace shown to the account's owner. -/
structure TraceEntry where
  line : ℕ
  column : ℕ
  event : Str
  deriving DecidableEq

/-- The result of a run; after an error one keep stands for all its actions. -/
structure SieveResult where
  actions : List SieveAction
  implicitKeep : Bool
  bucket : Option Str
  error : Option SieveRuntimeError
  trace : List TraceEntry
  deriving DecidableEq

end Postroom.Sieve
