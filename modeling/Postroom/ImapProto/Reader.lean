/-
`packages/imap-proto/src/reader.ts`: the streaming IMAP command reader.

The reader is fed buffers at arbitrary boundaries and splits the client's stream
into whole commands: the text lines, and the literals that the markers at the end
of a line announce. It never looks into a line but for its marker, its tag and,
on the first line, the word APPEND, whose message literals are passed on as they
arrive.

`pump` takes one turn after another until an event is queued; the caller takes
the event, may refuse the literal it announces (`rejectLiteral`), and pumps again.
`drive` is that conversation for one buffer. What the caller refuses is up to it,
so it is a parameter: a function of the number of literals asked for so far.
Collected parts (`lineParts`, `parts`) are their concatenation, and `size` is
`none` where the source has `Infinity`.
-/
import Postroom.Lib.Emits

set_option autoImplicit false

namespace Postroom.ImapProto

open Lib

abbrev Bytes := List UInt8

def CR : UInt8 := 13
def LF : UInt8 := 10
def SP : UInt8 := 32

/-- Enough for `~{`, the digits, `+}` and a CR. -/
def TAIL : ℕ := 32

/-! ## Options and events -/

inductive LiteralMode where
  | literalMinus
  | literalPlus
  | none
  deriving DecidableEq

structure CommandReaderOptions where
  maxLineLength : ℕ := 64 * 1024
  maxCommandSize : ℕ := 1024 * 1024
  maxLiterals : ℕ := 64
  maxAppendSize : ℕ := 100 * 1000 * 1000
  literalMode : LiteralMode := .literalMinus

/-- The largest non-synchronizing literal a `LITERAL-` server accepts. -/
def LITERAL_MINUS_MAX : ℕ := 4096

inductive ReaderErrorCode where
  | bareLf
  | bareCr
  | lineTooLong
  | commandTooLarge
  | literalTooLarge
  | tooManyLiterals
  | nonSyncLiteralTooLarge
  | nonSyncLiteralRefused
  deriving DecidableEq

structure ReaderError where
  code : ReaderErrorCode
  /-- A Latin-1 string, as its octets. -/
  tag : Option Bytes
  fatal : Bool
  message : String
  deriving DecidableEq

inductive ReaderEvent where
  /-- A whole command, without the final CRLF, literals inline. -/
  | command (tag : Option Bytes) (bytes : Bytes)
  /-- `continue`: a synchronizing literal was announced. -/
  | continuation (tag : Option Bytes) (size : ℕ)
  | appendBegin (tag : Option Bytes) (before : Bytes) (size : ℕ)
    (binary synchronizing continued : Bool)
  | appendData (chunk : Bytes)
  | appendEnd (tag : Option Bytes) (trailing : Bytes)
  | rawLine (line : Bytes)
  | error (error : ReaderError)
  deriving DecidableEq

/-! ## Markers and tags -/

structure LiteralMarker where
  start : ℕ
  size : Option ℕ
  nonSync : Bool
  binary : Bool
  deriving DecidableEq

def isDigit (c : UInt8) : Bool := 0x30 ≤ c && c ≤ 0x39

/-- `Number(digits)`. -/
def decimal (digits : Bytes) : ℕ := digits.foldl (fun n c => 10 * n + (c.toNat - 0x30)) 0

/-- The digits and the brace before them, read backwards. -/
def markerFrom (nonSync : Bool) (rest : Bytes) : Option LiteralMarker :=
  let digits := rest.takeWhile isDigit
  let brace := rest.dropWhile isDigit
  if digits = [] || brace.head? ≠ some 0x7b then none
  else
    let before := brace.tail
    let binary := before.head? = some 0x7e
    some {
      start := if binary then before.length - 1 else before.length
      size := if 15 < digits.length then none else some (decimal digits.reverse)
      nonSync := nonSync
      binary := binary }

/-- The literal marker at the end of a line, read backwards. -/
def literalMarkerAt (line : Bytes) : Option LiteralMarker :=
  let rest := line.reverse
  if rest.head? ≠ some 0x7d then none
  else if rest.tail.head? = some 0x2b then markerFrom true rest.tail.tail
  else markerFrom false rest.tail

def isTagChar (c : UInt8) : Bool :=
  0x20 < c && c < 0x7f && c ≠ 0x28 && c ≠ 0x29 && c ≠ 0x7b && c ≠ 0x25 && c ≠ 0x2a && c ≠ 0x22
    && c ≠ 0x5c
    && c ≠ 0x2b

/-- The tag at the start of a command's first line. -/
def extractTag (line : Bytes) : Option Bytes :=
  let tag := (line.take 256).takeWhile isTagChar
  if tag = [] || (line)[tag.length]? ≠ some SP then none else some tag

/-- `toUpperCase` of an ASCII letter. Of the other octets of a Latin-1 text only the sharp s
becomes ASCII letters (`SS`), and none of the words compared here has an `S`. -/
def upper (c : UInt8) : UInt8 := if 0x61 ≤ c && c ≤ 0x7a then c - 0x20 else c

/-- `APPEND`. -/
def appendWord : Bytes := [0x41, 0x50, 0x50, 0x45, 0x4e, 0x44]

/-- For `tag APPEND ...` the offset of the first argument. -/
def appendArgStart (line : Bytes) (tag : Option Bytes) : Option ℕ :=
  match tag with
  | none => none
  | some tag =>
    let start := tag.length + 1
    if line.length < start + 7 then none
    else if ((line.drop start).take 6).map upper ≠ appendWord
      || (line)[start + 6]? ≠ some SP then none
    else some (start + 7)

/-! ## The reader -/

inductive Mode where
  | line
  | literal
  | append
  | discard
  | skip
  | dead
  deriving DecidableEq

structure CommandReader where
  mode : Mode := .line
  /-- The line being read. -/
  line : Bytes := []
  rawLine : Bool := false
  /-- The command being assembled. -/
  parts : Bytes := []
  cmdSize : ℕ := 0
  fragment : ℕ := 0
  tag : Option Bytes := none
  appendAt : Option ℕ := none
  appendStreamed : Bool := false
  literals : ℕ := 0
  remaining : ℕ := 0
  awaitingSync : Bool := false
  /-- The end of a line that is being discarded. -/
  tail : Bytes := []
  deriving DecidableEq

abbrev Step := Emits CommandReader ReaderEvent

/-- The last `n` octets: `subarray(-n)`. -/
def takeLast (n : ℕ) (buf : Bytes) : Bytes := buf.drop (buf.length - n)

/-- A line without the CR of its line break. -/
def stripCr (raw : Bytes) : Bytes := if raw.getLast? = some CR then raw.dropLast else raw

def resetCommand (s : CommandReader) : CommandReader :=
  { s with
    parts := [], cmdSize := 0, fragment := 0, tag := none, appendAt := none, appendStreamed := false
    literals := 0, remaining := 0 }

def emitError (code : ReaderErrorCode) (tag : Option Bytes) (fatal : Bool) (message : String) :
    Step := fun s =>
  (if fatal then { resetCommand s with mode := .dead, line := [] } else s,
    [.error { code := code, tag := tag, fatal := fatal, message := message }])

/-- `size > max` for a size that may be infinite. -/
def exceeds (size : Option ℕ) (max : ℕ) : Bool := size.all (max < ·)

section

variable (o : CommandReaderOptions)

/-- `nonSyncFatal`, as the error it would emit. -/
def nonSyncFatal (marker : LiteralMarker) : Option (ReaderErrorCode × String) :=
  match o.literalMode with
  | .none => some (.nonSyncLiteralRefused, "non-synchronizing literals are not supported")
  | .literalMinus =>
    if exceeds marker.size LITERAL_MINUS_MAX then
      some (.nonSyncLiteralTooLarge,
        s!"non-synchronizing literal larger than {LITERAL_MINUS_MAX} octets (LITERAL-)")
    else none
  | .literalPlus => none

/-- What becomes of the stream behind the last line of a failed command. -/
def afterFailedLine (line : Bytes) (tag : Option Bytes) : Step := fun s =>
  match literalMarkerAt line with
  | none => ({ s with mode := .line }, [])
  | some marker =>
    if !marker.nonSync then ({ s with mode := .line }, [])
    else
      match nonSyncFatal o marker, marker.size with
      | some (code, message), _ => emitError code tag true message s
      | none, none =>
        emitError .nonSyncLiteralTooLarge tag true "unbounded non-synchronizing literal" s
      | none, some size => ({ s with tag := tag, mode := .skip, remaining := size }, [])

def failLine (code : ReaderErrorCode) (tag : Option Bytes) (line : Bytes) (message : String) :
    Step := fun s =>
  (emitError code tag false message
    >> fun s => afterFailedLine o line tag (resetCommand s)) { s with rawLine := false }

/-- The end of a command without a further literal. -/
def endCommand (tag : Option Bytes) (line : Bytes) : Step := fun s =>
  (resetCommand s,
    if s.appendStreamed then [.appendEnd tag line] else [.command tag (s.parts ++ line)])

/-- A message literal of APPEND begins. -/
def beginAppend (tag : Option Bytes) (line : Bytes) (marker : LiteralMarker) (size : ℕ) : Step :=
  fun s =>
  ({ s with
      appendStreamed := true, parts := [], cmdSize := 0, mode := .append, remaining := size
      awaitingSync := !marker.nonSync },
    [.appendBegin tag (if s.appendStreamed then line else s.parts ++ line) size marker.binary
    (!marker.nonSync)
      s.appendStreamed])

/-- Any other literal begins. -/
def beginLiteral (tag : Option Bytes) (line : Bytes) (marker : LiteralMarker) (size : ℕ) : Step :=
  fun s =>
  ({ s with
      parts := s.parts ++ line ++ [CR, LF], cmdSize := s.cmdSize + size, mode :=
      .literal, remaining := size
      awaitingSync := if marker.nonSync then s.awaitingSync else true },
    if marker.nonSync then [] else [.continuation tag size])

/-- The literal that the marker announces, if it is not too large. -/
def startLiteral (first : Bool) (tag : Option Bytes) (line : Bytes) (marker : LiteralMarker) :
    Step := fun s =>
  let streaming := s.appendAt.isSome && !(first && s.appendAt = some marker.start)
  let s := { s with fragment := s.fragment + 1 }
  if streaming then
    if exceeds marker.size o.maxAppendSize then
      failLine o .literalTooLarge tag line s!"message literal larger than {o.maxAppendSize} octets"
        s
    else beginAppend tag line marker (marker.size.getD 0) s
  else if exceeds (marker.size.map (s.cmdSize + ·)) o.maxCommandSize then
    failLine o .literalTooLarge tag line
      s!"literal would make the command larger than {o.maxCommandSize} octets" s
  else beginLiteral tag line marker (marker.size.getD 0) s

/-- The part of `completeLine` for a line that ends in a marker. -/
def announce (first : Bool) (tag : Option Bytes) (line : Bytes) (marker : LiteralMarker) : Step :=
  fun s =>
  let s := { s with literals := s.literals + 1 }
  if o.maxLiterals < s.literals then
    failLine o .tooManyLiterals tag line s!"more than {o.maxLiterals} literals in one command" s
  else
    match (if marker.nonSync then nonSyncFatal o marker else none) with
    | some (code, message) => emitError code tag true message s
    | none => startLiteral o first tag line marker s

/-- A line is added to the command; the first one says what command it is. -/
def addLine (first : Bool) (tag : Option Bytes) (line : Bytes) (s : CommandReader) :
    CommandReader :=
  { s with
    tag := if first then tag else s.tag
    appendAt := if first then appendArgStart line tag else s.appendAt
    cmdSize := s.cmdSize + (line.length + if (literalMarkerAt line).isSome then 2 else 0) }

/-- The part of `completeLine` for a well-formed line of a command. -/
def acceptLine (first : Bool) (tag : Option Bytes) (line : Bytes) : Step := fun s =>
  if o.maxCommandSize < (addLine first tag line s).cmdSize then
    failLine o .commandTooLarge tag line s!"command larger than {o.maxCommandSize} octets"
      (addLine first tag line s)
  else
    match literalMarkerAt line with
    | none => endCommand tag line (addLine first tag line s)
    | some marker => announce o first tag line marker (addLine first tag line s)

def completeLine (raw : Bytes) : Step := fun s =>
  let line := stripCr raw
  let first := s.fragment = 0 && !s.rawLine
  let tag := if first then extractTag line else s.tag
  if raw.getLast? ≠ some CR then
    failLine o .bareLf tag line "line ended with a bare LF; IMAP lines end with CRLF" s
  else if CR ∈ line then failLine o .bareCr tag line "bare CR inside a line" s
  else if s.rawLine then ({ s with rawLine := false }, [.rawLine line])
  else if o.maxLineLength < line.length then
    failLine o .lineTooLong tag line s!"line longer than {o.maxLineLength} octets" s
  else acceptLine o first tag line s

/-- The line has grown too long: its error, and the rest of it is discarded. -/
def overflow (piece : Bytes) : Step := fun s =>
  let tag := if s.fragment = 0 && !s.rawLine then extractTag (s.line ++ piece.take 256) else s.tag
  let out := emitError .lineTooLong tag false s!"line longer than {o.maxLineLength} octets"
    { s with rawLine := false, tail := takeLast TAIL (s.line ++ piece), line := [] }
  ({ resetCommand out.1 with tag := tag, mode := .discard }, out.2)

/-- The octets before the next LF, and what follows it if there is one. -/
def cutLf : Bytes → Bytes × Option Bytes
  | [] => ([], none)
  | b :: rest => if b = LF then ([], some rest) else (b :: (cutLf rest).1, (cutLf rest).2)

/-- `stepLine`; the second part is what is left of the buffer. -/
def stepLine (buf : Bytes) (s : CommandReader) : (CommandReader × List ReaderEvent) × Bytes :=
  let piece := (cutLf buf).1
  if o.maxLineLength + 1 < s.line.length + piece.length then
    (overflow o piece s, buf.drop piece.length)
  else
    let s := { s with line := s.line ++ piece }
    match (cutLf buf).2 with
    | none => ((s, []), [])
    | some rest => (completeLine o s.line { s with line := [] }, rest)

/-- `stepDiscard`. -/
def stepDiscard (buf : Bytes) (s : CommandReader) : (CommandReader × List ReaderEvent) × Bytes :=
  let tail := takeLast TAIL (s.tail ++ (cutLf buf).1)
  match (cutLf buf).2 with
  | none => (({ s with tail := tail }, []), [])
  | some rest => (afterFailedLine o (stripCr tail) s.tag (resetCommand { s with tail := [] }), rest)

/-- What a mode gives way to once its literal is used up. -/
def Mode.after : Mode → Mode
  | .literal => .line
  | .append => .line
  | .skip => .discard
  | m => m

def settle (s : CommandReader) : CommandReader :=
  if s.remaining = 0 then { s with mode := s.mode.after } else s

/-- Octets of a literal: kept, passed on or skipped. -/
def absorb (taken : Bytes) : Step := fun s =>
  let s := { s with remaining := s.remaining - taken.length }
  match s.mode with
  | .literal => ({ s with parts := s.parts ++ taken }, [])
  | .append => (s, [.appendData taken])
  | _ => (s, [])

/-- One turn of `pump` on a buffer that is not empty. -/
def turn (buf : Bytes) (s : CommandReader) : (CommandReader × List ReaderEvent) × Bytes :=
  match s.mode with
  | .line => stepLine o buf s
  | .discard => stepDiscard o buf s
  | .dead => ((s, []), [])
  | _ => (absorb (buf.take s.remaining) s, buf.drop s.remaining)

/-! ## The conversation -/

/-- `rejectLiteral`, for a caller that has taken every event. -/
def rejectLiteral (s : CommandReader) : CommandReader :=
  if s.awaitingSync then { resetCommand s with awaitingSync := false, mode := .line } else s

/-- What happens in a conversation: the reader's events and the caller's refusals. -/
inductive Item where
  | event (event : ReaderEvent)
  | refused
  deriving DecidableEq

/-- The reader, and how many literals it has asked for. -/
structure Session where
  reader : CommandReader := {}
  asked : ℕ := 0
  deriving DecidableEq

/-- The caller takes the events of a turn, and refuses the literal they ask for
if it wants to. -/
def take (refuse : ℕ → Bool) (out : CommandReader × List ReaderEvent) : Emits Session Item :=
  fun t =>
  if out.1.awaitingSync then
    if refuse t.asked then
      ({ reader := rejectLiteral out.1, asked := t.asked + 1 }, out.2.map .event ++ [.refused])
    else ({ reader := out.1, asked := t.asked + 1 }, out.2.map .event)
  else ({ t with reader := out.1 }, out.2.map .event)

/-- `push(buf)` and `next()` until it returns null. Every turn uses up some of
the buffer, so its length is fuel enough. -/
def drive (refuse : ℕ → Bool) : ℕ → Bytes → Emits Session Item
  | 0, _ => fun t => ({ t with reader := settle { t.reader with awaitingSync := false } }, [])
  | n + 1, buf => fun t =>
    let reader := settle { t.reader with awaitingSync := false }
    if buf = [] || reader.mode = .dead then ({ t with reader := reader }, [])
    else (take refuse (turn o buf reader).1 >> drive refuse n (turn o buf reader).2) t

def feed (refuse : ℕ → Bool) (buf : Bytes) : Emits Session Item := drive o refuse buf.length buf

/-- A whole conversation, in these chunks. -/
def run (refuse : ℕ → Bool) (chunks : List Bytes) : Session × List Item :=
  Emits.readAll (feed o refuse) chunks {}

end

end Postroom.ImapProto
