/-
`packages/mime/src/parser.ts`: the streaming MIME parser.

Bytes are written in pieces; events are delivered as they are known. Each method
of `MimeParser` is a step that changes the parser and emits events, under its
name in the source.

# Representation

* The stack holds the innermost part first. A delimiter names its part by its
  place in the stack, counted from the message, which stays the same while the
  part is open; `stack.indexOf(frame)` is that place.
* A part's id `"1.2.1"` is the path `[1, 2, 1]`.
* The index `pos` into a buffer is the list of octets that are left. A turn of
  the byte loop consumes at least one: the turn that only releases a held line
  break is taken together with the mid-line turn that must follow it. So the
  length of the buffer is fuel enough for the loop.
* `headerLine` feeds a line that turned out to be body back to `process`. The
  call is a parameter (`reprocess`), tied up in `process` for `NESTING` calls
  inside one another, which is as deep as they go.
* Where a line still open is judged, the judge is a parameter (`couldBe`), with
  the source's `couldBeDelimiter` put in by `write`.
* `bytesIn` and `peak` are only touched between slices and sit beside the parser
  (`Session`); the guard against a write after the end is left out.
-/
import Postroom.Lib.Decimal
import Postroom.Mime.Params
import Postroom.Mime.Transfer

set_option autoImplicit false

namespace Postroom.Mime

open Lib

def DASH : UInt8 := 0x2d

def MAX_BOUNDARY_LENGTH : ℕ := 200
def MAX_DELIMITER_PADDING : ℕ := 256

/-! ## Parts and events -/

inductive PartKind where
  | leaf
  | multipart
  | message
  deriving DecidableEq

abbrev PartId := List ℕ

structure PartInfo where
  id : PartId
  parent : Option PartId
  depth : ℕ
  kind : PartKind
  headers : HeaderList
  contentType : Text
  params : Params
  disposition : Option Text
  dispositionParams : Params
  filename : Option Text
  charset : Option Text
  encoding : Text
  contentId : Option Text
  boundary : Option Text
  deriving DecidableEq

inductive WarningCode where
  | header8bitLatin1
  | headerBlockTooLarge
  | headerFieldTooLong
  | headerLineTooLong
  | headerJunkContinuation
  | headerMissingSeparator
  | mboxFromLine
  | invalidContentType
  | multipartNoBoundary
  | multipartBadBoundary
  | multipartEncoded
  | multipartMissingClose
  | multipartEmpty
  | delimiterAfterClose
  | depthLimit
  | unknownEncoding
  | malformedEncoding
  | messageEncoded
  | tooManyWarnings
  deriving DecidableEq

structure MimeWarning where
  code : WarningCode
  message : Text
  partId : Option PartId
  deriving DecidableEq

structure ParseStats where
  bytesIn : ℕ
  parts : ℕ
  warnings : ℕ
  /-- Peak octets the parser itself held across slices. -/
  maxRetainedBytes : ℕ
  /-- The ceiling `maxRetainedBytes` can never exceed for these options. -/
  retainedBound : ℕ
  deriving DecidableEq

/-- The `headers` event also carries `part.headers`. -/
inductive MimeEvent where
  | headers (part : PartInfo)
  | body (part : PartInfo) (chunk : Bytes)
  | endPart (part : PartInfo) (size : ℕ)
  | warning (warning : MimeWarning)
  | done (stats : ParseStats)
  deriving DecidableEq

structure ParseOptions where
  maxHeaderBytes : ℕ := 1024 * 1024
  maxFieldBytes : ℕ := 64 * 1024
  maxLineBytes : ℕ := 64 * 1024
  maxDepth : ℕ := 32
  maxWarnings : ℕ := 100
  /-- The source takes the larger of this and 1. -/
  sliceBytes : ℕ := 64 * 1024

/-! ## The parser's state -/

inductive Mode where
  | headers
  | leaf
  | multipart
  | message
  deriving DecidableEq

def PartKind.mode : PartKind → Mode
  | .leaf => .leaf
  | .multipart => .multipart
  | .message => .message

inductive MpState where
  | preamble
  | child
  | epilogue
  deriving DecidableEq

structure Frame where
  id : PartId
  parent : Option PartId
  depth : ℕ
  defaultType : Text
  mode : Mode := .headers
  part : Option PartInfo := none
  fields : HeaderList := []
  field : List Bytes := []
  fieldBytes : ℕ := 0
  fieldTruncated : Bool := false
  headerBytes : ℕ := 0
  headerOverflow : Bool := false
  mpState : MpState := .preamble
  children : ℕ := 0
  decoder : Option TransferDecoder := none
  size : ℕ := 0

def textPlain : Text := "text/plain".toList
def messageRfc822 : Text := "message/rfc822".toList

/-- The frame of the message itself. -/
def rootFrame : Frame := { id := [1], parent := none, depth := 0, defaultType := textPlain }

/-- `newFrame(id, parent, defaultType)` for child number `n` of `parent`. -/
def newFrame (parent : Frame) (n : ℕ) (defaultType : Text) : Frame :=
  { id := parent.id ++ [n]
    parent := some parent.id
    depth := parent.depth + 1
    defaultType := defaultType }

structure MimeParser where
  /-- Innermost first. -/
  stack : List Frame := [rootFrame]
  /-- Active delimiters with the place of their part in the stack, innermost last. -/
  delimiters : List (Bytes × ℕ) := []
  carry : Bytes := []
  lineOverflow : Bool := false
  atLineStart : Bool := true
  pendingEol : Option Bytes := none
  heldCr : Bool := false
  headerBytesRetained : ℕ := 0
  sawAnyHeaderLine : Bool := false
  parts : ℕ := 0
  warnings : ℕ := 0

abbrev Step := Emits MimeParser MimeEvent

/-- Assign to fields of the parser. -/
def modify (u : MimeParser → MimeParser) : Step := Emits.update u

/-- `this.onEvent(event)`. -/
def onEvent (event : MimeEvent) : Step := Emits.emit event

@[simp] theorem modify_apply (u : MimeParser → MimeParser) (s : MimeParser) :
    modify u s = (u s, []) := rfl

@[simp] theorem onEvent_apply (event : MimeEvent) (s : MimeParser) :
    onEvent event s = (s, [event]) := rfl

/-- The innermost open part. -/
def MimeParser.top (s : MimeParser) : Frame := s.stack.headD rootFrame

def MimeParser.setTop (s : MimeParser) (frame : Frame) : MimeParser :=
  { s with stack := frame :: s.stack.tail }

/-- Octets the parser holds right now. -/
def MimeParser.retainedBytes (s : MimeParser) : ℕ :=
  s.carry.length + s.headerBytesRetained + (s.pendingEol.elim 0 List.length)
    + (if s.heldCr then 1 else 0)
      + ((s.stack.head?.bind Frame.decoder).elim 0 TransferDecoder.carried)

/-! ## Cutting buffers -/

/-- Cut a buffer right after the first octet that `p` picks; `p` also sees what
follows it. -/
def cutAfter (p : UInt8 → Bytes → Bool) : Bytes → Bytes × Bytes
  | [] => ([], [])
  | b :: rest =>
    if p b rest then ([b], rest) else (b :: (cutAfter p rest).1, (cutAfter p rest).2)

/-- Up to and including the next LF. -/
def cutLine : Bytes → Bytes × Bytes := cutAfter fun b _ => b = LF

/-- Up to and including the next LF that `-` follows. -/
def cutNlDash : Bytes → Bytes × Bytes := cutAfter fun b rest => b = LF && rest.head? = some DASH

/-- A line that ends in LF, without its line break, and the line break. -/
def splitEol (line : Bytes) : Bytes × Bytes :=
  if line.dropLast.getLast? = some CR then (line.dropLast.dropLast, [CR, LF])
    else (line.dropLast, [LF])

def isPad (c : UInt8) : Bool := c = SP || c = HTAB || c = CR

def isPadding (buf : Bytes) : Bool := buf.all isPad

section

variable (rt : Runtime) (o : ParseOptions)

/-! ## Warnings -/

def tooManyWarnings (frame : Frame) : MimeWarning :=
  { code := .tooManyWarnings
    message := "further warnings suppressed".toList
    partId := some frame.id }

def warn (code : WarningCode) (message : Text) (frame : Frame) : Step := fun s =>
  let s := { s with warnings := s.warnings + 1 }
  if o.maxWarnings < s.warnings then (s, [])
  else if s.warnings = o.maxWarnings then (s, [.warning (tooManyWarnings frame)])
  else (s, [.warning { code := code, message := message, partId := some frame.id }])

/-- `if (c) this.warn(…)`. -/
def warnIf (c : Bool) (code : WarningCode) (message : Text) (frame : Frame) : Step :=
  if c then warn o code message frame else Emits.skip

@[simp] theorem warn_fst (code : WarningCode) (message : Text) (frame : Frame) (s : MimeParser) :
    (warn o code message frame s).1 = { s with warnings := s.warnings + 1 } := by
  unfold warn
  dsimp only
  split_ifs
  · rfl
  · rfl
  · rfl

@[simp] theorem warnIf_fst (c : Bool) (code : WarningCode) (message : Text) (frame : Frame)
    (s : MimeParser) :
    (warnIf o c code message frame s).1 = { s with warnings := s.warnings + c.toNat } := by
  cases c with
  | false => rfl
  | true => exact warn_fst o code message frame s

/-! ## Delimiters -/

/-- `Match`: the place of the part, and whether the delimiter closes it. -/
structure Match where
  frameIndex : ℕ
  close : Bool

/-- The test of `matchDelimiter` for one delimiter. -/
def matchOne (line : Bytes) (d : Bytes × ℕ) : Option Match :=
  if d.1.isPrefixOf line then
    let rest := line.drop d.1.length
    let close := [DASH, DASH].isPrefixOf rest
    if isPadding (if close then rest.drop 2 else rest) then
      some { frameIndex := d.2, close := close } else none
  else none

def matchDelimiter (delimiters : List (Bytes × ℕ)) (line : Bytes) : Option Match :=
  if line.length < 3 || !([DASH, DASH].isPrefixOf line) then none
  else delimiters.reverse.findSome? (matchOne line)

/-- What may follow a delimiter on its line: two dashes at most, then padding. -/
def couldClose : Bytes → Bool
  | [] => true
  | [a] => a = DASH || isPad a
  | a :: b :: rest => (a = DASH || isPad a) && (b = DASH || isPad b) && isPadding rest

/-- The test of `couldBeDelimiter` for one delimiter, with room for so much
after it (`none` for any amount). -/
def couldBeOne (room : Option ℕ) (part : Bytes) (d : Bytes × ℕ) : Bool :=
  let n := min part.length d.1.length
  d.1.take n == part.take n
    && (part.length ≤ d.1.length
      || (room.all (part.length - d.1.length ≤ ·) && couldClose (part.drop d.1.length)))

def couldBeWithin (room : Option ℕ) (delimiters : List (Bytes × ℕ)) (part : Bytes) : Bool :=
  delimiters.any (couldBeOne room part)

def couldBeDelimiter : List (Bytes × ℕ) → Bytes → Bool :=
  couldBeWithin (some (2 + MAX_DELIMITER_PADDING))

/-! ## Content -/

/-- What content does to the innermost frame: a leaf decodes it. -/
def Frame.receive (buf : Bytes) : Emits Frame MimeEvent := fun frame =>
  match frame.mode, frame.decoder, frame.part with
  | .leaf, some decoder, some part =>
    let decoded := (TransferDecoder.write buf decoder).2
    ({ frame with
        decoder := some (TransferDecoder.write buf decoder).1, size :=
        frame.size + decoded.length },
      if decoded = [] then [] else [.body part decoded])
  -- preamble, epilogue
  | _, _, _ => (frame, [])

/-- The same on the stack. -/
def receiveTop (buf : Bytes) : Emits (List Frame) MimeEvent
  | [] => ([], [])
  | frame :: below => ((Frame.receive buf frame).1 :: below, (Frame.receive buf frame).2)

def content (buf : Bytes) : Step := fun s =>
  ({ s with stack := (receiveTop buf s.stack).1 }, (receiveTop buf s.stack).2)

def flushPendingEol : Step := fun s =>
  match s.pendingEol with
  | none => (s, [])
  | some eol => content eol { s with pendingEol := none }

/-! ## Header fields -/

def endField : Step := fun s =>
  let frame := s.top
  let cleared := { frame with field := [], fieldBytes := 0, fieldTruncated := false }
  if frame.field = [] then (s.setTop cleared, [])
  else
    let field := makeField rt frame.field.flatten frame.fieldTruncated
    (warnIf o field.latin1 .header8bitLatin1
        (field.name ++ " held 8-bit bytes that are not UTF-8; read as Latin-1".toList) frame
      >> modify (·.setTop { cleared with fields := frame.fields ++ [field] })) s

/-- The buffers a line adds to its field. -/
def fieldPieces (eol line : Bytes) : List Bytes := if eol = [] then [line] else [eol, line]

def appendField (eol line : Bytes) : Step := fun s =>
  let frame := s.top
  let add := eol.length + line.length
  if frame.headerOverflow || frame.fieldTruncated then (s, [])
  else if o.maxFieldBytes < frame.fieldBytes + add then
    warn o .headerFieldTooLong
      ("a header field exceeded ".toList ++ decimal o.maxFieldBytes
        ++ " bytes and was truncated".toList) frame
      (s.setTop { frame with fieldTruncated := true })
  else if o.maxHeaderBytes < s.headerBytesRetained + add then
    warn o .headerBlockTooLarge
      ("headers exceeded ".toList ++ decimal o.maxHeaderBytes
        ++ " bytes; later fields were dropped".toList) frame
      { s.setTop { frame with
          headerOverflow := true, field := [], headerBytes := frame.headerBytes - frame.fieldBytes,
          fieldBytes := 0 } with
        headerBytesRetained := s.headerBytesRetained - frame.fieldBytes }
  else
    ({ s.setTop { frame with
          field := frame.field ++ fieldPieces eol line,
          fieldBytes := frame.fieldBytes + add, headerBytes := frame.headerBytes + add } with
        headerBytesRetained := s.headerBytesRetained + add }, [])

/-! ## The end of a header block -/

def isIdentity (encoding : Text) : Bool :=
  ["7bit", "8bit", "binary"].any fun e => e.toList == encoding

/-- A character of `BOUNDARY_CHARS` other than the blank. -/
def isBoundaryChar (c : Char) : Bool :=
  c.isAlphanum || "()+_,-./:=?".toList.contains c || c.toNat = 0x27

/-- `BOUNDARY_CHARS`: legal characters, the last of which is no blank. -/
def isBoundary (b : Text) : Bool :=
  b.all (fun c => isBoundaryChar c || c = ' ') && b.getLast?.any isBoundaryChar

/-- The warning, if any, that keeps a multipart from being parsed as one, in the
order of the tests. -/
def multipartFlaw (frame : Frame) (boundary : Option Text) (encoding : Text) :
    Option (WarningCode × Text) :=
  match boundary with
  | none =>
    some (.multipartNoBoundary, "multipart without a boundary; treated as a single part".toList)
  | some b =>
    if b = [] then
      some (.multipartNoBoundary, "multipart without a boundary; treated as a single part".toList)
    else if MAX_BOUNDARY_LENGTH < b.length || !isBoundary b then
      some (.multipartBadBoundary,
        "multipart boundary is too long or has invalid characters; treated as a single part".toList)
    else if !isIdentity encoding then
      some (.multipartEncoded,
        "multipart with Content-Transfer-Encoding ".toList ++ encoding
        ++ "; treated as a single part".toList)
    else if o.maxDepth ≤ frame.depth then
      some (.depthLimit, "nesting deeper than ".toList ++ decimal o.maxDepth
        ++ "; treated as a single part".toList)
    else none

/-- The same for an encapsulated message. -/
def messageFlaw (frame : Frame) (encoding : Text) : Option (WarningCode × Text) :=
  if !isIdentity encoding then
    some (.messageEncoded,
      "encapsulated message with Content-Transfer-Encoding ".toList ++ encoding
        ++ "; treated as a single part".toList)
  else if o.maxDepth ≤ frame.depth then
    some (.depthLimit, "nesting deeper than ".toList ++ decimal o.maxDepth
      ++ "; treated as a single part".toList)
  else none

/-- How a part is parsed, with its boundary if it is a multipart and the warning
that decided. -/
def kindOf (frame : Frame) (ct : ContentType) (encoding : Text) :
    PartKind × Option Text × Option (WarningCode × Text) :=
  if ct.type = "multipart".toList then
    match multipartFlaw o frame (ct.params.get "boundary") encoding with
    | some w => (.leaf, none, some w)
    | none => (.multipart, ct.params.get "boundary", none)
  else if ct.mimeType = messageRfc822 || ct.mimeType = "message/global".toList then
    match messageFlaw o frame encoding with
    | some w => (.leaf, none, some w)
    | none => (.message, none, none)
  else (.leaf, none, none)

/-- A warning where there is one. -/
def warnSome (w : Option (WarningCode × Text)) (frame : Frame) : Step :=
  match w with
  | none => Emits.skip
  | some (code, message) => warn o code message frame

@[simp] theorem warnSome_fst (w : Option (WarningCode × Text)) (frame : Frame) (s : MimeParser) :
    (warnSome o w frame s).1 = { s with warnings := s.warnings + w.isSome.toNat } := by
  cases w with
  | none => rfl
  | some w => exact warn_fst o w.1 w.2 frame s

/-- `cidRaw.replace(/^<|>$/g, '').trim() || null`. -/
def bareContentId (raw : Text) : Option Text :=
  let t := if raw.head? = some '<' then raw.tail else raw
  let t := trim (if t.getLast? = some '>' then t.dropLast else t)
  if t = [] then none else some t

def partInfo (frame : Frame) (headers : HeaderList) (ct : ContentType) (encoding : Text)
    (kind : PartKind)
    (boundary : Option Text) : PartInfo :=
  let disp := parseContentDisposition rt (headers.get "content-disposition")
  let dispositionParams : Params := (disp.map (·.params)).getD []
  { id := frame.id
    parent := frame.parent
    depth := frame.depth
    kind := kind
    headers := headers
    contentType := ct.mimeType
    params := ct.params
    disposition := disp.map (·.type)
    dispositionParams := dispositionParams
    filename := (Params.get dispositionParams "filename").orElse fun _ => ct.params.get "name"
    charset := ct.params.get "charset"
    encoding := encoding
    contentId := (headers.get "content-id").bind fun raw =>
      (parseMessageId raw).orElse fun _ => bareContentId raw
    boundary := boundary }

/-- `Buffer.from('--' + boundary, 'utf8')`: a boundary is ASCII. -/
def delimiterOf (boundary : Text) : Bytes :=
  DASH :: DASH :: boundary.map fun c => UInt8.ofNat c.toNat

/-- What a part becomes once its header block is read. -/
def openPart (frame : Frame) (part : PartInfo) : MimeParser → MimeParser := fun s =>
  let frame := { frame with fields := [], part := some part, mode := part.kind.mode }
  match part.kind with
  | .leaf => s.setTop { frame with decoder := some (createTransferDecoder part.encoding) }
  | .multipart =>
    { s.setTop { frame with mpState := .preamble } with
      delimiters := s.delimiters ++ [(delimiterOf (part.boundary.getD []), s.stack.length - 1)] }
  | .message => { s.setTop frame with stack := newFrame frame 1 textPlain :: frame :: s.stack.tail }

/-- The part of `finishHeaders` after the last field was ended. -/
def readHeaders : Step := fun s =>
  let frame := s.top
  let headers := frame.fields
  let rawType := HeaderList.get headers "content-type"
  let ct := parseContentType rt rawType frame.defaultType
  let encoding := normalizeEncoding rt (HeaderList.get headers "content-transfer-encoding")
  let kind := kindOf o frame ct encoding
  let part := partInfo rt frame headers ct encoding kind.1 kind.2.1
  (warnIf o (rawType.isSome && !ct.valid) .invalidContentType
      ("unparseable Content-Type; treated as ".toList ++ frame.defaultType) frame
    >> warnSome o kind.2.2 frame
    >> warnIf o (kind.1 = .leaf && !isKnownEncoding encoding) .unknownEncoding
      ("unknown Content-Transfer-Encoding ".toList ++ encoding
      ++ "; passed through undecoded".toList) frame
    >> modify (fun s => { openPart frame part s with parts := s.parts + 1 })
    >> onEvent (.headers part)) s

def finishHeaders : Step := endField rt o >> readHeaders rt o

/-! ## Structure -/

/-- The loop at the head of `closeTop`. An encapsulated message opens an (empty)
child, which is finished too; there it ends. -/
def finishOpen : ℕ → Step
  | 0 => Emits.skip
  | n + 1 =>
    fun s => if s.top.mode = .headers then (finishHeaders rt o >> finishOpen n) s else (s, [])

/-- The octets a decoder gives back at its end. -/
def flushTail (part : PartInfo) (tail : Bytes) : Step :=
  if tail = [] then Emits.skip else onEvent (.body part tail)

/-- The `end-part` event, for a frame that has become a part. -/
def endPart (part : Option PartInfo) (size : ℕ) : Step :=
  match part with
  | some part => onEvent (.endPart part size)
  | none => Emits.skip

@[simp] theorem flushTail_fst (part : PartInfo) (tail : Bytes) (s : MimeParser) :
    (flushTail part tail s).1 = s := by
  unfold flushTail
  split_ifs
  · rfl
  · rfl

@[simp] theorem endPart_fst (part : Option PartInfo) (size : ℕ) (s : MimeParser) :
    (endPart part size s).1 = s := by
  cases part with
  | none => rfl
  | some part => rfl

/-- Take the innermost frame off, flushing its decoder, and emit `end-part`. -/
def popTop : Step := fun s =>
  let frame := s.top
  let below : MimeParser :=
    { s with
      stack := s.stack.tail
      headerBytesRetained := s.headerBytesRetained - frame.headerBytes }
  match frame.mode, frame.decoder, frame.part with
  | .leaf, some decoder, some part =>
    let tail := (TransferDecoder.finish decoder).2
    (flushTail part tail
      >> warnIf o (TransferDecoder.finish decoder).1.malformed .malformedEncoding
        (part.encoding ++ " content had invalid bytes; they were skipped or kept literally".toList)
        frame
      >> endPart (some part) (frame.size + tail.length)) below
  | .multipart, _, part =>
    (warnIf o (frame.mpState ≠ .epilogue) .multipartMissingClose
        "multipart ended without its closing delimiter".toList frame
      >> endPart part frame.size)
      { below with delimiters := below.delimiters.filter fun d => d.2 ≠ s.stack.length - 1 }
  | _, _, part => endPart part frame.size below

/-- End the innermost open part. -/
def closeTop : Step := finishOpen rt o 2 >> popTop o

/-- `while (this.stack.length - 1 > frameIndex) this.closeTop()`, and with `none`
`while (this.stack.length > 0)`. A turn takes a frame off or turns one from its
header block to its body, so twice the stack is fuel enough. -/
def closeDown (frameIndex : Option ℕ) : ℕ → Step
  | 0 => Emits.skip
  | n + 1 => fun s =>
    if (frameIndex.elim 0 (· + 1)) < s.stack.length then (closeTop rt o >> closeDown frameIndex n) s
      else (s, [])

/-- The part of `onDelimiter` after the open parts inside were closed. -/
def enterDelimiter (m : Match) : Step := fun s =>
  let frame := s.top
  if frame.mpState = .epilogue then
    warn o .delimiterAfterClose "a delimiter after the closing delimiter was ignored".toList frame s
  else if m.close then
    (warnIf o (frame.children = 0) .multipartEmpty "multipart with no body parts".toList frame
      >> modify (·.setTop { frame with mpState := .epilogue })) s
  else
    let frame := { frame with mpState := .child, children := frame.children + 1 }
    let digest := (frame.part.map (·.contentType)) = some "multipart/digest".toList
    let childDefault := if digest then messageRfc822 else textPlain
    ({ s with stack := newFrame frame frame.children childDefault :: frame :: s.stack.tail }, [])

/-- `closeDown` with its fuel. -/
def closeParts (frameIndex : Option ℕ) : Step := fun s =>
  closeDown rt o frameIndex (2 * s.stack.length + 1) s

def onDelimiter (m : Match) : Step := closeParts rt o (some m.frameIndex) >> enterDelimiter o m

/-! ## Lines -/

/-- The parser stands at the start of a body line, with no line break held. -/
def startBody : Step := modify fun s => { s with pendingEol := none, atLineStart := true }

def bodyLine (line eol : Bytes) : Step := fun s =>
  match matchDelimiter s.delimiters line with
  -- the line break before a delimiter belongs to the delimiter
  | some m => (startBody >> onDelimiter rt o m) s
  | none =>
    (flushPendingEol >> content line
      >> modify fun s =>
        { s with pendingEol := if eol = [] then none else some eol, atLineStart := true }) s

/-- The header block ends without its blank line. -/
def breakHeaders (message : Text) (next : Step) : Step := fun s =>
  (warn o .headerMissingSeparator message s.top >> finishHeaders rt o >> startBody >> next) s

/-- The part of `headerLine` for a line that is neither blank nor a delimiter. -/
def headerText (reprocess : Bytes → Step) (line eol : Bytes) : Step := fun s =>
  let frame := s.top
  if isContinuation line then
    if frame.field ≠ [] || frame.fieldTruncated then appendField o eol line s
    else if !frame.headerOverflow then
      warn o .headerJunkContinuation "a folded line with no field before it was ignored".toList
        frame s
    else (s, [])
  else if isFieldStart line then
    (endField rt o >> appendField o [] line >> modify fun s =>
      { s with sawAnyHeaderLine := true }) s
  else if frame.parent = none && !s.sawAnyHeaderLine && frame.fields.isEmpty
      && line.take 5 = [0x46, 0x72, 0x6f, 0x6d, 0x20] then
    warn o .mboxFromLine "an mbox \"From \" separator line was skipped".toList frame s
  -- not a header: this line is body
  else breakHeaders rt o "a non-header line ended the header block".toList
    (reprocess (line ++ eol)) s

def headerLine (reprocess : Bytes → Step) (line eol : Bytes) : Step := fun s =>
  if line = [] then (finishHeaders rt o >> startBody) s
  else
    match matchDelimiter s.delimiters line with
    | some m =>
      breakHeaders rt o "a delimiter interrupted a header block".toList (onDelimiter rt o m) s
    | none => headerText rt o reprocess line eol s

/-! ## The byte loop -/

/-- A header line has reached the cap. -/
def overflowLine : Step := fun s =>
  warn o .headerLineTooLong
    ("a header line exceeded ".toList ++ decimal o.maxLineBytes
      ++ " bytes; the rest was dropped".toList)
    s.top { s with lineOverflow := true }

/-- The part of `headerBytes` that keeps the octets of a line, up to the cap. -/
def keepHeader (seg : Bytes) : Step := fun s =>
  if s.lineOverflow then (s, [])
  else
    let take := min (o.maxLineBytes - s.carry.length) seg.length
    let s := { s with carry := s.carry ++ seg.take take }
    if take < seg.length then overflowLine o s else (s, [])

/-- The part of `headerBytes` that hands a complete line on. -/
def endHeaderLine (reprocess : Bytes → Step) : Step := fun s =>
  let line := s.carry
  let cleared := { s with carry := [], lineOverflow := false }
  if s.lineOverflow then
    headerLine rt o reprocess (if line.getLast? = some LF then line.dropLast else line) [LF] cleared
  else headerLine rt o reprocess (splitEol line).1 (splitEol line).2 cleared

/-- `headerBytes`, for the octets up to and including the next LF. -/
def headerBytes (reprocess : Bytes → Step) (seg : Bytes) : Step :=
  keepHeader o seg >> if seg.getLast? = some LF then endHeaderLine rt o reprocess else Emits.skip

/-- How far `scanMidLine` goes. -/
def cutMidLine (s : MimeParser) (buf : Bytes) : Bytes × Bytes :=
  if s.heldCr && buf.head? = some LF then ([LF], buf.tail)
  else if s.delimiters = [] then (buf, [])
  else cutNlDash buf

/-- The part of `scanMidLine` after a held CR was dealt with. -/
def streamSegment (seg : Bytes) : Step := fun s =>
  if s.delimiters = [] then content seg s
  else if seg.getLast? = some LF then
    (content (splitEol seg).1
      >> modify fun s => { s with pendingEol := some (splitEol seg).2, atLineStart := true }) s
  else if seg.getLast? = some CR then
    (content seg.dropLast >> modify fun s => { s with heldCr := true }) s
  else content seg s

/-- `scanMidLine`, for the octets it consumes. -/
def scanMidLine (seg : Bytes) : Step := fun s =>
  if s.heldCr then
    if seg.head? = some LF then
      ({ s with heldCr := false, pendingEol := some [CR, LF], atLineStart := true }, [])
    else (modify (fun s => { s with heldCr := false }) >> content [CR] >> streamSegment seg) s
  else streamSegment seg s

/-- The line cannot be a delimiter: release the held line break. -/
def leaveLineStart : Step :=
  flushPendingEol >> modify fun s => { s with atLineStart := false }

/-- An open line that cannot become a delimiter is streamed. -/
def releaseCandidate (part : Bytes) : Step :=
  leaveLineStart
    >> if part.getLast? = some CR then
        content part.dropLast >> modify fun s => { s with heldCr := true }
      else content part

/-- The candidate turn of the loop, for the octets up to and including the next LF. -/
def takeCandidate (couldBe : List (Bytes × ℕ) → Bytes → Bool) (seg : Bytes) : Step := fun s =>
  let line := s.carry ++ seg
  let cleared := { s with carry := [] }
  if seg.getLast? = some LF then bodyLine rt o (splitEol line).1 (splitEol line).2 cleared
  else if couldBe s.delimiters line then ({ s with carry := line }, [])
  else releaseCandidate line cleared

/-- The loop of `process`. -/
def loop (couldBe : List (Bytes × ℕ) → Bytes → Bool) (reprocess : Bytes → Step) : ℕ → Bytes → Step
  | 0, _ => Emits.skip
  | n + 1, buf => fun s =>
    if buf = [] then (s, [])
    else if s.top.mode = .headers then
      (headerBytes rt o reprocess (cutLine buf).1 >> loop couldBe reprocess n (cutLine buf).2) s
    else if !s.atLineStart then
      (scanMidLine (cutMidLine s buf).1 >> loop couldBe reprocess n (cutMidLine s buf).2) s
    else if s.delimiters = [] || (s.carry = [] && buf.head? ≠ some DASH) then
      (leaveLineStart >> scanMidLine (cutMidLine s buf).1
        >> loop couldBe reprocess n (cutMidLine s buf).2) s
    else (takeCandidate rt o couldBe (cutLine buf).1 >> loop couldBe reprocess n (cutLine buf).2) s

/-- `process`, with so many calls inside one another. -/
def processNested (couldBe : List (Bytes × ℕ) → Bytes → Bool) : ℕ → Bytes → Step
  | 0, _ => Emits.skip
  | n + 1, buf => loop rt o couldBe (processNested couldBe n) buf.length buf

/-- A header block may be cut short by a body line, and so may that of the
message it encapsulates; there the line is body. -/
def NESTING : ℕ := 3

def process (couldBe : List (Bytes × ℕ) → Bytes → Bool) (buf : Bytes) : Step :=
  processNested rt o couldBe NESTING buf

/-! ## `write` and `end` -/

structure Session where
  parser : MimeParser := {}
  bytesIn : ℕ := 0
  peak : ℕ := 0

/-- The slices `write` cuts a chunk into. -/
def slicesFrom (n : ℕ) : ℕ → Bytes → List Bytes
  | 0, _ => []
  | fuel + 1, buf => if buf = [] then [] else buf.take n :: slicesFrom n fuel (buf.drop n)

def slices (chunk : Bytes) : List Bytes := slicesFrom (max 1 o.sliceBytes) chunk.length chunk

/-- One turn of `write`: a slice is processed and what is held is tracked. -/
def writeSlice (slice : Bytes) : Emits Session MimeEvent := fun t =>
  let (parser, out) := process rt o couldBeDelimiter slice t.parser
  ({ parser := parser
     bytesIn := t.bytesIn + slice.length
     peak := max t.peak parser.retainedBytes }, out)

def write (chunk : Bytes) : Emits Session MimeEvent :=
  Emits.readAll (writeSlice rt o) (slices o chunk)

def retainedBound : ℕ :=
  o.maxHeaderBytes + max o.maxLineBytes (MAX_BOUNDARY_LENGTH + 4 + MAX_DELIMITER_PADDING)
    + max 1 o.sliceBytes + 2 + 1024 + 8

/-- The open line at the end of the input is a line. -/
def endLine : Step := fun s =>
  if s.carry ≠ [] || s.lineOverflow then
    let cleared := { s with carry := [] }
    if s.top.mode = .headers then
      headerLine rt o (process rt o couldBeDelimiter) s.carry [] cleared
    else bodyLine rt o s.carry [] cleared
  else (s, [])

/-- A CR held at the end was content after all. -/
def flushHeldCr : Step := fun s =>
  if s.heldCr then content [CR] { s with heldCr := false } else (s, [])

/-- No delimiter followed, so the line break was content after all. -/
def flushLastEol : Step := fun s => if s.top.mode = .headers then (s, []) else flushPendingEol s

/-- `end`, up to the statistics. -/
def endParser : Step :=
  endLine rt o
    >> modify (fun s => { s with lineOverflow := false })
    >> flushHeldCr
    >> flushLastEol
    >> closeParts rt o none

def endSession : Emits Session MimeEvent := fun t =>
  let (parser, out) := endParser rt o t.parser
  let peak := max t.peak parser.retainedBytes
  ({ t with parser := parser, peak := peak },
    out ++ [.done {
      bytesIn := t.bytesIn, parts := parser.parts, warnings := parser.warnings
      maxRetainedBytes := peak, retainedBound := retainedBound o }])

/-- All events of a message written in these chunks. -/
def parse (chunks : List Bytes) : List MimeEvent :=
  ((Emits.readAll (write rt o) chunks >> endSession rt o) {}).2

end

end Postroom.Mime
