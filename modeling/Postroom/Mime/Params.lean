/-
`packages/mime/src/params.ts` and `msgid.ts`: Content-Type, Content-Disposition
and their parameters (RFC 2045, 2183, 2231), and message identifiers.

The loops over an index into the text become recursion over the text that is
left; the regular expressions are written out as the scans they are.
-/
import Postroom.Mime.Header

set_option autoImplicit false

namespace Postroom.Mime

/-- `Params`: a record without a prototype, as its entries in insertion order. -/
abbrev Params := List (Text × Text)

def Params.get (ps : Params) (name : String) : Option Text :=
  (ps.find? fun p => p.1 == name.toList).map (·.2)

/-- `params[name] = value`: in place when the key exists, else at the end. -/
def Params.set (ps : Params) (name value : Text) : Params :=
  if ps.any fun p => p.1 == name then ps.map fun p => if p.1 == name then (name, value) else p
  else ps ++ [(name, value)]

structure ContentType where
  mimeType : Text
  type : Text
  subtype : Text
  params : Params
  /-- False when the header was absent or unparseable and the default applied. -/
  valid : Bool

structure ContentDisposition where
  type : Text
  params : Params

/-! ## Comments -/

/-- The loop of `stripComments`, with its `depth` and `quoted`. -/
def stripFrom : ℕ → Bool → Text → Text
  | _, _, [] => []
  | depth, quoted, ch :: rest =>
    if ch = '\\' && (quoted || 0 < depth) then
      match rest with
      | [] => if depth = 0 then [ch] else []
      | c :: rest =>
        if depth = 0 then ch :: c :: stripFrom depth quoted rest else stripFrom depth quoted rest
    else if quoted then ch :: stripFrom depth (ch ≠ '"') rest
    else if ch = '(' then stripFrom (depth + 1) quoted rest
    else if ch = ')' && 0 < depth then stripFrom (depth - 1) quoted rest
    else if depth = 0 then ch :: stripFrom depth (ch = '"') rest
    else stripFrom depth quoted rest

/-- Remove comments, honouring quoted strings, nesting and quoted pairs. -/
def stripComments (value : Text) : Text := stripFrom 0 false value

/-! ## Parameters -/

structure RawParam where
  name : Text
  value : Text
  quoted : Bool

/-- The inside of a quoted string, and what follows its closing quote. -/
def unquote : Text → Text × Text
  | [] => ([], [])
  | '"' :: rest => ([], rest)
  | '\\' :: c :: rest => ((c :: (unquote rest).1), (unquote rest).2)
  | c :: rest => ((c :: (unquote rest).1), (unquote rest).2)

/-- The loop of `splitParams`; every turn consumes, so the length of the text
is fuel enough. -/
def splitParamsFrom (rt : Runtime) : ℕ → Text → List RawParam
  | 0, _ => []
  | n + 1, text =>
    let text := text.dropWhile fun c => c = ';' || isSpace c
    let isName := fun c : Char => c ≠ '=' && c ≠ ';'
    let name := toLowerCase rt (trim (text.takeWhile isName))
    match text.dropWhile isName with
    | '=' :: rest =>
      match rest.dropWhile fun c => c = ' ' || c = '\t' with
      | '"' :: rest =>
        let (value, rest) := unquote rest
        -- anything after the quoted string is junk
        let next := splitParamsFrom rt n (rest.dropWhile (· ≠ ';'))
        if name = [] then next else ⟨name, value, true⟩ :: next
      | rest =>
        let value := trim (rest.takeWhile (· ≠ ';'))
        let next := splitParamsFrom rt n (rest.dropWhile (· ≠ ';'))
        if name = [] then next else ⟨name, value, false⟩ :: next
    -- a bare token without a value is ignored
    | _ :: rest => splitParamsFrom rt n rest
    | [] => []

def splitParams (rt : Runtime) (text : Text) : List RawParam :=
  splitParamsFrom rt text.length text

/-- One character that stands for itself. -/
def plainOctets (rt : Runtime) (c : Char) : Bytes :=
  if 0x7f < c.toNat then rt.toUtf8 [c] else [UInt8.ofNat c.toNat]

def percentDecode (rt : Runtime) : Text → Bytes
  | [] => []
  | '%' :: h :: l :: rest =>
    match hexValue h.toNat, hexValue l.toNat with
    | some a, some b => UInt8.ofNat (16 * a + b) :: percentDecode rt rest
    | _, _ => 0x25 :: percentDecode rt (h :: l :: rest)
  | c :: rest => plainOctets rt c ++ percentDecode rt rest

/-- The name of an extended parameter, `/^([^*]+)\*(?:(\d{1,3})(\*)?|(\*)?)$/`:
its base, its section number and whether the section is percent-encoded. -/
def extendedName (name : Text) : Option (Text × ℕ × Bool) :=
  let base := name.takeWhile (· ≠ '*')
  match base, name.dropWhile (· ≠ '*') with
  | [], _ => none
  | _, [] => none
  | _, _ :: mark =>
    let digits := mark.takeWhile Char.isDigit
    let index := digits.foldl (fun n c => 10 * n + (c.toNat - 0x30)) 0
    match digits.length, mark.dropWhile Char.isDigit with
    | 0, [] => some (base, 0, true)
    | 0, ['*'] => some (base, 0, true)
    | 0, _ => none
    | n + 1, [] => if n < 3 then some (base, index, false) else none
    | n + 1, ['*'] => if n < 3 then some (base, index, true) else none
    | _, _ => none

structure Section where
  value : Text
  encoded : Bool

/-- The parameters read so far: the plain ones, and the sections of the
extended ones by base name. -/
structure ParamState where
  params : Params := []
  extended : List (Text × List (ℕ × Section)) := []

def hasInfix (needle : Text) : Text → Bool
  | [] => needle = []
  | c :: rest => needle.isPrefixOf (c :: rest) || hasInfix needle rest

def decodeIfEncodedWord (rt : Runtime) (value : Text) : Text :=
  if hasInfix ['=', '?'] value then rt.decodeEncodedWords value else value

def addSection (st : ParamState) (base : Text) (index : ℕ) (s : Section) : ParamState :=
  if st.extended.any fun e => e.1 == base then
    { st with
      extended := st.extended.map fun e =>
        if e.1 == base && !e.2.any (fun x => x.1 == index) then (e.1, e.2 ++ [(index, s)]) else e }
  else if st.extended.length ≥ 64 then st
  else { st with extended := st.extended ++ [(base, [(index, s)])] }

def addParam (rt : Runtime) (st : ParamState) (p : RawParam) : ParamState :=
  match extendedName p.name with
  | some (base, index, encoded) => addSection st base index ⟨p.value, encoded && !p.quoted⟩
  | none =>
    if st.params.any fun q => q.1 == p.name then st
    else
      -- only human-facing names are RFC 2047-decoded; a boundary stays octet-exact
      let human := p.name == "name".toList || p.name == "filename".toList
      { st with
        params :=
          st.params ++ [(p.name, if human then decodeIfEncodedWord rt p.value else p.value)] }

/-- The charset and the value of a first encoded section, `charset'language'value`. -/
def splitCharset (v : Text) : Option (Option Text) × Text :=
  let quote := Char.ofNat 0x27
  match v.dropWhile (· ≠ quote) with
  | [] => (none, v)
  | _ :: rest =>
    match rest.dropWhile (· ≠ quote) with
    | [] => (none, v)
    | _ :: value =>
      let charset := v.takeWhile (· ≠ quote)
      (some (if charset = [] then none else some charset), value)

/-- Sections `i, i + 1, …` while they are there: the charset and the octets.
There are at most as many turns as sections. -/
def joinSections (rt : Runtime) (sections : List (ℕ × Section)) :
    ℕ → ℕ → Option Text → Option Text × List Bytes
  | 0, _, charset => (charset, [])
  | fuel + 1, i, charset =>
    match sections.find? fun x => x.1 == i with
    | none => (charset, [])
    | some (_, s) =>
      let (charset, piece) :=
        if s.encoded then
          let (named, v) := if i = 0 then splitCharset s.value else (none, s.value)
          (named.getD charset, percentDecode rt v)
        else (charset, rt.toUtf8 s.value)
      let (charset, rest) := joinSections rt sections fuel (i + 1) charset
      (charset, piece :: rest)

def addExtended (rt : Runtime) (params : Params) (e : Text × List (ℕ × Section)) : Params :=
  match joinSections rt e.2 e.2.length 0 none with
  | (_, []) => params
  | (charset, bytes) => params.set e.1 (rt.decodeBytes bytes.flatten charset)

def parseParams (rt : Runtime) (text : Text) : Params :=
  let st := (splitParams rt text).foldl (addParam rt) {}
  st.extended.foldl (addExtended rt) st.params

/-! ## Content-Type and Content-Disposition -/

/-- The loop of `splitHead`, with its `quoted`. -/
def splitHeadFrom : Bool → Text → Text × Text
  | _, [] => ([], [])
  | quoted, ch :: rest =>
    if ch = '"' then ((ch :: (splitHeadFrom (!quoted) rest).1), (splitHeadFrom (!quoted) rest).2)
    else if ch = '\\' then
      match rest with
      | [] => ([ch], [])
      | c :: rest => ((ch :: c :: (splitHeadFrom quoted rest).1), (splitHeadFrom quoted rest).2)
    else if ch = ';' && !quoted then ([], rest)
    else ((ch :: (splitHeadFrom quoted rest).1), (splitHeadFrom quoted rest).2)

/-- Split at the first `;` outside a quoted string. -/
def splitHead (value : Text) : Text × Text := splitHeadFrom false value

def isTokenChar (c : Char) : Bool :=
  c.isAlphanum || "!#$%&*+-.^_|~".toList.contains c || [0x27, 0x60, 0x7b, 0x7d].contains c.toNat

def isToken (t : Text) : Bool := t ≠ [] && t.all isTokenChar

/-- `type/subtype` of the fallback, as the source splits it. -/
def splitType (t : Text) : Text × Text :=
  (t.takeWhile (· ≠ '/'), ((t.dropWhile (· ≠ '/')).drop 1).takeWhile (· ≠ '/'))

/-- The result when there is no usable `type/subtype`. -/
def fallbackType (rt : Runtime) (value : Option Text) (fallback : Text) : ContentType :=
  { mimeType := fallback
    type := (splitType fallback).1
    subtype := (splitType fallback).2
    params :=
      match value with
      | none => []
      | some v => parseParams rt (splitHead (stripComments v)).2
    valid := false }

def parseContentType (rt : Runtime) (value : Option Text) (fallback : Text) : ContentType :=
  match value with
  | none => fallbackType rt none fallback
  | some v =>
    let (head, rest) := splitHead (stripComments v)
    match head.dropWhile (· ≠ '/') with
    | [] => fallbackType rt (some v) fallback
    | _ :: after =>
      let type := toLowerCase rt (trim (head.takeWhile (· ≠ '/')))
      let subtype := toLowerCase rt (trim after)
      if isToken type && isToken subtype then
        { mimeType := type ++ ('/' :: subtype), type := type, subtype := subtype,
          params := parseParams rt rest, valid := true }
      else fallbackType rt (some v) fallback

def parseContentDisposition (rt : Runtime) (value : Option Text) : Option ContentDisposition :=
  value.map fun v =>
    let (head, rest) := splitHead (stripComments v)
    let type := toLowerCase rt (trim head)
    { type := if type = [] then "attachment".toList else type, params := parseParams rt rest }

/-- `normalizeEncoding` of `transfer.ts`: parenthesised comments and quotes removed. -/
def dropParens : Option Text → Text → Text
  | none, [] => []
  -- an open parenthesis that never closes was no comment
  | some held, [] => held
  | none, '(' :: rest => dropParens (some ['(']) rest
  | none, c :: rest => c :: dropParens none rest
  | some _, ')' :: rest => ' ' :: dropParens none rest
  | some held, c :: rest => dropParens (some (held ++ [c])) rest

def normalizeEncoding (rt : Runtime) (value : Option Text) : Text :=
  match value with
  | none => "7bit".toList
  | some v =>
    let token := toLowerCase rt (trim ((dropParens none v).filter (· ≠ '"')))
    if token = [] then "7bit".toList else token

/-! ## Message identifiers -/

def MAX_IDS : ℕ := 1000

/-- The contents of every `<…>` of the text; a `<` inside starts again. -/
def bracketed : Option Text → Text → List Text
  | _, [] => []
  | _, '<' :: rest => bracketed (some []) rest
  | some held, '>' :: rest => held :: bracketed none rest
  | some held, c :: rest => bracketed (some (held ++ [c])) rest
  | none, _ :: rest => bracketed none rest

/-- `text.split(/[\s,]+/)`, without the empty words. -/
def splitWords (t : Text) : List Text :=
  (t.splitOnP fun c => isSpace c || c = ',').filter (· ≠ [])

/-- `/^[^@\s<>]+@[^@\s<>]+$/`. -/
def isBareId (word : Text) : Bool :=
  let ok := fun t : Text => t ≠ [] && t.all fun c => c ≠ '@' && !isSpace c && c ≠ '<' && c ≠ '>'
  match word.dropWhile (· ≠ '@') with
  | [] => false
  | _ :: domain => ok (word.takeWhile (· ≠ '@')) && ok domain

def parseMessageIdList (value : Text) : List Text :=
  let text := stripComments value
  let ids := ((bracketed none text).map (·.filter fun c => !isSpace c)).filter (· ≠ [])
  if ids ≠ [] then ids.take MAX_IDS else ((splitWords text).filter isBareId).take MAX_IDS

def parseMessageId (value : Text) : Option Text := (parseMessageIdList value).head?

end Postroom.Mime
