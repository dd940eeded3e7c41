/-
`packages/mime/src/header.ts`: header fields.

A field keeps its raw octets; its value is unfolded and decoded as UTF-8 where
it is UTF-8 and as Latin-1 otherwise. Octets are `UInt8`, text is a list of
characters.

What the platform does with text stands outside the repository, so it is a
parameter (`Runtime`): the UTF-8 decoder, the charset decoders behind
`decodeBytes` and the RFC 2047 decoder behind `decodeEncodedWords`, and the
lower case of a character beyond ASCII. Nothing proved about the parser depends
on what they return.
-/
import Mathlib.Data.List.Basic

set_option autoImplicit false

namespace Postroom.Mime

/-- Buffers, as the list of their octets. -/
abbrev Bytes := List UInt8

/-- Strings, as the list of their characters. -/
abbrev Text := List Char

/-- The text functions of the platform and of the charset tables. -/
structure Runtime where
  /-- `isUtf8(buf)` and `buf.toString('utf8')`: the text, when the octets are valid UTF-8. -/
  utf8 : Bytes → Option Text
  /-- `Buffer.from(text, 'utf8')`. -/
  toUtf8 : Text → Bytes
  /-- `decodeBytes(bytes, charset).text`. -/
  decodeBytes : Bytes → Option Text → Text
  /-- `decodeEncodedWords(value)`. -/
  decodeEncodedWords : Text → Text
  /-- `toLowerCase` of a character that is not ASCII. -/
  lowerOther : Char → Text

/-! ## Strings -/

/-- The value of a hexadecimal digit, by its code. -/
def hexValue (n : ℕ) : Option ℕ :=
  if 0x30 ≤ n && n ≤ 0x39 then some (n - 0x30)
  else if 0x41 ≤ n && n ≤ 0x46 then some (n - 0x41 + 10)
  else if 0x61 ≤ n && n ≤ 0x66 then some (n - 0x61 + 10)
  else none

/-- `String.prototype.trim` and `/\s/`: the white space and line terminators of ECMAScript. -/
def isSpace (c : Char) : Bool :=
  let n := c.toNat
  n = 0x20 || (0x09 ≤ n && n ≤ 0x0d) || n = 0xa0 || n = 0x1680 || (0x2000 ≤ n && n ≤ 0x200a)
    || n = 0x2028 || n = 0x2029 || n = 0x202f || n = 0x205f || n = 0x3000 || n = 0xfeff

/-- Drop what satisfies `p` at both ends. -/
def stripBoth {α : Type} (p : α → Bool) (l : List α) : List α :=
  ((l.dropWhile p).reverse.dropWhile p).reverse

def trim (t : Text) : Text := stripBoth isSpace t

def toLowerCase (rt : Runtime) (t : Text) : Text :=
  t.flatMap fun c => if c.toNat < 0x80 then [c.toLower] else rt.lowerOther c

/-- `buf.toString('latin1')`. -/
def latin1 (b : Bytes) : Text := b.map fun c => Char.ofNat c.toNat

/-! ## Fields -/

structure HeaderField where
  /-- The field name as written, trimmed. -/
  name : Text
  /-- The field name lowercased, for lookup. -/
  key : Text
  /-- Unfolded value, trimmed. -/
  value : Text
  /-- The field exactly as received. -/
  raw : Bytes
  /-- The value held 8-bit octets that were not UTF-8. -/
  latin1 : Bool
  /-- The field exceeded the per-field cap. -/
  truncated : Bool
  deriving DecidableEq

/-- `HeaderList`, as its fields. -/
abbrev HeaderList := List HeaderField

/-- `HeaderList.get`: the first field's value (`name` in lower case). -/
def HeaderList.get (hs : HeaderList) (name : String) : Option Text :=
  (hs.find? fun f => f.key == name.toList).map (·.value)

def COLON : UInt8 := 0x3a

/-- A printable ASCII octet other than the colon. -/
def isNameOctet (c : UInt8) : Bool := c ≠ COLON && 0x21 ≤ c && c ≤ 0x7e

def isBlank (c : UInt8) : Bool := c = 0x20 || c = 0x09

def isFieldStart (line : Bytes) : Bool :=
  let rest := line.dropWhile isNameOctet
  rest.length ≠ line.length && (rest.dropWhile isBlank).head? = some COLON

def isContinuation (line : Bytes) : Bool :=
  match line with
  | [] => false
  | c :: _ => isBlank c

/-- `decodeHeaderBytes`: UTF-8 when valid, otherwise Latin-1. -/
def decodeHeaderBytes (rt : Runtime) (bytes : Bytes) : Text × Bool :=
  if bytes.all fun c => c ≤ 0x7f then (latin1 bytes, false)
  else
    match rt.utf8 bytes with
    | some text => (text, false)
    | none => (latin1 bytes, true)

/-- `unfold`: every CRLF, bare LF and bare CR is removed. -/
def unfoldText (t : Text) : Text := t.filter fun c => c ≠ '\r' && c ≠ '\n'

def makeField (rt : Runtime) (raw : Bytes) (truncated : Bool) : HeaderField :=
  let nameBytes := raw.takeWhile fun c => c ≠ COLON
  let valueBytes := (raw.dropWhile fun c => c ≠ COLON).drop 1
  let name := trim (latin1 nameBytes)
  let (text, isLatin1) := decodeHeaderBytes rt valueBytes
  { name := name
    key := toLowerCase rt name
    value := stripBoth (fun c => c = ' ' || c = '\t') (unfoldText text)
    raw := raw
    latin1 := isLatin1
    truncated := truncated }

@[simp] theorem makeField_raw (rt : Runtime) (raw : Bytes) (truncated : Bool) :
    (makeField rt raw truncated).raw = raw := rfl

end Postroom.Mime
