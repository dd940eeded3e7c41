/-
DKIM tag=value lists (RFC 6376 §3.2), as `packages/auth-checks/src/dkim/tags.ts`
reads them: in the DKIM-Signature field and in the key record.
-/
import Mathlib.Tactic.Common

set_option autoImplicit false

namespace Postroom.AuthChecks

abbrev Text := List Char

/-- `DkimError`. -/
structure DkimError where
  message : String
  deriving DecidableEq

/-- `[ \t\r\n]`. -/
def isFws (c : Char) : Bool := c = ' ' ∨ c = '\t' ∨ c = '\r' ∨ c = '\n'

/-- `s.replace(FWS, '')`: the white space at both ends is removed. -/
def trimFws (s : Text) : Text := ((s.dropWhile isFws).reverse.dropWhile isFws).reverse

/-- Every FWS character is removed: for base64 values (b=, bh=, p=). -/
def stripWhitespace (value : Text) : Text := value.filter fun c => !isFws c

def isAlpha (c : Char) : Bool := 'A' ≤ c ∧ c ≤ 'Z' ∨ 'a' ≤ c ∧ c ≤ 'z'

def isTagChar (c : Char) : Bool := isAlpha c ∨ '0' ≤ c ∧ c ≤ '9' ∨ c = '_'

/-- `TAG_NAME`: `^[A-Za-z][A-Za-z0-9_]*$`. -/
def isTagName (name : Text) : Bool := name.head?.any isAlpha && name.all isTagChar

/-- A map of tag names to values, in the order they were set. -/
abbrev Tags := List (Text × Text)

/-- `tags.get(name)`. -/
def Tags.get (tags : Tags) (name : Text) : Option Text :=
  (tags.find? fun t => t.1 = name).map Prod.snd

/-- The loop of `parseTagList` over the parts between semicolons. -/
def parseTags : List Text → Tags → Except DkimError Tags
  | [], tags => .ok tags
  | part :: rest, tags =>
    if trimFws part = [] then
      -- a trailing ';' leaves an empty last part
      if rest = [] then .ok tags else .error ⟨"empty tag in tag-list"⟩
    else if '=' ∉ part then .error ⟨"tag without \"=\""⟩
    else
      let name := trimFws (part.takeWhile (· ≠ '='))
      let value := trimFws ((part.dropWhile (· ≠ '=')).drop 1)
      if !isTagName name then .error ⟨"invalid tag name"⟩
      else if (tags.get name).isSome then .error ⟨"duplicate tag " ++ String.ofList name⟩
      else parseTags rest (tags ++ [(name, value)])

/-- A tag-list as a map of tag name to value. -/
def parseTagList (text : Text) : Except DkimError Tags := parseTags (text.splitOn ';') []

end Postroom.AuthChecks
