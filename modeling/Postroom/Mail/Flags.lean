/-
Message flags (apps/imap/src/flags.ts, and canonicalFlag of packages/imap-proto).

System flags are stored in their canonical spelling; keywords keep the client's
and compare case-insensitively. A flag is an IMAP atom, so its text is ASCII and
its letters are the ASCII letters.
-/
import Postroom.Lib.Strings

set_option autoImplicit false

namespace Postroom.Mail

/-- `flag.toLowerCase()`: what two spellings of one flag have in common. -/
def flagKey (flag : String) : List Char := flag.toList.map Char.toLower

/-- packages/imap-proto's list; `\Recent` is recognised, never stored. -/
def SYSTEM_FLAGS : List String :=
  ["\\Answered", "\\Flagged", "\\Deleted", "\\Seen", "\\Draft", "\\Recent"]

def SEEN : String := "\\Seen"

def DELETED : String := "\\Deleted"

/-- Canonical spelling for system flags; anything else is returned unchanged. -/
def canonicalFlag (flag : String) : String :=
  (SYSTEM_FLAGS.find? fun f => f.toList.map Char.toUpper = flag.toList.map Char.toUpper).getD flag

/-- The loop of `normalizeFlags`; `seen` holds the keys passed so far. -/
def normalizeFlags.go (seen : List (List Char)) : List String → List String
  | [] => []
  | raw :: rest =>
    let f := canonicalFlag raw
    let key := flagKey f
    if key = flagKey "\\recent" ∨ key ∈ seen then normalizeFlags.go seen rest
    else f :: normalizeFlags.go (key :: seen) rest

/-- Canonical, without duplicates in any spelling, without `\Recent`. -/
def normalizeFlags (flags : List String) : List String := normalizeFlags.go [] flags

def hasFlag (flags : List String) (flag : String) : Bool :=
  flags.any fun f => flagKey f = flagKey flag

inductive StoreOperation
  | set
  | add
  | remove
  deriving DecidableEq, Repr

/-- The flags after a STORE. -/
def applyFlags (current : List String) (op : StoreOperation) (flags : List String) : List String :=
  let change := normalizeFlags flags
  match op with
  | .set => change
  | .add => normalizeFlags (current ++ change)
  | .remove => current.filter fun f => flagKey f ∉ change.map flagKey

def sameFlags (a b : List String) : Bool :=
  a.length = b.length ∧ ∀ f ∈ b, flagKey f ∈ a.map flagKey

end Postroom.Mail
