/-
Strings of a language that counts UTF-16 units, over lists of characters.

A string is the list of its characters; lengths and positions count units, two
for a character above U+FFFF. A cut in the middle of such a character leaves
half of it, which no text holds: written out it is U+FFFD, and that is what
stands at the cut.

Case mapping is the platform's: `Casing` carries the mapping and the little that
is known of it, namely which characters have an image in ASCII.
-/
import Mathlib.Algebra.GroupWithZero.Nat
import Mathlib.Algebra.BigOperators.Group.List.Basic

set_option autoImplicit false

namespace Postroom.Lib

/-- Texts are compared character by character. -/
instance Text.lawfulBEq : LawfulBEq (List Char) := List.instLawfulBEq

/-- The octets of an ASCII text. -/
def ascii (text : String) : List UInt8 := text.toList.map fun c => c.toNat.toUInt8

/-! ## Units -/

/-- UTF-16 units of a character. -/
def units (c : Char) : ℕ := if c.toNat < 0x10000 then 1 else 2

def utf16Length (text : List Char) : ℕ := (text.map units).sum

def utf8Length (text : List Char) : ℕ := (text.map Char.utf8Size).sum

/-- What half of a character above U+FFFF is written as. -/
def replacement : Char := '�'

/-- `text.slice(0, n)`. -/
def takeUnits : List Char → ℕ → List Char
  | [], _ => []
  | c :: rest, n =>
    if n = 0 then []
    else if units c ≤ n then c :: takeUnits rest (n - units c)
    else [replacement]

/-- `text.slice(n)`. -/
def dropUnits : List Char → ℕ → List Char
  | [], _ => []
  | c :: rest, n =>
    if n = 0 then c :: rest
    else if units c ≤ n then dropUnits rest (n - units c)
    else replacement :: rest

theorem units_pos (c : Char) : 0 < units c := by
  unfold units
  split <;> omega

@[simp] theorem utf16Length_cons (c : Char) (text : List Char) :
    utf16Length (c :: text) = units c + utf16Length text := by
  simp [utf16Length]

theorem length_le_utf16Length (text : List Char) : text.length ≤ utf16Length text := by
  induction text with
  | nil => exact Nat.le_refl _
  | cons c text ih =>
    have := units_pos c
    rw [List.length_cons, utf16Length_cons]
    omega

/-- A cut between two texts drops the first. -/
theorem dropUnits_append (a b : List Char) : dropUnits (a ++ b) (utf16Length a) = b := by
  induction a with
  | nil => cases b <;> rfl
  | cons c a ih =>
    have hpos := units_pos c
    rw [List.cons_append, dropUnits, utf16Length_cons, if_neg (by omega), if_pos (by omega),
      Nat.add_sub_cancel_left,
      ih]

theorem dropUnits_self (text : List Char) : dropUnits text (utf16Length text) = [] := by
  have hall := dropUnits_append text []
  rwa [List.append_nil] at hall

/-! ## Case -/

/-- The characters beyond ASCII whose upper case is ASCII, with it. -/
def asciiUpper : List (Char × List Char) :=
  [('ß', ['S', 'S']), ('ı', ['I']), ('ſ', ['S']), ('ﬀ', ['F', 'F']), ('ﬁ', ['F', 'I']),
    ('ﬂ', ['F', 'L']),
    ('ﬃ', ['F', 'F', 'I']), ('ﬄ', ['F', 'F', 'L']), ('ﬅ', ['S', 'T']), ('ﬆ', ['S', 'T'])]

/-- `toUpperCase`, which goes character by character, and `toLowerCase`, which need not. -/
structure Casing where
  upper : Char → List Char
  lower : List Char → List Char
  upper_ascii : ∀ c, c.toNat < 128 → upper c = [c.toUpper]
  upper_listed : ∀ e ∈ asciiUpper, upper e.1 = e.2
  /-- Every other character has something beyond ASCII in its upper case. -/
  upper_other : ∀ c, 128 ≤ c.toNat → c ∉ asciiUpper.map Prod.fst → ∃ d ∈ upper c, 128 ≤ d.toNat

def Casing.toUpperCase (js : Casing) (text : List Char) : List Char := text.flatMap js.upper

/-- The mapping that knows ASCII and the listed characters only. -/
def plainCasing : Casing where
  upper c := if c.toNat < 128 then [c.toUpper] else (asciiUpper.lookup c).getD [c]
  lower text := text.map Char.toLower
  upper_ascii c h := if_pos h
  upper_listed := by decide
  upper_other c h hc := by
    have hlookup : asciiUpper.lookup c = none := by
      rw [List.lookup_eq_none_iff]
      intro e he
      have hne : c ≠ e.1 := fun heq => hc (heq ▸ List.mem_map_of_mem he)
      simpa using hne
    rw [if_neg (Nat.not_lt.mpr h), hlookup]
    exact ⟨c, List.mem_singleton.mpr rfl, h⟩

end Postroom.Lib
