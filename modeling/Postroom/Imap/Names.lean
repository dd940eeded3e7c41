/-
`apps/imap/src/names.ts`: mailbox names.

A name is text; its levels are separated by `/`. Two measures meet here:
JavaScript counts UTF-16 units (`utf16Length`, `takeUnits`, `dropUnits`) and the
limit on a name counts octets of UTF-8.
-/
import Mathlib.Data.List.Infix
import Postroom.Lib.Strings
import Postroom.Mime.Header

set_option autoImplicit false

namespace Postroom.Imap

open Lib List
open Mime (Text)

def maxNameBytes : ℕ := 512

def inbox : Text := "INBOX".toList

/-- INBOX is case-insensitive, and so is the first level of its children. -/
def canonicalName (js : Casing) (name : Text) : Text :=
  if 5 ≤ utf16Length name ∧ js.toUpperCase (takeUnits name 5) = inbox
      ∧ (utf16Length name = 5 ∨ (dropUnits name 5).head? = some '/') then
    inbox ++ dropUnits name 5
  else name

/-- `/[\u0000-\u001f\u007f]/`. -/
def isControl (c : Char) : Bool := c.toNat ≤ 0x1f || c.toNat = 0x7f

/-- Why a name cannot be created (or renamed to). -/
def invalidNameReason (name : Text) : Option String :=
  if name = [] then some "Mailbox name is empty"
  else if maxNameBytes < utf8Length name then some "Mailbox name is too long"
  else if name.head? = some '/' then some "Mailbox name may not start with the hierarchy delimiter"
  else if name.getLast? = some '/' then some "Mailbox name may not end with the hierarchy delimiter"
  else if ['/', '/'] <:+: name then some "Mailbox name has an empty level"
  else if name.any (fun c => c = '*' || c = '%') then some "Mailbox name may not contain * or %"
  else if (name.splitOn '/').any (fun level => level = ['.'] || level = ['.', '.']) then
    some "Mailbox name may not have a level named . or .."
  else if name.any isControl then some "Mailbox name may not contain control characters"
  else none

/-- The loop of `stripTrailingDelimiter`, over the name from its end. -/
def stripDelimiters : Text → Text
  | c :: d :: rest => if c = '/' then stripDelimiters (d :: rest) else c :: d :: rest
  | short => short

def stripTrailingDelimiter (name : Text) : Text := (stripDelimiters name.reverse).reverse

/-- What stands before each delimiter of `rest`, `before` having been read. -/
def parentsFrom (before : Text) : Text → List Text
  | [] => []
  | c :: rest =>
    if c = '/' then before :: parentsFrom (before ++ [c]) rest else parentsFrom (before ++ [c]) rest

/-- "a/b/c" → ["a", "a/b"]. The loop is not entered where the name starts with the
delimiter (`at > 0`). -/
def parentsOf (name : Text) : List Text := if name.head? = some '/' then [] else parentsFrom [] name

/-- `name` is `parent` or below it. -/
def isSelfOrChild (name parent : Text) : Bool := name = parent || (parent ++ ['/']).isPrefixOf name

/-! ## Parents -/

variable {p rest name : Text} {js : Casing}

theorem mem_parentsFrom {before : Text} :
    p ∈ parentsFrom before rest ↔ ∃ a b, rest = a ++ '/' :: b ∧ p = before ++ a := by
  induction rest generalizing before with
  | nil => simp [parentsFrom]
  | cons c rest ih =>
    -- the delimiter found is `c`, or one of `rest` with `c` before it
    have hlater : (∃ a b, rest = a ++ '/' :: b ∧ p = before ++ [c] ++ a) →
        ∃ a b, c :: rest = a ++ '/' :: b ∧ p = before ++ a := by
      rintro ⟨a, b, rfl, rfl⟩
      exact ⟨c :: a, b, by simp, by simp⟩
    rw [parentsFrom]
    split
    · rename_i hc
      rw [mem_cons, ih]
      constructor
      · rintro (rfl | hrest)
        · exact ⟨[], rest, by rw [hc]; rfl, by simp⟩
        · exact hlater hrest
      · rintro ⟨a, b, heq, rfl⟩
        cases a with
        | nil => exact .inl (by simp)
        | cons d a =>
          obtain ⟨rfl, rfl⟩ := List.cons.inj heq
          exact .inr ⟨a, b, rfl, by simp⟩
    · rename_i hc
      rw [ih]
      refine ⟨hlater, ?_⟩
      rintro ⟨a, b, heq, rfl⟩
      cases a with
      | nil => exact absurd (List.cons.inj heq).1 hc
      | cons d a =>
        obtain ⟨rfl, rfl⟩ := List.cons.inj heq
        exact ⟨a, b, rfl, by simp⟩

/-- The parents of a name are what stands before its delimiters. -/
theorem mem_parentsOf (hname : name.head? ≠ some '/') :
    p ∈ parentsOf name ↔ ∃ rest, name = p ++ '/' :: rest := by
  rw [parentsOf, if_neg hname, mem_parentsFrom]
  constructor
  · rintro ⟨a, b, heq, rfl⟩
    exact ⟨b, heq⟩
  · rintro ⟨rest, heq⟩
    exact ⟨p, rest, heq, rfl⟩

theorem isSelfOrChild_iff {parent : Text} :
    isSelfOrChild name parent = true ↔ name = parent ∨ ∃ rest, name = parent ++ '/' :: rest := by
  unfold isSelfOrChild
  rw [Bool.or_eq_true, decide_eq_true_eq, List.isPrefixOf_iff_prefix]
  refine or_congr_right ⟨fun ⟨rest, h⟩ => ⟨rest, ?_⟩, fun ⟨rest, h⟩ => ⟨rest, ?_⟩⟩
  · rw [← h, append_assoc, singleton_append]
  · rw [h, append_assoc, singleton_append]

/-! ## Names that may be created -/

/-- What `invalidNameReason` lets through. -/
structure ValidName (name : Text) : Prop where
  nonempty : name ≠ []
  short : utf8Length name ≤ maxNameBytes
  head : name.head? ≠ some '/'
  last : name.getLast? ≠ some '/'
  levels : ¬ ['/', '/'] <:+: name
  plain : ∀ c ∈ name, c ≠ '*' ∧ c ≠ '%' ∧ isControl c = false
  dots : ∀ level ∈ name.splitOn '/', level ≠ ['.'] ∧ level ≠ ['.', '.']

theorem invalidNameReason_eq_none : invalidNameReason name = none ↔ ValidName name := by
  unfold invalidNameReason
  constructor
  · intro h
    split_ifs at h with h1 h2 h3 h4 h5 h6 h7 h8
    refine ⟨h1, Nat.le_of_not_lt h2, h3, h4, h5, fun c hc => ?_, fun level hlevel => ?_⟩
    · simp only [any_eq_true, not_exists, not_and, Bool.or_eq_true, decide_eq_true_eq,
        not_or] at h6 h8
      exact ⟨(h6 c hc).1, (h6 c hc).2, Bool.eq_false_iff.mpr (h8 c hc)⟩
    · simp only [any_eq_true, not_exists, not_and, Bool.or_eq_true, decide_eq_true_eq, not_or] at h7
      exact h7 level hlevel
  · intro h
    rw [if_neg h.nonempty, if_neg (Nat.not_lt.mpr h.short), if_neg h.head, if_neg h.last,
      if_neg h.levels, if_neg,
      if_neg, if_neg]
    · simp only [any_eq_true, not_exists, not_and, Bool.not_eq_true]
      exact fun c hc => (h.plain c hc).2.2
    · simp only [any_eq_true, not_exists, not_and, Bool.or_eq_true, decide_eq_true_eq, not_or]
      exact h.dots
    · simp only [any_eq_true, not_exists, not_and, Bool.or_eq_true, decide_eq_true_eq, not_or]
      exact fun c hc => ⟨(h.plain c hc).1, (h.plain c hc).2.1⟩

end Postroom.Imap
