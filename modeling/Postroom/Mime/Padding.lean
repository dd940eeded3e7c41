/-
Where a cut shows: the padding of a delimiter.

`matchDelimiter`, which sees a whole line, takes a delimiter with any amount of
padding behind it. `couldBeDelimiter`, which sees the beginning of one where a
slice ends, gives the line up once its padding is longer than
`MAX_DELIMITER_PADDING`. So a delimiter line counts or does not count depending on
where the input was cut, and that is the only thing a cut can change: the parser
emits the same events for every way of cutting the input that loses no delimiter
(`losesDelimiter`).
-/
import Postroom.Mime.OpenLine
import Postroom.Mime.Retained

set_option autoImplicit false

namespace Postroom.Mime

open Lib Emits List

/-! ## What may follow a delimiter -/

theorem isPadding_append (a b : Bytes) : isPadding (a ++ b) = (isPadding a && isPadding b) :=
  all_append

variable {a : Bytes}

theorem couldClose_of_padding (h : isPadding a = true) : couldClose a = true := by
  match a with
  | [] => rfl
  | [x] =>
    simp only [isPadding, all_cons, all_nil, Bool.and_true] at h
    rw [couldClose, h, Bool.or_true]
  | x :: y :: rest =>
    simp only [isPadding, all_cons, Bool.and_eq_true] at h
    rw [couldClose, h.1, h.2.1, isPadding, h.2.2, Bool.or_true, Bool.or_true]
    rfl

theorem couldClose_initial {b : Bytes} (h : couldClose (a ++ b) = true) : couldClose a = true := by
  match a with
  | [] => rfl
  | [x] =>
    cases b with
    | nil => exact h
    | cons y rest =>
      simp only [cons_append, nil_append, couldClose, Bool.and_eq_true] at h
      exact h.1.1
  | x :: y :: rest =>
    simp only [cons_append, couldClose, isPadding_append, Bool.and_eq_true] at h
    rw [couldClose, h.1.1, h.1.2, h.2.1]
    rfl

theorem couldClose_cr (h : couldClose a = true) : couldClose (a ++ [CR]) = true := by
  match a with
  | [] => rfl
  | [x] =>
    simp only [couldClose] at h
    rw [cons_append, nil_append, couldClose, h]
    rfl
  | x :: y :: rest =>
    simp only [couldClose, Bool.and_eq_true] at h
    rw [cons_append, cons_append, couldClose, isPadding_append, h.1.1, h.1.2, h.2]
    rfl

/-! ## The judges -/

theorem couldBeOne_iff (room : Option ℕ) (part : Bytes) (d : Bytes × ℕ) :
    couldBeOne room part d = true ↔
      part <+: d.1 ∨ ∃ t, part = d.1 ++ t ∧ room.all (t.length ≤ ·) = true
        ∧ couldClose t = true := by
  simp only [couldBeOne, Bool.and_eq_true, Bool.or_eq_true, beq_iff_eq, decide_eq_true_eq]
  constructor
  · rintro ⟨hsame, hshort | ⟨hroom, hclose⟩⟩
    · rw [Nat.min_eq_left hshort, take_length] at hsame
      exact .inl (hsame ▸ take_prefix _ _)
    · by_cases hshort : part.length ≤ d.1.length
      · rw [Nat.min_eq_left hshort, take_length] at hsame
        exact .inl (hsame ▸ take_prefix _ _)
      · rw [Nat.min_eq_right (by omega), take_length] at hsame
        refine .inr ⟨part.drop d.1.length, ?_, ?_, hclose⟩
        · conv_lhs => rw [← take_append_drop d.1.length part, ← hsame]
        · rw [length_drop]
          exact hroom
  · rintro (⟨u, hu⟩ | ⟨t, rfl, hroom, hclose⟩)
    · have hshort : part.length ≤ d.1.length := by
        rw [← hu, length_append]
        omega
      refine ⟨?_, .inl hshort⟩
      rw [Nat.min_eq_left hshort, take_length, ← hu, take_left]
    · have hlong : d.1.length ≤ (d.1 ++ t).length := by
        rw [length_append]
        omega
      rw [Nat.min_eq_right hlong, take_length, take_left, drop_left, length_append,
        Nat.add_sub_cancel_left]
      exact ⟨rfl, .inr ⟨hroom, hclose⟩⟩

/-- A judge of this kind lets every beginning of what it lets pass through. -/
theorem couldBeWithin_initial (room : Option ℕ) (ds : List (Bytes × ℕ)) (a b : Bytes)
    (h : couldBeWithin room ds (a ++ b) = true) : couldBeWithin room ds a = true := by
  rw [couldBeWithin, any_eq_true] at h ⊢
  obtain ⟨d, hd, hone⟩ := h
  refine ⟨d, hd, ?_⟩
  rw [couldBeOne_iff] at hone ⊢
  rcases hone with hpre | ⟨t, ht, hroom, hclose⟩
  · exact .inl ((prefix_append a b).trans hpre)
  · rcases append_eq_append_iff.mp ht with ⟨u, hu, -⟩ | ⟨u, hu, htu⟩
    · exact .inl ⟨u, hu.symm⟩
    · refine .inr ⟨u, hu, ?_, couldClose_initial (htu ▸ hclose)⟩
      have hlen : u.length ≤ t.length := by
        rw [htu, length_append]
        omega
      cases room with
      | none => rfl
      | some r =>
        rw [Option.all_some, decide_eq_true_eq] at hroom ⊢
        omega

/-- Without its limit `couldBeDelimiter` lets pass whatever it does with it. -/
theorem couldBeWithin_of_couldBeDelimiter (ds : List (Bytes × ℕ)) (part : Bytes)
    (h : couldBeDelimiter ds part = true) : couldBeWithin none ds part = true := by
  rw [couldBeDelimiter, couldBeWithin, any_eq_true] at h
  obtain ⟨d, hd, hone⟩ := h
  rw [couldBeWithin, any_eq_true]
  refine ⟨d, hd, ?_⟩
  rw [couldBeOne_iff] at hone ⊢
  rcases hone with hpre | ⟨t, ht, -, hclose⟩
  · exact .inl hpre
  · exact .inr ⟨t, ht, rfl, hclose⟩

/-- What a line that is a delimiter consists of. -/
theorem matchDelimiter_line {ds : List (Bytes × ℕ)} {line : Bytes}
    (h : matchDelimiter ds line ≠ none) :
    ∃ d ∈ ds, ∃ t, line = d.1 ++ t ∧ couldClose t = true := by
  unfold matchDelimiter at h
  split_ifs at h
  · exact absurd rfl h
  · rw [ne_eq, findSome?_eq_none_iff] at h
    push Not at h
    obtain ⟨d, hd, hone⟩ := h
    refine ⟨d, mem_reverse.mp hd, line.drop d.1.length, ?_⟩
    unfold matchOne at hone
    dsimp only at hone
    split_ifs at hone with hpre hclose hpad hpad
    · rw [List.isPrefixOf_iff_prefix] at hpre hclose
      refine ⟨(List.prefix_iff_eq_append.mp hpre).symm, ?_⟩
      obtain ⟨v, hv⟩ := hclose
      rw [← hv] at hpad ⊢
      exact hpad
    · exact absurd rfl hone
    · rw [List.isPrefixOf_iff_prefix] at hpre
      exact ⟨(List.prefix_iff_eq_append.mp hpre).symm, couldClose_of_padding hpad⟩
    · exact absurd rfl hone
    · exact absurd rfl hone

/-- **The judge without its limit** never gives a line up too early. -/
theorem judge_unlimited : Judge (couldBeWithin none) where
  initial := couldBeWithin_initial none
  matched := by
    intro ds line h
    obtain ⟨d, hd, t, rfl, hclose⟩ := matchDelimiter_line h
    rw [couldBeWithin, any_eq_true]
    refine ⟨d, hd, ?_⟩
    rw [couldBeOne_iff]
    exact .inr ⟨t ++ [CR], append_assoc _ _ _, rfl, couldClose_cr hclose⟩

/-! ## Cuts that lose a delimiter -/

/-- What is lost when a slice ends inside a line: the parser `s` has read `part` of
it, in a body. `couldBeDelimiter` has given the line up, and with the octets `after`
the cut `matchDelimiter` would have taken it for a delimiter. -/
def losesDelimiter (s : MimeParser) (part after : Bytes) : Bool :=
  s.top.mode ≠ .headers && !couldBeDelimiter s.delimiters part
    && (cutLine after).1.getLast? = some LF
    && (matchDelimiter s.delimiters (splitEol (part ++ (cutLine after).1)).1).isSome

/-- The end of the input is no cut. -/
theorem losesDelimiter_end (s : MimeParser) (part : Bytes) : losesDelimiter s part [] = false := by
  simp [losesDelimiter, cutLine, cutAfter]

/-- A line that is given up is streamed: this opens and closes no part. -/
theorem giveUp_frame (strict : List (Bytes × ℕ) → Bytes → Bool) (s : MimeParser) :
    (giveUp strict s).1.delimiters = s.delimiters ∧ (giveUp strict s).1.top.mode = s.top.mode := by
  have hleave : ∀ t, (leaveLineStart t).1.delimiters = t.delimiters
      ∧ (leaveLineStart t).1.top.mode = t.top.mode := by
    intro t
    rw [leaveLineStart, andThen_fst, flushPendingEol_eq]
    exact ⟨rfl, content_mode _ _⟩
  unfold giveUp
  split_ifs
  · obtain ⟨hdelims, hmode⟩ := hleave { s with carry := [] }
    rw [andThen_fst, releaseCandidate, andThen_fst]
    split_ifs
    · exact ⟨hdelims, (content_mode _ _).trans hmode⟩
    · exact ⟨hdelims, (content_mode _ _).trans hmode⟩
  · exact ⟨rfl, rfl⟩

theorem losesDelimiter_giveUp (strict : List (Bytes × ℕ) → Bytes → Bool) (s : MimeParser)
    (part after : Bytes) :
    losesDelimiter (giveUp strict s).1 part after = losesDelimiter s part after := by
  obtain ⟨hdelims, hmode⟩ := giveUp_frame strict s
  unfold losesDelimiter
  rw [hdelims, hmode]

end Postroom.Mime
