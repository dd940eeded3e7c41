/-
Literal announcements.

A line announces a literal by ending in `{n}`, `{n+}`, `~{n}` or `~{n+}`.
`literalMarkerAt` finds exactly these, and where the line is so long that only its
last `TAIL` octets were kept, it still finds the announcement of a number of at
most fifteen digits, and nothing where there is none.
-/
import Postroom.ImapProto.ReaderCuts

set_option autoImplicit false

namespace Postroom.ImapProto

open List

/-- `{digits}`, with `~` before it and `+` inside it or not. -/
def markerBytes (binary : Bool) (digits : Bytes) (nonSync : Bool) : Bytes :=
  (if binary then [0x7e] else []) ++ [0x7b] ++ digits ++ (if nonSync then [0x2b] else []) ++ [0x7d]

/-- A number as written, of at least one digit. -/
def IsNumber (digits : Bytes) : Prop := digits ≠ [] ∧ digits.all isDigit = true

/-- The text ends in the announcement of a literal of `n` octets. -/
def Announces (text : Bytes) (n : ℕ) (nonSync : Bool) : Prop :=
  ∃ before binary digits, text = before ++ markerBytes binary digits nonSync
    ∧ IsNumber digits ∧ digits.length ≤ 15 ∧ decimal digits = n

/-- The text ends in no announcement at all. -/
def Plain (text : Bytes) : Prop :=
  ∀ before binary digits nonSync, text = before ++ markerBytes binary digits nonSync →
    ¬ IsNumber digits

variable {digits text : Bytes} {nonSync : Bool} {rest raw : Bytes} {m : LiteralMarker} {n : ℕ}

theorem digits_append (h : digits.all isDigit = true) (hrest : rest.head?.all (!isDigit ·) = true) :
    (digits ++ rest).takeWhile isDigit = digits ∧ (digits ++ rest).dropWhile isDigit = rest := by
  have htake : rest.takeWhile isDigit = [] ∧ rest.dropWhile isDigit = rest := by
    cases rest with
    | nil => exact ⟨rfl, rfl⟩
    | cons x rest =>
      simp only [head?_cons, Option.all_some, Bool.not_eq_true'] at hrest
      rw [takeWhile_cons, dropWhile_cons, hrest]
      exact ⟨rfl, rfl⟩
  rw [all_eq_true] at h
  rw [takeWhile_append_of_pos h, dropWhile_append_of_pos h, htake.1, htake.2, append_nil]
  exact ⟨rfl, rfl⟩

theorem markerFrom_number (nonSync binary : Bool) (before : Bytes) (h : IsNumber digits) :
    ∃ m, markerFrom nonSync (digits.reverse ++ 0x7b ::
      ((if binary then [0x7e] else []) ++ before.reverse)) = some m
      ∧ m.nonSync = nonSync ∧ m.size = if 15 < digits.length then none
      else some (decimal digits) := by
  have hdigits : digits.reverse.all isDigit = true := by
    rw [all_reverse]
    exact h.2
  have hne : digits.reverse ≠ [] := by simpa using h.1
  have hbrace : (0x7b :: ((if binary then [0x7e] else []) ++ before.reverse)).head?.all (!isDigit ·)
      = true := rfl
  obtain ⟨htake, hdrop⟩ := digits_append hdigits hbrace
  rw [markerFrom, htake, hdrop]
  rw [if_neg (by simpa using hne), length_reverse, reverse_reverse]
  exact ⟨_, rfl, rfl, rfl⟩

/-- An announcement is found. -/
theorem literalMarkerAt_markerBytes (before : Bytes) (binary : Bool) (nonSync : Bool)
    (h : IsNumber digits) :
    ∃ m, literalMarkerAt (before ++ markerBytes binary digits nonSync) = some m
      ∧ m.nonSync = nonSync
      ∧ m.size = if 15 < digits.length then none else some (decimal digits) := by
  have hrev : (before ++ markerBytes binary digits nonSync).reverse
      = 0x7d :: ((if nonSync then [0x2b] else []) ++ (digits.reverse
        ++ 0x7b :: ((if binary then [0x7e] else []) ++ before.reverse))) := by
    cases nonSync with
    | false | true => cases binary with
      | false => simp [markerBytes]
      | true => simp [markerBytes]
  unfold literalMarkerAt
  rw [hrev]
  rw [if_neg (by simp), tail_cons]
  cases nonSync with
  | true => exact markerFrom_number true binary before h
  | false =>
    -- a digit stands before the brace, not a plus sign
    obtain ⟨d, ds, hds⟩ : ∃ d ds, digits.reverse = d :: ds :=
      exists_cons_of_ne_nil (by simpa using h.1)
    have hd : d ≠ 0x2b := by
      rintro rfl
      have hall := h.2
      rw [← all_reverse, hds, all_cons] at hall
      simp [isDigit] at hall
    have hfrom := markerFrom_number false binary before h
    rw [if_neg Bool.false_ne_true, nil_append, hds, cons_append] at *
    rw [if_neg (by simpa using hd)]
    exact hfrom

theorem number_of_markerFrom (h : markerFrom nonSync rest = some m) :
    m.nonSync = nonSync ∧ ∃ before digits, rest.reverse = before ++ [0x7b] ++ digits
      ∧ IsNumber digits := by
  unfold markerFrom at h
  by_cases hbad : (decide (rest.takeWhile isDigit = [])
    || decide ((rest.dropWhile isDigit).head? ≠ some 0x7b)) = true
  · rw [if_pos hbad] at h
    cases h
  rw [if_neg hbad] at h
  simp only [Bool.or_eq_true, decide_eq_true_eq, not_or, ne_eq, not_not] at hbad
  obtain ⟨before, hbefore⟩ := head?_eq_some_iff.mp hbad.2
  refine ⟨?_, before.reverse, (rest.takeWhile isDigit).reverse, ?_, ?_, ?_⟩
  · rw [← Option.some.inj h]
  · have hsplit := takeWhile_append_dropWhile (p := isDigit) (l := rest)
    rw [hbefore] at hsplit
    conv_lhs => rw [← hsplit]
    simp
  · simpa using hbad.1
  · rw [all_reverse]
    exact all_takeWhile

/-- What is found is an announcement. -/
theorem markerBytes_of_literalMarkerAt (h : literalMarkerAt text = some m) :
    ∃ before digits, text = before ++ markerBytes false digits m.nonSync ∧ IsNumber digits := by
  unfold literalMarkerAt at h
  dsimp only at h
  split_ifs at h with hend hplus
  · rw [not_not] at hend
    obtain ⟨r, hr⟩ := head?_eq_some_iff.mp hend
    rw [hr, tail_cons] at hplus h
    obtain ⟨r', hr'⟩ := head?_eq_some_iff.mp hplus
    rw [hr', tail_cons] at h
    obtain ⟨hns, before, digits, hrest, hnum⟩ := number_of_markerFrom h
    refine ⟨before, digits, ?_, hnum⟩
    have htext : text = (0x7d :: 0x2b :: r').reverse := by rw [← hr', ← hr, reverse_reverse]
    rw [htext, reverse_cons, reverse_cons, hrest, hns]
    simp [markerBytes]
  · rw [not_not] at hend
    obtain ⟨r, hr⟩ := head?_eq_some_iff.mp hend
    rw [hr, tail_cons] at h
    obtain ⟨hns, before, digits, hrest, hnum⟩ := number_of_markerFrom h
    refine ⟨before, digits, ?_, hnum⟩
    have htext : text = (0x7d :: r).reverse := by rw [← hr, reverse_reverse]
    rw [htext, reverse_cons, hrest, hns]
    simp [markerBytes]

theorem Announces.marker (h : Announces text n nonSync) :
    ∃ m, literalMarkerAt text = some m ∧ m.nonSync = nonSync ∧ m.size = some n := by
  obtain ⟨before, binary, digits, rfl, hnum, hlen, rfl⟩ := h
  obtain ⟨m, hm, hns, hsize⟩ := literalMarkerAt_markerBytes before binary nonSync hnum
  exact ⟨m, hm, hns, by rw [hsize, if_neg (by omega)]⟩

theorem Plain.marker (h : Plain text) : literalMarkerAt text = none := by
  by_contra hne
  obtain ⟨m, hm⟩ := Option.ne_none_iff_exists'.mp hne
  obtain ⟨before, digits, htext, hnum⟩ := markerBytes_of_literalMarkerAt hm
  exact h before false digits m.nonSync htext hnum

theorem plain_of_marker (h : literalMarkerAt text = none) : Plain text := by
  rintro before binary digits nonSync rfl hnum
  obtain ⟨m, hm, -⟩ := literalMarkerAt_markerBytes before binary nonSync hnum
  rw [h] at hm
  cases hm

/-! ## The tail of a line -/

/-- The end of a line that is kept is an end of its text. -/
theorem stripCr_takeLast (raw : Bytes) : ∃ k, TAIL - 1 ≤ k
    ∧ stripCr (takeLast TAIL raw) = takeLast k (stripCr raw) := by
  by_cases hcr : raw.getLast? = some CR
  · obtain ⟨init, rfl⟩ := getLast?_eq_some_iff.mp hcr
    refine ⟨TAIL - 1, Nat.le_refl _, ?_⟩
    have hlen : (init ++ [CR]).length - TAIL = init.length - (TAIL - 1) := by
      rw [length_append, length_singleton, TAIL]
      omega
    have hdrop : takeLast TAIL (init ++ [CR]) = takeLast (TAIL - 1) init ++ [CR] := by
      unfold takeLast
      rw [hlen, drop_append_of_le_length (by omega)]
    rw [hdrop, stripCr, if_pos (getLast?_concat ..), dropLast_concat, stripCr, if_pos hcr,
      dropLast_concat]
  · refine ⟨TAIL, by omega, ?_⟩
    have hlast : (takeLast TAIL raw).getLast? ≠ some CR := by
      unfold takeLast
      rw [getLast?_drop]
      split_ifs
      · simp
      · exact hcr
    rw [stripCr, if_neg hlast, stripCr, if_neg hcr]

theorem Announces.tail (h : Announces (stripCr raw) n nonSync) :
    Announces (stripCr (takeLast TAIL raw)) n nonSync := by
  obtain ⟨k, hk, heq⟩ := stripCr_takeLast raw
  obtain ⟨before, binary, digits, htext, hnum, hlen, hn⟩ := h
  have hshort : (markerBytes binary digits nonSync).length ≤ k := by
    have htail : TAIL - 1 = 31 := rfl
    have hopt : ∀ (c : Bool) (b : UInt8), (if c then [b] else []).length ≤ 1 := by
      intro c b
      split_ifs
      · exact Nat.le_refl _
      · exact Nat.zero_le _
    have h1 := hopt binary 0x7e
    have h2 := hopt nonSync 0x2b
    simp only [markerBytes, length_append, length_singleton]
    omega
  refine ⟨before.drop ((before ++ markerBytes binary digits nonSync).length - k), binary, digits,
    ?_, hnum, hlen, hn⟩
  rw [heq, htext, takeLast, drop_append_of_le_length (by rw [length_append]; omega)]

theorem Plain.tail (h : Plain (stripCr raw)) : Plain (stripCr (takeLast TAIL raw)) := by
  obtain ⟨k, -, heq⟩ := stripCr_takeLast raw
  intro before binary digits nonSync htext
  rw [heq, takeLast] at htext
  refine h ((stripCr raw).take ((stripCr raw).length - k) ++ before) binary digits nonSync ?_
  rw [append_assoc, ← htext, take_append_drop]

end Postroom.ImapProto
