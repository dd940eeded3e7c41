/-
What a DATA stream means, and the byte machine that computes it.

The specification side is stated on the octets alone: where a stream ends
(`FirstEnd`, the first `<CRLF>.<CRLF>` with the line start before the stream
counted as a CRLF), what its body is after dot-unstuffing (`unstuff`), and when
the body is unacceptable (`Spoiled`: a bare CR, a bare LF or a NUL).

Between that and `SmtpLineReader.scanData` stands `dataStep`, a scanner with the
reader's five states and none of its buffer bookkeeping. Everything about it
follows from one invariant, `DataInv`: the state after some octets is a function
of those octets (`classify`). The step lemma is `dataStep_inv`; the run lemma,
`scan_dataStep_spec`, is the scanner induction of `Lib.Scan` applied to it.
-/
import Postroom.Lib.Scan
import Postroom.Smtp.LineReader

set_option autoImplicit false

namespace Postroom.Smtp

open Lib List

/-! ## The specification -/

def CRLF : List UInt8 := [CR, LF]

/-- `<CRLF>.<CRLF>`. -/
def terminator : List UInt8 := [CR, LF, DOT, CR, LF]

/-- The terminator ends right after the first `p` octets of `s`; a DATA stream
begins at a line start, so the CRLF before `s` counts. -/
def EndsAt (s : List UInt8) (p : ℕ) : Prop := terminator <:+ CRLF ++ s.take p

/-- The first occurrence of the terminator in `CRLF ++ s` ends after `p` octets of `s`. -/
def FirstEnd (s : List UInt8) (p : ℕ) : Prop :=
  p ≤ s.length ∧ EndsAt s p ∧ ∀ q < p, ¬ EndsAt s q

theorem FirstEnd.unique {s : List UInt8} {p q : ℕ} (hp : FirstEnd s p) (hq : FirstEnd s q) :
    p = q := by
  rcases Nat.lt_trichotomy p q with hlt | heq | hgt
  · exact absurd hp.2.1 (hq.2.2 p hlt)
  · exact heq
  · exact absurd hq.2.1 (hp.2.2 q hgt)

/-- Drop the dot that opens a line; `before` is everything read so far. -/
def unstuffFrom (before : List UInt8) : List UInt8 → List UInt8
  | [] => []
  | b :: rest =>
    (if b = DOT ∧ CRLF <:+ before then [] else [b]) ++ unstuffFrom (before ++ [b]) rest

/-- The dot-unstuffed body (RFC 5321 §4.5.2). -/
def unstuff (body : List UInt8) : List UInt8 := unstuffFrom CRLF body

/-- A CR not followed by LF. -/
def BareCR (l : List UInt8) : Prop := ∃ a b, l = a ++ CR :: b ∧ b.head? ≠ some LF

/-- An LF not preceded by CR. -/
def BareLF (l : List UInt8) : Prop := ∃ a b, l = a ++ LF :: b ∧ a.getLast? ≠ some CR

/-- The body has a bare CR, a bare LF or a NUL. -/
def Spoiled (l : List UInt8) : Prop := BareCR l ∨ BareLF l ∨ NUL ∈ l

/-! ## The byte machine -/

/-- The reader's DATA state without its buffers: where in the line it is, the
unstuffed octets so far, and whether a bare CR, bare LF or NUL was seen. -/
structure DataCore where
  ds : DataState := .lineStart
  out : List UInt8 := []
  bad : Bool := false
  deriving DecidableEq, Repr

/-- An octet of the body where nothing is held back. -/
def DataCore.put (c : DataCore) (b : UInt8) : DataCore :=
  if b = CR then { c with ds := .cr, out := c.out ++ [b] }
  else { ds := .mid, out := c.out ++ [b], bad := c.bad || decide (b = LF) || decide (b = NUL) }

/-- One octet; stops at the LF of the terminator. -/
def dataStep (c : DataCore) (b : UInt8) : DataCore ⊕ DataCore :=
  match c.ds with
  | .lineStart => if b = DOT then .inl { c with ds := .dot } else .inl (c.put b)
  | .mid => .inl (c.put b)
  | .cr =>
    if b = LF then .inl { c with ds := .lineStart, out := c.out ++ [b] }
    else .inl { ds := if b = CR then .cr else .mid, out := c.out ++ [b], bad := true }
  | .dot => if b = CR then .inl { c with ds := .dotCR } else .inl (c.put b)
  | .dotCR =>
    if b = LF then .inr c
    else .inl { ds := if b = CR then .cr else .mid, out := c.out ++ [CR, b], bad := true }

/-! ## Octets are distinct -/

@[simp] theorem CR_ne_LF : CR ≠ LF := by decide
@[simp] theorem LF_ne_CR : LF ≠ CR := by decide
@[simp] theorem DOT_ne_CR : DOT ≠ CR := by decide
@[simp] theorem CR_ne_DOT : CR ≠ DOT := by decide
@[simp] theorem DOT_ne_LF : DOT ≠ LF := by decide
@[simp] theorem LF_ne_DOT : LF ≠ DOT := by decide
@[simp] theorem NUL_ne_CR : NUL ≠ CR := by decide
@[simp] theorem CR_ne_NUL : CR ≠ NUL := by decide
@[simp] theorem NUL_ne_LF : NUL ≠ LF := by decide
@[simp] theorem LF_ne_NUL : LF ≠ NUL := by decide
@[simp] theorem NUL_ne_DOT : NUL ≠ DOT := by decide
@[simp] theorem DOT_ne_NUL : DOT ≠ NUL := by decide

/-! ## How the specification grows by one octet -/

theorem unstuffFrom_append (before a b : List UInt8) :
    unstuffFrom before (a ++ b) = unstuffFrom before a ++ unstuffFrom (before ++ a) b := by
  induction a generalizing before with
  | nil => simp [unstuffFrom]
  | cons x xs ih =>
    rw [cons_append, unstuffFrom, unstuffFrom, ih, append_assoc, append_assoc, singleton_append]

theorem unstuff_snoc (t : List UInt8) (b : UInt8) :
    unstuff (t ++ [b]) = unstuff t ++ (if b = DOT ∧ CRLF <:+ CRLF ++ t then [] else [b]) := by
  rw [unstuff, unstuffFrom_append]
  simp [unstuffFrom, unstuff]

theorem bareLF_snoc (t : List UInt8) (b : UInt8) :
    BareLF (t ++ [b]) ↔ BareLF t ∨ (b = LF ∧ t.getLast? ≠ some CR) := by
  constructor
  · rintro ⟨u, v, huv, hu⟩
    rcases eq_nil_or_concat v with rfl | ⟨v, x, rfl⟩
    · obtain ⟨rfl, hb⟩ := append_inj' huv rfl
      exact .inr ⟨by simpa using hb, hu⟩
    · rw [concat_eq_append, ← cons_append, ← append_assoc] at huv
      obtain ⟨rfl, -⟩ := append_inj' huv rfl
      exact .inl ⟨u, v, rfl, hu⟩
  · rintro (⟨u, v, rfl, hu⟩ | ⟨rfl, ht⟩)
    · exact ⟨u, v ++ [b], by simp, hu⟩
    · exact ⟨t, [], rfl, ht⟩

/-- A CR whose successor is already known and is not LF. -/
def KnownBareCR (l : List UInt8) : Prop := ∃ a c b, l = a ++ CR :: c :: b ∧ c ≠ LF

theorem knownBareCR_snoc (t : List UInt8) (b : UInt8) :
    KnownBareCR (t ++ [b]) ↔ KnownBareCR t ∨ (t.getLast? = some CR ∧ b ≠ LF) := by
  constructor
  · rintro ⟨u, c, v, huv, hc⟩
    rcases eq_nil_or_concat v with rfl | ⟨v, x, rfl⟩
    · have h : t ++ [b] = (u ++ [CR]) ++ [c] := by simpa using huv
      obtain ⟨rfl, hb⟩ := append_inj' h rfl
      have hb : b = c := by simpa using hb
      exact .inr ⟨by simp, hb ▸ hc⟩
    · have h : t ++ [b] = (u ++ CR :: c :: v) ++ [x] := by simpa using huv
      obtain ⟨rfl, -⟩ := append_inj' h rfl
      exact .inl ⟨u, c, v, rfl, hc⟩
  · rintro (⟨u, c, v, rfl, hc⟩ | ⟨ht, hb⟩)
    · exact ⟨u, c, v ++ [b], by simp, hc⟩
    · obtain ⟨u, rfl⟩ := getLast?_eq_some_iff.mp ht
      exact ⟨u, b, [], by simp, hb⟩

/-! ## The state is a function of the octets read

The terminator has five octets, so the last four of `CRLF ++ t` decide what the
machine is waiting for. They are read off the reversed stream, newest first. -/

/-- The state after a stream, newest octet first. -/
def classify (l : List UInt8) : DataState :=
  if l.take 4 = [CR, DOT, LF, CR] then .dotCR
  else if l.take 1 = [CR] then .cr
  else if l.take 3 = [DOT, LF, CR] then .dot
  else if l.take 2 = [LF, CR] then .lineStart
  else .mid

/-- What was read: the CRLF before the stream, then the stream, newest first. -/
def history (t : List UInt8) : List UInt8 := (CRLF ++ t).reverse

theorem history_snoc (t : List UInt8) (b : UInt8) : history (t ++ [b]) = b :: history t := by
  simp [history]

variable {l t : List UInt8} {c : DataCore} {b : UInt8} {c' : DataCore}

theorem classify_eq_dotCR (h : classify l = .dotCR) : l.take 4 = [CR, DOT, LF, CR] := by
  by_contra hne
  unfold classify at h
  rw [if_neg hne] at h
  split_ifs at h

theorem classify_eq_dot (h : classify l = .dot) : l.take 3 = [DOT, LF, CR] := by
  unfold classify at h
  split_ifs at h
  assumption

theorem classify_eq_lineStart (h : classify l = .lineStart) : l.take 2 = [LF, CR] := by
  unfold classify at h
  split_ifs at h
  assumption

theorem classify_eq_cr (h : classify l = .cr) : l.take 1 = [CR] ∧ l.take 4 ≠ [CR, DOT, LF, CR] := by
  unfold classify at h
  split_ifs at h with h1 h2
  exact ⟨h2, h1⟩

theorem classify_eq_mid (h : classify l = .mid) :
    l.take 1 ≠ [CR] ∧ l.take 3 ≠ [DOT, LF, CR] ∧ l.take 2 ≠ [LF, CR] := by
  unfold classify at h
  split_ifs at h with h1 h2 h3 h4
  exact ⟨h2, h3, h4⟩

/-- Knowing the last `n` octets is knowing the last `k ≤ n`. -/
theorem take_of_take {m : List UInt8} {n : ℕ} (h : l.take n = m) (k : ℕ) (hk : k ≤ n) :
    l.take k = m.take k := by
  rw [← h, take_take, Nat.min_eq_left hk]

/-- What the next octet makes of the last four. -/
theorem classify_cons (b : UInt8) (l : List UInt8) : classify (b :: l)
      = if b = CR ∧ l.take 3 = [DOT, LF, CR] then .dotCR else if b = CR then .cr
        else if b = DOT ∧ l.take 2 = [LF, CR] then .dot
        else if b = LF ∧ l.take 1 = [CR] then .lineStart else .mid := by
  simp only [classify, take_succ_cons, List.cons.injEq, take_zero, and_true]

theorem classify_eq_dotCR_iff (l : List UInt8) :
    classify l = .dotCR ↔ l.take 4 = [CR, DOT, LF, CR] :=
  ⟨classify_eq_dotCR, fun h => by rw [classify, if_pos h]⟩

theorem crlf_suffix_iff (t : List UInt8) : CRLF <:+ CRLF ++ t ↔ (history t).take 2 = [LF, CR] := by
  rw [← List.reverse_prefix, List.prefix_iff_eq_take]
  exact eq_comm

theorem getLast?_eq_CR_iff (t : List UInt8) : t.getLast? = some CR ↔ (history t).take 1 = [CR] := by
  rcases eq_nil_or_concat t with rfl | ⟨u, x, rfl⟩
  · simp [history, CRLF]
  · rw [concat_eq_append, history_snoc]
    simp

theorem endsAt_snoc_iff (t : List UInt8) (b : UInt8) :
    EndsAt (t ++ [b]) (t.length + 1) ↔ b = LF ∧ classify (history t) = .dotCR := by
  have htake : (t ++ [b]).take (t.length + 1) = t ++ [b] :=
    take_of_length_le (by simp)
  rw [EndsAt, htake, ← List.reverse_prefix, List.prefix_iff_eq_take, classify_eq_dotCR_iff]
  rw [show (CRLF ++ (t ++ [b])).reverse = b :: history t from history_snoc t b]
  constructor
  · intro h
    have h' : b :: (history t).take 4 = [LF, CR, DOT, LF, CR] := h.symm
    injection h' with hb ht
    exact ⟨hb, ht⟩
  · rintro ⟨rfl, ht⟩
    exact (congrArg (LF :: ·) ht).symm

/-- Appending past `q` does not change whether the terminator ends at `q`. -/
theorem endsAt_append_iff {s u : List UInt8} {q : ℕ} (hq : q ≤ s.length) :
    EndsAt (s ++ u) q ↔ EndsAt s q := by
  rw [EndsAt, EndsAt, take_append_of_le_length hq]

/-! ## The machine computes the specification -/

/-- The CR the machine holds back after a dot at a line start. -/
def heldCR : DataState → List UInt8
  | .dotCR => [CR]
  | _ => []

/-- The machine after the octets `t`: no terminator so far, the state `classify`
says, the unstuffed octets except a held CR, and the damage seen so far. -/
structure DataInv (t : List UInt8) (c : DataCore) : Prop where
  noEnd : ∀ q ≤ t.length, ¬ EndsAt t q
  ds : c.ds = classify (history t)
  out : c.out ++ heldCR c.ds = unstuff t
  bad : c.bad = true ↔ KnownBareCR t ∨ BareLF t ∨ NUL ∈ t

theorem dataInv_nil : DataInv [] {} where
  noEnd q hq h := by
    have := h.length_le
    simp [terminator, CRLF] at this
  ds := by decide
  out := by decide
  bad := by simp [KnownBareCR, BareLF]

/-- What has to be checked for one more octet, in terms of the last ones read. -/
theorem DataInv.snoc (h : DataInv t c) (hend : ¬ (b = LF ∧ c.ds = .dotCR))
    (hds : c'.ds = classify (b :: history t))
    (hout : c'.out ++ heldCR c'.ds = c.out ++ heldCR c.ds ++ if b = DOT
      ∧ (history t).take 2 = [LF, CR] then [] else [b])
    (hbad : c'.bad = true ↔ c.bad = true ∨ ((history t).take 1 = [CR] ∧ b ≠ LF)
      ∨ (b = LF ∧ (history t).take 1 ≠ [CR]) ∨ b = NUL) :
    DataInv (t ++ [b]) c' where
  noEnd q hq hq' := by
    rcases Nat.lt_or_ge t.length q with hlt | hge
    · have heq : q = t.length + 1 := by
        rw [length_append, length_singleton] at hq
        omega
      rw [heq, endsAt_snoc_iff, ← h.ds] at hq'
      exact hend hq'
    · exact h.noEnd q hge ((endsAt_append_iff hge).mp hq')
  ds := by rw [hds, history_snoc]
  out := by
    rw [hout, h.out, unstuff_snoc]
    simp only [crlf_suffix_iff]
  bad := by
    rw [hbad, h.bad, knownBareCR_snoc, bareLF_snoc, mem_append, mem_singleton,
      ne_eq t.getLast?, getLast?_eq_CR_iff]
    constructor
    · rintro ((h | h | h) | h | h | h)
      · exact .inl (.inl h)
      · exact .inr (.inl (.inl h))
      · exact .inr (.inr (.inl h))
      · exact .inl (.inr h)
      · exact .inr (.inl (.inr h))
      · exact .inr (.inr (.inr h.symm))
    · rintro ((h | h) | (h | h) | h | h)
      · exact .inl (.inl h)
      · exact .inr (.inl h)
      · exact .inl (.inr (.inl h))
      · exact .inr (.inr (.inl h))
      · exact .inl (.inr (.inr h))
      · exact .inr (.inr (.inr h.symm))

/-- An octet that is plain body: no CR before it, not a dot at a line start. -/
theorem DataInv.put (h : DataInv t c) (hnotCR : (history t).take 1 ≠ [CR])
    (hnotDot : ¬ (b = CR ∧ (history t).take 3 = [DOT, LF, CR]))
    (hnotStart : ¬ (b = DOT ∧ (history t).take 2 = [LF, CR])) : DataInv (t ++ [b]) (c.put b) := by
  have hds : c.ds ≠ .dotCR := by
    intro hd
    rw [h.ds] at hd
    exact hnotCR (take_of_take (classify_eq_dotCR hd) 1 (by omega))
  have hheld : heldCR c.ds = [] := by
    cases hc : c.ds <;> simp_all [heldCR]
  refine h.snoc (fun hb => hds hb.2) ?_ ?_ ?_
  · rw [classify_cons, if_neg hnotDot, if_neg hnotStart]
    by_cases hb : b = CR
    · simp [DataCore.put, hb]
    · simp [DataCore.put, hb, hnotCR]
  · rw [hheld, if_neg hnotStart]
    by_cases hb : b = CR
    · simp [DataCore.put, hb, heldCR]
    · simp [DataCore.put, hb, heldCR]
  · by_cases hb : b = CR
    · subst hb
      simp [DataCore.put, hnotCR]
    · by_cases hlf : b = LF <;> by_cases hnul : b = NUL <;>
        simp [DataCore.put, hb, hlf, hnul, hnotCR]

/-- **The step lemma**: the machine follows the octets. -/
theorem dataStep_inv (t : List UInt8) (c : DataCore) (b : UInt8) (c' : DataCore)
    (h : DataInv t c) (hstep : dataStep c b = .inl c') : DataInv (t ++ [b]) c' := by
  have hcl := h.ds
  unfold dataStep at hstep
  -- the reader's state says how the octets before `b` end, which decides what `b` can be
  cases hds : c.ds with
  | lineStart =>
    have ht := classify_eq_lineStart (hcl.symm.trans hds)
    have ht1 : (history t).take 1 = [LF] := take_of_take ht 1 (by omega)
    rw [hds] at hstep
    by_cases hb : b = DOT
    · simp only [hb, if_true, Sum.inl.injEq] at hstep
      subst hstep
      refine h.snoc (by simp [hds]) ?_ ?_ ?_
      · simp [classify_cons, hb, ht]
      · simp [hb, ht, hds, heldCR]
      · simp [hb, ht1]
    · simp only [hb, if_false, Sum.inl.injEq] at hstep
      subst hstep
      refine h.put (by simp [ht1]) ?_ (by simp [hb])
      rintro ⟨-, h3⟩
      have h1 := take_of_take h3 1 (by omega)
      simp [ht1] at h1
  | mid =>
    obtain ⟨h1, h3, h2⟩ := classify_eq_mid (hcl.symm.trans hds)
    rw [hds, Sum.inl.injEq] at hstep
    subst hstep
    exact h.put h1 (fun hb => h3 hb.2) (fun hb => h2 hb.2)
  | cr =>
    obtain ⟨h1, h4⟩ := classify_eq_cr (hcl.symm.trans hds)
    have h2 : (history t).take 2 ≠ [LF, CR] := by
      intro h2
      have := take_of_take h2 1 (by omega)
      simp [h1] at this
    have h3 : (history t).take 3 ≠ [DOT, LF, CR] := by
      intro h3
      have := take_of_take h3 1 (by omega)
      simp [h1] at this
    rw [hds] at hstep
    by_cases hb : b = LF
    · simp only [hb, if_true, Sum.inl.injEq] at hstep
      subst hstep
      refine h.snoc (by simp [hds]) ?_ ?_ ?_
      · simp [classify_cons, hb, h1]
      · simp [hb, hds, heldCR]
      · simp [hb, h1]
    · simp only [hb, if_false, Sum.inl.injEq] at hstep
      subst hstep
      refine h.snoc (by simp [hds]) ?_ ?_ ?_
      · by_cases hcr : b = CR <;> simp [classify_cons, hb, h2, h3, hcr]
      · by_cases hcr : b = CR <;> simp [hds, heldCR, h2, hcr]
      · simp [hb, h1]
  | dot =>
    have h3 := classify_eq_dot (hcl.symm.trans hds)
    have h1 : (history t).take 1 = [DOT] := take_of_take h3 1 (by omega)
    have h2 : (history t).take 2 = [DOT, LF] := take_of_take h3 2 (by omega)
    rw [hds] at hstep
    by_cases hb : b = CR
    · simp only [hb, if_true, Sum.inl.injEq] at hstep
      subst hstep
      refine h.snoc (by simp [hds]) ?_ ?_ ?_
      · simp [classify_cons, hb, h3]
      · simp [hb, hds, heldCR]
      · simp [hb, h1]
    · simp only [hb, if_false, Sum.inl.injEq] at hstep
      subst hstep
      exact h.put (by simp [h1]) (by simp [hb]) (by simp [h2])
  | dotCR =>
    have h4 := classify_eq_dotCR (hcl.symm.trans hds)
    have h1 : (history t).take 1 = [CR] := take_of_take h4 1 (by omega)
    have h2 : (history t).take 2 = [CR, DOT] := take_of_take h4 2 (by omega)
    have h3 : (history t).take 3 = [CR, DOT, LF] := take_of_take h4 3 (by omega)
    rw [hds] at hstep
    by_cases hb : b = LF
    · simp [hb] at hstep
    · simp only [hb, if_false, Sum.inl.injEq] at hstep
      subst hstep
      refine h.snoc (by simp [hb]) ?_ ?_ ?_
      · by_cases hcr : b = CR <;> simp [classify_cons, hb, h2, h3, hcr]
      · by_cases hcr : b = CR <;> simp [hds, heldCR, h2, hcr]
      · simp [hb, h1]

/-- The machine stops only at the LF of the terminator, and keeps its state. -/
theorem dataStep_stop (h : dataStep c b = .inr c') : c' = c ∧ b = LF ∧ c.ds = .dotCR := by
  unfold dataStep at h
  cases hds : c.ds with
  | lineStart =>
    rw [hds] at h
    by_cases hb : b = DOT <;> simp [hb] at h
  | mid => simp [hds] at h
  | cr =>
    rw [hds] at h
    by_cases hb : b = LF <;> simp [hb] at h
  | dot =>
    rw [hds] at h
    by_cases hb : b = CR <;> simp [hb] at h
  | dotCR =>
    rw [hds] at h
    by_cases hb : b = LF
    · simp only [hb, if_true, Sum.inr.injEq] at h
      exact ⟨h.symm, hb, rfl⟩
    · simp [hb] at h

/-! ## Where the machine stops -/

theorem bareCR_iff (l : List UInt8) : BareCR l ↔ KnownBareCR l ∨ l.getLast? = some CR := by
  constructor
  · rintro ⟨a, b, rfl, hb⟩
    cases b with
    | nil => exact .inr (by simp)
    | cons c b => exact .inl ⟨a, c, b, rfl, fun hc => hb (by simp [hc])⟩
  · rintro (⟨a, c, b, rfl, hc⟩ | hl)
    · exact ⟨a, c :: b, rfl, by simpa using hc⟩
    · obtain ⟨a, rfl⟩ := getLast?_eq_some_iff.mp hl
      exact ⟨a, [], rfl, by simp⟩

/-- A machine that waits for the LF of the terminator has just read `.` CR at a line start. -/
theorem split_of_dotCR (h : classify (history t) = .dotCR) :
    ∃ body, t = body ++ [DOT, CR] ∧ (history body).take 2 = [LF, CR] := by
  have h4 := classify_eq_dotCR h
  rcases eq_nil_or_concat t with rfl | ⟨u, x, rfl⟩
  · simp [history, CRLF] at h4
  rcases eq_nil_or_concat u with rfl | ⟨v, y, rfl⟩
  · simp [history, CRLF] at h4
  rw [concat_eq_append, concat_eq_append] at h4 ⊢
  rw [history_snoc, history_snoc] at h4
  have hx : x = CR ∧ y = DOT ∧ (history v).take 2 = [LF, CR] := by simpa using h4
  obtain ⟨rfl, rfl, hv⟩ := hx
  exact ⟨v, by simp, hv⟩

/-- What the machine has computed when it waits for the LF of the terminator. -/
theorem DataInv.at_terminator (h : DataInv t c) (hds : c.ds = .dotCR) :
    ∃ body, t = body ++ [DOT, CR] ∧ c.out = unstuff body ∧ (c.bad = true ↔ Spoiled body) := by
  obtain ⟨body, rfl, hbody⟩ := split_of_dotCR (h.ds.symm.trans hds)
  have hlast : body.getLast? ≠ some CR := by
    rw [ne_eq, getLast?_eq_CR_iff, take_of_take hbody 1 (by omega)]
    decide
  have hsplit : body ++ [DOT, CR] = (body ++ [DOT]) ++ [CR] := by simp
  refine ⟨body, rfl, ?_, ?_⟩
  · -- the dot is dropped, and the CR after it is the one held back
    have hout := h.out
    rw [hds, hsplit, unstuff_snoc, unstuff_snoc, if_pos ⟨rfl, (crlf_suffix_iff body).mpr hbody⟩,
      if_neg (by simp), append_nil] at hout
    exact append_cancel_right hout
  · rw [h.bad, hsplit, knownBareCR_snoc, knownBareCR_snoc, bareLF_snoc, bareLF_snoc, Spoiled,
      bareCR_iff]
    simp [hlast]

/-- The terminator's LF ends the first terminator of the stream. -/
theorem DataInv.firstEnd (h : DataInv t c) (hds : c.ds = .dotCR) (rest : List UInt8) :
    FirstEnd (t ++ [LF] ++ rest) (t.length + 1) := by
  have hlen : t.length + 1 ≤ (t ++ [LF]).length := by simp
  refine ⟨by simp, ?_, ?_⟩
  · rw [endsAt_append_iff hlen, endsAt_snoc_iff]
    exact ⟨rfl, h.ds.symm.trans hds⟩
  · intro q hq
    rw [endsAt_append_iff (by simp; omega), endsAt_append_iff (by omega)]
    exact h.noEnd q (by omega)

/-- **The run lemma**: the machine goes on while there is no terminator, and
stops at the first one with the unstuffed body and its damage. -/
theorem scan_dataStep_spec (s : List UInt8) :
    (∀ c, scan dataStep {} s = .more c → ∀ p, ¬ FirstEnd s p)
      ∧ ∀ c rest, scan dataStep {} s = .stop c rest →
          ∃ body, s = body ++ [DOT, CR, LF] ++ rest ∧ FirstEnd s (body.length + 3)
            ∧ c.out = unstuff body ∧ (c.bad = true ↔ Spoiled body) := by
  have hrun := scan_induct DataInv
    (fun u c => ∃ t, u = t ++ [LF] ∧ DataInv t c ∧ c.ds = .dotCR) dataStep_inv
    (by
      intro t c b c' h hstop
      obtain ⟨rfl, rfl, hds⟩ := dataStep_stop hstop
      exact ⟨t, rfl, h, hds⟩)
    [] {} dataInv_nil s
  refine ⟨?_, ?_⟩
  · intro c hc p hp
    exact (hrun.1 c hc).noEnd p hp.1 hp.2.1
  · intro c rest hc
    obtain ⟨u, hs, t, hu, hinv, hds⟩ := hrun.2 c rest hc
    obtain ⟨body, ht, hout, hbad⟩ := hinv.at_terminator hds
    have hfirst := hinv.firstEnd hds rest
    rw [nil_append] at hu
    rw [← hu, ← hs, ht] at hfirst
    refine ⟨body, ?_, by simpa using hfirst, hout, hbad⟩
    rw [hs, hu, ht]
    simp

end Postroom.Smtp
