/-
Scanners: state machines that read one symbol at a time until they stop.

A scanner is a step function `σ → α → σ ⊕ ω`: it either goes on in a new state
or stops with a result. `scan` runs one over a list and, when it stops, says
which symbols it has not read. Two facts carry everything else:

* `scan_append` -- a scanner that has not stopped on `a` reads `b` from where it
  was, one that has stopped leaves `b` behind its own rest, so that cutting the
  input changes nothing;
* `scan_induct` -- a property kept by every step holds where the scan ends.

Nothing here knows what the symbols are.
-/
import Mathlib.Data.List.Basic

set_option autoImplicit false

namespace Postroom.Lib

variable {σ α ω : Type*}

/-- How a scan ended: the input ran out in state `s`, or the scanner stopped
with `o` and did not read `rest`. -/
inductive Scan (σ α ω : Type*) where
  | more (s : σ)
  | stop (o : ω) (rest : List α)

/-- Run a scanner over a list of symbols. -/
def scan (step : σ → α → σ ⊕ ω) : σ → List α → Scan σ α ω
  | s, [] => .more s
  | s, a :: as =>
    match step s a with
    | .inl s' => scan step s' as
    | .inr o => .stop o as

/-- Go on with further input after a scan. -/
def Scan.andThen (step : σ → α → σ ⊕ ω) : Scan σ α ω → List α → Scan σ α ω
  | .more s, b => scan step s b
  | .stop o rest, b => .stop o (rest ++ b)

@[simp] theorem scan_nil (step : σ → α → σ ⊕ ω) (s : σ) : scan step s [] = .more s := rfl

variable {step : σ → α → σ ⊕ ω} {s : σ} {o : ω} {a : List α} {s' : σ} {rest : List α}

theorem scan_cons_inl {a : α} (as : List α) (h : step s a = .inl s') :
    scan step s (a :: as) = scan step s' as := by
  simp only [scan, h]

theorem scan_cons_inr {a : α} (as : List α) (h : step s a = .inr o) :
    scan step s (a :: as) = .stop o as := by
  simp only [scan, h]

/-- **Scanning is compositional.** -/
theorem scan_append (step : σ → α → σ ⊕ ω) (s : σ) (a b : List α) :
    scan step s (a ++ b) = (scan step s a).andThen step b := by
  induction a generalizing s with
  | nil => rfl
  | cons x xs ih =>
    cases h : step s x with
    | inl s' =>
      rw [List.cons_append, scan_cons_inl _ h, scan_cons_inl _ h]
      exact ih s'
    | inr o =>
      rw [List.cons_append, scan_cons_inr _ h, scan_cons_inr _ h]
      rfl

/-- A scanner that goes on through `a` reads `b` from the state it is in. -/
theorem scan_append_of_more (b : List α) (h : scan step s a = .more s') :
    scan step s (a ++ b) = scan step s' b := by
  rw [scan_append, h]
  rfl

/-- A scanner that stops inside `a` leaves all of `b`. -/
theorem scan_append_of_stop (b : List α) (h : scan step s a = .stop o rest) :
    scan step s (a ++ b) = .stop o (rest ++ b) := by
  rw [scan_append, h]
  rfl

/-- A scanner that stops has read something. -/
theorem length_lt_of_scan_stop (h : scan step s a = .stop o rest) : rest.length < a.length := by
  induction a generalizing s with
  | nil => cases h
  | cons x xs ih =>
    cases hx : step s x with
    | inl s' =>
      rw [scan_cons_inl _ hx] at h
      exact Nat.lt_succ_of_lt (ih h)
    | inr o' =>
      rw [scan_cons_inr _ hx] at h
      injection h with _ hrest
      rw [hrest]
      exact Nat.lt_succ_self _

/-- **Invariant rule.** A property that the initial state has, that every step
that goes on keeps, and that a stopping step turns into `Q`, ends as `P` or as
`Q` of the symbols read. The symbols read so far are part of the property. -/
theorem scan_induct (P : List α → σ → Prop) (Q : List α → ω → Prop)
    (hstep : ∀ t s a s', P t s → step s a = .inl s' → P (t ++ [a]) s')
    (hstop : ∀ t s a o, P t s → step s a = .inr o → Q (t ++ [a]) o) (t : List α) (s : σ)
    (h0 : P t s) (as : List α) : (∀ s', scan step s as = .more s' → P (t ++ as) s')
      ∧ ∀ o rest, scan step s as = .stop o rest → ∃ u, as = u ++ rest ∧ Q (t ++ u) o := by
  induction as generalizing t s with
  | nil =>
    refine ⟨?_, ?_⟩
    · intro s' h
      injection h with h
      subst h
      simpa using h0
    · intro o rest h
      cases h
  | cons x xs ih =>
    cases hx : step s x with
    | inl s1 =>
      obtain ⟨hmore, hend⟩ := ih (t ++ [x]) s1 (hstep t s x s1 h0 hx)
      rw [scan_cons_inl _ hx]
      refine ⟨?_, ?_⟩
      · intro s' h
        have := hmore s' h
        rwa [List.append_assoc, List.singleton_append] at this
      · intro o rest h
        obtain ⟨u, hu, hQ⟩ := hend o rest h
        refine ⟨x :: u, by rw [hu]; rfl, ?_⟩
        rwa [List.append_assoc, List.singleton_append] at hQ
    | inr o1 =>
      rw [scan_cons_inr _ hx]
      refine ⟨nofun, ?_⟩
      intro o rest h
      injection h with ho hrest
      subst ho; subst hrest
      exact ⟨[x], rfl, hstop t s x o1 h0 hx⟩

end Postroom.Lib
