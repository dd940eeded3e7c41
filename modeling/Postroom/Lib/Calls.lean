/-
Clients of a shared store, between whose calls the store may change.

A client is a script (`Txn`) whose statements are calls. Each call finds the store
in any state that others can have brought it to since the last one, and leaves it
in a state that depends on the call; it may fail, which ends the script. `Runs` is
the relation, `Txn.ensures` the rule to reason with: a script is checked once, with
everything that others may do universally quantified at every call.
-/
import Postroom.Lib.Transactions

set_option autoImplicit false

namespace Postroom.Lib

variable {σ S : Type} {R : S → Type} {ε α β γ : Type}

/-- How others change the store, and how a call answers. -/
structure Shared (σ S : Type) (R : S → Type) (ε : Type) where
  others : σ → σ → Prop
  answer : σ → (s : S) → Except ε (R s) → σ → Prop

/-- A script, run from `s`, ends in `s'` with a value or an error. -/
inductive Runs (sh : Shared σ S R ε) : σ → Txn S R ε α → σ → Except ε α → Prop
  | done {s : σ} (a : α) : Runs sh s (.done a) s (.ok a)
  | fail {s : σ} (e : ε) : Runs sh s (.fail e) s (.error e)
  | call {s s₁ s₂ s' : σ} {c : S} {k : R c → Txn S R ε α} {r : R c} {out : Except ε α} :
      sh.others s s₁ → sh.answer s₁ c (.ok r) s₂ → Runs sh s₂ (k r) s' out →
      Runs sh s (.stmt c k) s' out
  | failed {s s₁ s₂ : σ} {c : S} {k : R c → Txn S R ε α} {e : ε} :
      sh.others s s₁ → sh.answer s₁ c (.error e) s₂ → Runs sh s (.stmt c k) s₂ (.error e)

/-- What a script ensures of its end. -/
def Txn.ensures (sh : Shared σ S R ε) (Q : Except ε α → σ → Prop) : Txn S R ε α → σ → Prop
  | .done a, s => Q (.ok a) s
  | .fail e, s => Q (.error e) s
  | .stmt c k, s =>
    ∀ s₁ s₂, sh.others s s₁ →
      (∀ r, sh.answer s₁ c (.ok r) s₂ → (k r).ensures sh Q s₂)
        ∧ ∀ e, sh.answer s₁ c (.error e) s₂ → Q (.error e) s₂

variable {sh : Shared σ S R ε} {s s' : σ} {p : Txn S R ε α} {Q : Except ε α → σ → Prop}
variable {Q' : Except ε α → σ → Prop} {a : α}

/-- **Soundness.** -/
theorem Runs.ensures {out : Except ε α} (h : Runs sh s p s' out) (hp : p.ensures sh Q s) :
    Q out s' := by
  induction h with
  | done a => exact hp
  | fail e => exact hp
  | call hothers hanswer _ ih => exact ih ((hp _ _ hothers).1 _ hanswer)
  | failed hothers hanswer => exact (hp _ _ hothers).2 _ hanswer

theorem Txn.ensures_mono (h : p.ensures sh Q s) (hQ : ∀ out s', Q out s' → Q' out s') :
    p.ensures sh Q' s := by
  induction p generalizing s with
  | done a => exact hQ _ _ h
  | fail e => exact hQ _ _ h
  | stmt c k ih =>
    intro s₁ s₂ hothers
    obtain ⟨hok, herr⟩ := h s₁ s₂ hothers
    exact ⟨fun r hr => ih r (hok r hr), fun e he => hQ _ _ (herr e he)⟩

theorem Txn.ensures_and (h : p.ensures sh Q s) (h' : p.ensures sh Q' s) :
    p.ensures sh (fun out s' => Q out s' ∧ Q' out s') s := by
  induction p generalizing s with
  | done a => exact ⟨h, h'⟩
  | fail e => exact ⟨h, h'⟩
  | stmt c k ih =>
    intro s₁ s₂ hothers
    obtain ⟨hok, herr⟩ := h s₁ s₂ hothers
    obtain ⟨hok', herr'⟩ := h' s₁ s₂ hothers
    exact ⟨fun r hr => ih r (hok r hr) (hok' r hr), fun e he => ⟨herr e he, herr' e he⟩⟩

theorem Txn.ensures_bind {Q : Except ε β → σ → Prop} {f : α → Txn S R ε β}
    (h : p.ensures sh (fun out s' =>
      match out with
      | .ok a => (f a).ensures sh Q s'
      | .error e => Q (.error e) s') s) :
    (p >>= f).ensures sh Q s := by
  show (p.bind f).ensures sh Q s
  induction p generalizing s with
  | done a => exact h
  | fail e => exact h
  | stmt c k ih =>
    intro s₁ s₂ hothers
    obtain ⟨hok, herr⟩ := h s₁ s₂ hothers
    exact ⟨fun r hr => ih r (hok r hr), herr⟩

/-- What others do before the next call was foreseen. -/
theorem Txn.ensures_others (htrans : ∀ {a b c}, sh.others a b → sh.others b c → sh.others a c)
    (hQ : ∀ {out a b}, sh.others a b → Q out a → Q out b) (h : p.ensures sh Q s)
    (hs : sh.others s s') : p.ensures sh Q s' := by
  cases p with
  | done a => exact hQ hs h
  | fail e => exact hQ hs h
  | stmt c k => exact fun s₁ s₂ hothers => h s₁ s₂ (htrans hs hothers)

/-! ## A store that nobody else changes -/

/-- Run a script whose calls are all answered by `read`; it is `none` where a call
has no answer or the script fails. -/
def Txn.answered (read : (s : S) → Option (R s)) : Txn S R ε α → Option α
  | .done a => some a
  | .fail _ => none
  | .stmt c k => (read c).bind fun r => (k r).answered read

theorem Txn.answered_bind {read : (s : S) → Option (R s)} (p : Txn S R ε α) (f : α → Txn S R ε β) :
    (p >>= f).answered read = (p.answered read).bind fun a => (f a).answered read := by
  show (p.bind f).answered read = _
  induction p with
  | done a => rfl
  | fail e => rfl
  | stmt c k ih =>
    show ((read c).bind fun r => ((k r).bind f).answered read) = _
    rw [funext ih, ← Option.bind_assoc]
    rfl

/-- A script that cannot fail, with an answer to every call, ends. -/
theorem Txn.answered_isSome {read : (s : S) → R s} (p : Txn S R Empty α) :
    (p.answered fun s => some (read s)).isSome := by
  induction p with
  | done a => rfl
  | fail e => exact e.elim
  | stmt c k ih => exact ih (read c)

/-- Such a run is a run in which the others happen to do nothing. -/
theorem Runs.of_answered {read : (c : S) → Option (R c)} (hothers : sh.others s s)
    (hread : ∀ c r, read c = some r → sh.answer s c (.ok r) s)
    (h : p.answered read = some a) : Runs sh s p s (.ok a) := by
  induction p with
  | done b =>
    rw [show b = a from Option.some.inj h]
    exact .done a
  | fail e => cases h
  | stmt c k ih =>
    obtain ⟨r, hr, hk⟩ := Option.bind_eq_some_iff.mp h
    exact .call hothers (hread c r hr) (ih r hk)

/-- The same with calls that change the store. -/
def Txn.executed (answer : σ → (s : S) → Option (R s × σ)) : Txn S R ε α → σ → Option (α × σ)
  | .done a, s => some (a, s)
  | .fail _, _ => none
  | .stmt c k, s => (answer s c).bind fun r => (k r.1).executed answer r.2

theorem Runs.of_executed {answer : σ → (c : S) → Option (R c × σ)} (hothers : ∀ s, sh.others s s)
    (hanswer : ∀ s c r s', answer s c = some (r, s') → sh.answer s c (.ok r) s')
    (h : p.executed answer s = some (a, s')) : Runs sh s p s' (.ok a) := by
  induction p generalizing s with
  | done b =>
    injection h with h
    injection h with hb hs
    rw [hb, hs]
    exact .done a
  | fail e => cases h
  | stmt c k ih =>
    obtain ⟨⟨r, s₁⟩, hr, hk⟩ := Option.bind_eq_some_iff.mp h
    exact .call (hothers s) (hanswer s c r s₁ hr) (ih r hk)

end Postroom.Lib
