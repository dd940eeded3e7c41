/-
Runs of a system whose steps are labelled by actions.

A system is a partial function `step : σ → α → Option σ`. A run may be restricted
by a condition `ok` on the actions taken, stated on the state they are taken in;
`Run step ok s s'` is the reachability relation of the restricted system. The one
rule is `Run.invariant`.
-/
import Mathlib.Tactic.Common

set_option autoImplicit false

namespace Postroom.Lib

variable {σ α : Type*}

/-- `s'` is reached from `s` by steps that all meet `ok`. -/
inductive Run (step : σ → α → Option σ) (ok : σ → α → Prop) (s : σ) : σ → Prop
  | refl : Run step ok s s
  | step {s₁ s₂ : σ} (a : α) : Run step ok s s₁ → ok s₁ a → step s₁ a = some s₂ → Run step ok s s₂

/-- A condition that every step meets. -/
def anyStep : σ → α → Prop := fun _ _ => True

variable {step : σ → α → Option σ} {s s' : σ} {ok : σ → α → Prop} {s0 : σ}

/-- **Invariant rule.** -/
theorem Run.invariant (I : σ → Prop) (h0 : I s)
    (hstep : ∀ s₁ a s₂, I s₁ → ok s₁ a → step s₁ a = some s₂ → I s₂) (hrun : Run step ok s s') :
    I s' := by
  induction hrun with
  | refl => exact h0
  | step a _ hok hs ih => exact hstep _ a _ ih hok hs

/-- A condition may be weakened. -/
theorem Run.mono {ok' : σ → α → Prop} (h : ∀ s a, ok s a → ok' s a) (hrun : Run step ok s s') :
    Run step ok' s s' := by
  induction hrun with
  | refl => exact .refl
  | step a _ hok hs ih => exact ih.step a (h _ a hok) hs

/-- Take a list of actions. -/
def runAll (step : σ → α → Option σ) : σ → List α → Option σ
  | s, [] => some s
  | s, a :: as => (step s a).bind fun s' => runAll step s' as

/-- Executing actions after a run is a run. -/
theorem Run.runAll (as : List α) (hrun : Run step anyStep s0 s)
    (h : runAll step s as = some s') : Run step anyStep s0 s' := by
  induction as generalizing s with
  | nil =>
    injection h with h
    exact h ▸ hrun
  | cons a as ih =>
    obtain ⟨s₁, hstep, hrest⟩ := Option.bind_eq_some_iff.mp h
    exact ih (hrun.step a trivial hstep) hrest

/-- Take a list of actions, as long as each meets `ok`. -/
def runWhile (step : σ → α → Option σ) (ok : σ → α → Prop) [∀ s a, Decidable (ok s a)] :
    σ → List α → Option σ
  | s, [] => some s
  | s, a :: as => if ok s a then (step s a).bind fun s' => runWhile step ok s' as else none

theorem Run.runWhile [∀ s a, Decidable (ok s a)] (as : List α)
    (hrun : Run step ok s0 s) (h : Lib.runWhile step ok s as = some s') : Run step ok s0 s' := by
  induction as generalizing s with
  | nil =>
    injection h with h
    exact h ▸ hrun
  | cons a as ih =>
    rw [Lib.runWhile] at h
    split at h
    · rename_i hok
      obtain ⟨s₁, hstep, hrest⟩ := Option.bind_eq_some_iff.mp h
      exact ih (hrun.step a hok hstep) hrest
    · cases h

end Postroom.Lib
