/-
Machines that emit, compared up to a view of their state.

`AgreeAt` asks two programs to end in the same state. Where a part of the state
is only ever reported (a name kept for a later message) that is too much: the
programs may differ in it as long as no step lets the difference spread. `AgreeUpTo`
compares the states through a view `ρ`, and `Respects` says that a step does not
look behind it; agreement then composes as before.
-/
import Postroom.Lib.Emits

set_option autoImplicit false

namespace Postroom.Lib.Emits

variable {σ τ ε ε' α : Type*} {ρ : σ → τ} {φ : ε → List ε'} {f f' g g' h : Emits σ ε} {s : σ}

/-- Both end in states that look the same, and what they emit looks the same. -/
def AgreeUpTo (ρ : σ → τ) (φ : ε → List ε') (f g : Emits σ ε) (s : σ) : Prop :=
  ρ (f s).1 = ρ (g s).1 ∧ (f s).2.flatMap φ = (g s).2.flatMap φ

/-- From states that look the same the step does what looks the same. -/
def Respects (ρ : σ → τ) (φ : ε → List ε') (f : Emits σ ε) : Prop :=
  ∀ s t, ρ s = ρ t → ρ (f s).1 = ρ (f t).1 ∧ (f s).2.flatMap φ = (f t).2.flatMap φ

theorem AgreeUpTo.refl (f : Emits σ ε) (s : σ) : AgreeUpTo ρ φ f f s := ⟨rfl, rfl⟩

theorem AgreeUpTo.of_eq (h : f s = g s) : AgreeUpTo ρ φ f g s := by
  rw [AgreeUpTo, h]
  exact ⟨rfl, rfl⟩

theorem AgreeUpTo.symm (h : AgreeUpTo ρ φ f g s) : AgreeUpTo ρ φ g f s := ⟨h.1.symm, h.2.symm⟩

theorem AgreeUpTo.trans (h1 : AgreeUpTo ρ φ f g s) (h2 : AgreeUpTo ρ φ g h s) :
    AgreeUpTo ρ φ f h s :=
  ⟨h1.1.trans h2.1, h1.2.trans h2.2⟩

/-- The same first step. -/
theorem AgreeUpTo.after (h : AgreeUpTo ρ φ g g' (f s).1) : AgreeUpTo ρ φ (f >> g) (f >> g') s := by
  refine ⟨h.1, ?_⟩
  rw [andThen_snd, andThen_snd, List.flatMap_append, List.flatMap_append, h.2]

/-- The same second step, if it does not look behind the view. -/
theorem AgreeUpTo.before (h : AgreeUpTo ρ φ f f' s) (hg : Respects ρ φ g) :
    AgreeUpTo ρ φ (f >> g) (f' >> g) s := by
  obtain ⟨hs, ho⟩ := hg _ _ h.1
  refine ⟨hs, ?_⟩
  rw [andThen_snd, andThen_snd, List.flatMap_append, List.flatMap_append, h.2, ho]

/-! ## Input in pieces -/

variable {read : List α → Emits σ ε} {I : σ → Prop}

/-- A machine that may be handed its input one symbol earlier may be handed it
in any two pieces. -/
theorem agreeUpTo_append_of_peel (hnil : ∀ as, (read [] >> read as) = read as)
    (hkeep : ∀ a, Keeps I (read [a])) (hresp : ∀ as, Respects ρ φ (read as))
    (hpeel : ∀ a as s, I s → AgreeUpTo ρ φ (read (a :: as)) (read [a] >> read as) s)
    (as bs : List α) (s : σ) (hs : I s) :
    AgreeUpTo ρ φ (read (as ++ bs)) (read as >> read bs) s := by
  induction as generalizing s with
  | nil =>
    rw [List.nil_append, hnil]
    exact AgreeUpTo.refl _ _
  | cons a as ih =>
    have h1 : AgreeUpTo ρ φ (read (a :: (as ++ bs))) (read [a] >> read (as ++ bs)) s :=
      hpeel a (as ++ bs) s hs
    have h2 : AgreeUpTo ρ φ (read [a] >> read (as ++ bs)) (read [a] >> (read as >> read bs)) s :=
      (ih _ (hkeep a s hs)).after
    have h3 : AgreeUpTo ρ φ (read (a :: as) >> read bs) ((read [a] >> read as) >> read bs) s :=
      (hpeel a as s hs).before (hresp bs)
    rw [andThen_assoc] at h3
    exact (h1.trans h2).trans h3.symm

theorem agreeAt_append_of_peel (hnil : read [] = skip) (hkeep : ∀ a, Keeps I (read [a]))
    (hpeel : ∀ a as s, I s → AgreeAt φ (read (a :: as)) (read [a] >> read as) s)
    (as bs : List α) (s : σ) (hs : I s) : AgreeAt φ (read (as ++ bs)) (read as >> read bs) s := by
  refine agreeUpTo_append_of_peel (ρ := id) (fun as => ?_) hkeep ?_ hpeel as bs s hs
  · rw [hnil, skip_andThen]
  · rintro as s t rfl
    exact ⟨rfl, rfl⟩

/-- **The pieces do not matter.** -/
theorem agreeUpTo_readAll (hkeep : ∀ as, Keeps I (read as))
    (happ : ∀ as bs s, I s → AgreeUpTo ρ φ (read (as ++ bs)) (read as >> read bs) s)
    (ps : List (List α)) (s : σ) (hs : I s) :
    AgreeUpTo ρ φ (readAll read ps >> read []) (read ps.flatten) s := by
  induction ps generalizing s with
  | nil => exact AgreeUpTo.refl _ _
  | cons p ps ih =>
    rw [readAll_cons, andThen_assoc]
    exact ((ih _ (hkeep p s hs)).after).trans (happ p ps.flatten s hs).symm

end Postroom.Lib.Emits
