/-
Machines that emit: state transformers that also say something.

An `Emits σ ε` takes a state to the next one and the list of what it emitted on
the way. They compose in order (`>>`), and that composition is associative with
`skip` as its unit, so a program is a chain of such steps.

Two programs are compared at a state, up to how what they emit is seen
(`AgreeAt`): they must end in the same state and emit lists that look the same
once every emission is taken apart by `φ`. What a listener cannot tell apart --
two pieces of a text sent one after the other, and the text sent at once -- is
then equal. `Keeps` is the invariant rule for the same chains.

The last section is about input that arrives in pieces: a machine that reads
`a ++ b` as it reads `a` and then `b` cannot see where its input was cut.
-/
import Mathlib.Data.List.Basic

set_option autoImplicit false

namespace Postroom.Lib

variable {σ ε ε' α : Type*}

/-- A step that changes the state and emits. -/
abbrev Emits (σ ε : Type*) := σ → σ × List ε

namespace Emits

/-- Nothing happens. -/
def skip : Emits σ ε := fun s => (s, [])

/-- One step after another. -/
def seq (f g : Emits σ ε) : Emits σ ε := fun s =>
  ((g (f s).1).1, (f s).2 ++ (g (f s).1).2)

instance : AndThen (Emits σ ε) := ⟨fun f g => seq f (g ())⟩

/-- Change the state and say nothing. -/
def update (u : σ → σ) : Emits σ ε := fun s => (u s, [])

/-- Say one thing. -/
def emit (e : ε) : Emits σ ε := fun s => (s, [e])

@[simp] theorem skip_apply (s : σ) : (skip : Emits σ ε) s = (s, []) := rfl

theorem andThen_apply (f g : Emits σ ε) (s : σ) :
    (f >> g) s = ((g (f s).1).1, (f s).2 ++ (g (f s).1).2) := rfl

@[simp] theorem andThen_fst (f g : Emits σ ε) (s : σ) : ((f >> g) s).1 = (g (f s).1).1 := rfl

@[simp] theorem andThen_snd (f g : Emits σ ε) (s : σ) :
    ((f >> g) s).2 = (f s).2 ++ (g (f s).1).2 := rfl

@[simp] theorem skip_andThen (f : Emits σ ε) : (skip >> f) = f := rfl

@[simp] theorem andThen_skip (f : Emits σ ε) : (f >> skip) = f := by
  funext s
  exact Prod.ext rfl (List.append_nil _)

theorem andThen_assoc (f g h : Emits σ ε) : ((f >> g) >> h) = (f >> (g >> h)) := by
  funext s
  exact Prod.ext rfl (List.append_assoc _ _ _)

/-! ## Invariants -/

/-- The step keeps `I`. -/
def Keeps (I : σ → Prop) (f : Emits σ ε) : Prop := ∀ s, I s → I (f s).1

variable {I : σ → Prop}

theorem Keeps.skip : Keeps I (skip : Emits σ ε) := fun _ h => h

theorem Keeps.andThen {f g : Emits σ ε} (hf : Keeps I f) (hg : Keeps I g) :
    Keeps I (f >> g) := fun s h => hg _ (hf s h)

/-! ## Agreement up to what is seen -/

/-- From `s`, both end in one state and what they emit looks the same. -/
def AgreeAt (φ : ε → List ε') (f g : Emits σ ε) (s : σ) : Prop :=
  (f s).1 = (g s).1 ∧ (f s).2.flatMap φ = (g s).2.flatMap φ

variable {φ : ε → List ε'} {f f' g g' h : Emits σ ε} {s : σ}

theorem AgreeAt.refl (f : Emits σ ε) (s : σ) : AgreeAt φ f f s := ⟨rfl, rfl⟩

theorem AgreeAt.of_eq (h : f s = g s) : AgreeAt φ f g s := by
  rw [AgreeAt, h]
  exact ⟨rfl, rfl⟩

theorem AgreeAt.symm (h : AgreeAt φ f g s) : AgreeAt φ g f s := ⟨h.1.symm, h.2.symm⟩

theorem AgreeAt.trans (h1 : AgreeAt φ f g s) (h2 : AgreeAt φ g h s) : AgreeAt φ f h s :=
  ⟨h1.1.trans h2.1, h1.2.trans h2.2⟩

/-- Agreement composes: the second steps only need to agree where the first
ones end. -/
theorem AgreeAt.andThen (h1 : AgreeAt φ f f' s) (h2 : AgreeAt φ g g' (f s).1) :
    AgreeAt φ (f >> g) (f' >> g') s := by
  obtain ⟨hs, ho⟩ := h1
  refine ⟨?_, ?_⟩
  · rw [andThen_fst, andThen_fst, ← hs]
    exact h2.1
  · rw [andThen_snd, andThen_snd, List.flatMap_append, List.flatMap_append, ho, ← hs, h2.2]

/-- The same first step. -/
theorem AgreeAt.after (h2 : AgreeAt φ g g' (f s).1) : AgreeAt φ (f >> g) (f >> g') s :=
  (AgreeAt.refl f s).andThen h2

/-- The same second step. -/
theorem AgreeAt.before (h1 : AgreeAt φ f f' s) : AgreeAt φ (f >> g) (f' >> g) s :=
  h1.andThen (AgreeAt.refl g _)

/-! ## Input in pieces -/

section Pieces

variable (read : List α → Emits σ ε)

/-- Read the pieces one after the other. -/
def readAll : List (List α) → Emits σ ε
  | [] => skip
  | p :: ps => read p >> readAll ps

@[simp] theorem readAll_nil : readAll read [] = skip := rfl

@[simp] theorem readAll_cons (p : List α) (ps : List (List α)) :
    readAll read (p :: ps) = (read p >> readAll read ps) := rfl

theorem readAll_append (ps qs : List (List α)) :
    readAll read (ps ++ qs) = (readAll read ps >> readAll read qs) := by
  induction ps with
  | nil => rfl
  | cons p ps ih => rw [List.cons_append, readAll_cons, readAll_cons, ih, andThen_assoc]

theorem Keeps.readAll {I : σ → Prop} (hread : ∀ p, Keeps I (read p)) (ps : List (List α)) :
    Keeps I (Emits.readAll read ps) := by
  induction ps with
  | nil => exact Keeps.skip
  | cons p ps ih => exact (hread p).andThen ih

end Pieces

end Emits

end Postroom.Lib
