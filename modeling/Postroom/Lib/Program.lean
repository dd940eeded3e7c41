/-
Programs that read and change a state and can be left early, and the conditions
under which they establish something.

A program ends in one of three ways: with a value for what follows, with a
result of the whole routine (`return` from inside it), or with an error that was
raised. The state reached so far is kept in each of them, as the variables of an
enclosing `try` are. `wp x Q R E s` says that `x`, started in `s`, establishes
`Q`, `R` or `E` according to how it ends; the rules below compute it along the
program text, so that a proof follows the program from its first line on.

The last section is about histories: lists to which every step only appends, and
properties that say each entry was allowed by the entries before it.
-/
import Mathlib.Data.List.Induction

set_option autoImplicit false

namespace Postroom.Lib

open List

/-- How a program ended. -/
inductive Exit (ρ ε α : Type) where
  | value (a : α)
  | ret (r : ρ)
  | raise (e : ε)

/-- A program over the state `σ`: its value is an `α`, it may return a `ρ` from
the routine it is part of, and it may raise an `ε`. -/
def Program (σ ρ ε α : Type) : Type := σ → Exit ρ ε α × σ

namespace Program

variable {σ ρ ε α β γ : Type}

instance : Monad (Program σ ρ ε) where
  pure a := fun s => (.value a, s)
  bind x f := fun s =>
    match x s with
    | (.value a, s') => f a s'
    | (.ret r, s') => (.ret r, s')
    | (.raise e, s') => (.raise e, s')

theorem bind_apply (x : Program σ ρ ε α) (f : α → Program σ ρ ε β) (s : σ) :
    (x >>= f) s = match x s with
      | (.value a, s') => f a s'
      | (.ret r, s') => (.ret r, s')
      | (.raise e, s') => (.raise e, s') := rfl

/-- Leave the routine with a result. -/
def ret (r : ρ) : Program σ ρ ε α := fun s => (.ret r, s)

/-- Raise an error. -/
def raise (e : ε) : Program σ ρ ε α := fun s => (.raise e, s)

/-- The current state. -/
def get : Program σ ρ ε σ := fun s => (.value s, s)

/-- Change the state. -/
def modify (f : σ → σ) : Program σ ρ ε Unit := fun s => (.value (), f s)

/-- Run `h` in place of the rest when `x` raises; the state is what `x` left. -/
def handle (x : Program σ ρ ε α) (h : ε → Program σ ρ ε α) : Program σ ρ ε α := fun s =>
  match x s with
  | (.raise e, s') => h e s'
  | r => r

/-- A loop over a list that carries a value. -/
def foldEach (f : γ → β → Program σ ρ ε γ) : γ → List β → Program σ ρ ε γ
  | c, [] => pure c
  | c, b :: bs => do
    let c' ← f c b
    foldEach f c' bs

/-- Run a whole routine: its own value and an early return are the same thing,
and an error is turned into a result by `h`. -/
def finish (x : Program σ ρ ε ρ) (h : ε → σ → ρ × σ) (s : σ) : ρ × σ :=
  match x s with
  | (.value r, s') => (r, s')
  | (.ret r, s') => (r, s')
  | (.raise e, s') => h e s'

/-! ## Weakest preconditions -/

/-- What `x` establishes when it is started in `s`, for each way it can end. -/
def wp (x : Program σ ρ ε α) (Q : α → σ → Prop) (R : ρ → σ → Prop) (E : ε → σ → Prop) (s : σ) :
    Prop :=
  match x s with
  | (.value a, s') => Q a s'
  | (.ret r, s') => R r s'
  | (.raise e, s') => E e s'

variable {Q : α → σ → Prop} {R : ρ → σ → Prop} {E : ε → σ → Prop} {s : σ}

@[simp] theorem wp_pure (a : α) : wp (pure a : Program σ ρ ε α) Q R E s ↔ Q a s := Iff.rfl

@[simp] theorem wp_ret (r : ρ) : wp (ret r : Program σ ρ ε α) Q R E s ↔ R r s := Iff.rfl

@[simp] theorem wp_get {Q : σ → σ → Prop} : wp (get : Program σ ρ ε σ) Q R E s ↔ Q s s := Iff.rfl

@[simp] theorem wp_modify (f : σ → σ) {Q : Unit → σ → Prop} :
    wp (modify f : Program σ ρ ε Unit) Q R E s ↔ Q () (f s) := Iff.rfl

/-- **Sequencing.** What follows has to establish the postcondition from wherever
the first part ends with a value. -/
@[simp] theorem wp_bind (x : Program σ ρ ε α) (f : α → Program σ ρ ε β) {Q : β → σ → Prop} :
    wp (x >>= f) Q R E s ↔ wp x (fun a => wp (f a) Q R E) R E s := by
  unfold wp
  rw [bind_apply]
  rcases x s with ⟨a | r | e, s'⟩ <;> exact Iff.rfl

variable {x : Program σ ρ ε α} {Q' : α → σ → Prop} {R' : ρ → σ → Prop} {E' : ε → σ → Prop}

theorem wp_mono (h : wp x Q R E s)
    (hQ : ∀ a s', Q a s' → Q' a s') (hR : ∀ r s', R r s' → R' r s')
    (hE : ∀ e s', E e s' → E' e s') :
    wp x Q' R' E' s := by
  unfold wp at h ⊢
  rcases hx : x s with ⟨a | r | e, s'⟩ <;> rw [hx] at h
  · exact hQ a s' h
  · exact hR r s' h
  · exact hE e s' h

/-- Sequencing after a first part of which a postcondition is known. -/
theorem wp_seq {f : α → Program σ ρ ε β} {Q' : β → σ → Prop} (h : wp x Q R E s)
    (hf : ∀ a s', Q a s' → wp (f a) Q' R E s') : wp (x >>= f) Q' R E s := by
  rw [wp_bind]
  exact wp_mono h hf (fun _ _ h => h) (fun _ _ h => h)

/-- Two things known of the same run. -/
theorem wp_and (h : wp x Q R E s)
    (h' : wp x Q' R' E' s) : wp x (fun a s' => Q a s' ∧ Q' a s') (fun r s' => R r s' ∧ R' r s')
      (fun e s' => E e s' ∧ E' e s') s := by
  unfold wp at *
  rcases hx : x s with ⟨a | r | e, s'⟩ <;> rw [hx] at h h' <;> exact ⟨h, h'⟩

theorem wp_handle {h : ε → Program σ ρ ε α} (hx : wp x Q R (fun e s' => wp (h e) Q R E s') s) :
    wp (handle x h) Q R E s := by
  unfold wp handle at *
  rcases hxs : x s with ⟨a | r | e, s'⟩ <;> rw [hxs] at hx <;> exact hx

/-- **The loop rule.** An invariant of the elements already handled, the carried
value and the state, kept by one turn, holds of the whole list at the end. -/
theorem wp_foldEach {f : γ → β → Program σ ρ ε γ} (I : List β → γ → σ → Prop)
    (done todo : List β) (c : γ) (s : σ) (h0 : I done c s)
    (hturn : ∀ done, ∀ b ∈ todo, ∀ c s, I done c s →
      wp (f c b) (fun c' => I (done ++ [b]) c') R E s) :
    wp (foldEach f c todo) (fun c' => I (done ++ todo) c') R E s := by
  induction todo generalizing done c s with
  | nil =>
    rw [foldEach, wp_pure, append_nil]
    exact h0
  | cons b bs ih =>
    refine wp_seq (hturn done b (mem_cons_self ..) c s h0) ?_
    intro c' s' h'
    have := ih (done ++ [b]) c' s' h' fun done b' hb' => hturn done b' (mem_cons_of_mem _ hb')
    rwa [append_assoc, singleton_append] at this

/-- What a whole routine establishes: its result, and the one its handler makes. -/
theorem finish_of_wp {x : Program σ ρ ε ρ} {h : ε → σ → ρ × σ} {P : ρ × σ → Prop}
    (hx : wp x (fun r s' => P (r, s')) (fun r s' => P (r, s')) (fun e s' => P (h e s')) s) :
    P (finish x h s) := by
  unfold wp finish at *
  rcases hxs : x s with ⟨a | r | e, s'⟩ <;> rw [hxs] at hx <;> exact hx

/-- What holds of the state however the program ends holds of the state it leaves. -/
theorem state_of_wp {P : σ → Prop}
    (hx : wp x (fun _ s' => P s') (fun _ s' => P s') (fun _ s' => P s') s) : P (x s).2 := by
  unfold wp at hx
  rcases hxs : x s with ⟨a | r | e, s'⟩ <;> rw [hxs] at hx <;> exact hx

end Program

/-! ## Histories -/

section Guarded

variable {τ : Type*} {allowed : List τ → τ → Prop} {history : List τ}

/-- Every entry of the history was allowed by the entries before it. -/
def Guarded (allowed : List τ → τ → Prop) (history : List τ) : Prop :=
  ∀ before e after, history = before ++ e :: after → allowed before e

theorem guarded_nil (allowed : List τ → τ → Prop) : Guarded allowed [] := by
  intro before e after h
  cases before <;> cases h

/-- An entry may be appended exactly when the history so far allows it. -/
theorem Guarded.snoc {e : τ}
    (h : Guarded allowed history) (he : allowed history e) : Guarded allowed (history ++ [e]) := by
  intro before e' after heq
  rcases eq_nil_or_concat after with rfl | ⟨after', x, rfl⟩
  · obtain ⟨rfl, h1⟩ := append_inj' heq rfl
    injection h1 with h1 _
    subst h1
    exact he
  · have heq' : history ++ [e] = (before ++ e' :: after') ++ [x] := by
      rw [heq, concat_eq_append]
      simp
    obtain ⟨h1, _⟩ := append_inj' heq' rfl
    exact h before e' after' h1

/-- Entries each of which is allowed behind those before it may be appended together. -/
theorem Guarded.append {more : List τ} (h : Guarded allowed history)
    (hmore : ∀ e ∈ more, ∀ u, u ⊆ more → allowed (history ++ u) e) :
    Guarded allowed (history ++ more) := by
  induction more using List.reverseRecOn with
  | nil => rwa [append_nil]
  | append_singleton es e ih =>
    rw [← append_assoc]
    refine (ih fun e' he' u hu => ?_).snoc ?_
    · exact hmore e' (mem_append_left _ he') u (List.Subset.trans hu (subset_append_left _ _))
    · exact hmore e (mem_append_right _ (mem_singleton.mpr rfl)) es (subset_append_left _ _)

end Guarded

end Postroom.Lib
