/-
Edit scripts and the distance they measure, for strings over any alphabet.

The distance of two strings is the least number of edits that make one of the other.
`levenshtein_snoc` is the recurrence of the table that is filled to compute it, and
`le_levenshtein_append` says that no row of the table has anything smaller than the
row above it.
-/
import Mathlib.Order.Lattice.Nat
import Mathlib.Data.List.Induction

set_option autoImplicit false

namespace Postroom.Lib

open List

variable {α : Type*}

/-- `n` edits, made from left to right, lead from one string to the other. -/
inductive Edits : List α → List α → ℕ → Prop
  | nil : Edits [] [] 0
  | keep {a b : List α} {n : ℕ} (x : α) : Edits a b n → Edits (a ++ [x]) (b ++ [x]) n
  | substitute {a b : List α} {n : ℕ} (x y : α) : Edits a b n → Edits (a ++ [x]) (b ++ [y]) (n + 1)
  | delete {a b : List α} {n : ℕ} (x : α) : Edits a b n → Edits (a ++ [x]) b (n + 1)
  | insert {a b : List α} {n : ℕ} (y : α) : Edits a b n → Edits a (b ++ [y]) (n + 1)

variable {a b u v : List α} {x y : α} {n : ℕ}

/-- The Levenshtein distance. -/
noncomputable def levenshtein (a b : List α) : ℕ := sInf {n | Edits a b n}

/-- One string is deleted and the other one inserted. -/
theorem edits_all (a b : List α) : Edits a b (a.length + b.length) := by
  induction b using reverseRecOn with
  | nil =>
    induction a using reverseRecOn with
    | nil => exact .nil
    | append_singleton a x ih => simpa using ih.delete x
  | append_singleton b y ih => simpa [Nat.add_assoc] using ih.insert y

theorem edits_levenshtein (a b : List α) : Edits a b (levenshtein a b) :=
  Nat.sInf_mem ⟨_, edits_all a b⟩

theorem levenshtein_le (h : Edits a b n) : levenshtein a b ≤ n := Nat.sInf_le h

theorem Edits.length (h : Edits a b n) : a.length ≤ b.length + n ∧ b.length ≤ a.length + n := by
  induction h with
  | nil => simp
  | keep | substitute | delete | insert =>
    simp only [length_append, length_singleton]
    omega

theorem levenshtein_nil_right (a : List α) : levenshtein a [] = a.length :=
  le_antisymm (by simpa using levenshtein_le (edits_all a []))
    (by simpa using (edits_levenshtein a []).length.1)

theorem levenshtein_nil_left (b : List α) : levenshtein [] b = b.length :=
  le_antisymm (by simpa using levenshtein_le (edits_all [] b))
    (by simpa using (edits_levenshtein [] b).length.2)

theorem snoc_inj (h : u ++ [x] = v ++ [y]) : u = v ∧ x = y := by
  simpa using append_inj' h rfl

/-- The last edit. -/
theorem Edits.last (h : Edits (u ++ [x]) (v ++ [y]) n) :
    x = y ∧ Edits u v n ∨ ∃ m, n = m + 1
      ∧ (Edits u v m ∨ Edits u (v ++ [y]) m ∨ Edits (u ++ [x]) v m) := by
  generalize ha : u ++ [x] = a at h
  generalize hb : v ++ [y] = b at h
  cases h with
  | nil => simp at ha
  | keep z h =>
    obtain ⟨rfl, rfl⟩ := snoc_inj ha
    obtain ⟨rfl, rfl⟩ := snoc_inj hb
    exact .inl ⟨rfl, h⟩
  | substitute p q h =>
    obtain ⟨rfl, rfl⟩ := snoc_inj ha
    obtain ⟨rfl, rfl⟩ := snoc_inj hb
    exact .inr ⟨_, rfl, .inl h⟩
  | delete p h =>
    obtain ⟨rfl, rfl⟩ := snoc_inj ha
    exact .inr ⟨_, rfl, .inr (.inl (hb ▸ h))⟩
  | insert q h =>
    obtain ⟨rfl, rfl⟩ := snoc_inj hb
    exact .inr ⟨_, rfl, .inr (.inr (ha ▸ h))⟩

variable [DecidableEq α]

/-- **The recurrence** of the table. -/
theorem levenshtein_snoc (u v : List α) (x y : α) :
    levenshtein (u ++ [x]) (v ++ [y]) =
      min (min (levenshtein u (v ++ [y]) + 1) (levenshtein (u ++ [x]) v + 1))
        (levenshtein u v + if x = y then 0 else 1) := by
  refine le_antisymm (le_min (le_min ?_ ?_) ?_) ?_
  · exact levenshtein_le ((edits_levenshtein u (v ++ [y])).delete x)
  · exact levenshtein_le ((edits_levenshtein (u ++ [x]) v).insert y)
  · split_ifs with hxy
    · exact levenshtein_le (hxy ▸ (edits_levenshtein u v).keep x)
    · exact levenshtein_le ((edits_levenshtein u v).substitute x y)
  · rcases (edits_levenshtein (u ++ [x]) (v ++ [y])).last with ⟨rfl, h⟩ | ⟨m, hm, h | h | h⟩
    · simpa using .inr (levenshtein_le h)
    all_goals
      have hle := levenshtein_le h
      split_ifs <;> omega

/-- No row has anything smaller than the row above it. -/
theorem le_levenshtein_append (h : ∀ v, v <+: b → n ≤ levenshtein u v) (w : List α) :
    ∀ v, v <+: b → n ≤ levenshtein (u ++ w) v := by
  induction w using reverseRecOn with
  | nil => simpa using h
  | append_singleton w x ih =>
    intro v hv
    rw [← append_assoc]
    induction v using reverseRecOn with
    | nil =>
      have hle := ih [] nil_prefix
      rw [levenshtein_nil_right] at hle ⊢
      rw [length_append]
      omega
    | append_singleton v y ihv =>
      have hprev := (prefix_append v [y]).trans hv
      have hup := ih _ hv
      have hdiag := ih v hprev
      have hleft := ihv hprev
      rw [levenshtein_snoc]
      omega

end Postroom.Lib
