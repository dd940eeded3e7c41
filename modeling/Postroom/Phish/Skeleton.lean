/-
The distance of two names, with a cap (packages/phish/src/skeleton.ts).

`editDistance` fills the table of distances row by row and gives up once a whole row
is over the cap. Strings are lists of UTF-16 units.
-/
import Mathlib.Algebra.Order.Field.Rat
import Mathlib.Tactic.Linarith
import Postroom.Lib.Edits

set_option autoImplicit false

namespace Postroom.Phish

open Lib List

/-- The cells of a row behind its first one: `prev` is the row above from the column on
that stands left of the next cell, `left` the cell before that one. -/
def editDistance.row (c : UInt16) : List UInt16 → List ℕ → ℕ → List ℕ
  | d :: b, diag :: up :: prev, left =>
    let cost := if c = d then 0 else 1
    let value := min (min (up + 1) (left + 1)) (diag + cost)
    value :: editDistance.row c b (up :: prev) value
  | _, _, _ => []

/-- The loop over the rest of `a`, from row `i` on. -/
def editDistance.rows (b : List UInt16) (cap : ℚ) : List UInt16 → ℕ → List ℕ → ℚ
  | [], _, prev => match prev[b.length]? with
    | some n => n
    | none => cap + 1
  | c :: a, i, prev =>
    let next := i :: editDistance.row c b prev i
    let rowMin := next.foldl min i
    if cap < rowMin then cap + 1 else editDistance.rows b cap a (i + 1) next

/-- Levenshtein edit distance, capped. -/
def editDistance (a b : List UInt16) (cap : ℚ) : ℚ :=
  if cap < |(a.length : ℚ) - b.length| then cap + 1
    else editDistance.rows b cap a 1 (range (b.length + 1))

/-- A row of the table, from the prefix `v` on. -/
noncomputable def distances (u v b : List UInt16) : List ℕ :=
  b.inits.map fun w => levenshtein u (v ++ w)

theorem distances_cons (u v : List UInt16) (d : UInt16) (b : List UInt16) :
    distances u v (d :: b) = levenshtein u v :: distances u (v ++ [d]) b := by
  simp [distances]

theorem distances_eq_cons (u v b : List UInt16) :
    distances u v b = levenshtein u v :: (distances u v b).tail := by
  cases b with
  | nil => simp [distances]
  | cons d b => rw [distances_cons, tail_cons]

/-- The inner loop computes the next row. -/
theorem row_eq (c : UInt16) (u v b : List UInt16) :
    editDistance.row c b (distances u v b) (levenshtein (u ++ [c]) v)
      = (distances (u ++ [c]) v b).tail := by
  induction b generalizing v with
  | nil => simp [editDistance.row, distances]
  | cons d b ih =>
    rw [distances_cons, distances_cons, tail_cons, distances_eq_cons u,
      distances_eq_cons (u ++ [c]),
      editDistance.row, ← distances_eq_cons, ← levenshtein_snoc]
    rw [ih]

theorem foldl_min_le (l : List ℕ) (i : ℕ) : l.foldl min i ≤ i ∧ ∀ n ∈ l, l.foldl min i ≤ n := by
  induction l generalizing i with
  | nil => simp
  | cons m l ih =>
    obtain ⟨hle, hall⟩ := ih (min i m)
    refine ⟨hle.trans (min_le_left i m), forall_mem_cons.mpr ⟨?_, hall⟩⟩
    exact hle.trans (min_le_right i m)

/-- The outer loop, from any row on. -/
theorem rows_capped (a b u : List UInt16) (cap : ℚ) :
    let out := editDistance.rows b cap a (u.length + 1) (distances u [] b)
    (levenshtein (u ++ a) b ≤ cap → out = levenshtein (u ++ a) b)
      ∧ (cap < levenshtein (u ++ a) b → cap < out) := by
  induction a generalizing u with
  | nil =>
    have hlast : (distances u [] b)[b.length]? = some (levenshtein u b) := by simp [distances]
    simp [editDistance.rows, hlast]
  | cons c a ih =>
    have hfirst : levenshtein (u ++ [c]) [] = u.length + 1 := by simp [levenshtein_nil_right]
    have hnext : (u.length + 1) :: editDistance.row c b (distances u [] b) (u.length + 1)
        = distances (u ++ [c]) [] b := by
      rw [← hfirst, row_eq, ← distances_eq_cons]
    have hrest := ih (u ++ [c])
    rw [length_append, length_singleton, append_assoc, singleton_append] at hrest
    dsimp only
    rw [editDistance.rows, hnext]
    split_ifs with hover
    · -- every cell of the row is over the cap, so the rows below are too
      have hcells : ∀ v, v <+: b → (distances (u ++ [c]) [] b).foldl min (u.length + 1)
          ≤ levenshtein (u ++ [c]) v :=
        fun v hv => (foldl_min_le _ _).2 _ (mem_map.mpr ⟨v, (mem_inits ..).mpr hv, rfl⟩)
      have hle := le_levenshtein_append hcells a b (prefix_refl b)
      rw [append_assoc, singleton_append] at hle
      have hlt : cap < levenshtein (u ++ c :: a) b := hover.trans_le (by exact_mod_cast hle)
      exact ⟨fun h => absurd hlt (not_lt.mpr h), fun _ => by linarith⟩
    · exact hrest

/-- **Capped edit distance is Levenshtein distance**: up to the cap it is returned, and
past the cap something past the cap is. -/
theorem editDistance_capped (a b : List UInt16) (cap : ℚ) :
    (levenshtein a b ≤ cap → editDistance a b cap = levenshtein a b)
      ∧ (cap < levenshtein a b → cap < editDistance a b cap) := by
  have hfirst : range (b.length + 1) = distances [] [] b := by
    refine ext_getElem (by simp [distances]) fun i h _ => ?_
    rw [length_range] at h
    simp [distances, levenshtein_nil_left]
    omega
  unfold editDistance
  rw [hfirst]
  split_ifs with hfar
  · -- each edit changes the length by one at most
    obtain ⟨hab, hba⟩ := (edits_levenshtein a b).length
    have hlt : cap < levenshtein a b := by
      refine hfar.trans_le (abs_le.mpr ⟨?_, ?_⟩)
      · rw [neg_le_sub_iff_le_add]
        exact_mod_cast hba
      · rw [sub_le_iff_le_add']
        exact_mod_cast hab
    exact ⟨fun h => absurd hlt (not_lt.mpr h), fun _ => by linarith⟩
  · exact rows_capped a b [] cap

end Postroom.Phish
