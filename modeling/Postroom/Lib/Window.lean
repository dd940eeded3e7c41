/-
Sliding windows over a list of instants.

Something is counted each time it happens, and a limit is to hold in every window of
a given length: in `(t - width, t]` for every `t`, not only for windows that end now.
What a limiter can count before it lets `n` more happen is only what lies in the past,
`since` some instant. `Bounded.append` says that this is enough, even where the instant
`at` it was counted from is older than the instants that are then added: whatever lies
in a window together with them is not older than `at - width`.

The order of the instants does not matter, so lists are compared up to permutation.
-/
import Mathlib.Data.List.Perm.Basic
import Mathlib.Data.List.Nodup

set_option autoImplicit false

namespace Postroom.Lib

open List

/-- How many instants are not before `start`. -/
def since (start : ℕ) (stamps : List ℕ) : ℕ := stamps.countP (start ≤ ·)

/-- How many instants lie in the window of length `width` that ends at `t`. -/
def within (width t : ℕ) (stamps : List ℕ) : ℕ := stamps.countP fun s => t < s + width && s ≤ t

/-- No window of length `width` has more than `cap` of the instants. -/
def Bounded (width cap : ℕ) (stamps : List ℕ) : Prop := ∀ t, within width t stamps ≤ cap

section windows

variable {width cap n start now : ℕ} {old new both : List ℕ}

/-- A window that ends after `start` has nothing older than `start - width`. -/
theorem within_le_since {t : ℕ} (h : start ≤ t) :
    within width t old ≤ since (start - width) old := by
  refine countP_mono_left fun s _ hs => ?_
  simp only [Bool.and_eq_true, decide_eq_true_eq] at hs ⊢
  omega

theorem bounded_nil : Bounded width cap [] := fun _ => Nat.zero_le _

/-- **The limiter's step.** There is room for `n` more, counted from `start`; at most
`n` are added, at the instant `now`. -/
theorem Bounded.append (hold : Bounded width cap old) (hroom : since (start - width) old + n ≤ cap)
    (hlen : new.length ≤ n) (hnow : ∀ s ∈ new, s = now) (hstart : start ≤ now)
    (hboth : both.Perm (old ++ new)) :
    Bounded width cap both := by
  intro t
  have hsum : within width t both = within width t old + within width t new := by
    unfold within
    rw [hboth.countP_eq, countP_append]
  by_cases hin : t < now + width ∧ now ≤ t
  · -- the window holds the new ones: all that it holds was counted
    have hold' : within width t old ≤ since (start - width) old :=
      within_le_since (Nat.le_trans hstart hin.2)
    have hnew : within width t new ≤ new.length := countP_le_length
    omega
  · have hnone : within width t new = 0 := by
      refine countP_eq_zero.mpr fun s hs => ?_
      rw [hnow s hs]
      simpa only [Bool.and_eq_true, decide_eq_true_eq] using hin
    rw [hsum, hnone]
    exact hold t

end windows

/-- One of several lists grows. -/
theorem flatMap_update_perm {α β : Type} {f g : α → List β} {a : α} {new : List β}
    (ha : g a = f a ++ new)
    (hother : ∀ b, b ≠ a → g b = f b) {l : List α} (hmem : a ∈ l) (hnodup : l.Nodup) :
    (l.flatMap g).Perm (l.flatMap f ++ new) := by
  induction l with
  | nil => cases hmem
  | cons b l ih =>
    rw [flatMap_cons, flatMap_cons]
    obtain ⟨hb, hl⟩ := nodup_cons.mp hnodup
    rcases mem_cons.mp hmem with rfl | hmem
    · have hsame : l.flatMap g = l.flatMap f := by
        refine flatMap_congr fun c hc => hother c ?_
        rintro rfl
        exact hb hc
      rw [ha, hsame, append_assoc, append_assoc]
      exact List.Perm.append_left _ perm_append_comm
    · have hne : b ≠ a := by
        rintro rfl
        exact hb hmem
      rw [hother b hne, append_assoc]
      exact List.Perm.append_left _ (ih hmem hl)

end Postroom.Lib
