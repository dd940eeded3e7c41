/-
Local time: `localToUtc` of packages/ical/src/timezone.ts.

An offset function maps UTC seconds to the offset in force. Where it changes at most
once in 48 hours, the probes a day before and a day after a local time are the only
two offsets that can matter to it; the larger of two that fit is the earlier instant,
and where none fits the local time lies in the gap of the one change between them.
-/
import Mathlib.Data.List.Induction
import Postroom.Ical.Civil

set_option autoImplicit false

namespace Postroom.Ical

variable {offsetAt : ℤ → ℤ}

/-- The body of the loop: a larger offset that is in force at its own instant. -/
def better (offsetAt : ℤ → ℤ) (l : ℤ) (best : Option ℤ) (o : ℤ) : Option ℤ :=
  if offsetAt (l - o) = o && best.all (· < o) then some o else best

/-- Local wall-clock seconds to UTC seconds under an offset function. -/
def localToUtc (offsetAt : ℤ → ℤ) (l : ℤ) : ℤ :=
  let before := offsetAt (l - SECONDS_PER_DAY)
  let after := offsetAt (l + SECONDS_PER_DAY)
  let here := offsetAt l
  l - ([before, after, here].foldl (better offsetAt l) none).getD before

/-- The loop finds the largest offset that is in force at its own instant. -/
theorem foldl_better (offsetAt : ℤ → ℤ) (l : ℤ) (os : List ℤ) :
    (os.foldl (better offsetAt l) none = none ∧ ∀ o ∈ os, offsetAt (l - o) ≠ o)
      ∨ ∃ b, os.foldl (better offsetAt l) none = some b ∧ offsetAt (l - b) = b
        ∧ ∀ o ∈ os, offsetAt (l - o) = o → o ≤ b := by
  induction os using List.reverseRecOn with
  | nil => exact .inl ⟨rfl, nofun⟩
  | append_singleton os o ih =>
    rw [List.foldl_append, List.foldl_cons, List.foldl_nil, better]
    rcases ih with ⟨hnone, hos⟩ | ⟨b, hsome, hb, hos⟩
    · rw [hnone]
      by_cases ho : offsetAt (l - o) = o
      · exact .inr ⟨o, by simp [ho], ho, by grind⟩
      · exact .inl ⟨by simp [ho], by grind⟩
    · rw [hsome]
      by_cases ho : offsetAt (l - o) = o ∧ b < o
      · exact .inr ⟨o, by simp [ho], ho.1, by grind⟩
      · exact .inr ⟨b, if_neg (by simpa using ho), hb, by grind⟩

/-- The offset changes at this instant. -/
def ChangesAt (offsetAt : ℤ → ℤ) (t : ℤ) : Prop := offsetAt (t - 1) ≠ offsetAt t

/-- Without a change the offset stays. -/
theorem constant {a b u : ℤ} (h : ∀ t, a < t → t ≤ b → ¬ChangesAt offsetAt t) (ha : a ≤ u)
    (hb : u ≤ b) :
    offsetAt u = offsetAt a := by
  induction u, ha using Int.leInduction with
  | base => rfl
  | succ u ha ih =>
    have hsame := not_not.mp (h (u + 1) (by omega) hb)
    rw [add_sub_cancel_right, ih (by omega)] at hsame
    exact hsame.symm

/-- Any two changes are 48 hours apart. -/
def Sparse (offsetAt : ℤ → ℤ) : Prop :=
  ∀ t t', ChangesAt offsetAt t → ChangesAt offsetAt t' → t < t' → 172800 ≤ t' - t

/-- Between the probes there is at most one change. -/
theorem Sparse.probes (h : Sparse offsetAt) (l : ℤ) :
    (∀ u, l - 86400 ≤ u → u ≤ l + 86400 → offsetAt u = offsetAt (l - 86400))
      ∨ ∃ t, ChangesAt offsetAt t ∧ (∀ u, l - 86400 ≤ u → u < t → offsetAt u = offsetAt (l - 86400))
        ∧ ∀ u, t ≤ u → u ≤ l + 86400 → offsetAt u = offsetAt (l + 86400) := by
  by_cases hone : ∃ t, ChangesAt offsetAt t ∧ l - 86400 < t ∧ t ≤ l + 86400
  · obtain ⟨t, ht, hlo, hhi⟩ := hone
    have hno : ∀ t', ChangesAt offsetAt t' → l - 86400 < t' → t' ≤ l + 86400 → t' = t := by
      intro t' ht' hlo' hhi'
      have hlt := h t t' ht ht'
      have hgt := h t' t ht' ht
      omega
    refine .inr ⟨t, ht, fun u hu hut => ?_, fun u htu hu => ?_⟩
    · refine constant (b := t - 1) (fun t' hlo' hhi' ht' => ?_) hu (by omega)
      have := hno t' ht' hlo' (by omega)
      omega
    · have hafter : ∀ {u}, t ≤ u → u ≤ l + 86400 → offsetAt u = offsetAt t := by
        refine constant fun t' hlo' hhi' ht' => ?_
        have := hno t' ht' (by omega) hhi'
        omega
      rw [hafter htu hu, hafter hhi (Int.le_refl _)]
  · exact .inl fun u => constant fun t hlo hhi ht => hone ⟨t, ht, hlo, hhi⟩

/-- **RFC 5545's rule.** The earliest instant with this local time, if there is one; in
a gap, the instant under the offset that was in force before it. -/
theorem localToUtc_rule (offsetAt : ℤ → ℤ) (hbound : ∀ u, |offsetAt u| < 86400)
    (hsparse : Sparse offsetAt) (l : ℤ) :
    ((∃ u, u + offsetAt u = l) → IsLeast {u | u + offsetAt u = l} (localToUtc offsetAt l))
      ∧ ((∀ u, u + offsetAt u ≠ l) → ∃ t, ChangesAt offsetAt t ∧ t + offsetAt (t - 1) ≤ l
        ∧ l < t + offsetAt t
        ∧ localToUtc offsetAt l = l - offsetAt (t - 1)) := by
  have hrange : ∀ u, -86400 < offsetAt u ∧ offsetAt u < 86400 := fun u => abs_lt.mp (hbound u)
  have hfits : ∀ u, u + offsetAt u = l → offsetAt u ∈ [offsetAt (l - 86400), offsetAt (l + 86400),
      offsetAt l] := by
    intro u hu
    have hu' := hrange u
    rcases hsparse.probes l with hall | ⟨t, -, hbefore, hafter⟩
    · simp [hall u (by omega) (by omega)]
    · rcases lt_or_ge u t with hut | htu
      · simp [hbefore u (by omega) hut]
      · simp [hafter u htu (by omega)]
  unfold localToUtc SECONDS_PER_DAY
  dsimp only
  rcases foldl_better offsetAt l [offsetAt (l - 86400), offsetAt (l + 86400), offsetAt l] with
    ⟨hnone, hno⟩ | ⟨b, hsome, hb, hmax⟩
  · -- a gap: neither probe is in force at its own instant
    rw [hnone, Option.getD_none]
    refine ⟨?_, fun _ => ?_⟩
    · rintro ⟨u, hu⟩
      exact absurd (congrArg offsetAt (by omega)) (hno _ (hfits u hu))
    · have hb := hrange (l - 86400)
      have ha := hrange (l + 86400)
      have hnob := hno (offsetAt (l - 86400)) (by simp)
      have hnoa := hno (offsetAt (l + 86400)) (by simp)
      rcases hsparse.probes l with hall | ⟨t, ht, hbefore, hafter⟩
      · exact absurd (hall _ (by omega) (by omega)) hnob
      · have hlate : t ≤ l - offsetAt (l - 86400) := by
          by_contra hlt
          exact hnob (hbefore _ (by omega) (by omega))
        have hearly : l - offsetAt (l + 86400) < t := by
          by_contra hge
          exact hnoa (hafter _ (by omega) (by omega))
        have hold := hbefore (t - 1) (by omega) (by omega)
        have hnew := hafter t (Int.le_refl t) (by omega)
        exact ⟨t, ht, by omega, by omega, by rw [hold]⟩
  · rw [hsome, Option.getD_some]
    have hsolves : l - b + offsetAt (l - b) = l := by
      rw [hb]
      exact sub_add_cancel l b
    refine ⟨fun _ => ⟨hsolves, fun u hu => ?_⟩, fun h => absurd hsolves (h _)⟩
    replace hu : u + offsetAt u = l := hu
    have hle := hmax _ (hfits u hu) (congrArg offsetAt (by omega))
    omega

/-- An hour forward at instant 0: half past midnight is in the gap. -/
theorem localToUtc_rule_spring : localToUtc (fun u => if u < 0 then 0 else 3600) 1800 = 1800 := by
  have hrule := localToUtc_rule (fun u => if u < 0 then 0 else 3600)
    (fun u => by split_ifs <;> decide)
    (fun t t' ht ht' => by simp only [ChangesAt] at ht ht'; split_ifs at ht ht' <;> omega) 1800
  obtain ⟨t, -, hle, -, heq⟩ := hrule.2 fun u => by split_ifs <;> omega
  rw [heq]
  split_ifs at hle ⊢ <;> omega

end Postroom.Ical
