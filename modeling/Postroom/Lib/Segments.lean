/-
Streams cut into segments.

A `Push β ε α` pushes output as it goes and then returns or fails; what it pushed
before it failed stays pushed. A machine of this kind is fed in chunks (`feedAll`),
and one that keeps what it cannot use yet and cuts `n` symbols off while more than
`n` are there (`drain`) does not see where its input was cut.

Whether a segment is the last one is known only at the end of the input. What is
drained and then flushed is one list of segments (`segments`): all but the last have
exactly `n` symbols, the last at most `n`, and it is empty only if the input is.
-/
import Mathlib.Data.List.Basic

set_option autoImplicit false

namespace Postroom.Lib

open List

/-- What was pushed, and how it ended. -/
@[ext] structure Push (β ε α : Type) where
  pushed : List β
  ended : Except ε α

namespace Push

variable {α β ε ε' γ σ : Type}

instance : Monad (Push β ε) where
  pure a := ⟨[], .ok a⟩
  bind x f :=
    match x.ended with
    | .error e => ⟨x.pushed, .error e⟩
    | .ok a => ⟨x.pushed ++ (f a).pushed, (f a).ended⟩

/-- Push `out`. -/
def push (out : List β) : Push β ε Unit := ⟨out, .ok ()⟩

/-- Fail with `e`. -/
def fail (e : ε) : Push β ε α := ⟨[], .error e⟩

/-- A computation that pushes nothing. -/
def lift (x : Except ε α) : Push β ε α := ⟨[], x⟩

/-- What a handler makes of the failure. -/
def mapError (g : ε → ε') (x : Push β ε α) : Push β ε' α := ⟨x.pushed, x.ended.mapError g⟩

theorem ok_bind (out : List β) (a : α) (f : α → Push β ε γ) :
    ((⟨out, .ok a⟩ : Push β ε α) >>= f) = ⟨out ++ (f a).pushed, (f a).ended⟩ := rfl

@[simp] theorem fail_bind (e : ε) (f : α → Push β ε γ) : (fail e >>= f) = fail e := rfl

@[simp] theorem lift_ok (a : α) : (lift (.ok a) : Push β ε α) = pure a := rfl

@[simp] theorem lift_error (e : ε) : (lift (.error e) : Push β ε α) = fail e := rfl

instance : LawfulMonad (Push β ε) := LawfulMonad.mk' _
  (fun x => by
    obtain ⟨out, a | a⟩ := x
    · rfl
    · exact Push.ext (append_nil _) rfl)
  (fun a f => rfl)
  (fun x f g => by
    obtain ⟨out, e | a⟩ := x
    · rfl
    -- `f` may fail in its turn
    · show (⟨out, .ok a⟩ >>= f) >>= g = _
      rw [ok_bind, ok_bind]
      obtain ⟨out', e' | b⟩ := f a
      · rfl
      · exact Push.ext (append_assoc _ _ _) rfl)

@[simp] theorem push_bind (out : List β) (f : Unit → Push β ε γ) :
    (push out >>= f) = ⟨out ++ (f ()).pushed, (f ()).ended⟩ := rfl

theorem mapError_bind (g : ε → ε') (x : Push β ε α) (f : α → Push β ε γ) :
    mapError g (x >>= f) = mapError g x >>= fun a => mapError g (f a) := by
  obtain ⟨out, e | a⟩ := x
  · rfl
  · rfl

/-! ## Input in chunks -/

/-- Feed the chunks one after the other; a failure ends the stream. -/
def feedAll (step : σ → List α → Push β ε σ) : σ → List (List α) → Push β ε σ
  | s, [] => pure s
  | s, c :: cs => step s c >>= fun s' => feedAll step s' cs

theorem feedAll_mapError (g : ε → ε') (step : σ → List α → Push β ε σ) (s : σ)
    (cs : List (List α)) :
    feedAll (fun s c => mapError g (step s c)) s cs = mapError g (feedAll step s cs) := by
  induction cs generalizing s with
  | nil => rfl
  | cons c cs ih =>
    simp only [feedAll, ih]
    rw [mapError_bind]

end Push

/-! ## Draining -/

variable {fuel : ℕ}

section Drain

variable {α β ε : Type}

/-- Cut `n` symbols off and hand them on, with their number, while more than `n`
are there. -/
def drainFuel (n : ℕ) (f : ℕ → List α → Push β ε Unit) : ℕ → List α → ℕ → Push β ε (List α × ℕ)
  | 0, pending, index => pure (pending, index)
  | fuel + 1, pending, index =>
    if n < pending.length then
      f index (pending.take n) >>= fun _ => drainFuel n f fuel (pending.drop n) (index + 1)
    else pure (pending, index)

/-- Every turn takes `n` symbols, so their number is fuel enough. -/
def drain (n : ℕ) (f : ℕ → List α → Push β ε Unit) (pending : List α) (index : ℕ) :
    Push β ε (List α × ℕ) :=
  drainFuel n f pending.length pending index

variable {n : ℕ} {f : ℕ → List α → Push β ε Unit} {pending : List α}

theorem drainFuel_enough (hn : 0 < n) (h : pending.length ≤ fuel) (index : ℕ) :
    drainFuel n f fuel pending index = drain n f pending index := by
  induction fuel using Nat.strongRecOn generalizing pending index with
  | _ fuel ih =>
    unfold drain
    rcases fuel with _ | fuel
    · rw [Nat.le_zero.mp h]
    rcases hp : pending.length with _ | k
    · rw [drainFuel, drainFuel, if_neg (by omega)]
    rw [drainFuel, drainFuel]
    by_cases hlong : n < pending.length
    · rw [if_pos hlong, if_pos hlong]
      have hdrop : (pending.drop n).length ≤ fuel ∧ (pending.drop n).length ≤ k := by
        rw [length_drop]
        omega
      refine bind_congr fun _ => ?_
      rw [ih fuel (by omega) hdrop.1, ih k (by omega) hdrop.2]
    · rw [if_neg hlong, if_neg hlong]

theorem drain_short (h : pending.length ≤ n) (index : ℕ) :
    drain n f pending index = pure (pending, index) := by
  unfold drain
  rcases hp : pending.length with _ | k
  · rfl
  · rw [drainFuel, if_neg (by omega)]

theorem drain_long (hn : 0 < n) (h : n < pending.length) (index : ℕ) : drain n f pending index
      = f index (pending.take n) >>= fun _ => drain n f (pending.drop n) (index + 1) := by
  have hlen : (pending.drop n).length ≤ pending.length - 1 := by
    rw [length_drop]
    omega
  conv_lhs => unfold drain
  obtain ⟨k, hk⟩ : ∃ k, pending.length = k + 1 := ⟨pending.length - 1, by omega⟩
  rw [hk, drainFuel, if_pos h]
  refine bind_congr fun _ => ?_
  exact drainFuel_enough hn (by omega) _

/-- What is drained later is drained of what was left. -/
theorem drain_append (hn : 0 < n) (pending more : List α) (index : ℕ) :
    drain n f (pending ++ more) index
      = drain n f pending index >>= fun r => drain n f (r.1 ++ more) r.2 := by
  induction hk : pending.length using Nat.strongRecOn generalizing pending index with
  | _ k ih =>
    by_cases hlong : n < pending.length
    · have hlong' : n < (pending ++ more).length := by
        rw [length_append]
        omega
      have hdrop : (pending.drop n).length < k := by
        rw [length_drop]
        omega
      rw [drain_long hn hlong', drain_long hn hlong, take_append_of_le_length (by omega),
        drop_append_of_le_length (by omega), bind_assoc]
      refine bind_congr fun _ => ?_
      exact ih _ hdrop _ _ rfl
    · have hshort : drain n f pending index = pure (pending, index) := drain_short (by omega) _
      rw [hshort, pure_bind]

/-- **The chunks do not matter**, as long as there is one. -/
theorem feedAll_drain (hn : 0 < n) (p : List α × ℕ) (c : List α) (cs : List (List α)) :
    Push.feedAll (fun r c => drain n f (r.1 ++ c) r.2) p (c :: cs)
      = drain n f (p.1 ++ (c :: cs).flatten) p.2 := by
  induction cs generalizing p c with
  | nil => simp [Push.feedAll]
  | cons c' cs ih =>
    rw [Push.feedAll, flatten_cons, ← append_assoc, drain_append hn (p.1 ++ c)]
    exact bind_congr fun r => ih r c'

end Drain

/-! ## Segments -/

section Segments

variable {α β ε : Type}

/-- A piece of the input, its number and whether it is the last. -/
@[ext] structure Segment (α : Type) where
  index : ℕ
  last : Bool
  body : List α

def segmentsFuel (n : ℕ) : ℕ → List α → ℕ → List (Segment α)
  | 0, x, index => [⟨index, true, x⟩]
  | fuel + 1, x, index =>
    if n < x.length then ⟨index, false, x.take n⟩ :: segmentsFuel n fuel (x.drop n) (index + 1)
    else [⟨index, true, x⟩]

/-- The segments of `x`, counted from `index`. -/
def segments (n : ℕ) (x : List α) (index : ℕ) : List (Segment α) := segmentsFuel n x.length x index

/-- What the segments are made of. -/
def content (ss : List (Segment α)) : List α := ss.flatMap (·.body)

@[simp] theorem content_nil : content ([] : List (Segment α)) = [] := rfl

@[simp] theorem content_cons (s : Segment α) (ss : List (Segment α)) :
    content (s :: ss) = s.body ++ content ss := flatMap_cons

/-- All but the last have `n` symbols, the last has at most `n`, and something
follows every segment that is not the last. -/
inductive Segmented (n : ℕ) : ℕ → List (Segment α) → Prop
  | last {index : ℕ} {x : List α} (h : x.length ≤ n) : Segmented n index [⟨index, true, x⟩]
  | more {index : ℕ} {x : List α} {ss : List (Segment α)} (h : x.length = n)
    (hmore : 0 < (content ss).length)
      (hss : Segmented n (index + 1) ss) : Segmented n index (⟨index, false, x⟩ :: ss)

variable {n : ℕ}

theorem segmentsFuel_spec (hn : 0 < n) {x : List α} (h : x.length ≤ fuel) (index : ℕ) :
    Segmented n index (segmentsFuel n fuel x index)
      ∧ content (segmentsFuel n fuel x index) = x := by
  induction fuel generalizing x index with
  | zero =>
    refine ⟨Segmented.last (by omega), ?_⟩
    simp [segmentsFuel]
  | succ fuel ih =>
    rw [segmentsFuel]
    by_cases hlong : n < x.length
    · have hdrop : (x.drop n).length ≤ fuel := by
        rw [length_drop]
        omega
      obtain ⟨hseg, hcontent⟩ := ih hdrop (index + 1)
      rw [if_pos hlong]
      refine ⟨Segmented.more (by rw [length_take]; omega) ?_ hseg, ?_⟩
      · rw [hcontent, length_drop]
        omega
      · rw [content_cons, hcontent, take_append_drop]
    · rw [if_neg hlong]
      refine ⟨Segmented.last (by omega), ?_⟩
      simp

theorem segmented_segments (hn : 0 < n) (x : List α) (index : ℕ) :
    Segmented n index (segments n x index) :=
  (segmentsFuel_spec hn (Nat.le_refl _) index).1

@[simp] theorem content_segments (hn : 0 < n) (x : List α) (index : ℕ) :
    content (segments n x index) = x :=
  (segmentsFuel_spec hn (Nat.le_refl _) index).2

variable {index : ℕ} {ss : List (Segment α)} {f : Segment α → Push β ε Unit}

/-- There is one way to cut an input into segments. -/
theorem Segmented.unique {ts : List (Segment α)} (hs : Segmented n index ss)
    (ht : Segmented n index ts) (h : content ss = content ts) : ss = ts := by
  induction hs generalizing ts with
  | @last index x hx =>
    cases ht with
    | last hy => simpa using h
    | more hy hmore =>
      have hlen := congrArg List.length h
      simp only [content_cons, content_nil, length_append, append_nil] at hlen
      omega
  | @more index x ss hx hmore hss ih =>
    cases ht with
    | last hy =>
      have hlen := congrArg List.length h
      simp only [content_cons, content_nil, length_append, append_nil] at hlen
      omega
    | more hy hmore' hts =>
      rw [content_cons, content_cons] at h
      dsimp only at h
      obtain ⟨hbody, hrest⟩ := append_inj h (by omega)
      rw [ih hts hrest, hbody]

/-- What is drained and then flushed is handed on segment by segment. -/
theorem drain_flush (hn : 0 < n) (f : Segment α → Push β ε Unit) (x : List α) (index : ℕ) :
    (drain n (fun i b => f ⟨i, false, b⟩) x index >>= fun r => f ⟨r.2, true, r.1⟩)
      = forM (segments n x index) f := by
  suffices hsuff : ∀ ss : List (Segment α), Segmented n index ss →
      (drain n (fun i b => f ⟨i, false, b⟩) (content ss) index >>= fun r => f ⟨r.2, true, r.1⟩)
        = forM ss f by
    have h := hsuff _ (segmented_segments hn x index)
    rwa [content_segments hn] at h
  intro ss hss
  induction hss with
  | last hx =>
    rw [drain_short (by simpa using hx), pure_bind]
    simp
  | @more index x ss hx hmore hss ih =>
    have hlong : n < (content (⟨index, false, x⟩ :: ss)).length := by
      rw [content_cons, length_append]
      dsimp only
      omega
    rw [drain_long hn hlong, content_cons]
    rw [take_left' hx, drop_left' hx, bind_assoc, forM_cons]
    exact bind_congr fun _ => ih

/-- The number of segments. -/
theorem Segmented.length_eq (hn : 0 < n) (h : Segmented n index ss) :
    ss.length = max 1 (((content ss).length + n - 1) / n) := by
  induction h with
  | @last index x hx =>
    have hdiv : (x.length + n - 1) / n ≤ 1 := by
      rw [Nat.div_le_iff_le_mul_add_pred hn]
      omega
    simp only [content_cons, content_nil, append_nil, length_singleton]
    omega
  | @more index x ss hx hmore hss ih =>
    have hdiv : (n + (content ss).length + n - 1) / n = ((content ss).length + n - 1) / n + 1 := by
      have hsum : n + (content ss).length + n - 1 = (content ss).length + n - 1 + n := by omega
      rw [hsum, Nat.add_div_right _ hn]
    have hpos : 1 ≤ ((content ss).length + n - 1) / n := by
      rw [Nat.one_le_div_iff hn]
      omega
    rw [content_cons, length_append, length_cons, hx, hdiv, ih]
    omega

/-- The segments are numbered one after the other. -/
theorem Segmented.index_bounds (h : Segmented n index ss) :
    ∀ s ∈ ss, index ≤ s.index ∧ s.index < index + ss.length := by
  induction h with
  | last hx => simp
  | @more index x ss hx hmore hss ih =>
    intro s hs
    rcases mem_cons.mp hs with rfl | hs
    · simp
    · have hb := ih s hs
      rw [length_cons]
      omega

theorem Segmented.exists_index (h : Segmented n index ss) :
    ∀ k < ss.length, ∃ s ∈ ss, s.index = index + k := by
  induction h with
  | @last index x hx =>
    intro k hk
    rw [length_singleton] at hk
    exact ⟨_, mem_singleton_self _, by dsimp only; omega⟩
  | @more index x ss hx hmore hss ih =>
    intro k hk
    rcases k with _ | k
    · exact ⟨_, mem_cons_self, rfl⟩
    · rw [length_cons] at hk
      obtain ⟨s, hs, hindex⟩ := ih k (by omega)
      exact ⟨s, mem_cons_of_mem _ hs, by omega⟩

/-- What the segments become when each body is replaced by a longer one. -/
theorem Segmented.map_body (h : Segmented n index ss) {β : Type} {g : Segment α → List β} {k : ℕ}
    (hg : ∀ s, (g s).length = s.body.length + k) :
    Segmented (n + k) index (ss.map fun s => ⟨s.index, s.last, g s⟩) := by
  induction h with
  | last hx => exact Segmented.last (by rw [hg]; dsimp only; omega)
  | @more index x ss hx hmore hss ih =>
    refine Segmented.more (by rw [hg]; dsimp only; omega) ?_ ih
    -- the bodies only grow, so something still follows
    have hgrow : ∀ ts : List (Segment α),
        (content ts).length
          ≤ (content (ts.map fun s => (⟨s.index, s.last, g s⟩ : Segment β))).length := by
      intro ts
      induction ts with
      | nil => simp
      | cons t ts iht =>
        rw [map_cons, content_cons, content_cons, length_append, length_append, hg]
        omega
    have hle := hgrow ss
    omega

theorem forM_push {g : Segment α → List β}
    (h : ∀ s ∈ ss, f s = Push.push (g s)) : forM ss f = ⟨ss.flatMap g, .ok ()⟩ := by
  induction ss with
  | nil => rfl
  | cons s ss ih =>
    rw [forM_cons, h s mem_cons_self, ih fun t ht => h t (mem_cons_of_mem _ ht)]
    rfl

theorem forM_fail {e : ε} (h : ∀ s ∈ ss, (∃ out, f s = Push.push out) ∨ f s = Push.fail e)
    (hex : ∃ s ∈ ss, f s = Push.fail e) : (forM ss f).ended = .error e := by
  induction ss with
  | nil =>
    obtain ⟨s, hs, -⟩ := hex
    cases hs
  | cons s ss ih =>
    rw [forM_cons]
    rcases h s mem_cons_self with ⟨out, hout⟩ | hfail
    · have hex' : ∃ t ∈ ss, f t = Push.fail e := by
        obtain ⟨t, ht, hf⟩ := hex
        rcases mem_cons.mp ht with rfl | ht
        · rw [hout] at hf
          cases hf
        · exact ⟨t, ht, hf⟩
      rw [hout]
      exact ih (fun t ht => h t (mem_cons_of_mem _ ht)) hex'
    · rw [hfail]
      rfl

/-- **Segments that open only where they were sealed.** Let `ss` be the segments
from `index` on of what was sealed, and let `f` fail on whatever is not, with its
number and its flag, one of them. Then what `f` makes of any other segments is a
failure, after at most some whole segments of `ss`. -/
theorem forM_opens {m : ℕ} {f : Segment β → Push α ε Unit} {g : Segment α → List β}
    (hss : Segmented n index ss) {ys : List (Segment β)} (hys : Segmented m index ys)
    (hf : ∀ y : Segment β, index ≤ y.index → (∃ e, f y = Push.fail e) ∨ ∃ s ∈ ss, s.index = y.index
      ∧ s.last = y.last ∧ y.body = g s ∧ f y = Push.push s.body) :
    (∃ e k, k * n ≤ (content ss).length ∧ forM ys f = ⟨(content ss).take (k * n), .error e⟩)
      ∨ ys = ss.map fun s => ⟨s.index, s.last, g s⟩ := by
  -- the segment that a success speaks of is the first of those left
  have hhead : ∀ {i : ℕ} {ts : List (Segment α)}, Segmented n i ts → ∀ s ∈ ts, s.index = i →
      ts.head? = some s := by
    intro i ts hts s hs hi
    cases hts with
    | last hx => rw [mem_singleton.mp hs, head?_cons]
    | more hx hmore hrest =>
      rcases mem_cons.mp hs with rfl | hs
      · rfl
      · have hb := hrest.index_bounds s hs
        omega
  have hfailed : ∀ {y : Segment β} {ys : List (Segment β)}, (∃ e, f y = Push.fail e) →
      ∀ ss : List (Segment α),
      ∃ e k, k * n ≤ (content ss).length ∧ forM (y :: ys) f
        = ⟨(content ss).take (k * n), .error e⟩ := by
    rintro y ys ⟨e, he⟩ ss
    refine ⟨e, 0, by omega, ?_⟩
    rw [forM_cons, he, Push.fail_bind, Nat.zero_mul, take_zero]
    rfl
  induction hys generalizing ss with
  | @last index x hx =>
    rcases hf ⟨index, true, x⟩ (Nat.le_refl _) with hfail | ⟨s, hs, hi, hl, hbody, -⟩
    · exact .inl (hfailed hfail ss)
    · have hfirst := hhead hss s hs hi
      right
      cases hss with
      | last hx =>
        rw [head?_cons, Option.some.injEq] at hfirst
        subst hfirst
        exact congrArg (fun b => [(⟨index, true, b⟩ : Segment β)]) hbody
      | more hx hmore hrest =>
        rw [head?_cons, Option.some.injEq] at hfirst
        subst hfirst
        cases hl
  | @more index x ys hx hmore hys ih =>
    rcases hf ⟨index, false, x⟩ (Nat.le_refl _) with hfail | ⟨s, hs, hi, hl, hbody, hpush⟩
    · exact .inl (hfailed hfail ss)
    · have hfirst := hhead hss s hs hi
      cases hss with
      | last hx =>
        rw [head?_cons, Option.some.injEq] at hfirst
        subst hfirst
        cases hl
      | @more index z ss hz hmore' hrest =>
        rw [head?_cons, Option.some.injEq] at hfirst
        subst hfirst
        have hf' : ∀ y : Segment β, index + 1 ≤ y.index → (∃ e, f y = Push.fail e) ∨
            ∃ s ∈ ss, s.index = y.index ∧ s.last = y.last ∧ y.body = g s
              ∧ f y = Push.push s.body := by
          intro y hy
          rcases hf y (by omega) with hfail | ⟨t, ht, hti, htrest⟩
          · exact .inl hfail
          · rcases mem_cons.mp ht with rfl | ht
            · dsimp only at hti
              omega
            · exact .inr ⟨t, ht, hti, htrest⟩
        rcases ih hrest hf' with ⟨e, k, hk, hrun⟩ | hys'
        · refine .inl ⟨e, k + 1, ?_, ?_⟩
          · rw [content_cons, length_append, Nat.add_mul]
            dsimp only
            omega
          · have htake : (content (⟨index, false, z⟩ :: ss)).take ((k + 1) * n)
                = z ++ (content ss).take (k * n) := by
              rw [content_cons]
              rw [take_append, take_of_length_le (by rw [hz, Nat.add_mul]; omega), hz, Nat.add_mul,
                Nat.one_mul, Nat.add_sub_cancel]
            rw [forM_cons, hpush, hrun, htake]
            rfl
        · right
          rw [map_cons, hys']
          exact congrArg (fun b => (⟨index, false, b⟩ : Segment β) :: _) hbody

end Segments

end Postroom.Lib
