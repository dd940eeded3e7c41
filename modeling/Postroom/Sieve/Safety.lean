/-
What a script decides.

`Sound` is what holds between any two steps of a run: the work is within its
allowance, the flags are single words, and the outbox is consistent. Every part of
the interpreter keeps it (`Safe`); a part that raises leaves at least the bound on
the work, and whatever it had decided is dropped. The outbox is consistent when

  * the implicit keep is still due exactly if nothing has replaced it,
  * `filed` finds the one delivery to each mailbox,
  * a delivery carries the flags of all that asked for it, and
  * the redirects are those recorded, each address once, allowed only if owned.
-/
import Postroom.Sieve.Interpreter

set_option autoImplicit false

namespace Postroom.Sieve

open Lib Program List

/-! ## Flags -/

section

variable {env : Env} {list : List Str}

/-- A flag is one word. -/
def Token (f : Str) : Prop := words f = [f]

theorem wordsFrom_plain (word s : Str) (h : ∀ c ∈ s, isFlagSpace c = false) :
    wordsFrom word s = if word ++ s = [] then [] else [word ++ s] := by
  induction s generalizing word with
  | nil => rw [wordsFrom, append_nil]
  | cons c s ih =>
    obtain ⟨hc, hs⟩ := forall_mem_cons.mp h
    rw [wordsFrom, hc, if_neg Bool.false_ne_true, ih (word ++ [c]) hs, append_assoc,
      singleton_append]

/-- A word holds no white space. -/
theorem mem_wordsFrom {word s w : Str} (hword : ∀ c ∈ word, isFlagSpace c = false)
    (h : w ∈ wordsFrom word s) :
    w ≠ [] ∧ ∀ c ∈ w, isFlagSpace c = false := by
  have hone : ∀ word : Str, (∀ c ∈ word, isFlagSpace c = false) →
      w ∈ (if word = [] then [] else [word]) →
      w ≠ [] ∧ ∀ c ∈ w, isFlagSpace c = false := by
    intro word hword h
    split_ifs at h with hnil
    · cases h
    · rw [mem_singleton.mp h]
      exact ⟨hnil, hword⟩
  induction s generalizing word with
  | nil => exact hone word hword h
  | cons c s ih =>
    rw [wordsFrom] at h
    split_ifs at h with hc hnil
    · exact ih (fun _ h => by cases h) h
    · rcases mem_append.mp h with h | h
      · exact hone word hword (by rwa [if_neg hnil])
      · exact ih (fun _ h => by cases h) h
    · refine ih (forall_mem_append.mpr ⟨hword, ?_⟩) h
      rw [forall_mem_singleton]
      exact Bool.eq_false_iff.mpr hc

/-- So it is a word by itself. -/
theorem token_of_mem_words {s w : Str} (h : w ∈ words s) : Token w := by
  obtain ⟨hne, hplain⟩ := mem_wordsFrom (fun _ h => by cases h) h
  unfold Token words
  rw [wordsFrom_plain [] w hplain, nil_append, if_neg hne]

/-- Every flag was there or has been added. -/
theorem mem_addFlags {f : Str} (out fs : List Str) (h : f ∈ addFlags env out fs) :
    f ∈ out ∨ f ∈ fs := by
  induction fs generalizing out with
  | nil => exact .inl h
  | cons g fs ih =>
    rw [addFlags] at h
    split_ifs at h
    · exact (ih out h).imp_right (mem_cons_of_mem g)
    · rcases ih (out ++ [g]) h with h | h
      · rcases mem_append.mp h with h | h
        · exact .inl h
        · exact .inr (mem_cons.mpr (.inl (mem_singleton.mp h)))
      · exact .inr (mem_cons_of_mem g h)

/-- Ignoring case, no flag is lost and none is added. -/
theorem lower_mem_addFlags (k : Str) (out fs : List Str) :
    k ∈ (addFlags env out fs).map env.host.toLowerCase
      ↔ k ∈ out.map env.host.toLowerCase ∨ k ∈ fs.map env.host.toLowerCase := by
  induction fs generalizing out with
  | nil => simp [addFlags]
  | cons f fs ih =>
    rw [addFlags]
    split_ifs with hf
    · rw [ih, map_cons, mem_cons]
      constructor
      · exact Or.imp_right .inr
      · rintro (h | rfl | h)
        · exact .inl h
        · exact .inl hf
        · exact .inr h
    · rw [ih, map_append, mem_append, map_cons, map_cons, map_nil, mem_singleton, mem_cons,
        or_assoc]

/-- A flag list that was split has only single words. -/
theorem token_of_mem_splitFlags {f : Str} (h : f ∈ splitFlags env list) : Token f := by
  rcases mem_addFlags [] _ h with h | h
  · cases h
  · obtain ⟨s, -, hw⟩ := mem_flatMap.mp h
    exact token_of_mem_words hw

/-- Splitting single words leaves them. -/
theorem lower_mem_splitFlags (h : ∀ f ∈ list, Token f) (k : Str) :
    k ∈ (splitFlags env list).map env.host.toLowerCase ↔ k ∈ list.map env.host.toLowerCase := by
  have hsame : list.flatMap words = list := by
    induction list with
    | nil => rfl
    | cons f list ih =>
      obtain ⟨hf, hlist⟩ := forall_mem_cons.mp h
      rw [flatMap_cons, ih hlist, hf]
      rfl
  rw [splitFlags, hsame, lower_mem_addFlags]
  simp

end

/-! ## The outbox -/

/-- An action that replaces the implicit keep. -/
def SieveAction.settles : SieveAction → Bool
  | .keep _ _ implicit _ => !implicit
  | .fileinto _ _ _ _ => true
  | .discard _ => true
  | .redirect _ allowed _ _ => allowed
  | .vacation _ => false

/-- The keep that nobody asked for. -/
def SieveAction.isImplicitKeep : SieveAction → Bool
  | .keep _ _ implicit _ => implicit
  | _ => false

/-- The mailbox and the flags of a keep or fileinto. -/
def SieveAction.delivery : SieveAction → Option (Str × Option (List Str))
  | .keep mailbox flags _ _ => some (mailbox, flags)
  | .fileinto mailbox flags _ _ => some (mailbox, flags)
  | _ => none

/-- The address of a redirect, and whether it is allowed. -/
def SieveAction.redirection : SieveAction → Option (Str × Bool)
  | .redirect address allowed _ _ => some (address, allowed)
  | _ => none

/-- The flags of a delivery are those of all deliveries asked for under this key,
ignoring case. -/
structure Carries (env : Env) (filings : List (Str × Option (List Str))) (key : Str)
    (flags : Option (List Str)) : Prop where
  used : flags.isSome = env.useFlags
  tokens : ∀ f ∈ flags.getD [], Token f
  union : ∀ k, k ∈ (flags.getD []).map env.host.toLowerCase
    ↔ ∃ filing ∈ filings, filing.1 = key ∧ k ∈ (filing.2.getD []).map env.host.toLowerCase

/-- What the outbox says of itself: the implicit keep stands as long as no action replaces
it, the index finds every delivery, a delivery carries all that was asked for under its
key, and redirects are listed once and allowed only to own addresses. -/
structure Consistent (env : Env) (b : Outbox) : Prop where
  keep : b.implicitKeep = true ↔ ∀ a ∈ b.actions, a.settles = false
  explicit : ∀ a ∈ b.actions, a.isImplicitKeep = false
  filed : ∀ key i, b.filed key = some i
    ↔ ∃ a mailbox flags, b.actions[i]? = some a ∧ a.delivery = some (mailbox, flags)
      ∧ mailboxKey env mailbox = key
  carries : ∀ a ∈ b.actions, ∀ mailbox flags, a.delivery = some (mailbox, flags) →
    Carries env b.filings (mailboxKey env mailbox) flags
  logged : ∀ filing ∈ b.filings, ∃ i, b.filed filing.1 = some i
  redirected : b.redirected = (b.actions.filterMap SieveAction.redirection).map fun r =>
    env.host.toLowerCase r.1
  nodup : b.redirected.Nodup
  allowed : ∀ a ∈ b.actions, ∀ address, a.redirection = some (address, true) →
    owns env address = true

variable {a : SieveAction}

section

variable {env : Env} {b : Outbox}

theorem consistent_new : Consistent env {} where
  keep := by simp
  explicit := by simp
  filed := by simp
  carries := by simp
  logged := by simp
  redirected := rfl
  nodup := nodup_nil
  allowed := by simp

variable {key : Str} {flags : Option (List Str)}
  {filings : List (Str × Option (List Str))}
variable {mailbox : Str} {i : ℕ} {flags' prev : Option (List Str)}

section

variable (h : Consistent env b)
include h

/-- No delivery has this key before the first one. -/
theorem Consistent.not_filed (hkey : b.filed key = none) (ha : a ∈ b.actions)
    (hd : a.delivery = some (mailbox, flags)) : mailboxKey env mailbox ≠ key := by
  intro heq
  obtain ⟨i, hi⟩ := mem_iff_getElem?.mp ha
  have hfiled := (h.filed key i).mpr ⟨a, mailbox, flags, hi, hd, heq⟩
  rw [hkey] at hfiled
  cases hfiled

/-- Two deliveries to one mailbox are one. -/
theorem Consistent.unique {j : ℕ} {c : SieveAction}
    (hi : b.actions[i]? = some a) (hj : b.actions[j]? = some c) {m m' : Str}
    {fl fl' : Option (List Str)} (ha : a.delivery = some (m, fl)) (hc : c.delivery = some (m', fl'))
    (hkey : mailboxKey env m = mailboxKey env m') : i = j := by
  have h1 := (h.filed (mailboxKey env m') i).mpr ⟨a, m, fl, hi, ha, hkey⟩
  have h2 := (h.filed (mailboxKey env m') j).mpr ⟨c, m', fl', hj, hc, rfl⟩
  rw [h1] at h2
  exact Option.some.inj h2

/-- One more action. -/
theorem Consistent.append {b' : Outbox} (hactions : b'.actions = b.actions ++ [a])
    (hkeep : b'.implicitKeep = (b.implicitKeep && !a.settles))
    (himplicit : a.isImplicitKeep = false)
    (hfiled : ∀ key i, b'.filed key = some i ↔ b.filed key = some i ∨ i = b.actions.length
      ∧ ∃ mailbox flags, a.delivery = some (mailbox, flags) ∧ mailboxKey env mailbox = key)
    (hcarries : ∀ c ∈ b.actions ++ [a], ∀ mailbox flags, c.delivery = some (mailbox, flags) →
      Carries env b'.filings (mailboxKey env mailbox) flags)
    (hlogged : ∀ filing ∈ b'.filings, ∃ i, b'.filed filing.1 = some i)
    (hredirected : b'.redirected = b.redirected
      ++ (a.redirection.map fun r => env.host.toLowerCase r.1).toList)
    (hnodup : b'.redirected.Nodup)
    (hallowed : ∀ address, a.redirection = some (address, true) → owns env address = true) :
    Consistent env b' where
  keep := by
    rw [hkeep, Bool.and_eq_true, h.keep, hactions, Bool.not_eq_true', forall_mem_append,
      forall_mem_singleton]
  explicit := by
    rw [hactions, forall_mem_append, forall_mem_singleton]
    exact ⟨h.explicit, himplicit⟩
  filed := by
    intro key i
    rw [hfiled, h.filed, hactions]
    constructor
    · rintro (⟨c, m, fl, hc, rest⟩ | ⟨rfl, m, fl, hm, hkey⟩)
      · refine ⟨c, m, fl, ?_, rest⟩
        rw [getElem?_append_left (List.getElem?_eq_some_iff.mp hc).1, hc]
      · exact ⟨a, m, fl, getElem?_concat_length, hm, hkey⟩
    · rintro ⟨c, m, fl, hc, rest⟩
      by_cases hlt : i < b.actions.length
      · rw [getElem?_append_left hlt] at hc
        exact .inl ⟨c, m, fl, hc, rest⟩
      · -- the new action stands at the end
        rw [getElem?_append_right (Nat.not_lt.mp hlt)] at hc
        have hzero : i - b.actions.length = 0 := by
          have := (List.getElem?_eq_some_iff.mp hc).1
          rw [length_singleton] at this
          omega
        have hca : c = a := mem_singleton.mp (mem_of_getElem? hc)
        rw [hca] at rest
        exact .inr ⟨by omega, m, fl, rest⟩
  carries := by
    rw [hactions]
    exact hcarries
  logged := hlogged
  redirected := by
    rw [hredirected, h.redirected, hactions, filterMap_append, map_append]
    cases hr : a.redirection with
    | none => simp [hr]
    | some r => simp [hr]
  nodup := hnodup
  allowed := by
    rw [hactions, forall_mem_append, forall_mem_singleton]
    exact ⟨h.allowed, hallowed⟩

/-- An action that neither delivers nor redirects. -/
theorem Consistent.other (hd : a.delivery = none) (hr : a.redirection = none)
    (hi : a.isImplicitKeep = false) :
    Consistent env
    { b with actions := b.actions ++ [a], implicitKeep := b.implicitKeep && !a.settles } := by
  refine h.append rfl rfl hi ?_ ?_ h.logged ?_ h.nodup ?_
  · simp [hd]
  · rw [forall_mem_append, forall_mem_singleton]
    refine ⟨h.carries, fun m fl hm => ?_⟩
    rw [hd] at hm
    cases hm
  · rw [hr]
    exact (append_nil _).symm
  · intro address ha
    rw [hr] at ha
    cases ha

/-- A discard cancels the implicit keep and files nothing. -/
theorem Consistent.discard (line : ℕ) :
    Consistent env { b with implicitKeep := false, actions := b.actions ++ [.discard line] } := by
  have hother : Consistent env
      { b with actions := b.actions ++ [.discard line], implicitKeep := b.implicitKeep && false } :=
        h.other rfl rfl rfl
  rwa [Bool.and_false] at hother

/-- A reply leaves the implicit keep standing. -/
theorem Consistent.vacation (action : VacationAction) :
    Consistent env { b with actions := b.actions ++ [.vacation action] } := by
  have hother : Consistent env
      { b with
        actions := b.actions ++ [.vacation action], implicitKeep := b.implicitKeep && true } :=
    h.other rfl rfl rfl
  rwa [Bool.and_true] at hother

end

/-- What was asked for under a key, with one filing more. -/
theorem exists_filing_append {key' k : Str} :
    (∃ filing ∈ filings ++ [(key', flags')], filing.1 = key
      ∧ k ∈ (filing.2.getD []).map env.host.toLowerCase)
      ↔ (∃ filing ∈ filings, filing.1 = key ∧ k ∈ (filing.2.getD []).map env.host.toLowerCase)
        ∨ key' = key ∧ k ∈ (flags'.getD []).map env.host.toLowerCase := by
  simp only [mem_append, mem_singleton, or_and_right, exists_or, exists_eq_left]

/-- Filing under another key changes nothing here. -/
theorem Carries.elsewhere {key' : Str} (h : Carries env filings key flags) (hne : key ≠ key') :
    Carries env (filings ++ [(key', flags')]) key flags where
  used := h.used
  tokens := h.tokens
  union := by
    intro k
    rw [h.union, exists_filing_append]
    exact (or_iff_left fun hk => hne hk.1.symm).symm

/-- What is asked of the flags of one delivery. -/
structure FlagsFor (env : Env) (flags : Option (List Str)) : Prop where
  used : flags.isSome = env.useFlags
  tokens : ∀ f ∈ flags.getD [], Token f

/-- The first delivery under a key carries what it was asked for. -/
theorem FlagsFor.carries (h : FlagsFor env flags) (hnew : ∀ filing ∈ filings, filing.1 ≠ key) :
    Carries env (filings ++ [(key, flags)]) key flags where
  used := h.used
  tokens := h.tokens
  union := by
    intro k
    rw [exists_filing_append, and_iff_right rfl]
    exact (or_iff_right fun ⟨filing, hf, hkey, _⟩ => hnew filing hf hkey).symm

/-- Merging gives the union, and both sides agree on whether flags are used. -/
theorem mergeFlags_spec (hprev : FlagsFor env prev) (hflags : FlagsFor env flags) :
    FlagsFor env (mergeFlags env prev flags)
      ∧ ∀ k, k ∈ ((mergeFlags env prev flags).getD []).map env.host.toLowerCase
        ↔ k ∈ (prev.getD []).map env.host.toLowerCase
          ∨ k ∈ (flags.getD []).map env.host.toLowerCase := by
  have hboth : ∀ f ∈ prev.getD [] ++ flags.getD [], Token f :=
    forall_mem_append.mpr ⟨hprev.tokens, hflags.tokens⟩
  have hsome : ∀ fl, mergeFlags env prev flags = some fl →
      fl = splitFlags env (prev.getD [] ++ flags.getD []) →
      FlagsFor env (mergeFlags env prev flags)
        ∧ ∀ k, k ∈ ((mergeFlags env prev flags).getD []).map env.host.toLowerCase
        ↔ k ∈ (prev.getD []).map env.host.toLowerCase
          ∨ k ∈ (flags.getD []).map env.host.toLowerCase := by
    intro fl hfl heq
    have hused : env.useFlags = true := by
      rw [← hprev.used]
      cases prev with
      | some _ => rfl
      | none =>
        -- both have flags or neither has
        cases flags with
        | none => cases hfl
        | some _ =>
          have h1 := hprev.used
          rw [← hflags.used] at h1
          cases h1
    rw [hfl, heq]
    refine ⟨⟨hused.symm, fun f hf => token_of_mem_splitFlags hf⟩, fun k => ?_⟩
    rw [Option.getD_some, lower_mem_splitFlags hboth, map_append, mem_append]
  cases prev with
  | some p => exact hsome _ rfl rfl
  | none =>
    cases flags with
    | some f => exact hsome _ rfl rfl
    | none => exact ⟨hprev, fun k => by simp [mergeFlags]⟩

/-- A further delivery adds its flags to the one that is there. -/
theorem Carries.merge (h : Carries env filings key prev) (hflags : FlagsFor env flags) :
    Carries env (filings ++ [(key, flags)]) key (mergeFlags env prev flags) := by
  obtain ⟨hfor, hunion⟩ := mergeFlags_spec ⟨h.used, h.tokens⟩ hflags
  refine ⟨hfor.used, hfor.tokens, fun k => ?_⟩
  rw [hunion, h.union, exists_filing_append, and_iff_right rfl]

/-- The first delivery to a mailbox. -/
theorem Consistent.file (h : Consistent env b)
    (hnew : b.filed (mailboxKey env mailbox) = none) (hflags : FlagsFor env flags)
    (hd : a.delivery = some (mailbox, flags)) (hsettles : a.settles = true)
    (hi : a.isImplicitKeep = false) (hr : a.redirection = none) :
    Consistent env
      { b with
        implicitKeep := false
        filed := Function.update b.filed (mailboxKey env mailbox) (some b.actions.length)
        filings := b.filings ++ [(mailboxKey env mailbox, flags)]
        actions := b.actions ++ [a] } := by
  refine h.append rfl ?_ hi ?_ ?_ ?_ ?_ h.nodup ?_
  · rw [hsettles]
    exact (Bool.and_false _).symm
  · intro key i
    dsimp only
    by_cases hkey : key = mailboxKey env mailbox
    · subst hkey
      rw [Function.update_self, hnew, hd]
      constructor
      · intro heq
        exact .inr ⟨(Option.some.inj heq).symm, mailbox, flags, rfl, rfl⟩
      · rintro (hnone | ⟨rfl, -⟩)
        · cases hnone
        · rfl
    · rw [Function.update_of_ne hkey, hd]
      constructor
      · exact .inl
      · rintro (hold | ⟨-, m, fl, hm, hmk⟩)
        · exact hold
        · cases hm
          exact absurd hmk.symm hkey
  · rw [forall_mem_append, forall_mem_singleton]
    constructor
    · intro c hc m fl hm
      exact (h.carries c hc m fl hm).elsewhere (h.not_filed hnew hc hm)
    · intro m fl hm
      rw [hd] at hm
      cases hm
      refine hflags.carries fun filing hf heq => ?_
      obtain ⟨i, hi⟩ := h.logged filing hf
      rw [heq, hnew] at hi
      cases hi
  · rw [forall_mem_append, forall_mem_singleton]
    constructor
    · intro filing hf
      obtain ⟨i, hi⟩ := h.logged filing hf
      refine ⟨i, ?_⟩
      dsimp only
      rw [Function.update_of_ne, hi]
      intro heq
      rw [heq, hnew] at hi
      cases hi
    · exact ⟨_, Function.update_self ..⟩
  · rw [hr]
    exact (append_nil _).symm
  · intro address ha
    rw [hr] at ha
    cases ha

theorem mergeDelivery_fields (flags : Option (List Str)) (create : Bool) (a : SieveAction) :
    (mergeDelivery env flags create a).settles = a.settles
      ∧ (mergeDelivery env flags create a).isImplicitKeep = a.isImplicitKeep
      ∧ (mergeDelivery env flags create a).redirection = a.redirection
      ∧ (mergeDelivery env flags create a).delivery = a.delivery.map fun d =>
      (d.1, mergeFlags env d.2 flags) := by
  cases a with
  | _ => exact ⟨rfl, rfl, rfl, rfl⟩

/-- A delivery that does not replace the implicit keep is one. -/
theorem settles_of_delivery {d : Str × Option (List Str)} (hd : a.delivery = some d)
    (hi : a.isImplicitKeep = false) : a.settles = true := by
  cases a with
  | keep mailbox flags implicit line => exact (Bool.not_eq_true' implicit).mpr hi
  | fileinto mailbox flags create line => rfl
  | _ => cases hd

/-- The mailbox of a delivery is all that `filed` looks at. -/
theorem delivered_iff {actions : List SieveAction} :
    (∃ a mailbox flags, actions[i]? = some a ∧ a.delivery = some (mailbox, flags)
      ∧ mailboxKey env mailbox = key)
      ↔ ∃ mailbox, (actions.map fun a => a.delivery.map Prod.fst)[i]? = some (some mailbox)
        ∧ mailboxKey env mailbox = key := by
  simp only [getElem?_map, Option.map_eq_some_iff]
  constructor
  · rintro ⟨a, m, fl, ha, hd, hkey⟩
    exact ⟨m, ⟨a, ha, (m, fl), hd, rfl⟩, hkey⟩
  · rintro ⟨m, ⟨a, ha, ⟨m', fl⟩, hd, rfl⟩, hkey⟩
    exact ⟨a, m', fl, ha, hd, hkey⟩

/-- A further delivery to a mailbox. -/
theorem Consistent.merge (h : Consistent env b) (create : Bool)
    (hfiled : b.filed key = some i) (hflags : FlagsFor env flags) :
    Consistent env
      { b with
        implicitKeep := false
        actions := b.actions.modify i (mergeDelivery env flags create)
        filings := b.filings ++ [(key, flags)] } := by
  have hget : ∀ j, (b.actions.modify i (mergeDelivery env flags create))[j]?
      = (b.actions[j]?).map fun a => if i = j then mergeDelivery env flags create a else a := by
    intro j
    rw [getElem?_modify]
    rfl
  -- a field that merging leaves is left of every action
  have hmap : ∀ {γ : Type} {field : SieveAction → γ}, (∀ a, field (mergeDelivery env flags create a)
      = field a) →
      (b.actions.modify i (mergeDelivery env flags create)).map field = b.actions.map field := by
    intro γ field hsame
    refine ext_getElem? fun j => ?_
    rw [getElem?_map, hget, getElem?_map, Option.map_map]
    refine congrArg (fun f => Option.map f b.actions[j]?) (funext fun d => ?_)
    split_ifs
    · exact hsame d
    · rfl
  have hall : ∀ {γ : Type} {field : SieveAction → γ} (P : γ → Prop),
      (∀ a, field (mergeDelivery env flags create a) = field a) →
      ((∀ c ∈ b.actions.modify i (mergeDelivery env flags create), P (field c))
        ↔ ∀ c ∈ b.actions, P (field c)) := by
    intro γ field P hsame
    rw [← forall_mem_map (f := field) (P := P), hmap hsame, forall_mem_map]
  obtain ⟨a, mailbox, prev, ha, hd, hkey⟩ := (h.filed key i).mp hfiled
  have hmem := mem_of_getElem? ha
  refine ⟨⟨nofun, fun hnone => ?_⟩, ?_, ?_, ?_, ?_, ?_, h.nodup, ?_⟩
  · have hnot := (hall (· = false) fun a => (mergeDelivery_fields flags create a).1).mp hnone a hmem
    rw [settles_of_delivery hd (h.explicit a hmem)] at hnot
    cases hnot
  · exact (hall (· = false) fun a => (mergeDelivery_fields flags create a).2.1).mpr h.explicit
  · intro k j
    rw [h.filed, delivered_iff, delivered_iff, hmap]
    intro a
    rw [(mergeDelivery_fields flags create a).2.2.2, Option.map_map]
    rfl
  · intro c hc m fl hm
    obtain ⟨j, hj⟩ := mem_iff_getElem?.mp hc
    rw [hget] at hj
    obtain ⟨d, hdj, rfl⟩ := Option.map_eq_some_iff.mp hj
    by_cases hij : i = j
    · subst hij
      rw [ha] at hdj
      cases hdj
      rw [if_pos rfl, (mergeDelivery_fields flags create a).2.2.2, hd, Option.map_some] at hm
      cases hm
      have hcarries := h.carries a hmem mailbox prev hd
      rw [hkey] at hcarries ⊢
      exact hcarries.merge hflags
    · rw [if_neg hij] at hm
      refine (h.carries d (mem_of_getElem? hdj) m fl hm).elsewhere fun hmk => hij ?_
      exact h.unique ha hdj hd hm (hkey.trans hmk.symm)
  · rw [forall_mem_append, forall_mem_singleton]
    exact ⟨h.logged, i, hfiled⟩
  · have hid : ∀ l : List SieveAction, l.filterMap SieveAction.redirection
        = (l.map SieveAction.redirection).filterMap id := by
      intro l
      rw [filterMap_map]
      rfl
    rw [hid, hmap fun a => (mergeDelivery_fields flags create a).2.2.1, ← hid]
    exact h.redirected
  · exact (hall (fun r => ∀ address, r = some (address, true) → owns env address = true)
      fun a => (mergeDelivery_fields flags create a).2.2.1).mpr h.allowed

/-- A redirect to an address that has none yet. -/
theorem Consistent.redirect (h : Consistent env b) {address : Str} (reason : Option Str) (line : ℕ)
    (hnew : env.host.toLowerCase address ∉ b.redirected) :
    Consistent env
      { b with
        redirected := b.redirected ++ [env.host.toLowerCase address]
        implicitKeep := if owns env address then false else b.implicitKeep
        actions := b.actions ++ [.redirect address (owns env address) reason line] } := by
  refine h.append rfl ?_ rfl ?_ ?_ h.logged rfl ?_ ?_
  · cases howns : owns env address with
    | true => exact (Bool.and_false _).symm
    | false => exact (Bool.and_true _).symm
  · simp [SieveAction.delivery]
  · rw [forall_mem_append, forall_mem_singleton]
    exact ⟨h.carries, nofun⟩
  · exact nodup_append.mpr ⟨h.nodup, pairwise_singleton _ _, fun a ha c hc heq => hnew (by
      rw [← mem_singleton.mp hc, ← heq]
      exact ha)⟩
  · intro address' heq
    obtain ⟨rfl, howns⟩ := Prod.mk.inj (Option.some.inj heq)
    exact howns

end

/-! ## The interpreter keeps it -/

/-- What the interpreter keeps between two steps. -/
structure Sound (env : Env) (s : RunState) : Prop where
  work : s.work ≤ env.opts.maxWork
  flags : ∀ f ∈ s.flags, Token f
  outbox : Consistent env s.outbox

/-- The work is within the allowance but for the last charge. -/
def Spent (env : Env) (s : RunState) : Prop := s.work ≤ env.opts.maxWork + s.lastCharge

/-- The part of the interpreter keeps `Sound`, and its value is as `P` says; where
it raises, the work is bounded. -/
def Safe {α : Type} (env : Env) (x : Run α) (P : α → Prop) : Prop :=
  ∀ s, Sound env s → wp x (fun a s' => P a ∧ Sound env s') (fun _ s' => Sound env s')
    (fun _ s' => Spent env s') s

/-- The same from one state on. -/
abbrev SafeAt {α : Type} (env : Env) (x : Run α) (P : α → Prop) (s : RunState) : Prop :=
  wp x (fun a s' => P a ∧ Sound env s') (fun _ s' => Sound env s') (fun _ s' => Spent env s') s

section

variable {env : Env} {α β : Type} {P : α → Prop} {Q : β → Prop}

theorem Sound.spent {s : RunState} (h : Sound env s) : Spent env s :=
  Nat.le_trans h.work (Nat.le_add_right _ _)

theorem safe_pure {a : α} (h : P a) : Safe env (pure a) P := fun _ hs => ⟨h, hs⟩

variable {x : Run α} {f : α → Run β}

/-- One part after the other. -/
theorem Safe.bind (hx : Safe env x P) (hf : ∀ a, P a → Safe env (f a) Q) :
    Safe env (x >>= f) Q := by
  intro s hs
  rw [wp_bind]
  exact wp_mono (hx s hs) (fun a s' h => hf a h.1 s' h.2) (fun _ _ h => h) (fun _ _ h => h)

/-- Nothing is asked of the value. -/
def anything : α → Prop := fun _ => True

theorem Safe.then (hx : Safe env x anything) (hf : ∀ a, Safe env (f a) Q) :
    Safe env (x >>= f) Q := hx.bind fun a _ => hf a

/-- Only a value is made of the result. -/
theorem Safe.done {f : α → β} (hx : Safe env x anything) :
    Safe env (x >>= fun a => pure (f a)) anything :=
  hx.then fun _ => safe_pure trivial

/-- What follows may look at the state. -/
theorem safe_get {f : RunState → Run β}
    (hf : ∀ s, Sound env s → SafeAt env (f s) Q s) : Safe env (get >>= f) Q := hf

theorem safe_modify {f : RunState → RunState} (h : ∀ s, Sound env s → Sound env (f s)) :
    Safe env (modify f) anything :=
  fun s hs => ⟨trivial, h s hs⟩

/-- An error ends the run, with what was spent so far. -/
theorem safe_fail (code : RuntimeErrorCode) (detail : Str) :
    Safe env (fail code detail : Run α) P := fun _ hs => hs.spent

theorem safe_ret : Safe env (ret () : Run α) P := fun _ hs => hs

theorem safe_ite {c : Prop} [Decidable c] {y : Run α} (hx : c → Safe env x P)
    (hy : ¬ c → Safe env y P) : Safe env (if c then x else y) P := by
  split_ifs with h
  · exact hx h
  · exact hy h

/-- `Sound` does not speak of the trace. -/
theorem safe_note (event : Str) : Safe env (note env event) anything := by
  refine safe_modify fun s hs => ?_
  split_ifs
  · exact { hs with }
  · exact hs

theorem safe_setPos (pos : SourcePos) : Safe env (setPos pos) anything :=
  safe_modify fun _ hs => { hs with }

/-- The only place where a run may exceed its allowance, by one charge. -/
theorem safe_charge (n : ℕ) : Safe env (charge env n) anything := by
  intro s hs
  have hwork := hs.work
  unfold charge
  rw [wp_bind, wp_modify, wp_bind, wp_get]
  split_ifs with hover
  · -- the charge that exceeds the allowance is the last one
    exact Nat.add_le_add_right hwork n
  · exact ⟨trivial, Nat.not_lt.mp hover, hs.flags, hs.outbox⟩

theorem safe_forEach {γ : Type} {f : γ → Run α} (hf : ∀ c, Safe env (f c) P) (cs : List γ) :
    Safe env (forEach f cs) anything := by
  induction cs with
  | nil => exact safe_pure trivial
  | cons c cs ih => exact (hf c).bind fun _ _ => ih.done

/-! ### Strings, flags and matching -/

/-- Each variable is charged for as it is expanded. -/
theorem safe_expandFrom (fuel : ℕ) (rest out : Str) (length : ℕ) :
    Safe env (expandFrom env fuel rest out length) anything := by
  induction fuel generalizing rest out length with
  | zero => exact safe_pure trivial
  | succ fuel ih =>
    rw [expandFrom]
    split
    · exact safe_pure trivial
    · refine safe_get fun s hs => ?_
      dsimp only
      split
      · exact (safe_charge _).then (fun _ =>
          safe_ite (fun _ => safe_pure trivial) (fun _ => ih _ _ _)) s hs
      · exact (safe_charge _).then (fun _ =>
          safe_ite (fun _ => safe_pure trivial) (fun _ => ih _ _ _)) s hs

theorem safe_expand (s : Str) : Safe env (expand env s) anything :=
  safe_ite (fun _ => safe_pure trivial) fun _ => (safe_expandFrom _ _ _ _).done

theorem safe_expandAll (list : List Str) : Safe env (expandAll env list) anything :=
  safe_forEach safe_expand list

theorem safe_expandOption (s : Option Str) : Safe env (expandOption env s) anything := by
  cases s with
  | none => exact safe_pure trivial
  | some s => exact (safe_expand s).done

/-- Each turn of the matcher costs one. -/
theorem safe_globLoop (text : Str) (p : List PatternPiece) (fuel : ℕ) (g : GlobState) :
    Safe env (globLoop env text p fuel g) anything := by
  induction fuel generalizing g with
  | zero => exact safe_pure trivial
  | succ fuel ih =>
    rw [globLoop]
    split
    · exact safe_pure trivial
    · refine (safe_charge 1).then fun _ => ?_
      split
      · exact safe_pure trivial
      · exact ih _

theorem safe_globRanges (text pattern : Str) : Safe env (globRanges env text pattern) anything := by
  refine (safe_globLoop _ _ _ _).then fun found => ?_
  cases found with
  | none => exact safe_pure trivial
  | some found => exact safe_ite (fun _ => safe_pure trivial) (fun _ => safe_pure trivial)

theorem safe_matchOne (value key : Str) (m : MatchSpec) :
    Safe env (matchOne env value key m) anything := by
  unfold matchOne
  dsimp only
  split
  · exact (safe_charge _).done
  · exact (safe_charge _).done
  · exact (safe_globRanges _ _).done

/-- The pairs are tried in order, up to the first match. -/
theorem safe_matchPairs (m : MatchSpec) (pairs : List (Str × Str)) :
    Safe env (matchPairs env m pairs) anything := by
  induction pairs with
  | nil => exact safe_pure trivial
  | cons pair pairs ih =>
    refine (safe_matchOne _ _ m).then fun r => ?_
    cases r with
    | none => exact ih
    | some captures => exact safe_pure trivial

/-! ### Tests -/

/-- `:matches` sets the numbered variables, of which `Sound` does not speak. -/
theorem safe_compare (values keys : List Str) (m : MatchSpec) :
    Safe env (compare env values keys m) anything := by
  refine (safe_expandAll keys).then fun keys => (safe_matchPairs m _).then fun r => ?_
  split
  · refine safe_ite (fun _ => ?_) (fun _ => safe_pure trivial)
    refine Safe.then (safe_modify fun _ hs => { hs with }) fun _ => ?_
    exact safe_pure trivial
  · exact safe_pure trivial
  · exact safe_pure trivial

theorem safe_chargeAll (values : List Str) : Safe env (chargeAll env values) anything :=
  (safe_forEach (fun v => safe_charge (1 + v.length)) values).done

theorem safe_headerValues (name : Str) : Safe env (headerValues env name) anything :=
  (safe_chargeAll _).done

theorem safe_bodyValues (transform : BodyTransform) :
    Safe env (bodyValues env transform) anything := by
  cases transform with
  | raw => exact safe_pure trivial
  | text => exact safe_pure trivial
  | content types =>
    have hone : ∀ p, Safe env (contentValues env types p) anything := fun p =>
      (safe_expandAll types).done
    exact (safe_forEach hone _).done

theorem safe_addressValues (part : AddressPart) (name : Str) :
    Safe env (addressValues env part name) anything :=
  safe_ite (fun _ => (safe_headerValues name).done) (fun _ => safe_pure trivial)

/-- Every test but the connectives: it charges, compares, and changes no mail. -/
theorem safe_evaluate (t : CompiledTest) : Safe env (evaluate env t) anything := by
  cases t with
  | header names keys m pos =>
    exact (safe_expandAll names).then fun _ => (safe_forEach safe_headerValues _).then fun _ =>
      safe_compare _ _ _
  | address names keys m part pos =>
    exact (safe_expandAll names).then fun _ =>
      (safe_forEach (safe_addressValues part) _).then fun _ => safe_compare _ _ _
  | envelope names keys m part pos => exact (safe_expandAll names).then fun _ => safe_compare _ _ _
  | «exists» names pos => exact (safe_expandAll names).done
  | body transform keys m pos =>
    exact (safe_bodyValues transform).then fun _ => (safe_chargeAll _).then fun _ =>
      safe_compare _ _ _
  | hasflag vars keys m pos => exact safe_get fun s hs => safe_compare _ _ _ s hs
  | string sources keys m pos => exact (safe_expandAll sources).then fun _ => safe_compare _ _ _
  | mailboxexists names pos =>
    rw [evaluate]
    split
    · exact safe_pure trivial
    · exact (safe_expandAll names).done
  | _ => exact safe_pure trivial

theorem safe_around (t : CompiledTest) {x : Run Bool} (hx : Safe env x anything) :
    Safe env (around env t x) anything := by
  refine (safe_setPos _).then fun _ => (safe_charge 1).then fun _ => hx.then fun result =>
    (safe_setPos _).then fun _ => ?_
  split
  · exact (safe_note _).done
  · exact (safe_pure trivial : Safe env (pure ()) anything).then fun _ => safe_pure trivial

mutual

/-- Tests by induction on their nesting. -/
theorem safe_test : (t : CompiledTest) → Safe env (test env t) anything
  | .not t _ => safe_around _ ((safe_test t).done)
  | .anyof ts _ => safe_around _ (safe_testAny ts)
  | .allof ts _ => safe_around _ (safe_testAll ts)
  | .true .. | .false .. | .header .. | .address .. | .envelope .. | .exists .. | .size .. | .body
    .. | .hasflag ..
  | .string .. | .mailboxexists .. => safe_around _ (safe_evaluate _)

theorem safe_testAny : (ts : List CompiledTest) → Safe env (testAny env ts) anything
  | [] => safe_pure trivial
  | t :: ts => (safe_test t).then fun _ => safe_ite (fun _ => safe_pure trivial)
    (fun _ => safe_testAny ts)

theorem safe_testAll : (ts : List CompiledTest) → Safe env (testAll env ts) anything
  | [] => safe_pure trivial
  | t :: ts => (safe_test t).then fun _ => safe_ite (fun _ => safe_testAll ts)
    (fun _ => safe_pure trivial)

end

/-! ### Commands -/

/-- An action is recorded if there is room for it; what the outbox must be then. -/
theorem wp_push {f : Unit → Run β} {s : RunState} (hwork : s.work ≤ env.opts.maxWork)
    (hflags : ∀ f ∈ s.flags, Token f)
    (h : Consistent env { s.outbox with actions := s.outbox.actions ++ [a] })
    (hf : ∀ u, Safe env (f u) Q) :
    SafeAt env (push env a >>= f) Q s := by
  unfold push
  rw [SafeAt, wp_bind, wp_bind, wp_get]
  split_ifs
  · exact Nat.le_trans hwork (Nat.le_add_right _ _)
  · exact hf () _ ⟨hwork, hflags, h⟩

theorem deliveryAction_fields (type : DeliveryType) (mailbox : Str) (flags : Option (List Str))
    (create : Bool) (line : ℕ) :
    (deliveryAction type mailbox flags create line).delivery = some (mailbox, flags)
      ∧ (deliveryAction type mailbox flags create line).settles = true
      ∧ (deliveryAction type mailbox flags create line).isImplicitKeep = false
      ∧ (deliveryAction type mailbox flags create line).redirection = none := by
  cases type with
  | _ => exact ⟨rfl, rfl, rfl, rfl⟩

/-- A delivery that is asked for is made, so that the log is again about the actions. -/
theorem safe_deliver (type : DeliveryType) (mailbox : Str) {flags : Option (List Str)}
    (create : Bool)
    (hflags : FlagsFor env flags) :
    Safe env (logFiling env mailbox flags >>= fun _ =>
      deliver env type mailbox flags create) anything := by
  intro s hs
  unfold logFiling deliver
  rw [wp_bind, wp_modify, wp_bind, wp_get]
  dsimp only
  split
  · rename_i existing hfiled
    exact safe_note _ _ ⟨hs.work, hs.flags, hs.outbox.merge create hfiled hflags⟩
  · rename_i hfiled
    obtain ⟨hd, hsettles, hi, hr⟩ := deliveryAction_fields type mailbox flags create s.pos.line
    exact wp_push hs.work hs.flags (hs.outbox.file hfiled hflags hd hsettles hi hr) fun _ =>
      safe_note _

/-- A redirect is listed under its lower-case address, and not twice. -/
theorem safe_redirect (address : Str) : Safe env (redirect env address) anything := by
  refine safe_ite (fun _ => safe_fail _ _) fun _ => safe_get fun s hs => ?_
  by_cases hold : env.host.toLowerCase address ∈ s.outbox.redirected
  · rw [if_pos hold]
    exact safe_note _ s hs
  by_cases hmax : env.opts.maxRedirects ≤ s.outbox.redirected.length
  · rw [if_neg hold, if_pos hmax]
    exact safe_fail _ _ s hs
  · rw [if_neg hold, if_neg hmax, SafeAt, wp_bind, wp_modify]
    exact wp_push hs.work hs.flags (hs.outbox.redirect _ _ hold) fun _ => safe_note _

theorem safe_discard (line : ℕ) : Safe env (discard env line) anything := by
  intro s hs
  exact wp_push hs.work hs.flags (hs.outbox.discard line) fun _ => safe_note _

theorem safe_anyAddressed (mine values : List Str) :
    Safe env (anyAddressed env mine values) anything := by
  induction values with
  | nil => exact safe_pure trivial
  | cons value values ih =>
    exact (safe_charge _).then fun _ => safe_ite (fun _ => safe_pure trivial) (fun _ => ih)

theorem safe_suppression (sender handle : Str) (mine : List Str) (days : ℕ) :
    Safe env (suppression env sender handle mine days) anything := by
  iterate 5 refine safe_ite (fun _ => safe_pure trivial) fun _ => ?_
  refine Safe.then (safe_anyAddressed _ _) fun addressed => ?_
  exact safe_ite (fun _ => safe_pure trivial) fun _ =>
    safe_ite (fun _ => safe_pure trivial) (fun _ => safe_pure trivial)

/-- A second `vacation` is an error; the first adds one action. -/
theorem safe_vacation (cmd : VacationCommand) : Safe env (vacation env cmd) anything := by
  refine safe_get fun s hs => ?_
  have hrest : ∀ x : Run Unit, Safe env x anything → SafeAt env x anything s := fun x hx => hx s hs
  split_ifs
  · exact safe_fail _ _ s hs
  · refine hrest _ ?_
    refine Safe.then (safe_modify fun _ hs => { hs with }) fun _ => ?_
    refine Safe.then (safe_expand _) fun reason => ?_
    refine Safe.then (safe_expandOption _) fun sender => ?_
    refine Safe.then (safe_expandOption _) fun explicitSubject => ?_
    refine Safe.then (safe_expandAll _) fun addresses => ?_
    refine Safe.then (safe_expandOption _) fun given => ?_
    refine Safe.then (safe_suppression _ _ _ _) fun suppressed => ?_
    intro s' hs'
    exact wp_push hs'.work hs'.flags (hs'.outbox.vacation _) fun _ => safe_note _

/-- Explicit flags, or those the script has collected. -/
theorem safe_flagsFor (explicit : Option (List Str)) :
    Safe env (flagsFor env explicit) (FlagsFor env) := by
  refine safe_ite (fun hoff => ?_) (fun hon => ?_)
  · refine safe_pure ⟨?_, by simp⟩
    simpa using hoff.symm
  · have hused : env.useFlags = true := by simpa using hon
    cases explicit with
    | none =>
      refine safe_get fun s hs => ?_
      have hfor : FlagsFor env (some s.flags) := ⟨hused.symm, hs.flags⟩
      exact safe_pure hfor s hs
    | some list =>
      refine Safe.then (safe_expandAll list) fun list => ?_
      exact safe_pure ⟨hused.symm, fun f hf => token_of_mem_splitFlags hf⟩

theorem safe_putFlags (target : Option Str) {flags : List Str} (h : ∀ f ∈ flags, Token f) :
    Safe env (putFlags env target flags) anything := by
  cases target with
  | none => exact safe_modify fun _ hs => ⟨hs.work, h, hs.outbox⟩
  | some v => exact safe_modify fun _ hs => { hs with }

theorem safe_flagCommand (operation : FlagOperation) (target : Option Str) (flags : List Str) :
    Safe env (flagCommand env operation target flags) anything := by
  refine Safe.then (safe_expandAll flags) fun flags => safe_get fun s hs => ?_
  have hcurrent : ∀ f ∈ getFlags env s target, Token f := by
    cases target with
    | none => exact hs.flags
    | some v => exact fun f hf => token_of_mem_splitFlags hf
  refine Safe.then (safe_putFlags target ?_) (fun _ => safe_note _) s hs
  cases operation with
  | setflag | addflag => exact fun f hf => token_of_mem_splitFlags hf
  | removeflag => exact fun f hf => hcurrent f (mem_of_mem_filter hf)

/-- All commands but `if`. -/
theorem safe_simpleCommand (c : CompiledCommand) : Safe env (simpleCommand env c) anything := by
  cases c with
  | cond bs pos => exact safe_pure trivial
  | stop pos => exact (safe_note _).then fun _ => safe_ret
  | discard pos => exact safe_discard _
  | keep flags pos => exact (safe_flagsFor flags).bind fun _ h => safe_deliver _ _ _ h
  | fileinto mailbox flags create pos =>
    refine Safe.then (safe_expand mailbox) fun mailbox => safe_ite (fun _ => safe_fail _ _) fun _ =>
      ?_
    exact (safe_flagsFor flags).bind fun _ h => safe_deliver _ _ _ h
  | redirect address pos => exact (safe_expand address).then fun _ => safe_redirect _
  | flag operation target flags pos => exact safe_flagCommand _ _ _
  | set name value modifiers pos =>
    refine Safe.then (safe_expand value) fun value => ?_
    refine Safe.then (safe_modify fun _ hs => { hs with }) fun _ => ?_
    exact (safe_charge _).then fun _ => safe_note _
  | vacation cmd pos => exact safe_vacation cmd
  | bucket name pos =>
    refine Safe.then (safe_expand name) fun name => safe_ite (fun _ => ?_) fun _ => safe_fail _ _
    exact Safe.then (safe_modify fun _ hs => { hs with }) fun _ => safe_note _

theorem safe_enter (pos : SourcePos) : Safe env (enter env pos) anything :=
  (safe_setPos pos).then fun _ => safe_charge 1

mutual

/-- Commands by induction on their nesting. -/
theorem safe_command : (c : CompiledCommand) → Safe env (command env c) anything
  | .cond bs _ => (safe_enter _).then fun _ => safe_branches bs
  | .stop .. | .discard .. | .keep .. | .fileinto .. | .redirect .. | .flag .. | .set .. | .vacation
    .. | .bucket .. =>
    (safe_enter _).then fun _ => safe_simpleCommand _

theorem safe_branches : (bs : List Branch) → Safe env (branches env bs) anything
  | [] => safe_pure trivial
  | b :: bs => (safe_branch b).then fun _ =>
    safe_ite (fun _ => safe_pure trivial) (fun _ => safe_branches bs)

theorem safe_branch : (b : Branch) → Safe env (branch env b) anything
  | .mk none commands => (safe_block commands).done
  | .mk (some t) commands =>
    (safe_test t).then fun _ =>
      safe_ite (fun _ => (safe_block commands).done) (fun _ => safe_pure trivial)

theorem safe_block : (cs : List CompiledCommand) → Safe env (block env cs) anything
  | [] => safe_pure trivial
  | c :: cs => (safe_command c).then fun _ => safe_block cs

end

end

/-! ## Fuel -/

section

variable {env : Env}

/-- The allowance is fuel enough for a match: it is used up first. -/
theorem globLoop_fuel (text : Str) (p : List PatternPiece) (g : GlobState) {n m : ℕ} {s : RunState}
    (hs : s.work ≤ env.opts.maxWork) (hn : env.opts.maxWork < s.work + n)
    (hm : env.opts.maxWork < s.work + m) :
    globLoop env text p n g s = globLoop env text p m g s := by
  induction n generalizing m g s with
  | zero => omega
  | succ n ih =>
    obtain ⟨m, rfl⟩ : ∃ m', m = m' + 1 := ⟨m - 1, by omega⟩
    rw [globLoop, globLoop]
    cases text[g.ti]? with
    | none => rfl
    | some c =>
      dsimp only
      rw [bind_apply, bind_apply]
      by_cases hover : env.opts.maxWork < s.work + 1
      · have hraise : ∃ e s', charge env 1 s = (.raise e, s') := by
          exact ⟨_, _, by
            exact congrFun (if_pos hover) _⟩
        obtain ⟨e, s', hraise⟩ := hraise
        rw [hraise]
      · have hvalue : charge env 1 s
            = (.value (), { s with work := s.work + 1, lastCharge := 1 }) := by
          exact congrFun (if_neg hover) _
        rw [hvalue]
        cases g.turn text p c with
        | none => rfl
        | some g' =>
          exact ih g' (Nat.not_lt.mp hover) (by dsimp only; omega) (by dsimp only; omega)

theorem cut_length {sub s before after : Str} (h : cut sub s = some (before, after)) :
    before.length + sub.length + after.length = s.length := by
  induction s generalizing before with
  | nil =>
    rw [cut] at h
    split_ifs at h with hnil
    cases h
    rw [hnil]
    rfl
  | cons c s ih =>
    rw [cut] at h
    split_ifs at h with hpre
    · cases h
      have hle := (List.isPrefixOf_iff_prefix.mp hpre).length_le
      rw [length_drop, length_nil]
      omega
    · obtain ⟨⟨b, a⟩, hcut, heq⟩ := Option.map_eq_some_iff.mp h
      cases heq
      have := ih hcut
      rw [length_cons, length_cons]
      omega

/-- The string is fuel enough for its expansion: every turn uses up part of it. -/
theorem expandFrom_fuel {n m : ℕ} {rest : Str} (out : Str) (length : ℕ) (hn : rest.length < n)
    (hm : rest.length < m) :
    expandFrom env n rest out length = expandFrom env m rest out length := by
  induction n generalizing m rest out length with
  | zero => omega
  | succ n ih =>
    obtain ⟨m, rfl⟩ : ∃ m', m = m' + 1 := ⟨m - 1, by omega⟩
    rw [expandFrom, expandFrom]
    cases hcut : cut (lit "$\x7b") rest with
    | none => rfl
    | some parts =>
      obtain ⟨before, after⟩ := parts
      have hlen := cut_length hcut
      have hsub : (lit "$\x7b").length = 2 := by decide +kernel
      have hclosed : (((cut (lit "\x7d") after).map Prod.snd).getD []).length ≤ after.length := by
        cases hclose : cut (lit "\x7d") after with
        | none => exact Nat.zero_le _
        | some q =>
          have := cut_length hclose
          simp only [Option.map_some, Option.getD_some]
          omega
      have hstep : ∀ rest' out' length', rest'.length ≤ after.length →
          expandFrom env n rest' out' length' = expandFrom env m rest' out' length' :=
        fun rest' out' length' hle => ih out' length' (by omega) (by omega)
      dsimp only
      refine congrArg (fun f => get >>= f) (funext fun s => ?_)
      cases reference env s (((cut (lit "\x7d") after).map Prod.fst).getD []) with
      | none =>
        rw [hstep after _ _ (Nat.le_refl _)]
      | some value =>
        dsimp only
        rw [hstep _ _ _ hclosed]

end

/-! ## Whole runs -/

/-- What a result must be, when `s` are the variables the run ended with. -/
structure KeepsMail (env : Env) (r : SieveResult) (s : RunState) : Prop where
  /-- An abandoned run is one implicit keep. -/
  abandoned : r.error ≠ none → r.actions = [.keep env.opts.inbox none true 0]
  /-- Something becomes of the message: it is kept, filed, redirected or discarded. -/
  kept : r.error = none → ∃ a ∈ r.actions, a.settles = true ∨ a.isImplicitKeep = true
  implicit : r.implicitKeep = true
    ↔ r.actions.getLast?.any SieveAction.isImplicitKeep = true ∧ ∀ a ∈ r.actions, a.settles = false
  /-- One delivery for each mailbox. -/
  once : ∀ (i j : ℕ) (a c : SieveAction) m m' fl fl', r.actions[i]? = some a →
    r.actions[j]? = some c → a.delivery = some (m, fl) →
    c.delivery = some (m', fl') →
    m = m' ∨ env.host.toUpperCase m = lit "INBOX" ∧ env.host.toUpperCase m' = lit "INBOX" → i = j
  /-- Every keep and fileinto that was run has its delivery. -/
  filed : r.error = none → ∀ filing ∈ s.outbox.filings,
    ∃ a ∈ r.actions, a.settles = true ∧ ∃ m fl, a.delivery = some (m, fl)
      ∧ mailboxKey env m = filing.1
  /-- It carries the flags of all of them for its mailbox, and no others. -/
  union : ∀ a ∈ r.actions, a.settles = true → ∀ m fl, a.delivery = some (m, fl) →
    fl.isSome = env.useFlags
    ∧ ∀ k, k ∈ (fl.getD []).map env.host.toLowerCase
      ↔ ∃ filing ∈ s.outbox.filings, filing.1 = mailboxKey env m
        ∧ k ∈ (filing.2.getD []).map env.host.toLowerCase
  redirects : ((r.actions.filterMap SieveAction.redirection).map fun d =>
    env.host.toLowerCase d.1).Nodup
  owned : ∀ a ∈ r.actions, ∀ address, a.redirection = some (address, true) → owns env address = true
  work : s.work ≤ env.opts.maxWork + s.lastCharge

section

variable {env : Env} {s : RunState}

/-- A run ends with its actions, or with them and the implicit keep. -/
theorem Sound.finishRun_cases (h : Sound env s) :
    (finishRun env s).implicitKeep = false ∧ (finishRun env s).actions = s.outbox.actions
        ∧ (∃ a ∈ s.outbox.actions, a.settles = true)
      ∨ (finishRun env s).implicitKeep = true
        ∧ (finishRun env s).actions
          = s.outbox.actions
            ++ [.keep env.opts.inbox (if env.useFlags then some s.flags else none) true 0]
        ∧ ∀ a ∈ s.outbox.actions, a.settles = false := by
  cases hk : s.outbox.implicitKeep with
  | false =>
    refine .inl ⟨hk, ?_, ?_⟩
    · rw [finishRun, hk]
      rfl
    · by_contra hnone
      push Not at hnone
      have hkeep := h.outbox.keep.mpr fun a ha => Bool.eq_false_iff.mpr (hnone a ha)
      rw [hk] at hkeep
      cases hkeep
  | true =>
    refine .inr ⟨hk, ?_, h.outbox.keep.mp hk⟩
    rw [finishRun, hk]
    rfl

theorem mailboxKey_eq {m m' : Str}
    (h : m = m' ∨ env.host.toUpperCase m = lit "INBOX" ∧ env.host.toUpperCase m' = lit "INBOX") :
    mailboxKey env m = mailboxKey env m' := by
  rcases h with rfl | ⟨h, h'⟩
  · rfl
  · rw [mailboxKey, mailboxKey, if_pos h, if_pos h']

/-- What was asked for is among the actions. -/
theorem Sound.filed (h : Sound env s) {filing : Str × Option (List Str)}
    (hf : filing ∈ s.outbox.filings) :
    ∃ a ∈ s.outbox.actions, a.settles = true ∧ ∃ m fl, a.delivery = some (m, fl)
      ∧ mailboxKey env m = filing.1 := by
  obtain ⟨i, hi⟩ := h.outbox.logged filing hf
  obtain ⟨a, m, fl, ha, hd, hkey⟩ := (h.outbox.filed _ i).mp hi
  have hmem := mem_of_getElem? ha
  exact ⟨a, hmem, settles_of_delivery hd (h.outbox.explicit a hmem), m, fl, hd, hkey⟩

/-- A run that raised nothing. -/
theorem Sound.keepsMail (h : Sound env s) : KeepsMail env (finishRun env s) s := by
  have hredirects : (s.outbox.actions.filterMap SieveAction.redirection).map
      (fun d => env.host.toLowerCase d.1)
      = s.outbox.redirected := h.outbox.redirected.symm
  rcases h.finishRun_cases with ⟨himplicit, hactions, hsettled⟩ | ⟨himplicit, hactions, hall⟩
  · -- the implicit keep was replaced
    refine ⟨fun he => absurd rfl he, fun _ => ?_, ?_, ?_, ?_, ?_, ?_, ?_, h.spent⟩
    · obtain ⟨a, ha, hs⟩ := hsettled
      exact ⟨a, by rw [hactions]; exact ha, .inl hs⟩
    · rw [himplicit, hactions]
      refine ⟨nofun, fun ⟨_, hnone⟩ => ?_⟩
      obtain ⟨a, ha, hs⟩ := hsettled
      rw [hnone a ha] at hs
      cases hs
    · rw [hactions]
      intro i j a c m m' fl fl' hi hj ha hc hsame
      exact h.outbox.unique hi hj ha hc (mailboxKey_eq hsame)
    · rw [hactions]
      exact fun _ filing hf => h.filed hf
    · rw [hactions]
      intro a ha _ m fl hd
      have hcarries := h.outbox.carries a ha m fl hd
      exact ⟨hcarries.used, hcarries.union⟩
    · rw [hactions, hredirects]
      exact h.outbox.nodup
    · rw [hactions]
      exact h.outbox.allowed
  · -- the implicit keep is the last action, and the only delivery
    have hdelivery : ∀ (i : ℕ) (a : SieveAction) d, (finishRun env s).actions[i]? = some a →
        a.delivery = some d →
        i = s.outbox.actions.length := by
      intro i a d hi hd
      rw [hactions] at hi
      by_cases hlt : i < s.outbox.actions.length
      · rw [getElem?_append_left hlt] at hi
        have hmem := mem_of_getElem? hi
        have hsettles := settles_of_delivery hd (h.outbox.explicit a hmem)
        rw [hall a hmem] at hsettles
        cases hsettles
      · have hlen := (List.getElem?_eq_some_iff.mp hi).1
        rw [length_append, length_singleton] at hlen
        omega
    refine ⟨fun he => absurd rfl he, fun _ => ?_, ?_, ?_, ?_, ?_, ?_, ?_, h.spent⟩
    · exact ⟨_, by rw [hactions]; exact mem_append_right _ (mem_singleton.mpr rfl), .inr rfl⟩
    · rw [himplicit, hactions, getLast?_concat, forall_mem_append, forall_mem_singleton]
      exact ⟨fun _ => ⟨rfl, hall, rfl⟩, fun _ => rfl⟩
    · intro i j a c m m' fl fl' hi hj ha hc _
      rw [hdelivery i a _ hi ha, hdelivery j c _ hj hc]
    · intro _ filing hf
      obtain ⟨a, ha, hs, -⟩ := h.filed hf
      rw [hall a ha] at hs
      cases hs
    · rw [hactions, forall_mem_append, forall_mem_singleton]
      refine ⟨fun a ha hs => ?_, nofun⟩
      rw [hall a ha] at hs
      cases hs
    · rw [hactions, filterMap_append, map_append, hredirects]
      exact (append_nil _).symm ▸ h.outbox.nodup
    · rw [hactions, forall_mem_append, forall_mem_singleton]
      exact ⟨h.outbox.allowed, nofun⟩

/-- A run that raised an error: its actions are dropped for one keep. -/
theorem Spent.keepsMail (h : Spent env s) (e : SieveRuntimeError) :
    KeepsMail env (abandonRun env e s) s where
  abandoned := fun _ => rfl
  kept := nofun
  implicit := by simp [abandonRun, SieveAction.isImplicitKeep, SieveAction.settles]
  once := by
    intro i j a c m m' fl fl' hi hj _ _ _
    have hlen := (List.getElem?_eq_some_iff.mp hi).1
    have hlen' := (List.getElem?_eq_some_iff.mp hj).1
    simp only [abandonRun, length_singleton] at hlen hlen'
    omega
  filed := nofun
  union := by
    intro a ha hs
    rw [mem_singleton.mp ha] at hs
    cases hs
  redirects := nodup_nil
  owned := by
    intro a ha address hr
    rw [mem_singleton.mp ha] at hr
    cases hr
  work := h

end

theorem sound_new (env : Env) : Sound env {} where
  work := Nat.zero_le _
  flags := by simp
  outbox := consistent_new

/-- **A script never loses mail and never relays**, whatever the script, the message
and the options, and whatever Unicode case mapping and the address parser do. -/
theorem execute_keeps_mail (host : Host) (script : CompiledScript) (msg : SieveMessage)
    (opts : ExecuteOptions) :
    KeepsMail (envOf host script msg opts) (execute host script msg opts).1
    (execute host script msg opts).2 := by
  have hblock : Safe (envOf host script msg opts)
      (block (envOf host script msg opts) script.commands) anything :=
    safe_block script.commands
  have hsafe := hblock {} (sound_new _)
  unfold wp at hsafe
  unfold execute
  dsimp only
  split
  · rename_i u s heq
    rw [heq] at hsafe
    exact hsafe.2.keepsMail
  · rename_i u s heq
    rw [heq] at hsafe
    exact hsafe.keepsMail
  · rename_i e s heq
    rw [heq] at hsafe
    exact hsafe.keepsMail e

end Postroom.Sieve
