/-
What the client has been told about flags.

The view keeps for every message the modseq that the client last heard about. `Told`
says what that number is good for: where it is the message's modseq, the flags that
the client believes are the message's; where it is not, the message has changed since
the last sync and the next one will see it. It survives whatever others commit, and
every loop that answers with a row of the mailbox, even one that has gone stale in the
meantime, keeps it.
-/
import Postroom.Imap.Sync
import Postroom.Imap.Resync
import Postroom.Mail.FlagUpdates

set_option autoImplicit false

namespace Postroom.Imap

open Lib Mail List

/-! ## 1. One message -/

/-- `r` has been a row of the mailbox since the client was brought up to `since`: it
still is, or the message has changed after both. -/
structure Fresh (since : ℕ) (m : Mailbox) (r : FlagRow) : Prop where
  uid_lt : r.uid < m.uidnext
  modseq_le : r.modseq ≤ m.highestModseq
  since_le : since ≤ m.highestModseq
  current : ∀ x ∈ m.messages, x.uid = r.uid →
    x.flagRow = r ∨ (r.modseq < x.modseq ∧ since < x.modseq)

variable {since : ℕ} {m : Mailbox}

theorem Fresh.of_mem (hm : m.Wf) (hsince : since ≤ m.highestModseq)
    {x : Message} (hx : x ∈ m.messages) : Fresh since m x.flagRow := by
  refine ⟨hm.uid_lt x hx, hm.modseq_le x hx, hsince, ?_⟩
  intro y hy huid
  rw [hm.eq_of_uid hy hx huid]
  exact .inl rfl

variable {r : FlagRow} {u : ℕ} {rs : List Response} {acc acc' : MailboxView × List Response}
variable {known : Option ℕ} {belief : Option (List String)}

theorem Fresh.evolves {m' : Mailbox} (h : Fresh since m r) (hev : Evolves false m m') :
    Fresh since m' r := by
  have hnext := hev.uidnext
  have hmodseq := hev.highestModseq
  have hlt := h.uid_lt
  have hle := h.modseq_le
  have hsince := h.since_le
  refine ⟨by omega, by omega, by omega, ?_⟩
  intro x' hx' huid
  rcases hev.messages x' hx' with ⟨x, hx, hxu, -, hsame⟩ | ⟨hxu, -⟩
  · rcases hsame with ⟨hflags, hmod⟩ | hmod
    · -- untouched: what was so of it is so
      have hrow : x'.flagRow
          = x.flagRow := by rw [Message.flagRow, Message.flagRow, hxu, hflags, hmod]
      rw [hrow, ← hmod]
      exact h.current x hx (hxu.trans huid)
    · exact .inr ⟨by omega, by omega⟩
  · omega

/-- The client has heard about modseq `known` of the message with this UID, and
believes `belief` of its flags. -/
def Told (since : ℕ) (m : Mailbox) (u : ℕ) (known : Option ℕ) (belief : Option (List String)) :
    Prop :=
  ∀ x ∈ m.messages, x.uid = u → ∃ k, known = some k ∧ k ≤ x.modseq
    ∧ (k = x.modseq ∨ since < x.modseq)
    ∧ (k = x.modseq → ∀ flags, belief = some flags → SameFlagSet flags x.flags)

/-- A row is told. -/
theorem Fresh.told (h : Fresh since m r) : Told since m r.uid (some r.modseq) (some r.flags) := by
  intro x hx huid
  refine ⟨r.modseq, rfl, ?_⟩
  rcases h.current x hx huid with hrow | ⟨hlt, hsince⟩
  · rw [← hrow]
    refine ⟨le_rfl, .inl rfl, ?_⟩
    rintro - flags ⟨⟩
    exact SameFlagSet.refl _
  · exact ⟨by omega, .inr hsince, fun heq => by omega⟩

theorem Told.evolves {m' : Mailbox} (h : Told since m u known belief) (hm : m.Wf)
    (hu : u < m.uidnext)
    (hsince : since ≤ m.highestModseq) (hev : Evolves false m m') :
    Told since m' u known belief := by
  intro x' hx' huid
  rcases hev.messages x' hx' with ⟨x, hx, hxu, -, hsame⟩ | ⟨hxu, -⟩
  · obtain ⟨k, hk, hle, hcase, hbelief⟩ := h x hx (hxu.trans huid)
    refine ⟨k, hk, ?_⟩
    rcases hsame with ⟨hflags, hmod⟩ | hmod
    · rw [← hflags, ← hmod]
      exact ⟨hle, hcase, hbelief⟩
    · have hx := hm.modseq_le x hx
      exact ⟨by omega, .inr (by omega), fun heq => by omega⟩
  · omega

/-- Nothing is claimed of a dead message. -/
theorem Told.of_dead (h : ¬Live m u) : Told since m u known belief := by
  intro x hx huid
  exact absurd ⟨x, hx, huid⟩ h

/-! ## 2. The beliefs of a client -/

/-- A FETCH answer with flags; which message it is for is the session's word. -/
def FlagCache.hear (flags : FlagCache) : Response → FlagCache
  | .fetch _ message items =>
    match flagsItem items with
    | some told => fun u => if u = message then some told else flags u
    | none => flags
  | _ => flags

def FlagCache.hearAll (flags : FlagCache) (rs : List Response) : FlagCache :=
  rs.foldl FlagCache.hear flags

theorem FlagCache.hearAll_append (flags : FlagCache) (rs rs' : List Response) :
    flags.hearAll (rs ++ rs') = (flags.hearAll rs).hearAll rs' :=
  foldl_append

/-- Responses that tell no flags. -/
theorem FlagCache.hearAll_of_silent
    (h : ∀ r ∈ rs, ∀ seq message items, r ≠ .fetch seq message items) (flags : FlagCache) :
    flags.hearAll rs = flags := by
  induction rs generalizing flags with
  | nil => rfl
  | cons r rs ih =>
    have hr : flags.hear r = flags := by
      cases r with
      | fetch seq message items => exact absurd rfl (h _ mem_cons_self seq message items)
      | _ => rfl
    show (flags.hear r).hearAll rs = flags
    rw [hr]
    exact ih (fun r' hr' => h r' (mem_cons_of_mem _ hr')) flags

/-- Answers about other messages leave the belief about this one. -/
theorem FlagCache.hearAll_of_not_mem
    (h : ∀ r ∈ rs, ∃ seq message items, r = .fetch seq message items ∧ message ≠ u)
    (flags : FlagCache) : flags.hearAll rs u = flags u := by
  induction rs generalizing flags with
  | nil => rfl
  | cons r rs ih =>
    obtain ⟨seq, message, items, rfl, hne⟩ := h r mem_cons_self
    have hr : flags.hear (.fetch seq message items) u = flags u := by
      rw [FlagCache.hear]
      cases flagsItem items with
      | none => rfl
      | some told => exact if_neg fun heq => hne heq.symm
    show (flags.hear (.fetch seq message items)).hearAll rs u = flags u
    rw [ih fun r' hr' => h r' (mem_cons_of_mem _ hr'), hr]

/-! ## 3. The loops that answer -/

/-- From `acc` to `acc'` nothing has been said of a message, or a row of it has been
told and its modseq noted. -/
def Tells (since : ℕ) (m : Mailbox) (flags : FlagCache) (acc acc' : MailboxView × List Response) :
    Prop :=
  ∀ u, (acc.1.known u).isSome →
    (acc'.1.known u = acc.1.known u ∧ flags.hearAll acc'.2 u = flags.hearAll acc.2 u)
      ∨ ∃ r, Fresh since m r ∧ r.uid = u ∧ acc'.1.known u = some r.modseq
          ∧ flags.hearAll acc'.2 u = some r.flags

variable {flags : FlagCache} {view : MailboxView}

theorem Tells.refl (acc : MailboxView × List Response) : Tells since m flags acc acc :=
  fun _ _ => .inl ⟨rfl, rfl⟩

theorem Tells.isSome (h : Tells since m flags acc acc') (hu : (acc.1.known u).isSome) :
    (acc'.1.known u).isSome := by
  rcases h u hu with ⟨hknown, -⟩ | ⟨r, -, -, hknown, -⟩
  · rw [hknown]
    exact hu
  · rw [hknown]
    rfl

theorem Tells.trans {acc'' : MailboxView × List Response} (h : Tells since m flags acc acc')
    (h' : Tells since m flags acc' acc'') : Tells since m flags acc acc'' := by
  intro u hu
  rcases h' u (h.isSome hu) with ⟨hknown, hflags⟩ | htold
  · rw [hknown, hflags]
    exact h u hu
  · exact .inr htold

theorem Tells.foldl {α : Type} {f : MailboxView × List Response → α → MailboxView × List Response}
    (l : List α)
    (hf : ∀ acc, ∀ a ∈ l, Tells since m flags acc (f acc a)) (acc : MailboxView × List Response) :
    Tells since m flags acc (l.foldl f acc) :=
  foldlRecOn l f (Tells.refl acc) fun acc' h a ha => h.trans (hf acc' a ha)

theorem Tells.told (h : Tells since m flags acc acc') (hu : (acc.1.known u).isSome)
    (htold : Told since m u (acc.1.known u) (flags.hearAll acc.2 u)) :
    Told since m u (acc'.1.known u) (flags.hearAll acc'.2 u) := by
  rcases h u hu with ⟨hknown, hflags⟩ | ⟨r, hfresh, rfl, hknown, hflags⟩
  · rw [hknown, hflags]
    exact htold
  · rw [hknown, hflags]
    exact hfresh.told

/-- One answer, with flags and a note, from a row. -/
theorem Tells.one (hr : Fresh since m r)
    (hknown : ∀ u, (acc.1.known u).isSome → view.known u = if u = r.uid then some r.modseq
      else acc.1.known u)
    (seq : ℕ) {items : List FetchResponseItem} (hitems : flagsItem items = some r.flags) :
    Tells since m flags acc (view, acc.2 ++ [.fetch seq r.uid items]) := by
  intro u hu
  have hheard : flags.hearAll (acc.2 ++ [.fetch seq r.uid items]) u
      = if u = r.uid then some r.flags else flags.hearAll acc.2 u := by
    rw [FlagCache.hearAll_append]
    show (flags.hearAll acc.2).hear (.fetch seq r.uid items) u = _
    rw [FlagCache.hear, hitems]
  have hk := hknown u hu
  by_cases hur : u = r.uid
  · rw [if_pos hur] at hk hheard
    exact .inr ⟨r, hr, hur.symm, hk, hheard⟩
  · rw [if_neg hur] at hk hheard
    exact .inl ⟨hk, hheard⟩

theorem MailboxView.noteModseq_known {uid modseq : ℕ} (hu : (view.known u).isSome) :
    (view.noteModseq uid modseq).known u = if u = uid then some modseq else view.known u := by
  unfold MailboxView.noteModseq
  split
  · rfl
  · rename_i hnone
    rw [if_neg]
    intro heq
    rw [heq] at hu
    exact hnone hu

theorem announce_tells (hr : Fresh since m r) (opts : MailboxView.SyncOptions) (maxUid : ℕ)
    (acc : MailboxView × List Response) :
    Tells since m flags acc (MailboxView.announce opts maxUid acc r) := by
  unfold MailboxView.announce
  split
  · exact Tells.refl acc
  · exact Tells.one hr (fun _ _ => rfl) _ rfl

theorem resyncOne_tells (hr : Fresh since m r) (known : Option SequenceSet) (uidnext : ℕ)
    (acc : MailboxView × List Response) :
    Tells since m flags acc (resyncOne known uidnext acc r) := by
  unfold resyncOne
  split
  · split
    · exact Tells.refl acc
    · exact Tells.one hr (fun u hu => MailboxView.noteModseq_known hu) _ rfl
  · exact Tells.refl acc

/-- The flags in an answer are the row's, if there are any. -/
theorem flagsItem_answers (row : Message) (items : List FetchAtt) (extra : List FetchResponseItem) :
    flagsItem (items.map (FetchAtt.answer row) ++ extra)
      = if .flags ∈ items then some row.flags else flagsItem extra := by
  induction items with
  | nil => simp
  | cons item items ih =>
    rw [map_cons, cons_append, flagsItem, findSome?_cons]
    cases item with
    | flags => simp [FetchAtt.answer]
    | _ =>
      simp only [FetchAtt.answer, mem_cons, reduceCtorEq, false_or]
      exact ih

theorem fetchOne_tells {byUid : List Message}
    (hrows : ∀ row ∈ byUid, Fresh since m row.flagRow) (condstore : Bool) (items : List FetchAtt)
    (seenSet : List ℕ) (acc : MailboxView × List Response) (pair : ℕ × ℕ) :
    Tells since m flags acc (fetchOne condstore items byUid seenSet acc pair) := by
  unfold fetchOne
  split
  · exact Tells.refl acc
  rename_i row hrow
  have huid : row.uid = pair.2 := by simpa using find?_some hrow
  have hfresh := hrows row (mem_of_find?_eq_some hrow)
  dsimp only
  rw [append_assoc]
  set extra := (if pair.2 ∈ seenSet ∧ .flags ∉ items then [FetchResponseItem.flags row.flags]
    else [])
    ++ (if pair.2 ∈ seenSet ∧ condstore = true ∧ .modseq ∉ items then
      [FetchResponseItem.modseq row.modseq] else [])
  by_cases htold : .flags ∈ items ∨ pair.2 ∈ seenSet
  · -- with flags: the row is told, and noted
    rw [if_pos htold, ← huid]
    refine Tells.one hfresh (fun u hu => MailboxView.noteModseq_known hu) _ ?_
    rw [flagsItem_answers]
    split
    · rfl
    · rename_i hitems
      have hseen := htold.resolve_left hitems
      simp [extra, hseen, hitems, flagsItem, Message.flagRow]
  · -- without: neither
    rw [if_neg htold]
    rw [not_or] at htold
    intro u hu
    refine .inl ⟨rfl, ?_⟩
    rw [FlagCache.hearAll_append]
    show (flags.hearAll acc.2).hear (.fetch pair.1 pair.2 _) u = _
    have hnone : flagsItem (items.map (FetchAtt.answer row) ++ extra) = none := by
      rw [flagsItem_answers, if_neg htold.1]
      simp [extra, htold.2, flagsItem]
    rw [FlagCache.hear, hnone]

end Postroom.Imap
