/-
A view keeps up with its mailbox.

`Consistent view m` is what a session knows about the mailbox it has selected: its
placeholders are dead, a message it has not seen is above all it has seen and above
its modseq, and a message it has that died unnoticed has moved the mailbox's modseq.
It survives everything that others may commit (`Consistent.evolves`), so it survives
the gaps between the reads of `sync`; and it is exactly what makes those reads, each
of a different state, fit together (`Synced.of_runs`).

When the view has no placeholder and its modseq is the mailbox's, the view's list is
the mailbox's (`Consistent.uids_eq`).
-/
import Postroom.Imap.Client

set_option autoImplicit false

namespace Postroom.Imap

open Lib Mail List

/-! ## 1. What a view knows -/

/-- There is a message with this UID. -/
def Live (m : Mailbox) (u : ℕ) : Prop := ∃ x ∈ m.messages, x.uid = u

structure Consistent (view : MailboxView) (m : Mailbox) : Prop extends Placeholders view where
  dead : ∀ u ∈ view.pending, ¬Live m u
  uid_lt : ∀ u ∈ view.uids, u < m.uidnext
  modseq_le : view.highestModseq ≤ m.highestModseq
  unseen : ∀ x ∈ m.messages, x.uid ∉ view.uids →
    (∀ u ∈ view.uids, u < x.uid) ∧ view.highestModseq < x.modseq
  gone : ∀ u ∈ view.uids, u ∉ view.pending → ¬Live m u → view.highestModseq < m.highestModseq

/-- UIDs are handed out from 1 on. -/
structure FromOne (m : Mailbox) : Prop where
  uid_pos : ∀ x ∈ m.messages, 0 < x.uid
  next_pos : 0 < m.uidnext

variable {m m' : Mailbox} {u : ℕ} {view : MailboxView} {db db' : Db} {c : StoreCall}
  {Q : Except StoreError c.Result → Db → Prop}
variable {recorded : Bool}

theorem FromOne.evolves (h : FromOne m) (hev : Evolves recorded m m') : FromOne m' := by
  have hnext := h.next_pos
  have hle := hev.uidnext
  refine ⟨?_, by omega⟩
  intro x' hx'
  rcases hev.messages x' hx' with ⟨x, hx, huid, -⟩ | ⟨huid, -⟩
  · rw [← huid]
    exact h.uid_pos x hx
  · omega

/-- A UID that was handed out and is dead stays dead. -/
theorem dead_of_evolves (hev : Evolves recorded m m') (hlt : u < m.uidnext)
    (hdead : ¬Live m u) : ¬Live m' u := by
  rintro ⟨x', hx', rfl⟩
  obtain ⟨x, hx, huid, -⟩ := hev.of_uid_lt hx' hlt
  exact hdead ⟨x, hx, huid⟩

/-- **Others may do what they like.** -/
theorem Consistent.evolves (h : Consistent view m) (hev : Evolves false m m') :
    Consistent view m' := by
  have hle := h.modseq_le
  have hmodseq := hev.highestModseq
  have hnext := hev.uidnext
  refine ⟨h.toPlaceholders, ?_, ?_, by omega, ?_, ?_⟩
  · intro u hu
    exact dead_of_evolves hev (h.uid_lt u (h.mem u hu)) (h.dead u hu)
  · intro u hu
    have := h.uid_lt u hu
    omega
  · intro x' hx' hnot
    rcases hev.messages x' hx' with ⟨x, hx, huid, -, hsame⟩ | ⟨huid, hlt⟩
    · -- it was there: unseen then, and its modseq has only grown
      rw [← huid] at hnot ⊢
      obtain ⟨habove, hmod⟩ := h.unseen x hx hnot
      refine ⟨habove, ?_⟩
      rcases hsame with ⟨-, hq⟩ | hq
      · rw [← hq]
        exact hmod
      · omega
    · refine ⟨?_, by omega⟩
      intro u hu
      have := h.uid_lt u hu
      omega
  · intro u hu hnot hdead
    by_cases hold : Live m u
    · obtain ⟨x, hx, rfl⟩ := hold
      have := (hev.gone x hx fun x' hx' huid => hdead ⟨x', hx', huid⟩).1
      omega
    · have := h.gone u hu hnot hold
      omega

/-- **Nothing missed.** A view without placeholders whose modseq is the mailbox's has
the mailbox's UIDs, in their order. -/
theorem Consistent.uids_eq (h : Consistent view m) (hm : m.Wf) (hpending : view.pending = [])
    (hmodseq : view.highestModseq = m.highestModseq) :
    view.uids = (orderByUid m.messages).map Message.uid := by
  have hmem : ∀ u, u ∈ view.uids ↔ u ∈ (orderByUid m.messages).map Message.uid := by
    intro u
    rw [mem_map]
    constructor
    · intro hu
      by_contra hnot
      have hdead : ¬Live m u := fun ⟨x, hx, hxu⟩ => hnot ⟨x, mem_orderByUid.mpr hx, hxu⟩
      have hnone : u ∉ view.pending := by
        rw [hpending]
        exact not_mem_nil
      have := h.gone u hu hnone hdead
      omega
    · rintro ⟨x, hx, rfl⟩
      rw [mem_orderByUid] at hx
      by_contra hnot
      have := (h.unseen x hx hnot).2
      have := hm.modseq_le x hx
      omega
  have hsorted := orderByUid_ascending hm.nodup
  have hperm : view.uids.Perm ((orderByUid m.messages).map Message.uid) :=
    (perm_ext_iff_of_nodup h.ascending.nodup hsorted.nodup).mpr hmem
  exact hperm.eq_of_pairwise (fun a b _ _ hab hba => by omega) h.ascending hsorted

/-! ## 2. What it knows about the database -/

/-- The database is good and has the selected mailbox, of which the view is right. -/
def Sees (view : MailboxView) (db : Db) : Prop :=
  Good db ∧ ∃ m, db view.mailboxId = some m ∧ FromOne m ∧ Consistent view m

theorem Sees.mailbox (h : Sees view db) : ∃ m, db view.mailboxId = some m := by
  obtain ⟨-, m, hm, -⟩ := h
  exact ⟨m, hm⟩

theorem Sees.commit (h : Sees view db) (hc : Commit false db db') : Sees view db' := by
  obtain ⟨-, m, hm, hone, hcons⟩ := h
  obtain ⟨m', hm', -, hev⟩ := hc.evolves hm
  exact ⟨hc.good, m', hm', hone.evolves hev, hcons.evolves hev⟩

theorem Sees.served (h : Sees view db) (hs : Served false db db') : Sees view db' :=
  h.commit (hs.commit h.1)

/-! ## 3. Calls -/

variable {ok : Db → StoreCall → Prop} {α : Type}

theorem commit_of_commits {p : Script α} {r : α} (h : commits p db r db')
    (hp : Keeps false db p [] db) : Commit false db db' := by
  obtain ⟨_, hc⟩ := Txn.CommitsTo.wp h hp
  exact hc

/-- A call commits, or changes nothing. -/
theorem answers_commit {r : c.Result} (hg : Good db) (h : answers db c r db') :
    Commit false db db' := by
  cases c with
  | storeFlags => exact commit_of_commits h (keeps_storeFlags hg _ _ _ _ _)
  | expunge => exact commit_of_commits h (keeps_expunge hg _ _)
  | copy =>
    obtain ⟨draw, now, h⟩ := h
    exact commit_of_commits h (keeps_copy hg _ _ _ _ _)
  | move =>
    obtain ⟨now, h⟩ := h
    exact commit_of_commits h (keeps_move hg _ _ _ _)
  | _ =>
    rw [h.1]
    exact Commit.refl hg

/-- A script's end is what others and its own calls have committed since its start. -/
theorem ensures_commit (p : Calls α) (hg : Good db) :
    p.ensures (shared ok) (fun _ db' => Commit false db db') db := by
  induction p generalizing db with
  | done a => exact Commit.refl hg
  | fail e => exact Commit.refl hg
  | stmt c k ih =>
    intro db1 db₂ hothers
    have hc1 := hothers.commit hg
    refine ⟨?_, ?_⟩
    · intro r hr
      have hc2 := hc1.trans (answers_commit hc1.good hr.2)
      exact Txn.ensures_mono (ih r hc2.good) fun _ _ hc => hc2.trans hc
    · intro e he
      rw [show db₂ = db1 from he]
      exact hc1

/-- What holds where a script ends well. -/
def Ends (Q : α → Db → Prop) : Except StoreError α → Db → Prop
  | .ok a, db => Q a db
  | .error _, _ => True

/-- A call of any kind, for whatever no commit can undo. -/
theorem ensures_call_of {I : Db → Prop} (hgood : ∀ db, I db → Good db)
    (hcommit : ∀ db db', I db → Commit false db db' → I db') (h : I db)
    (hok : ∀ db1 r db₂, I db1 → ok db1 c → answers db1 c r db₂ → I db₂ → Q (.ok r) db₂)
    (herr : ∀ e db1, I db1 → Q (.error e) db1) : (call c).ensures (shared ok) Q db := by
  intro db1 db₂ hothers
  have h1 := hcommit db db1 h (hothers.commit (hgood db h))
  refine ⟨?_, ?_⟩
  · intro r hr
    exact hok db1 r db₂ h1 hr.1 hr.2 (hcommit db1 db₂ h1 (answers_commit (hgood db1 h1) hr.2))
  · intro e he
    rw [show db₂ = db1 from he]
    exact herr e db1 h1

/-- A call made with a view that is right: the view is right afterwards. -/
theorem ensures_call (h : Sees view db)
    (hok : ∀ db1 r db₂, Sees view db1 → ok db1 c → answers db1 c r db₂ → Sees view db₂ →
      Q (.ok r) db₂)
    (herr : ∀ e db1, Sees view db1 → Q (.error e) db1) : (call c).ensures (shared ok) Q db :=
  ensures_call_of (fun _ h => h.1) (fun _ _ h hc => h.commit hc) h hok herr

/-- A read answers from a state that others have brought about. -/
theorem ensures_read (hc : ∀ db1 r db₂, answers db1 c r db₂ → db₂ = db1 ∧ readAt db1 c = some r)
    (hok : ∀ db1 r, Served false db db1 → ok db1 c → readAt db1 c = some r → Q (.ok r) db1)
    (herr : ∀ e db1, Served false db db1 → Q (.error e) db1) :
    (call c).ensures (shared ok) Q db := by
  intro db1 db₂ hothers
  refine ⟨?_, ?_⟩
  · intro r hr
    obtain ⟨rfl, hread⟩ := hc db1 r db₂ hr.2
    exact hok db₂ r hothers hr.1 hread
  · intro e he
    rw [show db₂ = db1 from he]
    exact herr e db1 hothers

/-! ## 4. Which messages are gone -/

theorem MailboxView.maxUid_mem (h : view.uids ≠ []) : view.maxUid ∈ view.uids := by
  unfold MailboxView.maxUid
  rw [getLast?_eq_some_getLast h]
  exact getLast_mem h

theorem Ascending.le_maxUid (h : Ascending view.uids) (hu : u ∈ view.uids) : u ≤ view.maxUid := by
  have hne : view.uids ≠ [] := ne_nil_of_mem hu
  obtain ⟨i, hi⟩ := mem_iff_getElem?.mp hu
  have hlt : i < view.uids.length := (List.getElem?_eq_some_iff.mp hi).1
  have hlast : view.uids[view.uids.length - 1]? = some view.maxUid := by
    unfold MailboxView.maxUid
    rw [← getLast?_eq_getElem?, getLast?_eq_some_getLast hne]
    rfl
  by_cases heq : i = view.uids.length - 1
  · rw [heq, hlast] at hi
    injection hi with hi
    omega
  · have := h.lt_of_lt hi hlast (by omega)
    omega

/-- How many messages of the view are not placeholders. -/
theorem Placeholders.length (h : Placeholders view) :
    (view.uids.filter fun u => u ∉ view.pending).length
      = view.uids.length - view.pending.length := by
  have hperm : (view.uids.filter fun u => u ∈ view.pending).Perm view.pending := by
    rw [perm_ext_iff_of_nodup (h.ascending.nodup.filter _) h.nodup]
    intro u
    rw [mem_filter]
    constructor
    · intro hu
      simpa using hu.2
    · intro hu
      exact ⟨h.mem u hu, by simpa using hu⟩
  have hsum := length_eq_length_filter_add (l := view.uids) fun u => decide (u ∈ view.pending)
  have hnot : (view.uids.filter fun u => !decide (u ∈ view.pending))
      = view.uids.filter fun u => u ∉ view.pending := by
    apply filter_congr
    intro u _
    simp
  rw [hnot, hperm.length_eq] at hsum
  omega

/-- As many as there should be: then each of them is alive. -/
theorem Consistent.live_of_count (h : Consistent view m) (hm : m.Wf)
    (hcount : (m.messages.filter fun x => x.uid ≤ view.maxUid).length
      = view.uids.length - view.pending.length)
    (hu : u ∈ view.uids) (hnot : u ∉ view.pending) : Live m u := by
  set found := (m.messages.filter fun x => x.uid ≤ view.maxUid).map Message.uid with hfound
  have hnodup : found.Nodup := hm.nodup.sublist (filter_sublist.map _)
  have hsub : found ⊆ view.uids.filter fun u => u ∉ view.pending := by
    intro v hv
    obtain ⟨x, hx, rfl⟩ := mem_map.mp hv
    obtain ⟨hx, hle⟩ := mem_filter.mp hx
    have hle : x.uid ≤ view.maxUid := by simpa using hle
    have hseen : x.uid ∈ view.uids := by
      by_contra hunseen
      -- a message the view has not seen is above its last UID
      have := (h.unseen x hx hunseen).1 _ (MailboxView.maxUid_mem (ne_nil_of_mem hu))
      omega
    refine mem_filter.mpr ⟨hseen, ?_⟩
    have : x.uid ∉ view.pending := fun hp => h.dead _ hp ⟨x, hx, rfl⟩
    simpa using this
  have hlen : (view.uids.filter fun u => u ∉ view.pending).length ≤ found.length := by
    rw [h.toPlaceholders.length, hfound, length_map, hcount]
  have hperm := (subperm_of_subset hnodup hsub).perm_of_length_le hlen
  have hmem : u ∈ found := hperm.mem_iff.mpr (mem_filter.mpr ⟨hu, by simpa using hnot⟩)
  obtain ⟨x, hx, rfl⟩ := mem_map.mp hmem
  exact ⟨x, (mem_filter.mp hx).1, rfl⟩

/-- `marked` is `view` with placeholders for exactly the messages that are dead. -/
structure Marked (view marked : MailboxView) (m : Mailbox) : Prop extends
    Placeholders marked where
  mailboxId : marked.mailboxId = view.mailboxId
  highestModseq : marked.highestModseq = view.highestModseq
  uids : marked.uids = view.uids
  known : marked.known = view.known
  pending_iff : ∀ u ∈ view.uids, u ∈ marked.pending ↔ ¬Live m u

/-- The loop that marks: every UID of `l` that is not present becomes pending. -/
theorem foldl_addPending (present l : List ℕ) (view : MailboxView) (hnodup : view.pending.Nodup) :
    let marked := l.foldl (fun v u => if u ∈ present then v else v.addPending u) view
    marked.mailboxId = view.mailboxId ∧ marked.highestModseq = view.highestModseq
      ∧ marked.uids = view.uids ∧ marked.known = view.known ∧ marked.pending.Nodup
      ∧ ∀ u, u ∈ marked.pending ↔ u ∈ view.pending ∨ (u ∈ l ∧ u ∉ present) := by
  induction l generalizing view with
  | nil => exact ⟨rfl, rfl, rfl, rfl, hnodup, by simp⟩
  | cons v l ih =>
    -- a UID that is not present becomes a placeholder, unless it is one
    have hstep : ∃ p, (if v ∈ present then view else view.addPending v) = { view with pending := p }
      ∧ p.Nodup
        ∧ ∀ u, u ∈ p ↔ u ∈ view.pending ∨ (u = v ∧ u ∉ present) := by
      unfold MailboxView.addPending
      split_ifs with hv hp
      · exact ⟨view.pending, rfl, hnodup, by grind⟩
      · exact ⟨view.pending, rfl, hnodup, by grind⟩
      · refine ⟨view.pending ++ [v], rfl, ?_, by grind⟩
        exact nodup_append'.mpr ⟨hnodup, nodup_singleton v, by simpa using hp⟩
    obtain ⟨p, heq, hp, hmem⟩ := hstep
    rw [foldl_cons, heq]
    obtain ⟨h1, h2, h₃, h₄, h₅, hrest⟩ := ih { view with pending := p } hp
    refine ⟨h1, h2, h₃, h₄, h₅, fun u => ?_⟩
    rw [hrest, hmem, mem_cons, or_assoc, or_and_right]

/-- A view all of whose messages are alive, placeholders apart, needs no marking. -/
theorem Consistent.marked_self (h : Consistent view m)
    (hlive : ∀ u ∈ view.uids, u ∉ view.pending → Live m u) : Marked view view m := by
  refine ⟨h.toPlaceholders, rfl, rfl, rfl, rfl, ?_⟩
  intro u hu
  constructor
  · exact h.dead u
  · intro hdead
    by_contra hnot
    exact hdead (hlive u hu hnot)

/-- **After the count, and the list if it was needed, the placeholders are right** for
the mailbox as the last of the two reads found it. -/
theorem markExpunged_ensures (h : Sees view db) : view.markExpunged.ensures (shared ok)
      (Ends fun marked db' => ∃ m', db' view.mailboxId = some m' ∧ Marked view marked m') db := by
  unfold MailboxView.markExpunged
  dsimp only
  split
  · -- nothing but placeholders
    rename_i hknown
    obtain ⟨-, m, hm, -, hcons⟩ := h
    refine ⟨m, hm, hcons.marked_self ?_⟩
    intro u hu hnot
    have hlen := hcons.toPlaceholders.length
    rw [hknown, length_eq_zero_iff] at hlen
    have : u ∈ view.uids.filter fun u => u ∉ view.pending :=
      mem_filter.mpr ⟨hu, by simpa using hnot⟩
    rw [hlen] at this
    cases this
  apply Txn.ensures_bind
  refine ensures_read (fun _ _ _ ha => ha) ?_ fun _ _ _ => trivial
  intro db1 count hserved _ hcount
  have h1 := h.served hserved
  dsimp only
  split
  · -- as many rows as the view has live ones: none is missing
    rename_i heq
    obtain ⟨hg, m, hm, -, hcons⟩ := h1
    simp only [readAt, messagesOf, hm, Option.map_some, Option.getD_some,
      Option.some.injEq] at hcount
    refine ⟨m, hm, hcons.marked_self fun u hu hnot => ?_⟩
    exact hcons.live_of_count (hg _ m hm) (hcount.trans heq) hu hnot
  · -- some are missing: a further read says which, of a database later still
    apply Txn.ensures_bind
    refine ensures_read (fun _ _ _ ha => ha) ?_ fun _ _ _ => trivial
    intro db₂ present hserved2 _ hpresent
    obtain ⟨-, m, hm, -, hcons⟩ := h1.served hserved2
    simp only [readAt, messagesOf, hm, Option.map_some, Option.getD_some,
      Option.some.injEq] at hpresent
    obtain ⟨h1, h2, h₃, h₄, h₅, hmem⟩ := foldl_addPending present view.uids view hcons.nodup
    have hlive : ∀ u ∈ view.uids, u ∈ present ↔ Live m u := by
      intro u hu
      rw [← hpresent, mem_map]
      constructor
      · rintro ⟨x, hx, rfl⟩
        rw [mem_orderByUid] at hx
        exact ⟨x, (mem_filter.mp hx).1, rfl⟩
      · rintro ⟨x, hx, rfl⟩
        refine ⟨x, mem_orderByUid.mpr (mem_filter.mpr ⟨hx, ?_⟩), rfl⟩
        simpa using hcons.ascending.le_maxUid hu
    refine ⟨m, hm, ⟨?_, ?_, h₅⟩, h1, h2, h₃, h₄, ?_⟩
    · rw [h₃]
      exact hcons.ascending
    · intro u hu
      rw [h₃]
      rcases (hmem u).mp hu with hu | ⟨hu, -⟩
      · exact hcons.mem u hu
      · exact hu
    · intro u hu
      rw [hmem, ← hlive u hu]
      constructor
      · rintro (hp | ⟨-, hnot⟩)
        · exact fun hin => hcons.dead u hp ((hlive u hu).mp hin)
        · exact hnot
      · intro hnot
        exact .inr ⟨hu, hnot⟩

/-! ## 5. sync -/

/-- Forgetting dead messages leaves a view right. -/
theorem Consistent.forget {view' : MailboxView} {gone : List ℕ} (h : Consistent view m)
    (hf : Forgotten view gone view') (hdead : ∀ u ∈ gone, ¬Live m u) : Consistent view' m := by
  have huids : ∀ u, u ∈ view'.uids ↔ u ∈ view.uids ∧ u ∉ gone := by
    intro u
    rw [hf.uids, mem_filter]
    simp
  have hpending : ∀ u, u ∈ view'.pending ↔ u ∈ view.pending ∧ u ∉ gone := by
    intro u
    rw [hf.pending, mem_filter]
    simp
  refine ⟨⟨hf.ascending h.ascending, ?_, ?_⟩, ?_, ?_, ?_, ?_, ?_⟩
  · intro u hu
    rw [hpending] at hu
    exact (huids u).mpr ⟨h.mem u hu.1, hu.2⟩
  · rw [hf.pending]
    exact h.nodup.filter _
  · intro u hu
    exact h.dead u ((hpending u).mp hu).1
  · intro u hu
    exact h.uid_lt u ((huids u).mp hu).1
  · rw [hf.highestModseq]
    exact h.modseq_le
  · intro x hx hnot
    have hunseen : x.uid ∉ view.uids := by
      intro hmem
      have hgone : x.uid ∉ gone := fun hg => hdead _ hg ⟨x, hx, rfl⟩
      exact hnot ((huids _).mpr ⟨hmem, hgone⟩)
    obtain ⟨habove, hmod⟩ := h.unseen x hx hunseen
    rw [hf.highestModseq]
    exact ⟨fun u hu => habove u ((huids u).mp hu).1, hmod⟩
  · intro u hu hnot hdead'
    rw [huids] at hu
    rw [hf.highestModseq]
    exact h.gone u hu.1 (fun hp => hnot ((hpending u).mpr ⟨hp, hu.2⟩)) hdead'

/-- Placeholders are only ever for dead messages, so they may go at any time. -/
theorem Consistent.flush (h : Consistent view m) (opts : MailboxView.SyncOptions) :
    Consistent (view.flushIfAllowed opts).1 m := by
  obtain ⟨hforgotten, -, -⟩ := flushIfAllowed_spec h.toPlaceholders opts fun _ => none
  apply h.forget hforgotten
  intro u hu
  unfold MailboxView.flushed at hu
  split at hu
  · exact h.dead u hu
  · cases hu

/-- An unseen message is above the view's largest UID, also when the view is empty. -/
theorem Consistent.maxUid_lt (h : Consistent view m) (hone : FromOne m) {x : Message}
    (hx : x ∈ m.messages) (hnot : x.uid ∉ view.uids) : view.maxUid < x.uid := by
  by_cases hempty : view.uids = []
  · have : view.maxUid = 0 := by
      unfold MailboxView.maxUid
      rw [hempty]
      rfl
    rw [this]
    exact hone.uid_pos x hx
  · exact (h.unseen x hx hnot).1 _ (MailboxView.maxUid_mem hempty)

/-- **The reads of a sync fit together.** `m₂` is the mailbox as changedSince found it,
`m'` as the marking found it, and the modseq that the view takes over was read before
both. -/
theorem Consistent.applyChanges {marked : MailboxView} {m₂ : Mailbox} (h : Consistent view m₂)
    (hwf : m₂.Wf) (hone : FromOne m₂) (hev : Evolves false m₂ m') (hmark : Marked view marked m')
    {highestModseq : ℕ} (hle : highestModseq ≤ m₂.highestModseq) (opts : MailboxView.SyncOptions) :
    Consistent (marked.caughtUp opts highestModseq (changedRows m₂ view.highestModseq)).1 m' := by
  have h' := h.evolves hev
  have hmodseq := hev.highestModseq
  have hnext := hev.uidnext
  obtain ⟨huids, hpending, hhighest, -, -, -⟩ :=
    applyChanges_spec hmark.toPlaceholders opts highestModseq (changedRows m₂ view.highestModseq)
  set final := (marked.caughtUp opts highestModseq (changedRows m₂ view.highestModseq)).1
  set new := (changedRows m₂ view.highestModseq).filter fun r => marked.maxUid < r.uid with hnew
  have hmax : marked.maxUid = view.maxUid := by
    unfold MailboxView.maxUid
    rw [hmark.uids]
  -- the view's list: what it had without what was flushed, then what changedSince found above it
  have hmem : ∀ u, u ∈ final.uids ↔ (u ∈ view.uids ∧ u ∉ marked.flushed opts) ∨ ∃ x ∈ m₂.messages,
          view.highestModseq < x.modseq ∧ view.maxUid < x.uid ∧ x.uid = u := by
    intro u
    rw [huids, mem_append, mem_filter, hmark.uids, mem_map, hnew]
    constructor
    · rintro (⟨hu, hnot⟩ | ⟨r, hr, rfl⟩)
      · exact .inl ⟨hu, by simpa using hnot⟩
      · obtain ⟨hr, hlt⟩ := mem_filter.mp hr
        obtain ⟨x, hx, hmod, rfl⟩ := mem_changedRows.mp hr
        exact .inr ⟨x, hx, hmod, by simpa [hmax, Message.flagRow] using hlt, rfl⟩
    · rintro (⟨hu, hnot⟩ | ⟨x, hx, hmod, hlt, rfl⟩)
      · exact .inl ⟨hu, by simpa using hnot⟩
      · refine .inr ⟨x.flagRow, mem_filter.mpr ⟨mem_changedRows.mpr ⟨x, hx, hmod, rfl⟩, ?_⟩, rfl⟩
        simpa [hmax, Message.flagRow] using hlt
  have hpend : ∀ u, u ∈ final.pending ↔ u ∈ marked.pending ∧ u ∉ marked.flushed opts := by
    intro u
    rw [hpending, mem_filter]
    simp
  have hbelow : ∀ u ∈ final.uids, u < m₂.uidnext := by
    intro u hu
    rcases (hmem u).mp hu with ⟨hu, -⟩ | ⟨x, hx, -, -, rfl⟩
    · exact h.uid_lt u hu
    · exact hwf.uid_lt x hx
  refine ⟨⟨?_, ?_, ?_⟩, ?_, ?_, ?_, ?_, ?_⟩
  · rw [huids]
    refine pairwise_append.mpr ⟨hmark.ascending.filter _, ?_, ?_⟩
    · exact (changedRows_ascending hwf _).sublist (filter_sublist.map _)
    · intro u hu v hv
      have hu := hmark.ascending.le_maxUid (mem_filter.mp hu).1
      obtain ⟨r, hr, rfl⟩ := mem_map.mp hv
      have hlt : marked.maxUid < r.uid := by simpa using (mem_filter.mp hr).2
      omega
  · intro u hu
    rw [hpend] at hu
    exact (hmem u).mpr (.inl ⟨hmark.uids ▸ hmark.mem u hu.1, hu.2⟩)
  · rw [hpending]
    exact hmark.nodup.filter _
  · intro u hu
    have hu := ((hpend u).mp hu).1
    exact (hmark.pending_iff u (hmark.uids ▸ hmark.mem u hu)).mp hu
  · intro u hu
    have := hbelow u hu
    omega
  · rw [hhighest]
    omega
  · intro x hx hnot
    have hunseen : x.uid ∉ view.uids := by
      intro hu
      apply hnot
      refine (hmem _).mpr (.inl ⟨hu, ?_⟩)
      intro hfl
      exact (hmark.pending_iff _ hu).mp (marked.mem_of_flushed hfl) ⟨x, hx, rfl⟩
    rcases hev.messages x hx with ⟨y, hy, huid, -⟩ | ⟨huid, hlt⟩
    · -- there when changedSince read, unseen then too: it arrived with this sync
      rw [← huid] at hunseen hnot
      exact absurd ((hmem _).mpr
        (.inr ⟨y, hy, (h.unseen y hy hunseen).2, h.maxUid_lt hone hy hunseen, rfl⟩)) hnot
    · refine ⟨?_, by rw [hhighest]; omega⟩
      intro u hu
      have := hbelow u hu
      omega
  · intro u hu hnot hdead
    rw [hhighest]
    rcases (hmem u).mp hu with ⟨hu, hfl⟩ | ⟨x, hx, -, -, rfl⟩
    · have hp := (hmark.pending_iff u hu).mpr hdead
      exact absurd ((hpend u).mpr ⟨hp, hfl⟩) hnot
    · have := (hev.gone x hx fun x' hx' huid => hdead ⟨x', hx', huid⟩).1
      omega

/-- What a step of a session does with the view and says about it: the view is right
of the database afterwards, and the client is taken along. -/
structure Moved (view view' : MailboxView) (rs : List Response) (db' : Db) : Prop where
  mailboxId : view'.mailboxId = view.mailboxId
  sees : Sees view' db'
  follows : Follows view'.uidAt view.uids rs view'.uids

/-- What a sync adds: it says nothing of expunges where they are not allowed, and
leaves no placeholder where they are. -/
structure Synced (opts : MailboxView.SyncOptions) (view view' : MailboxView) (rs : List Response)
    (db' : Db) : Prop extends Moved view view' rs db' where
  quiet : opts.allowExpunge = false → ∀ r ∈ rs, r.isExpunge = false
  flushed : opts.allowExpunge = true → view'.pending = []

/-- The placeholders that a sync leaves: those it could not flush. -/
theorem MailboxView.flushed_pending {opts : SyncOptions} (hallow : opts.allowExpunge = true) :
    (view.pending.filter fun u => u ∉ view.flushed opts) = [] := by
  unfold MailboxView.flushed
  rw [if_pos hallow, filter_eq_nil_iff]
  intro u hu
  simpa using hu

/-- How a sync ends. Either nothing had changed, and at most the placeholders went; or
the changes were read of `m₂`, after the modseq that the view takes over, and the
marking found `m'`. -/
inductive SyncsTo (ok : Db → StoreCall → Prop) (opts : MailboxView.SyncOptions) (view : MailboxView)
    (db db' : Db) (out : MailboxView.SyncOutcome) : Prop
  | current {db₁ : Db} : ok db₁ (.probe view.mailboxId) → out = view.flushOnly opts →
      SyncsTo ok opts view db db' out
  | changed {db₁ db₂ : Db} {m₂ m' : Mailbox} {marked : MailboxView} {highestModseq : ℕ} :
      ok db₁ (.probe view.mailboxId) → ok db₂ (.changedSince view.mailboxId view.highestModseq) →
      Commit false db db₂ → Commit false db₂ db' → db₂ view.mailboxId = some m₂ →
      db' view.mailboxId = some m' → Marked view marked m' → highestModseq ≤ m₂.highestModseq →
      out = marked.applyChanges opts highestModseq (changedRows m₂ view.highestModseq) →
      SyncsTo ok opts view db db' out

theorem sync_syncsTo (h : Sees view db) (opts : MailboxView.SyncOptions) :
    (view.sync opts).ensures (shared ok)
    (Ends fun out db' => SyncsTo ok opts view db db' out) db := by
  apply Txn.ensures_bind
  refine ensures_read (fun _ _ _ ha => ha) ?_ fun _ _ _ => trivial
  intro db1 probe hserved1 hok1 hprobe
  have h1 := h.served hserved1
  obtain ⟨m1, hm1⟩ := h1.mailbox
  simp only [readAt, hm1, Option.map_some, Option.some.injEq] at hprobe
  subst hprobe
  dsimp only
  split
  · exact .current hok1 rfl
  · apply Txn.ensures_bind
    refine ensures_read (fun _ _ _ ha => ha) ?_ fun _ _ _ => trivial
    intro db₂ changed hserved2 hok2 hchanged
    have h2 := h1.served hserved2
    obtain ⟨m₂, hm2, -, hev12⟩ := (hserved2.commit h1.1).evolves hm1
    have hrows : changedRows m₂ view.highestModseq = changed := by
      simpa [readAt, messagesOf, hm2, changedRows] using hchanged
    subst hrows
    apply Txn.ensures_bind
    -- the marking, together with what it commits to having been committed
    refine Txn.ensures_mono (Txn.ensures_and (markExpunged_ensures h2)
      (ensures_commit _ h2.1)) ?_
    rintro (e | marked) db₃ ⟨hmarked, hcommit⟩
    · trivial
    · obtain ⟨m3, hm3, hmark⟩ := hmarked
      exact .changed hok1 hok2 (Served.commit (hserved1.trans hserved2) h.1) hcommit hm2 hm3 hmark
        hev12.highestModseq rfl

/-- A sync whose view is small enough, and which finds only changes that it can tell,
does not throw. -/
theorem SyncsTo.not_threw {opts : MailboxView.SyncOptions} {out : MailboxView.SyncOutcome}
    (h : SyncsTo ok opts view db db' out) (hview : Placeholders view)
    (hflush : ∀ db, ok db (.probe view.mailboxId) → view.CanFlush opts)
    (htell : ∀ db, ok db (.changedSince view.mailboxId view.highestModseq) → view.CanTell db) :
    ∃ p, out = .synced p := by
  cases h with
  | current hok hout =>
    rw [hout, MailboxView.flushOnly, if_neg (flushIfAllowed_length hview (hflush _ hok))]
    exact ⟨_, rfl⟩
  | @changed _ db₂ m₂ _ marked _ hok hok2 _ _ hm2 _ hmark _ hout =>
    have hfits : marked.CanFlush opts := by
      rw [MailboxView.CanFlush, hmark.uids]
      exact hflush _ hok
    have hmax : marked.maxUid = view.maxUid := by
      rw [MailboxView.maxUid, hmark.uids, MailboxView.maxUid]
    have hwritable : ∀ r ∈ changedRows m₂ view.highestModseq, r.uid ≤ marked.maxUid →
        writable r = true := by
      intro r hr hle
      obtain ⟨x, hx, hlt, rfl⟩ := mem_changedRows.mp hr
      refine htell db₂ hok2 x ?_ hlt (hmax ▸ hle)
      simpa [messagesOf, hm2] using hx
    rw [hout, MailboxView.applyChanges]
    dsimp only
    rw [if_neg (flushIfAllowed_length hmark.toPlaceholders hfits),
      announceAll_of_writable hwritable]
    exact ⟨_, rfl⟩

/-- **A sync keeps up**, whatever is committed between its reads. -/
theorem Synced.of_runs {opts : MailboxView.SyncOptions} {p : MailboxView × List Response}
    (h : Sees view db) (hruns : Runs (shared ok) db (view.sync opts) db' (.ok (.synced p))) :
    Synced opts view p.1 p.2 db' := by
  have hc : Commit false db db' := hruns.ensures (ensures_commit _ h.1)
  have hsync : SyncsTo ok opts view db db' (.synced p) := hruns.ensures (sync_syncsTo h opts)
  cases hsync with
  | current _ hout =>
    obtain rfl := flushOnly_synced hout.symm
    obtain ⟨hg, m, hm, hone, hcons⟩ := h.commit hc
    obtain ⟨hforgotten, hfollows, hquiet⟩ := flushIfAllowed_spec hcons.toPlaceholders opts
      (view.flushIfAllowed opts).1.uidAt
    refine ⟨⟨hforgotten.mailboxId, ⟨hg, m, ?_, hone, hcons.flush opts⟩, hfollows⟩, ?_, ?_⟩
    · rw [hforgotten.mailboxId]
      exact hm
    · intro hno r hr
      rw [hquiet hno] at hr
      cases hr
    · intro hallow
      rw [hforgotten.pending]
      exact MailboxView.flushed_pending hallow
  | @changed _ db₂ m₂ m3 marked highestModseq _ _ hc2 hc3 hm2 hm3 hmark hle hout =>
    obtain rfl := applyChanges_synced hout.symm
    obtain ⟨hg2, n, hn, hone2, hcons2⟩ := h.commit hc2
    obtain rfl : m₂ = n := Option.some.inj (hm2.symm.trans hn)
    obtain ⟨-, hev⟩ := hc3.evolves_to hm2 hm3
    obtain ⟨-, hpending, -, hid, hfollows, hquiet⟩ := applyChanges_spec hmark.toPlaceholders
      opts highestModseq (changedRows m₂ view.highestModseq)
    rw [hmark.uids] at hfollows
    refine ⟨⟨hid.trans hmark.mailboxId, ⟨hc.good, m3, ?_, hone2.evolves hev,
      hcons2.applyChanges (hg2 _ m₂ hm2) hone2 hev hmark hle opts⟩, hfollows⟩, hquiet, ?_⟩
    · rw [hid, hmark.mailboxId]
      exact hm3
    · intro hallow
      rw [hpending]
      exact MailboxView.flushed_pending hallow

end Postroom.Imap
