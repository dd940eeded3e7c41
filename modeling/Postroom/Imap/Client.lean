/-
The client's side of the numbering.

A client can keep the ordered list of UIDs that a session's responses describe:
EXPUNGE deletes a place, VANISHED deletes UIDs, EXISTS makes the list longer, and the
UIDs of the new places are what the session answers when it is asked for them.
VANISHED (EARLIER) is about messages that the client has seen in some earlier
session; it moves no number.

This file says, for each thing a view does, that the responses it writes take a
client with the view's list to the view's new list, and that on the way every FETCH
answer names the message it is about.
-/
import Postroom.Imap.Numbering

set_option autoImplicit false

namespace Postroom.Imap

open Lib Mail List
open MailboxView (SyncOptions announce seqOf_sound arrive)

/-! ## 1. The list -/

/-- What a client does with its list when a response comes. `uidAt` is what the
session answers when it is asked for the UID at a number. -/
def receive (uidAt : ℕ → Option ℕ) (list : List ℕ) : Response → List ℕ
  | .expunge seq => list.eraseIdx (seq - 1)
  | .vanished uids => list.filter fun u => u ∉ uids
  | .exists_ n =>
    list ++ (List.range' (list.length + 1) (n - list.length)).filterMap uidAt
  | _ => list

/-- A FETCH answer names, by its number, the message it is about. -/
def Names (list : List ℕ) : Response → Prop
  | .fetch seq message _ => 0 < seq ∧ list[seq - 1]? = some message
  | _ => True

/-- Responses taken in order: each FETCH names its message in the list as it is by
then, and the list ends as `list'`. -/
def Follows (uidAt : ℕ → Option ℕ) : List ℕ → List Response → List ℕ → Prop
  | list, [], list' => list' = list
  | list, r :: rs, list' => Names list r ∧ Follows uidAt (receive uidAt list r) rs list'

variable {uidAt : ℕ → Option ℕ}

theorem Follows.append {list list' list'' : List ℕ} {rs rs' : List Response}
    (h : Follows uidAt list rs list') (h' : Follows uidAt list' rs' list'') :
    Follows uidAt list (rs ++ rs') list'' := by
  induction rs generalizing list with
  | nil =>
    rw [show list' = list from h] at h'
    exact h'
  | cons r rs ih => exact ⟨h.1, ih h.2⟩

/-- "* n EXPUNGE" and "* VANISHED uids". -/
def Response.isExpunge : Response → Bool
  | .expunge _ => true
  | .vanished _ => true
  | _ => false

/-! ## 2. Answers that move nothing

FETCH, STORE, the flag loop of sync and the FETCH part of a resynchronisation all go
through a list and, for each element, may note a modseq and write one answer. -/

/-- The two views differ at most in what the client has heard. -/
structure SameMap (view view' : MailboxView) : Prop where
  mailboxId : view'.mailboxId = view.mailboxId
  readOnly : view'.readOnly = view.readOnly
  highestModseq : view'.highestModseq = view.highestModseq
  uids : view'.uids = view.uids
  pending : view'.pending = view.pending

theorem SameMap.refl (view : MailboxView) : SameMap view view := ⟨rfl, rfl, rfl, rfl, rfl⟩

variable {view : MailboxView} {acc : MailboxView × List Response} {before : List Response}
  {us : List ℕ}

theorem SameMap.trans {view' view'' : MailboxView} (h : SameMap view view')
    (h' : SameMap view' view'') : SameMap view view'' :=
  ⟨h'.mailboxId.trans h.mailboxId, h'.readOnly.trans h.readOnly,
    h'.highestModseq.trans h.highestModseq, h'.uids.trans h.uids, h'.pending.trans h.pending⟩

theorem MailboxView.setKnown_sameMap (view : MailboxView) (uid modseq : ℕ) :
    SameMap view (view.setKnown uid modseq) := ⟨rfl, rfl, rfl, rfl, rfl⟩

theorem MailboxView.noteModseq_sameMap (view : MailboxView) (uid modseq : ℕ) :
    SameMap view (view.noteModseq uid modseq) := by
  unfold MailboxView.noteModseq
  split
  · exact view.setKnown_sameMap uid modseq
  · exact SameMap.refl view

/-- `acc'` has answered more than `acc`, rightly, and moved nothing. -/
structure Answered (acc acc' : MailboxView × List Response) : Prop where
  map : SameMap acc.1 acc'.1
  answers : ∃ rs, acc'.2 = acc.2 ++ rs ∧ ∀ r ∈ rs, ∃ seq message items,
    r = .fetch seq message items ∧ acc.1.Has (seq, message)

theorem Answered.refl (acc : MailboxView × List Response) : Answered acc acc :=
  ⟨SameMap.refl _, [], (append_nil _).symm, nofun⟩

theorem Answered.one {seq message : ℕ} (items : List FetchResponseItem) (hmap : SameMap acc.1 view)
    (h : acc.1.Has (seq, message)) : Answered acc (view, acc.2 ++ [.fetch seq message items]) := by
  refine ⟨hmap, [.fetch seq message items], rfl, ?_⟩
  intro r hr
  rw [mem_singleton] at hr
  exact ⟨seq, message, items, hr, h⟩

theorem Answered.note (hmap : SameMap acc.1 view) : Answered acc (view, acc.2) :=
  ⟨hmap, [], (append_nil _).symm, nofun⟩

theorem Answered.trans {acc' acc'' : MailboxView × List Response} (h : Answered acc acc')
    (h' : Answered acc' acc'') : Answered acc acc'' := by
  obtain ⟨rs, hrs, hnames⟩ := h.answers
  obtain ⟨rs', hrs', hnames'⟩ := h'.answers
  refine ⟨h.map.trans h'.map, rs ++ rs', by rw [hrs', hrs, append_assoc], ?_⟩
  intro r hr
  rcases mem_append.mp hr with hr | hr
  · exact hnames r hr
  · obtain ⟨seq, message, items, heq, hhas⟩ := hnames' r hr
    refine ⟨seq, message, items, heq, hhas.1, ?_⟩
    rw [← h.map.uids]
    exact hhas.2

/-- A loop whose every round answers rightly does. -/
theorem Answered.foldl {α : Type}
    {f : MailboxView × List Response → α → MailboxView × List Response} (l : List α)
    (hf : ∀ acc' a, SameMap acc.1 acc'.1 → a ∈ l → Answered acc' (f acc' a)) :
    Answered acc (l.foldl f acc) :=
  foldlRecOn l f (Answered.refl acc) fun acc' h a ha => h.trans (hf acc' a h.map ha)

/-- Right answers leave a client with the view's list where it was. -/
theorem Answered.follows (h : Answered (view, before) acc)
    (hbefore : Follows uidAt view.uids before view.uids) :
    Follows uidAt view.uids acc.2 view.uids := by
  obtain ⟨rs, hrs, hnames⟩ := h.answers
  rw [hrs]
  refine hbefore.append ?_
  clear hrs
  induction rs with
  | nil => rfl
  | cons r rs ih =>
    obtain ⟨seq, message, items, rfl, hhas⟩ := hnames r mem_cons_self
    exact ⟨hhas, ih fun r' hr' => hnames r' (mem_cons_of_mem _ hr')⟩

theorem Answered.quiet (h : Answered (view, before) acc)
    (hbefore : ∀ r ∈ before, r.isExpunge = false) : ∀ r ∈ acc.2, r.isExpunge = false := by
  obtain ⟨rs, hrs, hnames⟩ := h.answers
  rw [hrs]
  refine forall_mem_append.mpr ⟨hbefore, fun r hr => ?_⟩
  obtain ⟨seq, message, items, rfl, -⟩ := hnames r hr
  rfl

/-! ## 3. The loops that answer -/

/-- What is told is of the client's messages, alive, and news to it. -/
theorem MailboxView.dueAt_some {maxUid seq : ℕ} {r : FlagRow} (h : view.dueAt maxUid r = some seq) :
    ¬(maxUid < r.uid ∨ view.isExpunged r.uid = true)
      ∧ ¬((view.known r.uid).any fun seen => r.modseq ≤ seen) = true
        ∧ view.seqOf r.uid = some seq := by
  unfold MailboxView.dueAt at h
  split at h
  · cases h
  split at h
  · cases h
  · exact ⟨by assumption, by assumption, h⟩

theorem announce_answered (opts : SyncOptions) (maxUid : ℕ) (acc : MailboxView × List Response)
    (r : FlagRow) :
    Answered acc (announce opts maxUid acc r) := by
  unfold announce
  split
  · exact Answered.refl acc
  · rename_i seq hseq
    exact Answered.one _ (acc.1.setKnown_sameMap _ _)
      (seqOf_sound (MailboxView.dueAt_some hseq).2.2)

theorem resyncOne_answered (known : Option SequenceSet) (uidnext : ℕ)
    (acc : MailboxView × List Response) (r : FlagRow) :
    Answered acc (resyncOne known uidnext acc r) := by
  unfold resyncOne
  split
  · split
    · exact Answered.refl acc
    · rename_i seq hseq
      exact Answered.one _ (acc.1.noteModseq_sameMap _ _) (seqOf_sound hseq)
  · exact Answered.refl acc

theorem fetchOne_answered (condstore : Bool) (items : List FetchAtt) (byUid : List Message)
    (seenSet : List ℕ) (acc : MailboxView × List Response) {pair : ℕ × ℕ} (hpair : acc.1.Has pair) :
    Answered acc (fetchOne condstore items byUid seenSet acc pair) := by
  unfold fetchOne
  split
  · exact Answered.refl acc
  · refine Answered.one _ ?_ hpair
    split
    · exact acc.1.noteModseq_sameMap _ _
    · exact SameMap.refl _

theorem storeOne_answered (s : Settings) (cmd : StoreCommand) {pairs : List (ℕ × ℕ)}
    (acc : MailboxView × List Response) (row : FlagRow) (hpairs : ∀ p ∈ pairs, acc.1.Has p) :
    Answered acc (storeOne s cmd pairs acc row) := by
  have hmap := acc.1.noteModseq_sameMap row.uid row.modseq
  unfold storeOne
  split
  · exact Answered.note hmap
  split
  · exact Answered.note hmap
  · rename_i p hp
    have hmem : p ∈ pairs := mem_reverse.mp (mem_of_find?_eq_some hp)
    have huid : p.2 = row.uid := by simpa using find?_some hp
    refine Answered.one _ hmap ?_
    rw [← huid]
    exact hpairs p hmem

/-! ## 4. Expunges -/

/-- Numbers in any order, each a place of the list, taken out of a view and out of a
client's list. -/
theorem foldl_expungeOne_uids (view : MailboxView) (seqs : List ℕ) :
    (seqs.foldl MailboxView.expungeOne view).uids
      = seqs.foldl (fun list s => list.eraseIdx (s - 1)) view.uids := by
  refine (foldl_hom MailboxView.uids fun view s => ?_).symm
  unfold MailboxView.expungeOne
  split <;> rfl

theorem follows_expunges (uidAt : ℕ → Option ℕ) (list seqs : List ℕ) :
    Follows uidAt list (seqs.map .expunge)
      (seqs.foldl (fun list s => list.eraseIdx (s - 1)) list) := by
  induction seqs generalizing list with
  | nil => rfl
  | cons s rest ih => exact ⟨trivial, ih _⟩

/-- The numbers of distinct UIDs, in descending order, are distinct places. -/
theorem descending_seqs (hus : us.Nodup) :
    ((us.filterMap view.seqOf).insertionSort (· ≥ ·)).Pairwise (· > ·) := by
  have hnodup : (us.filterMap view.seqOf).Nodup := by
    apply List.Nodup.filterMap _ hus
    intro u v s hu hv
    rw [Option.mem_def] at hu hv
    -- one place holds one UID
    have hplace := (seqOf_sound hu).2
    rw [(seqOf_sound hv).2] at hplace
    exact (Option.some.inj hplace).symm
  have hperm := perm_insertionSort (· ≥ ·) (us.filterMap view.seqOf)
  have hsorted : ((us.filterMap view.seqOf).insertionSort (· ≥ ·)).Pairwise (· ≥ ·) :=
    pairwise_insertionSort _ _
  exact (hsorted.and (hperm.nodup_iff.mpr hnodup)).imp fun hab =>
    Nat.lt_of_le_of_ne hab.1 fun heq => hab.2 heq.symm

/-- **Both forms of expunge** take out those of `us` that the view has, and say so. -/
theorem expungeNow_spec (hs : Ascending view.uids) (hus : us.Nodup) (vanished : Bool)
    (uidAt : ℕ → Option ℕ) : ∃ gone, (∀ u, u ∈ gone ↔ u ∈ us ∧ u ∈ view.uids)
      ∧ Forgotten view gone (view.expungeNow us vanished).1
      ∧ Follows uidAt view.uids (view.expungeNow us vanished).2
      (view.expungeNow us vanished).1.uids := by
  unfold MailboxView.expungeNow
  cases vanished with
  | true =>
    rw [if_pos rfl]
    obtain ⟨gone, hlist, hgone, hmem⟩ := MailboxView.foldl_vanishOne hs us []
    rw [nil_append] at hlist
    refine ⟨gone, hmem, hgone, ?_⟩
    dsimp only
    rw [hlist, hgone.uids]
    by_cases hempty : gone = []
    · rw [if_pos (isEmpty_iff.mpr hempty), hempty]
      exact filter_eq_self.mpr fun u _ => by simp
    · rw [if_neg (by rwa [List.isEmpty_iff])]
      refine ⟨trivial, ?_⟩
      show _ = view.uids.filter fun u => u ∉ gone.insertionSort (· ≤ ·)
      apply filter_congr
      intro u _
      exact decide_eq_decide.mpr
        (not_congr (perm_insertionSort (· ≤ ·) gone).mem_iff.symm)
  | false =>
    rw [if_neg Bool.false_ne_true]
    have hplace : ∀ s ∈ (us.filterMap view.seqOf).insertionSort
        (· ≥ ·), ∃ u ∈ us, view.seqOf u = some s := by
      intro s hmem
      rw [(perm_insertionSort _ _).mem_iff] at hmem
      exact mem_filterMap.mp hmem
    obtain ⟨gone, hgone, hmem⟩ := MailboxView.foldl_expungeOne hs (descending_seqs hus) (by
      intro s hs'
      obtain ⟨u, -, hu⟩ := hplace s hs'
      obtain ⟨hpos, hat⟩ := seqOf_sound hu
      have := (List.getElem?_eq_some_iff.mp hat).1
      omega)
    refine ⟨gone, ?_, hgone, ?_⟩
    · intro u
      rw [hmem]
      constructor
      · rintro ⟨s, hs', hat⟩
        obtain ⟨v, hv, hseq⟩ := hplace s hs'
        rw [(seqOf_sound hseq).2] at hat
        obtain rfl : v = u := Option.some.inj hat
        exact ⟨hv, mem_of_getElem? (seqOf_sound hseq).2⟩
      · rintro ⟨hu, huv⟩
        obtain ⟨s, hseq, hat⟩ := MailboxView.seqOf_of_mem hs huv
        refine ⟨s, ?_, hat⟩
        rw [(perm_insertionSort _ _).mem_iff]
        exact mem_filterMap.mpr ⟨u, hu, hseq⟩
    · rw [foldl_expungeOne_uids]
      exact follows_expunges uidAt _ _

/-- Only which UIDs are gone matters. -/
theorem Forgotten.congr {view' : MailboxView} {gone gone' : List ℕ} (h : Forgotten view gone view')
    (hg : ∀ u, u ∈ gone ↔ u ∈ gone') : Forgotten view gone' view' := by
  have hfilter : ∀ l : List ℕ, (l.filter fun u => u ∉ gone) = l.filter fun u => u ∉ gone' := by
    intro l
    apply filter_congr
    intro u _
    exact decide_eq_decide.mpr (not_congr (hg u))
  refine ⟨h.mailboxId, h.readOnly, h.highestModseq, ?_, ?_, ?_⟩
  · rw [h.uids, hfilter]
  · rw [h.pending, hfilter]
  · intro u
    rw [h.known]
    by_cases hu : u ∈ gone
    · rw [if_pos hu, if_pos ((hg u).mp hu)]
    · rw [if_neg hu, if_neg fun hu' => hu ((hg u).mpr hu')]

/-- The placeholders of a view are messages it has, each once. -/
structure Placeholders (view : MailboxView) : Prop where
  ascending : Ascending view.uids
  mem : ∀ u ∈ view.pending, u ∈ view.uids
  nodup : view.pending.Nodup

/-- The UIDs that a sync may take out of the view. -/
def MailboxView.flushed (view : MailboxView) (opts : SyncOptions) : List ℕ :=
  if opts.allowExpunge then view.pending else []

theorem MailboxView.mem_of_flushed (view : MailboxView) {opts : SyncOptions} {u : ℕ}
    (h : u ∈ view.flushed opts) : u ∈ view.pending := by
  unfold MailboxView.flushed at h
  split at h
  · exact h
  · cases h

theorem flushIfAllowed_spec (h : Placeholders view) (opts : SyncOptions)
    (uidAt : ℕ → Option ℕ) : Forgotten view (view.flushed opts) (view.flushIfAllowed opts).1
      ∧ Follows uidAt view.uids (view.flushIfAllowed opts).2 (view.flushIfAllowed opts).1.uids
      ∧ (opts.allowExpunge = false → (view.flushIfAllowed opts).2 = []) := by
  unfold MailboxView.flushIfAllowed MailboxView.flushed
  by_cases hallow : opts.allowExpunge = true
  · rw [if_pos hallow, if_pos hallow, MailboxView.flushPending]
    refine ⟨?_, ?_, fun hno => by rw [hallow] at hno; cases hno⟩
    · split
      · rename_i hempty
        rw [isEmpty_iff.mp hempty]
        exact Forgotten.refl view
      · obtain ⟨gone, hmem, hgone, -⟩ := expungeNow_spec h.ascending h.nodup opts.qresync uidAt
        refine hgone.congr fun u => ?_
        rw [hmem]
        exact ⟨fun hu => hu.1, fun hu => ⟨hu, h.mem u hu⟩⟩
    · split
      · rfl
      · obtain ⟨gone, -, -, hfollows⟩ := expungeNow_spec h.ascending h.nodup opts.qresync uidAt
        exact hfollows
  · rw [if_neg hallow, if_neg hallow]
    exact ⟨Forgotten.refl view, rfl, fun _ => rfl⟩

/-! ## 5. Arrivals -/

theorem foldl_arrive (view : MailboxView) (new : List FlagRow) :
    (new.foldl arrive view).uids = view.uids ++ new.map FlagRow.uid
      ∧ (new.foldl arrive view).pending = view.pending
      ∧ (new.foldl arrive view).mailboxId = view.mailboxId := by
  induction new generalizing view with
  | nil => exact ⟨(append_nil _).symm, rfl, rfl⟩
  | cons r new ih =>
    obtain ⟨huids, hrest⟩ := ih (view.arrive r)
    rw [foldl_cons, huids]
    refine ⟨?_, hrest⟩
    show view.uids ++ [r.uid] ++ _ = _
    rw [append_assoc, singleton_append, map_cons]

/-- The places from `l.length` on are those of `new`. -/
theorem filterMap_uidAt_append {l new : List ℕ} (h : view.uids = l ++ new) :
    (List.range' (l.length + 1) new.length).filterMap view.uidAt = new := by
  induction new generalizing l with
  | nil => rfl
  | cons v new ih =>
    have hat : view.uidAt (l.length + 1) = some v := by
      rw [MailboxView.uidAt, if_neg (by omega), Nat.add_sub_cancel, h, getElem?_append_right le_rfl,
        Nat.sub_self]
      rfl
    have hrest := ih (l := l ++ [v]) (by rw [h, append_assoc, singleton_append])
    rw [length_append, length_singleton] at hrest
    rw [length_cons, range'_succ, filterMap_cons_some hat, hrest]

/-- EXISTS takes a client to the longer list. -/
theorem arrivals_follows {final : MailboxView} {new : List FlagRow}
    (hfinal : final.uids = view.uids ++ new.map FlagRow.uid) :
    Follows final.uidAt view.uids (view.arrivals new).2 final.uids := by
  unfold MailboxView.arrivals
  dsimp only
  by_cases hempty : new = []
  · rw [if_pos (isEmpty_iff.mpr hempty), hfinal, hempty]
    exact append_nil _
  · rw [if_neg (by rwa [List.isEmpty_iff])]
    refine ⟨trivial, ?_⟩
    show final.uids = view.uids ++ _
    rw [(foldl_arrive view new).1, hfinal, length_append, Nat.add_sub_cancel_left,
      filterMap_uidAt_append hfinal]

/-! ## 6. sync, once its reads are made -/

variable {opts : SyncOptions} {highestModseq : ℕ} {changed : List FlagRow}
  {p : MailboxView × List Response}

/-- What a sync does and says if no error stops it. -/
def MailboxView.caughtUp (view : MailboxView) (opts : SyncOptions) (highestModseq : ℕ)
    (changed : List FlagRow) : MailboxView × List Response :=
  let flushed := view.flushIfAllowed opts
  let grown := flushed.1.arrivals (changed.filter fun r => view.maxUid < r.uid)
  let told := changed.foldl (announce opts view.maxUid) (grown.1, [])
  ({ told.1 with highestModseq := highestModseq }, flushed.2 ++ grown.2 ++ told.2)

theorem announceAll_ok {maxUid : ℕ} {acc acc' : MailboxView × List Response}
    (h : MailboxView.announceAll opts maxUid acc changed = .ok acc') :
    acc' = changed.foldl (announce opts maxUid) acc := by
  induction changed generalizing acc with
  | nil =>
    injection h with h
    exact h.symm
  | cons r rest ih =>
    unfold MailboxView.announceAll at h
    dsimp only at h
    split at h
    · cases h
    · exact ih h

/-- The loop comes to its end where all that it has to tell can be written. -/
theorem announceAll_of_writable {maxUid : ℕ} (h : ∀ r ∈ changed, r.uid ≤ maxUid → writable r = true)
    (acc : MailboxView × List Response) :
    MailboxView.announceAll opts maxUid acc changed
      = .ok (changed.foldl (announce opts maxUid) acc) := by
  induction changed generalizing acc with
  | nil => rfl
  | cons r rest ih =>
    unfold MailboxView.announceAll
    dsimp only
    rw [if_neg]
    · exact ih (fun r' hr' => h r' (mem_cons_of_mem _ hr')) _
    · rintro ⟨hdue, hnot⟩
      obtain ⟨seq, hseq⟩ := Option.isSome_iff_exists.mp hdue
      have hle := (MailboxView.dueAt_some hseq).1
      rw [h r mem_cons_self (by omega)] at hnot
      cases hnot

theorem flushOnly_synced (h : view.flushOnly opts = .synced p) : p = view.flushIfAllowed opts := by
  unfold MailboxView.flushOnly at h
  dsimp only at h
  split at h
  · cases h
  · injection h with h
    exact h.symm

theorem applyChanges_synced (h : view.applyChanges opts highestModseq changed = .synced p) :
    p = view.caughtUp opts highestModseq changed := by
  unfold MailboxView.applyChanges at h
  dsimp only at h
  split at h
  · cases h
  split at h
  · cases h
  · rename_i hall
    injection h with h
    rw [← h, MailboxView.caughtUp, ← announceAll_ok hall]

/-- A flush says no more than there are messages, or one thing under QRESYNC. -/
theorem flushIfAllowed_length (h : Placeholders view) (hfits : view.CanFlush opts) :
    ¬opts.maxArguments < (view.flushIfAllowed opts).2.length := by
  have hpending : view.pending.length ≤ view.uids.length :=
    (subperm_of_subset h.nodup h.mem).length_le
  have hle : (view.flushIfAllowed opts).2.length ≤ if opts.qresync then 1
      else view.uids.length := by
    unfold MailboxView.flushIfAllowed MailboxView.flushPending MailboxView.expungeNow
    split
    · split
      · exact Nat.zero_le _
      · split
        · dsimp only
          split
          · exact Nat.zero_le _
          · exact le_rfl
        · rw [length_map, length_insertionSort]
          exact (length_filterMap_le _ _).trans hpending
    · exact Nat.zero_le _
  exact Nat.not_lt.mpr (hle.trans hfits)

/-- **What a sync does to the view.** The placeholders go if they may, the arrivals
come, and the client is taken along. -/
theorem applyChanges_spec (h : Placeholders view) (opts : SyncOptions)
    (highestModseq : ℕ) (changed : List FlagRow) :
    let final := (view.caughtUp opts highestModseq changed).1
    let responses := (view.caughtUp opts highestModseq changed).2
    final.uids = (view.uids.filter fun u => u ∉ view.flushed opts)
        ++ (changed.filter fun r => view.maxUid < r.uid).map FlagRow.uid
      ∧ final.pending = (view.pending.filter fun u => u ∉ view.flushed opts)
      ∧ final.highestModseq = highestModseq ∧ final.mailboxId = view.mailboxId
      ∧ Follows final.uidAt view.uids responses final.uids
      ∧ (opts.allowExpunge = false → ∀ r ∈ responses, r.isExpunge = false) := by
  set new := changed.filter fun r => view.maxUid < r.uid
  obtain ⟨hflush, -, hquiet⟩ := flushIfAllowed_spec h opts fun _ => none
  obtain ⟨huids, hpending, hid⟩ := foldl_arrive (view.flushIfAllowed opts).1 new
  have htold : Answered (((view.flushIfAllowed opts).1.arrivals new).1, [])
      (changed.foldl (announce opts view.maxUid)
        (((view.flushIfAllowed opts).1.arrivals new).1, [])) :=
    Answered.foldl changed fun acc r _ _ => announce_answered opts _ acc r
  have hmap := htold.map
  have hfinal : (view.caughtUp opts highestModseq changed).1.uids
      = (view.flushIfAllowed opts).1.uids ++ new.map FlagRow.uid := hmap.uids.trans huids
  refine ⟨?_, ?_, rfl, ?_, ?_, ?_⟩
  · rw [hfinal, hflush.uids]
  · exact hmap.pending.trans (hpending.trans hflush.pending)
  · exact hmap.mailboxId.trans (hid.trans hflush.mailboxId)
  · -- expunges, then EXISTS, then answers that move nothing
    obtain ⟨-, hexpunges, -⟩ := flushIfAllowed_spec h opts
      (view.caughtUp opts highestModseq changed).1.uidAt
    have hanswers := htold.follows
      (show Follows (view.caughtUp opts highestModseq changed).1.uidAt _ [] _ from rfl)
    rw [show ((view.flushIfAllowed opts).1.arrivals new).1.uids
      = (view.caughtUp opts highestModseq changed).1.uids from huids.trans hfinal.symm]
      at hanswers
    exact (hexpunges.append (arrivals_follows hfinal)).append hanswers
  · intro hno r hr
    have hcases : r ∈ (view.flushIfAllowed opts).2
        ∨ r ∈ ((view.flushIfAllowed opts).1.arrivals new).2
        ∨ r ∈ (changed.foldl (announce opts view.maxUid)
          (((view.flushIfAllowed opts).1.arrivals new).1, [])).2 := by
      have : r ∈ (view.flushIfAllowed opts).2 ++ ((view.flushIfAllowed opts).1.arrivals new).2
          ++ (changed.foldl (announce opts view.maxUid)
            (((view.flushIfAllowed opts).1.arrivals new).1, [])).2 := hr
      simpa only [mem_append, or_assoc] using this
    rcases hcases with hr | hr | hr
    · rw [hquiet hno] at hr
      cases hr
    · unfold MailboxView.arrivals at hr
      split at hr
      · cases hr
      · rw [mem_singleton.mp hr]
        rfl
    · exact htold.quiet nofun r hr

end Postroom.Imap
