/-
What the commands do to the numbering.

A handler ends with a view that is right of the database and with responses that
take the client along (`Moved`). Only EXPUNGE and MOVE say that messages are gone,
and only of messages that their own transaction has put on record.
-/
import Postroom.Imap.Told

set_option autoImplicit false

namespace Postroom.Imap

open Lib Mail List

variable {ok : Db → StoreCall → Prop}

variable {view : MailboxView} {db : Db} {talks : Bool} {since : ℕ} {m m' : Mailbox}
  {before : List Response}
  {acc : MailboxView × List Response}
variable {view' : MailboxView} {rows : List Message}

/-- Only the numbering matters. -/
theorem Consistent.congr (h : Consistent view m) (hmap : SameMap view view') :
    Consistent view' m := by
  obtain ⟨-, -, hmodseq, huids, hpending⟩ := hmap
  refine ⟨⟨?_, ?_, ?_⟩, ?_, ?_, ?_, ?_, ?_⟩
  · rw [huids]
    exact h.ascending
  · rw [huids, hpending]
    exact h.mem
  · rw [hpending]
    exact h.nodup
  · rw [hpending]
    exact h.dead
  · rw [huids]
    exact h.uid_lt
  · rw [hmodseq]
    exact h.modseq_le
  · rw [huids, hmodseq]
    exact h.unseen
  · rw [huids, hpending, hmodseq]
    exact h.gone

theorem Sees.congr (h : Sees view db) (hmap : SameMap view view') : Sees view' db := by
  obtain ⟨hg, m, hm, hone, hcons⟩ := h
  refine ⟨hg, m, ?_, hone, hcons.congr hmap⟩
  rw [hmap.mailboxId]
  exact hm

/-- A UID on record is dead. -/
theorem dead_of_onRecord {id : ℕ} {uids : List ℕ} (hg : Good db) (hm : db id = some m)
    (h : OnRecord id uids db) : ∀ u ∈ uids, ¬Live m u := by
  rintro u hu ⟨x, hx, hxu⟩
  obtain ⟨e, he, heu⟩ := h m hm u hu
  exact (hg id m hm).expunged_dead e he x hx (hxu.trans heu.symm)

/-- A handler that removes messages of which its transaction has put the UIDs on
record. -/
theorem Moved.expungeNow {uids : List ℕ} (h : Sees view db)
    (hrecord : OnRecord view.mailboxId uids db) (hnodup : uids.Nodup) (vanished : Bool) :
    Moved view (view.expungeNow uids vanished).1 (view.expungeNow uids vanished).2 db := by
  obtain ⟨hg, m, hm, hone, hcons⟩ := h
  obtain ⟨gone, hmem, hforgotten, hfollows⟩ := expungeNow_spec hcons.ascending hnodup vanished
    (view.expungeNow uids vanished).1.uidAt
  refine ⟨hforgotten.mailboxId, ⟨hg, m, ?_, hone, ?_⟩, hfollows⟩
  · rw [hforgotten.mailboxId]
    exact hm
  · apply hcons.forget hforgotten
    intro u hu
    exact dead_of_onRecord hg hm hrecord u ((hmem u).mp hu).1

/-! ## 1. What a handler does -/

/-- VANISHED (EARLIER), or nothing. -/
def Silent (rs : List Response) : Prop :=
  rs = [] ∨ ∃ gone, rs = [.vanishedEarlier gone]

theorem silent_earlier (gone : List ℕ) :
    Silent (if gone.isEmpty then [] else [.vanishedEarlier gone]) := by
  split
  · exact .inl rfl
  · exact .inr ⟨gone, rfl⟩

/-- It moves no number. -/
theorem Silent.follows (h : Silent before) :
    (∀ r ∈ before, r.isExpunge = false) ∧ ∀ uidAt list, Follows uidAt list before list := by
  rcases h with rfl | ⟨gone, rfl⟩
  · exact ⟨nofun, fun _ _ => rfl⟩
  · refine ⟨?_, fun _ _ => ⟨trivial, rfl⟩⟩
    intro r hr
    rw [mem_singleton.mp hr]
    rfl

/-- Answers with rows of the mailbox, after the responses `before`. -/
structure Speaks (view : MailboxView) (m : Mailbox) (before : List Response)
    (acc : MailboxView × List Response) : Prop where
  answered : Answered (view, before) acc
  tells : ∀ flags, Tells view.highestModseq m flags (view, before) acc

theorem Speaks.after (h : Speaks view m [] acc) (before : List Response) :
    Speaks view m before (acc.1, before ++ acc.2) := by
  obtain ⟨rs, hrs, hnames⟩ := h.answered.answers
  refine ⟨⟨h.answered.map, rs, congrArg (before ++ ·) hrs, hnames⟩, ?_⟩
  intro flags u hu
  rw [FlagCache.hearAll_append]
  exact h.tells (flags.hearAll before) u hu

/-- What a handler that ended well has done: nothing, or it has answered, or, if it
`talks` of expunges, it has removed messages of which its transaction has put the UIDs
on record. -/
inductive Did (view : MailboxView) (db : Db) : Bool → MailboxView × List Response → Prop
  | nothing {talks : Bool} : Did view db talks (view, [])
  | answered {talks : Bool} {m : Mailbox} {before : List Response}
    {acc : MailboxView × List Response} :
      db view.mailboxId = some m → Silent before → Speaks view m before acc → Did view db talks acc
  | removed {uids : List ℕ} : OnRecord view.mailboxId uids db → uids.Nodup → (vanished : Bool) →
      Did view db true (view.expungeNow uids vanished)

/-- What a handler ensures: the old view is right at its end, and so is the new one
if it ended well; `talks` says whether it may speak of expunges. -/
def Handles (talks : Bool) (view : MailboxView)
    (out : Except StoreError (MailboxView × List Response))
    (db' : Db) : Prop :=
  Sees view db' ∧ ∀ p, out = .ok p →
    Moved view p.1 p.2 db' ∧ (talks = false → ∀ r ∈ p.2, r.isExpunge = false)

theorem Handles.answered (h : Sees view db) (hbefore : Silent before)
    (ha : Answered (view, before) acc) : Handles talks view (.ok acc) db := by
  obtain ⟨hquiet, hfollows⟩ := hbefore.follows
  refine ⟨h, ?_⟩
  rintro p ⟨⟩
  refine ⟨⟨ha.map.mailboxId, h.congr ha.map, ?_⟩, fun _ => ha.quiet hquiet⟩
  rw [ha.map.uids]
  exact ha.follows (hfollows _ _)

theorem Did.handles {p : MailboxView × List Response} (hdid : Did view db talks p)
    (h : Sees view db) :
    Handles talks view (.ok p) db := by
  cases hdid with
  | nothing => exact Handles.answered h (.inl rfl) (Answered.refl _)
  | answered _ hbefore hspeaks => exact Handles.answered h hbefore hspeaks.answered
  | removed hrecord hnodup vanished =>
    refine ⟨h, ?_⟩
    rintro p ⟨⟩
    exact ⟨Moved.expungeNow h hrecord hnodup vanished, nofun⟩

theorem Did.uids {p : MailboxView × List Response} (hdid : Did view db false p) :
    p.1.uids = view.uids := by
  cases hdid with
  | nothing => rfl
  | answered _ _ hspeaks => exact hspeaks.answered.map.uids

/-! ## 2. FETCH -/

/-- The rows of a FETCH after \\Seen was set: those that the STORE answered, and those
it had no need to touch. -/
theorem withFlagRows_fresh {stored : List FlagRow}
    (hrows : ∀ x ∈ rows, Fresh since m x.flagRow) (hstored : ∀ r ∈ stored, Fresh since m r) :
    ∀ x ∈ withFlagRows rows stored, Fresh since m x.flagRow := by
  intro x' hx'
  obtain ⟨x, hx, rfl⟩ := mem_map.mp hx'
  split
  · rename_i r hr
    have huid : r.uid = x.uid := by simpa using find?_some hr
    have hrow : ({ x with flags := r.flags, modseq := r.modseq } : Message).flagRow = r := by
      rw [Message.flagRow, ← huid]
    rw [hrow]
    exact hstored r (mem_of_find?_eq_some hr)
  · exact hrows x hx

/-- The rows that a STORE answers are rows of the mailbox it leaves. -/
theorem fresh_of_storesFlags {uids : List ℕ} {op : StoreOperation} {flags : List String}
    {unchangedSince : Option ℕ} {res : StoreFlagsResult}
    (h : StoresFlags m uids op flags unchangedSince m' res) (hm' : m'.Wf)
    (hsince : since ≤ m'.highestModseq) : ∀ r ∈ res.rows, Fresh since m' r := by
  intro r hr
  rw [h.rows] at hr
  obtain ⟨x, hx, rfl⟩ := mem_map.mp hr
  apply Fresh.of_mem hm' hsince
  rw [h.messages]
  have hx := (mem_filter.mp hx).1
  rw [mem_orderByUid] at hx
  exact mem_map_of_mem (mem_filter.mp hx).1

theorem markSeen_fresh (h : Sees view db) (items : List FetchAtt)
    (hm : db view.mailboxId = some m) (hrows : ∀ x ∈ rows, Fresh view.highestModseq m x.flagRow) :
    (markSeen view items rows).ensures (shared ok) (Ends fun p db' => ∃ m',
      db' view.mailboxId = some m' ∧ ∀ x ∈ p.1, Fresh view.highestModseq m' x.flagRow) db := by
  unfold markSeen
  dsimp only
  split
  · exact ⟨m, hm, hrows⟩
  apply Txn.ensures_bind
  intro db1 db2 hserved
  refine ⟨?_, fun e he => trivial⟩
  rintro res ⟨-, hanswer⟩
  have h1 := h.served hserved
  obtain ⟨m1, hm1, -, hev1⟩ := (hserved.commit h.1).evolves hm
  have hc := answers_commit h1.1 hanswer
  obtain ⟨_, hstores⟩ := Txn.CommitsTo.wp hanswer (holds_storeFlags h1.1 _ _ _ _ _)
  obtain ⟨m2, hm2, hstores⟩ := hstores m1 hm1
  obtain ⟨hwf2, hev2⟩ := hc.evolves_to hm1 hm2
  refine ⟨m2, hm2, withFlagRows_fresh ?_ ?_⟩
  · intro x hx
    exact ((hrows x hx).evolves hev1).evolves hev2
  · obtain ⟨-, n, hn, -, hcons⟩ := h1.commit hc
    obtain rfl : m2 = n := Option.some.inj (hm2.symm.trans hn)
    exact fresh_of_storesFlags hstores hwf2 hcons.modseq_le

theorem runFetch_speaks (h : Sees view db) (s : Settings) (cmd : FetchCommand) :
    (runFetch s view cmd).ensures (shared ok)
      (Ends fun p db' => ∃ m, db' view.mailboxId = some m ∧ Speaks view m [] p) db := by
  unfold runFetch
  dsimp only
  apply Txn.ensures_bind
  refine ensures_call h ?_ fun _ _ _ => trivial
  intro db1 found db1' _ _ hanswer h1
  obtain ⟨rfl, hfound⟩ := hanswer
  obtain ⟨hg1, m1, hm1, -, hcons⟩ := id h1
  have hrows : ∀ x ∈ found, Fresh view.highestModseq m1 x.flagRow := by
    intro x hx
    simp only [readAt, messagesOf, hm1, Option.map_some, Option.getD_some,
      Option.some.injEq] at hfound
    rw [← hfound, mem_orderByUid] at hx
    exact Fresh.of_mem (hg1 _ m1 hm1) hcons.modseq_le (mem_filter.mp hx).1
  dsimp only
  split
  · exact ⟨m1, hm1, Answered.refl _, fun _ => Tells.refl _⟩
  apply Txn.ensures_bind
  refine Txn.ensures_mono (markSeen_fresh h1 _ hm1 fun x hx =>
    hrows x (mem_filter.mp hx).1) ?_
  rintro (e | ⟨byUid, seenSet⟩) db2 hout
  · trivial
  · obtain ⟨m2, hm2, hfresh⟩ := hout
    refine ⟨m2, hm2, Answered.foldl _ ?_, fun flags => Tells.foldl _ ?_ _⟩
    · intro acc pair hmap hpair
      apply fetchOne_answered
      -- the pairs were resolved in the view the loop began with
      obtain ⟨hpos, hat⟩ := MailboxView.has_of_resolve (mem_filter.mp hpair).1
      exact ⟨hpos, hmap.uids ▸ hat⟩
    · intro acc pair _
      exact fetchOne_tells hfresh _ _ _ acc pair

theorem fetch_did (h : Sees view db) (s : Settings) (cmd : FetchCommand) :
    (fetch s view cmd).ensures (shared ok) (Ends fun p db' => Did view db' false p) db := by
  unfold fetch
  dsimp only
  split
  · split
    · unfold fetchVanished vanishedSince
      apply Txn.ensures_bind
      apply Txn.ensures_bind
      refine ensures_call h ?_ fun _ _ _ => trivial
      intro _ probe db1 _ _ _ h1
      apply Txn.ensures_bind
      apply Txn.ensures_bind
      refine ensures_call h1 ?_ fun _ _ _ => trivial
      intro _ uids db2 _ _ _ h2
      apply Txn.ensures_bind
      refine Txn.ensures_mono (runFetch_speaks h2 s _) ?_
      rintro (e | p) db3 hp
      · trivial
      · obtain ⟨m, hm, hspeaks⟩ := hp
        exact .answered hm (silent_earlier _) (hspeaks.after _)
    · exact .nothing
  · refine Txn.ensures_mono (runFetch_speaks h s _) ?_
    rintro (e | p) db' hp
    · trivial
    · obtain ⟨m, hm, hspeaks⟩ := hp
      exact .answered hm (.inl rfl) hspeaks

/-! ## 3. STORE, EXPUNGE, COPY and MOVE -/

theorem store_answered (s : Settings) (view : MailboxView) (cmd : StoreCommand)
    (rows : List FlagRow) :
    Answered (view, []) (rows.foldl (storeOne s cmd (cmd.pairs s view)) (view, [])) := by
  apply Answered.foldl
  intro acc row hmap _
  apply storeOne_answered
  intro pair hpair
  obtain ⟨hpos, hat⟩ := MailboxView.has_of_resolve (mem_filter.mp hpair).1
  exact ⟨hpos, hmap.uids ▸ hat⟩

theorem store_ensures (h : Sees view db) (s : Settings) (cmd : StoreCommand) :
    (store s view cmd).ensures (shared ok) (fun out db' => Sees view db' ∧ ∀ p, out = .ok p →
        Handles false view (.ok (p.1, p.2.1)) db') db := by
  unfold store
  split
  · refine ⟨h, ?_⟩
    rintro p ⟨⟩
    exact Did.nothing.handles h
  · apply Txn.ensures_bind
    refine ensures_call h ?_ fun e db1 h1 => ⟨h1, nofun⟩
    intro db1 res db2 _ _ _ h2
    refine ⟨h2, ?_⟩
    rintro p ⟨⟩
    exact Handles.answered h2 (.inl rfl) (store_answered s view cmd res.rows)

theorem expunge_did (h : Sees view db) (s : Settings) (set : Option SequenceSet) :
    (expunge s view set).ensures (shared ok) (Ends fun p db' => Did view db' true p) db := by
  unfold expunge
  split
  · exact .nothing
  · apply Txn.ensures_bind
    refine ensures_call h ?_ fun _ _ _ => trivial
    intro db1 removed db2 h1 _ hanswer _
    obtain ⟨_, -, hrecord, hnodup⟩ := Txn.CommitsTo.wp hanswer (holds_expunge h1.1 _ _)
    exact .removed hrecord hnodup _

theorem copyOrMove_did (h : Sees view db) (s : Settings) (cmd : CopyCommand) :
    (copyOrMove s view cmd).ensures (shared ok) (Ends fun p db' => Did view db' cmd.move p) db := by
  unfold copyOrMove
  split
  · exact .nothing
  apply Txn.ensures_bind
  refine ensures_call h ?_ fun _ _ _ => trivial
  intro _ target db1 _ _ _ h1
  dsimp only
  split
  · exact .nothing
  unfold copyOrMoveTo
  dsimp only
  split
  · exact .nothing
  by_cases hmove : cmd.move = true
  · rw [if_pos hmove, hmove]
    apply Txn.ensures_bind
    refine ensures_call h1 ?_ fun _ _ _ => trivial
    intro db2 r db3 h2 _ hanswer _
    obtain ⟨now, hanswer⟩ := hanswer
    obtain ⟨_, -, hrecord, hnodup⟩ := Txn.CommitsTo.wp hanswer (holds_move h2.1 _ _ _ _)
    dsimp only
    split
    · exact .nothing
    · exact .removed hrecord hnodup _
  · rw [if_neg hmove]
    apply Txn.ensures_bind
    exact ensures_call h1 (fun _ _ _ _ _ _ _ => .nothing) fun _ _ _ => trivial

/-! ## 4. All of them -/

/-- The session's own EXPUNGE and MOVE. -/
def SessionCommand.removes : SessionCommand → Bool
  | .expunge _ => true
  | .copyOrMove cmd => cmd.move
  | _ => false

/-- Every command but STORE. -/
theorem dispatch_did (h : Sees view db) (s : Settings) {cmd : SessionCommand}
    (hcmd : ∀ c, cmd ≠ .store c) :
    (dispatch s view cmd).ensures (shared ok)
    (Ends fun p db' => Did view db' cmd.removes (p.1, p.2.1)) db := by
  -- a handler, with a STORE's outcome added
  have hlift : ∀ {p : Calls (MailboxView × List Response)} {talks : Bool},
      p.ensures (shared ok) (Ends fun p db' => Did view db' talks p) db →
      (p >>= fun a => pure (a.1, a.2, (⟨true, []⟩ : Stored))).ensures (shared ok)
        (Ends fun p db' => Did view db' talks (p.1, p.2.1)) db := by
    intro p talks hp
    apply Txn.ensures_bind
    refine Txn.ensures_mono hp ?_
    rintro (e | a) db' hout
    · trivial
    · exact hout
  cases cmd with
  | fetch cmd => exact hlift (fetch_did h s cmd)
  | store cmd => exact absurd rfl (hcmd cmd)
  | expunge set => exact hlift (expunge_did h s set)
  | copyOrMove cmd => exact hlift (copyOrMove_did h s cmd)
  | search uid => exact .nothing
  | other => exact .nothing

/-- **Every command** keeps the view right and the client with it, and speaks of
expunges only when it is one. -/
theorem dispatch_ensures (h : Sees view db) (s : Settings) (cmd : SessionCommand) :
    (dispatch s view cmd).ensures (shared ok) (fun out db' => Sees view db' ∧ ∀ p, out = .ok p →
        Handles cmd.removes view (.ok (p.1, p.2.1)) db') db := by
  by_cases hstore : ∃ c, cmd = .store c
  · obtain ⟨c, rfl⟩ := hstore
    exact store_ensures h s c
  · refine Txn.ensures_mono (Txn.ensures_and (dispatch_did h s fun c hc => hstore ⟨c, hc⟩)
      (ensures_commit _ h.1)) ?_
    rintro (e | p) db' ⟨hdid, hc⟩
    · exact ⟨h.commit hc, nofun⟩
    · refine ⟨h.commit hc, ?_⟩
      rintro q ⟨⟩
      exact hdid.handles (h.commit hc)

end Postroom.Imap
