/-
QRESYNC: what a client has cached, brought up to date by one SELECT.

A client leaves a mailbox with its UIDVALIDITY, its HIGHESTMODSEQ and the flags of
every UID. When it comes back, SELECT (QRESYNC (uidvalidity modseq)) answers with the
UIDs that have vanished since and a FETCH for every message that has changed. The
server keeps no record of the client, so the answer is right only because every
writer gives each removed UID an expunged row above the old highest_modseq and each
changed message a modseq above it: `Evolves true` of Mail/Mailbox.lean is exactly
that, and `resync_exact` is the argument.

The webmail's move leaves no expunged row. The last theorem is the client that keeps
such a message for ever.
-/
import Postroom.Imap.Numbering

set_option autoImplicit false

namespace Postroom.Imap

open Lib Mail List

/-! ## 1. The client -/

/-- Flags by UID; a UID without flags is not there. -/
abbrev FlagCache := ℕ → Option (List String)

/-- The flags of a mailbox, as a client that has fetched all of them has them. -/
def flagsOf (m : Mailbox) : FlagCache := fun uid =>
  (m.messages.find? fun x => x.uid = uid).map Message.flags

/-- The UID item of a FETCH answer. -/
def uidItem (items : List FetchResponseItem) : Option ℕ :=
  items.findSome? fun
    | .uid value => some value
    | _ => none

/-- The FLAGS item of a FETCH answer. -/
def flagsItem (items : List FetchResponseItem) : Option (List String) :=
  items.findSome? fun
    | .flags flags => some flags
    | _ => none

/-- The flags of one message are learnt. -/
def FlagCache.learn (cache : FlagCache) (r : FlagRow) : FlagCache := fun uid =>
  if uid = r.uid then some r.flags else cache uid

/-- What a client that keeps flags by UID does with a response. -/
def FlagCache.receive (cache : FlagCache) : Response → FlagCache
  | .vanishedEarlier uids => fun uid => if uid ∈ uids then none else cache uid
  | .fetch _ _ items =>
    match uidItem items, flagsItem items with
    | some u, some flags => fun uid => if uid = u then some flags else cache uid
    | _, _ => cache
  | _ => cache

theorem FlagCache.receive_vanishedEarlier (cache : FlagCache) (uids : List ℕ) (uid : ℕ) :
    cache.receive (.vanishedEarlier uids) uid = if uid ∈ uids then none else cache uid := rfl

/-! ## 2. What SELECT answers -/

/-- Every changed message of the view gets its FETCH, and the client learns its
flags. -/
theorem foldl_resyncOne {view : MailboxView} (hs : Ascending view.uids) (uidnext : ℕ)
    (changed : List FlagRow) (hin : ∀ r ∈ changed, r.uid ∈ view.uids) (out : List Response) :
    ∃ (view' : MailboxView) (fetches : List Response),
      changed.foldl (resyncOne none uidnext) (view, out) = (view', out ++ fetches)
        ∧ ∀ cache : FlagCache, fetches.foldl FlagCache.receive cache
          = changed.foldl FlagCache.learn cache := by
  induction changed generalizing view out with
  | nil => exact ⟨view, [], by rw [append_nil]; rfl, fun _ => rfl⟩
  | cons r rest ih =>
    obtain ⟨seq, hseq, -⟩ := MailboxView.seqOf_of_mem hs (hin r mem_cons_self)
    have hstep : resyncOne none uidnext (view, out) r = (view.noteModseq r.uid r.modseq,
            out ++ [.fetch seq r.uid [.uid r.uid, .flags r.flags, .modseq r.modseq]]) := by
      have hknown : inKnown none uidnext r.uid = true := rfl
      rw [resyncOne, if_pos hknown]
      rw [hseq]
    -- noting a modseq moves no UID, so the rest is found as before
    have hs' : Ascending (view.noteModseq r.uid r.modseq).uids := by
      rwa [MailboxView.noteModseq_uids]
    have hin' : ∀ r' ∈ rest, r'.uid ∈ (view.noteModseq r.uid r.modseq).uids := by
      intro r' hr'
      rw [MailboxView.noteModseq_uids]
      exact hin r' (mem_cons_of_mem _ hr')
    obtain ⟨view', fetches, hrest, hlearn⟩ := ih hs' hin'
      (out ++ [.fetch seq r.uid [.uid r.uid, .flags r.flags, .modseq r.modseq]])
    refine ⟨view', .fetch seq r.uid [.uid r.uid, .flags r.flags, .modseq r.modseq] :: fetches, ?_,
      ?_⟩
    · rw [foldl_cons, hstep, hrest, append_assoc, singleton_append]
    · intro cache
      rw [foldl_cons, foldl_cons, hlearn]
      rfl

variable {uid : ℕ} {m : Mailbox} {db : Db}

/-- Learning a list of rows: a UID of the list has its row's flags, any other keeps
what it had. -/
theorem foldl_learn_of_not_mem (rows : List FlagRow) (h : ∀ r ∈ rows, r.uid ≠ uid)
    (cache : FlagCache) : rows.foldl FlagCache.learn cache uid = cache uid := by
  induction rows generalizing cache with
  | nil => rfl
  | cons r rest ih =>
    rw [foldl_cons, ih (fun r' hr' => h r' (mem_cons_of_mem _ hr')), FlagCache.learn,
      if_neg fun heq => h r mem_cons_self heq.symm]

theorem foldl_learn_of_mem {rows : List FlagRow} (hnodup : (rows.map FlagRow.uid).Nodup)
    {r : FlagRow} (hr : r ∈ rows) (cache : FlagCache) :
    rows.foldl FlagCache.learn cache r.uid = some r.flags := by
  induction rows generalizing cache with
  | nil => cases hr
  | cons r' rest ih =>
    rw [map_cons, nodup_cons] at hnodup
    rw [foldl_cons]
    rcases mem_cons.mp hr with rfl | hr
    · rw [foldl_learn_of_not_mem rest, FlagCache.learn, if_pos rfl]
      intro r'' hr'' heq
      exact hnodup.1 (heq ▸ mem_map_of_mem hr'')
    · exact ih hnodup.2 hr _

/-- The UIDs that expungedSince answers. -/
def vanishedUids (m : Mailbox) (modseq : ℕ) : List ℕ :=
  ((m.expunged.filter fun e => modseq < e.modseq).map Expunged.uid).insertionSort (· ≤ ·)

theorem mem_vanishedUids {modseq : ℕ} :
    uid ∈ vanishedUids m modseq ↔ ∃ e ∈ m.expunged, modseq < e.modseq ∧ e.uid = uid := by
  unfold vanishedUids
  rw [(perm_insertionSort _ _).mem_iff, mem_map]
  constructor
  · rintro ⟨e, he, rfl⟩
    rw [mem_filter] at he
    exact ⟨e, he.1, by simpa using he.2, rfl⟩
  · rintro ⟨e, he, hlt, rfl⟩
    exact ⟨e, mem_filter.mpr ⟨he, by simpa using hlt⟩, rfl⟩

/-- The view that SELECT opens has the mailbox's UIDs. -/
theorem load_uids (m : Mailbox) (mb : MailboxInfo) (readOnly : Bool) (probe : Option Probe) :
    (MailboxView.load mb readOnly probe
      ((orderByUid m.messages).map fun x => ⟨x.uid, x.modseq, SEEN ∈ x.flags⟩)).uids
      = (orderByUid m.messages).map Message.uid := by
  show List.map _ (List.map _ _) = _
  rw [map_map]
  rfl

/-- The QRESYNC part, as one list of responses. -/
theorem qresyncSelectResponses_answered (view : MailboxView)
    (hdb : db view.mailboxId = some m) (hs : Ascending view.uids)
    (hin : ∀ x ∈ m.messages, x.uid ∈ view.uids) (modseq uidnext : ℕ) :
    ∃ (view' : MailboxView) (fetches : List Response),
      (qresyncSelectResponses view ⟨view.uidvalidity, modseq, none⟩ uidnext).answered (readAt db)
          = some (view', (if (vanishedUids m modseq).isEmpty then []
              else [.vanishedEarlier (vanishedUids m modseq)]) ++ fetches)
        ∧ ∀ cache : FlagCache, fetches.foldl FlagCache.receive cache
            = (changedRows m modseq).foldl FlagCache.learn cache := by
  have hgone : readAt db (.expungedSince view.mailboxId modseq) = some (vanishedUids m modseq) := by
    simp [readAt, expungedOf, hdb, vanishedUids]
  have hchanged : readAt db (.changedSince view.mailboxId modseq)
      = some (changedRows m modseq) := by
    simp [readAt, messagesOf, hdb, changedRows]
  have hall : (vanishedUids m modseq).filter (inKnown none uidnext) = vanishedUids m modseq :=
    filter_eq_self.mpr fun _ _ => rfl
  have hmem : ∀ r ∈ changedRows m modseq, r.uid ∈ view.uids := by
    intro r hr
    obtain ⟨x, hx, -, rfl⟩ := mem_changedRows.mp hr
    exact hin x hx
  obtain ⟨view', fetches, hfold, hlearn⟩ := foldl_resyncOne hs uidnext (changedRows m modseq) hmem
    (if (vanishedUids m modseq).isEmpty then [] else [.vanishedEarlier (vanishedUids m modseq)])
  refine ⟨view', fetches, ?_, hlearn⟩
  rw [qresyncSelectResponses, if_neg (not_not_intro rfl), vanishedSince]
  show ((readAt db (.expungedSince view.mailboxId modseq)).bind fun uids =>
    (readAt db (.changedSince view.mailboxId modseq)).bind fun changed =>
      some (changed.foldl (resyncOne none uidnext)
        (view, if (uids.filter (inKnown none uidnext)).isEmpty then []
          else [.vanishedEarlier (uids.filter (inKnown none uidnext))]))) = _
  rw [hgone, Option.bind_some, hchanged, Option.bind_some, hall, hfold]

/-- **SELECT with QRESYNC**, in a mailbox that is not changing: the client drops what
has vanished and learns what has changed. -/
theorem selectFound_answered {i : ℕ} (hdb : db i = some m) (hm : m.Wf) (readOnly : Bool)
    (modseq : ℕ) :
    ∃ (view : MailboxView) (responses : List Response),
      (selectFound (m.info i) readOnly (some ⟨m.uidvalidity, modseq, none⟩)).answered (readAt db)
          = some (view, responses)
        ∧ ∀ cache : FlagCache, responses.foldl FlagCache.receive cache
            = (changedRows m modseq).foldl FlagCache.learn
                (cache.receive (.vanishedEarlier (vanishedUids m modseq))) := by
  have hprobe : readAt db (.probe i) = some (some ⟨m.uidnext, m.highestModseq⟩) := by
    simp [readAt, hdb]
  have hsnapshot : readAt db (.snapshot i)
      = some ((orderByUid m.messages).map fun x => ⟨x.uid, x.modseq, SEEN ∈ x.flags⟩) := by
    simp [readAt, messagesOf, hdb]
  set view := MailboxView.load (m.info i) readOnly (some ⟨m.uidnext, m.highestModseq⟩)
    ((orderByUid m.messages).map fun x => ⟨x.uid, x.modseq, SEEN ∈ x.flags⟩) with hview
  have huids : view.uids = (orderByUid m.messages).map Message.uid := load_uids m _ _ _
  have hs : Ascending view.uids := by
    rw [huids]
    exact orderByUid_ascending hm.nodup
  have hin : ∀ x ∈ m.messages, x.uid ∈ view.uids := by
    intro x hx
    rw [huids]
    exact mem_map_of_mem (mem_orderByUid.mpr hx)
  -- the resynchronisation, from the view that the two reads above have loaded
  obtain ⟨view', fetches, hresync, hlearn⟩ := qresyncSelectResponses_answered view hdb hs hin
    modseq (Nat.max m.uidnext (view.maxUid + 1))
  refine ⟨view', [.exists_ view.uids.length, .uidValidity m.uidvalidity,
    .uidNext (Nat.max m.uidnext (view.maxUid + 1)), .highestModseq view.highestModseq]
      ++ ((if (vanishedUids m modseq).isEmpty then []
        else [.vanishedEarlier (vanishedUids m modseq)]) ++ fetches), ?_, ?_⟩
  · rw [selectFound, Txn.answered_bind]
    have hopen : (MailboxView.open_ (m.info i) readOnly).answered (readAt db)
        = some ⟨view, (((orderByUid m.messages).map fun x =>
            (⟨x.uid, x.modseq, SEEN ∈ x.flags⟩ : SnapshotRow)).findIdx? fun r => !r.seen).map
            (· + 1),
            view.highestModseq, Nat.max m.uidnext (view.maxUid + 1)⟩ := by
      show ((readAt db (.probe i)).bind fun probe => (readAt db (.snapshot i)).bind fun rows => _)
        = _
      rw [hprobe, Option.bind_some, hsnapshot, Option.bind_some]
      rfl
    rw [hopen, Option.bind_some]
    rw [Txn.answered_bind, resyncIfAsked, show m.uidvalidity = view.uidvalidity from rfl, hresync,
      Option.bind_some]
    rfl
  · intro cache
    rw [foldl_append, foldl_append, hlearn]
    congr 1
    by_cases hempty : (vanishedUids m modseq).isEmpty
    · rw [if_pos hempty]
      funext uid
      rw [FlagCache.receive_vanishedEarlier, isEmpty_iff.mp hempty]
      exact (if_neg not_mem_nil).symm
    · rw [if_neg hempty]
      rfl

/-! ## 3. The cache is brought up to date -/

theorem flagsOf_of_mem (h : m.Wf) {x : Message} (hx : x ∈ m.messages) :
    flagsOf m x.uid = some x.flags := by
  unfold flagsOf
  cases hfind : m.messages.find? fun y => y.uid = x.uid with
  | none =>
    have := find?_eq_none.mp hfind x hx
    simp at this
  | some y =>
    have hy := mem_of_find?_eq_some hfind
    have huid : y.uid = x.uid := by simpa using find?_some hfind
    rw [h.eq_of_uid hy hx huid]
    rfl

theorem flagsOf_eq_none (h : ∀ x ∈ m.messages, x.uid ≠ uid) : flagsOf m uid = none := by
  unfold flagsOf
  rw [Option.map_eq_none_iff, find?_eq_none]
  intro x hx
  simpa using h x hx

/-- **The argument.** Drop what has vanished since the old highest_modseq, learn what
has changed since, and the old flags are the new ones. -/
theorem resync_exact {m' : Mailbox} (hm : m.Wf) (hm' : m'.Wf) (hev : Evolves true m m') :
    (changedRows m' m.highestModseq).foldl FlagCache.learn
        (FlagCache.receive (flagsOf m) (.vanishedEarlier (vanishedUids m' m.highestModseq)))
          = flagsOf m' := by
  have hnodup : ((changedRows m' m.highestModseq).map FlagRow.uid).Nodup :=
    (changedRows_ascending hm' _).imp Nat.ne_of_lt
  funext uid
  by_cases hlive : ∃ x' ∈ m'.messages, x'.uid = uid
  · obtain ⟨x', hx', rfl⟩ := hlive
    rw [flagsOf_of_mem hm' hx']
    by_cases hchanged : m.highestModseq < x'.modseq
    · have hr : x'.flagRow ∈ changedRows m' m.highestModseq :=
        mem_changedRows.mpr ⟨x', hx', hchanged, rfl⟩
      exact foldl_learn_of_mem hnodup hr _
    · -- unchanged: it was there before, with these flags, and has no expunged row
      rw [foldl_learn_of_not_mem, FlagCache.receive_vanishedEarlier]
      · have hkept : x'.uid ∉ vanishedUids m' m.highestModseq := by
          intro hmem
          obtain ⟨e, he, -, heu⟩ := mem_vanishedUids.mp hmem
          exact hm'.expunged_dead e he x' hx' heu.symm
        rw [if_neg hkept]
        rcases hev.messages x' hx' with ⟨x, hx, huid, -, ⟨hflags, -⟩ | hlt⟩ | ⟨-, hlt⟩
        · rw [← huid, flagsOf_of_mem hm hx, hflags]
        · exact absurd hlt hchanged
        · exact absurd hlt hchanged
      · intro r hr huid
        obtain ⟨y, hy, hlt, rfl⟩ := mem_changedRows.mp hr
        rw [hm'.eq_of_uid hy hx' huid] at hlt
        exact hchanged hlt
  · have hdead : ∀ x' ∈ m'.messages, x'.uid ≠ uid := fun x' hx' huid => hlive ⟨x', hx', huid⟩
    rw [flagsOf_eq_none hdead, foldl_learn_of_not_mem, FlagCache.receive_vanishedEarlier]
    · by_cases hold : ∃ x ∈ m.messages, x.uid = uid
      · obtain ⟨x, hx, rfl⟩ := hold
        -- gone since: the writer that removed it left an expunged row
        obtain ⟨e, he, heu, hlt⟩ := (hev.gone x hx hdead).2 rfl
        rw [if_pos (mem_vanishedUids.mpr ⟨e, he, hlt, heu⟩)]
      · rw [flagsOf_eq_none fun x hx huid => hold ⟨x, hx, huid⟩]
        split <;> rfl
    · intro r hr huid
      obtain ⟨y, hy, -, rfl⟩ := mem_changedRows.mp hr
      exact hdead y hy huid

/-! ## 4. Over every run of the writers -/

/-- A client that recorded UIDVALIDITY, HIGHESTMODSEQ and the flags of a mailbox in
one committed state, and comes back with QRESYNC in a later one under the same
UIDVALIDITY, ends up with the mailbox's flags: in every run from `db₀` whose steps
all meet `ok`. -/
def ResyncExact (ok : MailServer → Action ℕ Command → Prop) (db₀ : Db) (ids : List ℕ) : Prop :=
  ∀ w w', Run MailServer.step ok (Server.init db₀ ids) w → Run MailServer.step ok w w' →
    ∀ i m m', w.db i = some m → w'.db i = some m' → m'.uidvalidity = m.uidvalidity →
      ∀ readOnly, ∃ view responses,
        (selectFound (m'.info i) readOnly
            (some ⟨m.uidvalidity, m.highestModseq, none⟩)).answered (readAt w'.db)
          = some (view, responses)
        ∧ responses.foldl FlagCache.receive (flagsOf m) = flagsOf m'

/-- **QRESYNC is exact** in every run in which no request deletes a row by its primary
key, as the webmail's move does, and RENAME moves INBOX's messages only under counters
that cover them. -/
theorem qresync_exact (db₀ : Db) (ids : List ℕ) (h₀ : Good db₀) :
    ResyncExact (onStatements (Careful true)) db₀ ids := by
  intro w w' hw hw' i m m' hm hm' huidvalidity readOnly
  have hserial := (MailServer.serial_run (MailServer.serial_init h₀ ids) hw).1
  obtain ⟨hserial', hserved⟩ := MailServer.serial_run hserial hw'
  obtain ⟨-, hev⟩ := (hserved.commit hserial.good).evolves_to hm hm'
  have hwf := hserial.good i m hm
  have hwf' := hserial'.good i m' hm'
  obtain ⟨view, responses, hselect, hreceive⟩ :=
    selectFound_answered hm' hwf' readOnly m.highestModseq
  refine ⟨view, responses, ?_, ?_⟩
  · rw [← huidvalidity]
    exact hselect
  · rw [hreceive]
    exact resync_exact hwf hwf' hev

/-- An account with an empty INBOX and an empty Archive. -/
def inboxAndArchive : Db := fun i =>
  if i = 1 then some ⟨1, "INBOX", some .inbox, 7, 1, 0, [], []⟩
  else if i = 2 then some ⟨1, "Archive", some .archive, 8, 1, 0, [], []⟩
  else none

theorem inboxAndArchive_good : Good inboxAndArchive := by
  intro i m hm
  unfold inboxAndArchive at hm
  split at hm
  · injection hm with hm
    subst hm
    exact Mailbox.wf_of_empty rfl rfl
  · split at hm
    · injection hm with hm
      subst hm
      exact Mailbox.wf_of_empty rfl rfl
    · cases hm

/-- A message with id 6 is appended to INBOX as UID 1. -/
def appendToInbox : List (Action ℕ Command) :=
  [.start (.append 1 1 ⟨"aa", 3, [SEEN], 0⟩ (fun _ => 9) 0),
    .advance 0 3, .advance 0 4, .advance 0 5, .advance 0 6, .advance 0 7, .advance 0 8]

/-- It is moved to Archive over IMAP. -/
def moveToArchive : List (Action ℕ Command) :=
  [.start (.move 1 [1] 2 0), .advance 1 8, .advance 1 9, .advance 1 10, .advance 1 11,
    .advance 1 12, .advance 1 13, .advance 1 14]

/-- It is moved to Archive in the webmail. -/
def webmailToArchive : List (Action ℕ Command) :=
  [.start (.updateMessage ⟨1, 6, none, [], [], some 2⟩ 0), .advance 1 8, .advance 1 9,
    .advance 1 10, .advance 1 11, .advance 1 12, .advance 1 13, .advance 1 14, .advance 1 15,
    .advance 1 16]

/-- The client that left INBOX after the append comes back after a move over IMAP and
finds it empty. -/
theorem qresync_exact_move_to_archive : ∃ w w' : MailServer,
      Run MailServer.step (onStatements (Careful true)) (Server.init inboxAndArchive [1, 2]) w
        ∧ Run MailServer.step (onStatements (Careful true)) w w'
        ∧ ∃ m m', w.db 1 = some m ∧ w'.db 1 = some m'
            ∧ flagsOf m 1 = some [SEEN] ∧ flagsOf m' 1 = none
            ∧ ∃ view responses, (selectFound (m'.info 1) false
                    (some ⟨m.uidvalidity, m.highestModseq, none⟩)).answered (readAt w'.db)
                  = some (view, responses)
                ∧ responses.foldl FlagCache.receive (flagsOf m) = flagsOf m' := by
  have hrun : ((runWhile MailServer.step (onStatements (Careful true))
        (Server.init inboxAndArchive [1, 2]) appendToInbox).bind fun w =>
      (runWhile MailServer.step (onStatements (Careful true)) w moveToArchive).bind fun w' =>
        (w.db 1).bind fun m => (w'.db 1).map fun m' =>
          (flagsOf m 1, flagsOf m' 1, decide (m'.uidvalidity = m.uidvalidity)))
      = some (some [SEEN], none, true) := by
    decide +kernel
  obtain ⟨w, hw, hrun⟩ := Option.bind_eq_some_iff.mp hrun
  obtain ⟨w', hw', hrun⟩ := Option.bind_eq_some_iff.mp hrun
  obtain ⟨m, hm, hrun⟩ := Option.bind_eq_some_iff.mp hrun
  obtain ⟨m', hm', hrun⟩ := Option.map_eq_some_iff.mp hrun
  simp only [Prod.mk.injEq, decide_eq_true_eq] at hrun
  obtain ⟨hbefore, hafter, huidvalidity⟩ := hrun
  have hrun₁ := Run.runWhile appendToInbox .refl hw
  have hrun₂ := Run.runWhile moveToArchive .refl hw'
  exact ⟨w, w', hrun₁, hrun₂, m, m', hm, hm', hbefore, hafter,
    qresync_exact inboxAndArchive [1, 2] inboxAndArchive_good w w' hrun₁ hrun₂ 1 m m' hm hm'
      huidvalidity false⟩

/-- The client that comes back after a move in the webmail keeps UID 1. -/
theorem webmail_move_leaves_cached_uid : ¬ResyncExact anyStep inboxAndArchive [1, 2] := by
  intro h
  have hrun : ((runAll MailServer.step (Server.init inboxAndArchive [1, 2]) appendToInbox).bind
      fun w => (runAll MailServer.step w webmailToArchive).bind fun w' =>
        (w.db 1).bind fun m => (w'.db 1).bind fun m' =>
          ((selectFound (m'.info 1) false
            (some ⟨m.uidvalidity, m.highestModseq, none⟩)).answered (readAt w'.db)).map fun p =>
              (p.2.foldl FlagCache.receive (flagsOf m) 1, flagsOf m' 1,
              decide (m'.uidvalidity = m.uidvalidity)))
      = some (some [SEEN], none, true) := by
    decide +kernel
  obtain ⟨w, hw, hrun⟩ := Option.bind_eq_some_iff.mp hrun
  obtain ⟨w', hw', hrun⟩ := Option.bind_eq_some_iff.mp hrun
  obtain ⟨m, hm, hrun⟩ := Option.bind_eq_some_iff.mp hrun
  obtain ⟨m', hm', hrun⟩ := Option.bind_eq_some_iff.mp hrun
  obtain ⟨p, hp, hrun⟩ := Option.map_eq_some_iff.mp hrun
  simp only [Prod.mk.injEq, decide_eq_true_eq] at hrun
  obtain ⟨hcached, hgone, huidvalidity⟩ := hrun
  obtain ⟨view, responses, hselect, hexact⟩ := h w w' (Run.runAll appendToInbox .refl hw)
    (Run.runAll webmailToArchive .refl hw') 1 m m' hm hm' huidvalidity false
  rw [hselect] at hp
  injection hp with hp
  rw [← hp, hexact, hgone] at hcached
  cases hcached

end Postroom.Imap
