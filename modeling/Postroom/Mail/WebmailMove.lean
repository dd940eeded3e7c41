/-
Two ways to move a message: `MailStore.move` of apps/imap/src/store.ts, and
`updateMessage` of apps/api/src/mail/store.ts with a mailbox to move to.

Over IMAP the row is given to the target, without its inbound message where the
target has a copy of that already, and its old UID is put on record. The webmail
inserts a copy into the target and then deletes the row. It writes no expunged row,
and the insert fails where the target has a copy of the same inbound message.

Each is run alone on the database it finds.
-/
import Mathlib.Data.List.Dedup
import Postroom.Mail.Discipline

set_option autoImplicit false

namespace Postroom.Mail

open Lib List

variable {α : Type} {ids : List ℕ} {new s t now : ℕ} {db ov : Db} {source target : Mailbox}
  {x : Message}
variable {i : ℕ} {wanted : List ℕ}

/-! ## 1. What a move is to leave -/

/-- The database that a script leaves, when it commits. -/
def Script.leaves (p : Script α) (ids : List ℕ) (new : ℕ) (db : Db) : Option Db :=
  (p.alone exec (Careful false) ids new db Table.empty).map fun q => q.2.over db

/-- `x` has been moved, and has the flags that were asked for. -/
structure Moved (source target source' target' : Mailbox) (x : Message) (flags : List String) :
    Prop where
  arrived : ∃ y ∈ target'.messages, y.uid = target.uidnext ∧ y.flags = flags
    ∧ y.blobSha256 = x.blobSha256 ∧ y.modseq ≤ target'.highestModseq
    ∧ ∀ z ∈ target'.messages, z = y ∨ z ∈ target.messages
  left : ∀ y ∈ source'.messages, y.uid ≠ x.uid
  recorded : ∃ e ∈ source'.expunged, e.uid = x.uid ∧ e.modseq ≤ source'.highestModseq
  source_lt : source.highestModseq < source'.highestModseq
  target_lt : target.highestModseq < target'.highestModseq

/-- Where `move` succeeds the webmail's request does, and moves the message. -/
def MovesAlike (ids : List ℕ) (new : ℕ) (db : Db) (s t : ℕ) (x : Message) (input : UpdateInput)
    (now : ℕ) : Prop :=
  ((move s [x.uid] t now).leaves ids new db).isSome = true →
    ∃ db', (updateMessage input now).leaves ids new db = some db'
      ∧ ∃ source target source' target', db s = some source ∧ db t = some target
        ∧ db' s = some source' ∧ db' t = some target'
        ∧ Moved source target source' target' x (input.flags x.flags)

/-! ## 2. The IMAP move succeeds -/

/-- The script commits from here. -/
abbrev Commits (ids : List ℕ) (new : ℕ) (db : Db) (p : Script α) (ov : Db) : Prop :=
  (p.alone exec (Careful false) ids new db ov).isSome = true

section statement

variable {q : Stmt} {k : q.Result → Script α} {e : Effect ℕ Mailbox Key q.Result}
  (hok : Careful false (ov.over db) q) (he : exec ids (ov.over db) q new = some e)
include hok he

theorem alone_stmt : (sql q >>= k).alone exec (Careful false) ids new db ov
    = (k e.result).alone exec (Careful false) ids new db (e.writes.over ov) := by
  show Txn.alone _ _ _ _ _ (Txn.stmt q k) ov = _
  rw [Txn.alone, if_pos hok, he]
  rfl

theorem commits_stmt (h : Commits ids new db (k e.result) (e.writes.over ov)) :
    Commits ids new db (sql q >>= k) ov := by
  rwa [Commits, alone_stmt hok he]

end statement

/-- Counters can always be set, and no mailbox goes away. -/
theorem commits_setCounters {n : ℕ} {uidnext : Option ℕ} {k : Unit → Script α}
    (hs : (ov.over db s).isSome = true)
    (h : ∀ ov' : Db, (ov'.over db s).isSome = true → Commits ids new db (k ()) ov') :
    Commits ids new db (sql (.setCounters i uidnext n) >>= k) ov := by
  cases hi : ov.over db i with
  | none =>
    refine commits_stmt trivial (show updateMailbox _ _ _ = _ by rw [updateMailbox, hi]; rfl)
      (h _ ?_)
    rwa [Table.empty_over]
  | some m =>
    refine commits_stmt trivial (show updateMailbox _ _ _ = _ by rw [updateMailbox, hi]) (h _ ?_)
    rw [Table.over_assoc, Table.single_over]
    split
    · rfl
    · exact hs

/-- A row asked for is among those that were locked, if it is there. -/
theorem find_locked (hi : i ∈ wanted) :
    ((wanted.filterMap fun j => (db j).map fun m => m.info j).find? fun r => r.id = i)
      = (db i).map fun m => m.info i := by
  rw [find?_filterMap]
  cases hfind : wanted.find? fun j => ((db j).map fun m => m.info j).any fun r => r.id = i with
  | none =>
    have hnot := find?_eq_none.mp hfind i hi
    cases hdb : db i with
    | none => rfl
    | some m => simp [hdb] at hnot
  | some j =>
    have hj := find?_some hfind
    cases hdb : db j with
    | none =>
      rw [hdb] at hj
      cases hj
    | some m =>
      rw [hdb] at hj
      obtain rfl : j = i := of_decide_eq_true hj
      rw [Option.bind_some, hdb]

/-- The row with the UID of `x` is `x`. -/
theorem filter_uid (hwf : source.Wf) (hx : x ∈ source.messages) :
    (source.messages.filter fun y => y.uid ∈ [x.uid]) = [x] := by
  have hnodup := (hwf.nodup.of_map _).filter fun y : Message => decide (y.uid ∈ [x.uid])
  refine perm_singleton.mp ((perm_ext_iff_of_nodup hnodup (nodup_singleton x)).mpr ?_)
  intro y
  simp only [mem_filter, mem_singleton, decide_eq_true_eq]
  constructor
  · rintro ⟨hy, huid⟩
    exact hwf.eq_of_uid hy hx huid
  · rintro rfl
    exact ⟨hx, rfl⟩

/-- A row that is given to the target fits in: its UID is new, and its inbound message
is dropped where the target has it. -/
theorem accepts_rehomed {receiving : Mailbox} (hwf : target.Wf)
    (hsub : ∀ y ∈ receiving.messages, y ∈ target.messages) (n : ℕ) (trashedAt : Option ℕ) :
    receiving.accepts (rehomed x s target t target.uidnext n trashedAt now) = true := by
  rw [Mailbox.accepts, all_eq_true]
  intro y hy
  have hlt := hwf.uid_lt y (hsub y hy)
  refine decide_eq_true ⟨hlt.ne, ?_⟩
  rw [rehomed]
  dsimp only
  split
  · exact .inl rfl
  · rename_i hnone
    cases hin : x.inboundMessageId with
    | none => exact .inl rfl
    | some n =>
      right
      intro heq
      apply hnone
      rw [any_eq_true]
      exact ⟨y, hsub y hy, by simp [hin, heq]⟩

/-- The end of `move`, in a view that has the source. -/
theorem commits_recordExpunged {uids : List ℕ} {n : ℕ} {a : α} (hs : (ov.over db s).isSome = true) :
    Commits ids new db (sql (.recordExpunged s uids n) >>= fun _ => pure a) ov := by
  obtain ⟨m, hm⟩ := Option.isSome_iff_exists.mp hs
  cases uids with
  | nil => exact commits_stmt trivial rfl rfl
  | cons u uids =>
    have he : execRecordExpunged (ov.over db) s (u :: uids) n
        = some ⟨(), Table.single s { m with expunged := recordExpunged m.expunged (u :: uids) n },
          []⟩ := by
      rw [execRecordExpunged, hm]
      rfl
    exact commits_stmt trivial he rfl

theorem commits_moveRows (hg : Good db) (hs : db s = some source) (ht : db t = some target)
    (hx : x ∈ source.messages) :
    Commits ids new db (moveRows (source.info s) (target.info t) [x] now) Table.empty := by
  have hsub : ∀ y ∈ (if s = t then
      { source with messages := source.messages.filter fun y => !x.sameRow y }
      else target).messages,
      y ∈ target.messages := by
    intro y hy
    split at hy
    · rename_i hst
      obtain rfl : source = target := Option.some.inj (hs.symm.trans (hst ▸ ht))
      exact (mem_filter.mp hy).1
    · exact hy
  have hstmt : ∃ w : Db, ((w.over Table.empty).over db s).isSome = true
      ∧ execRehomeMessage (Table.empty.over db) s x t target.uidnext
        (max target.highestModseq source.highestModseq + 1) none now = some ⟨(), w, []⟩ := by
    rw [Table.empty_over, execRehomeMessage, hs, ht]
    dsimp only
    rw [find_sameRow (hg s source hs).nodup hx]
    dsimp only
    rw [if_pos (accepts_rehomed (hg t target ht) hsub _ none)]
    refine ⟨_, ?_, rfl⟩
    rw [Table.over_assoc, Table.empty_over, Table.over_assoc, Table.single_over]
    split
    · rfl
    · rw [Table.single_over, if_pos rfl]
      rfl
  obtain ⟨w, hw, hstmt⟩ := hstmt
  refine commits_stmt trivial hstmt (commits_setCounters hw fun ov1 h1 => ?_)
  unfold bumpSource
  split
  · exact commits_recordExpunged h1
  · exact commits_setCounters h1 fun ov2 h2 => commits_recordExpunged h2

theorem mem_lockOrder (hi : i ∈ wanted) : i ∈ wanted.dedup.insertionSort (· ≤ ·) :=
  (mem_insertionSort _).mpr (mem_dedup.mpr hi)

theorem commits_move (hg : Good db) (hs : db s = some source) (ht : db t = some target)
    (hx : x ∈ source.messages) : Commits ids new db (move s [x.uid] t now) Table.empty := by
  refine commits_stmt trivial rfl ?_
  rw [Table.empty_over, Table.empty_over]
  simp only [lockedOrGone]
  rw [find_locked (mem_lockOrder (by simp)), find_locked (mem_lockOrder (by simp)), hs, ht]
  refine commits_stmt (e := ⟨[x], Table.empty, []⟩) trivial ?_ ?_
  · show reading _ = _
    rw [Table.empty_over, hs, Option.map_some, Option.getD_some, filter_uid (hg s source hs) hx]
    rfl
  exact commits_moveRows hg hs ht hx

/-! ## 3. The webmail's move -/

theorem updateMessage_unrecorded {db' : Db} {input : UpdateInput} (hg : Good db)
    (h : (updateMessage input now).leaves ids new db = some db') : Unrecorded db db' := by
  obtain ⟨q, hq, rfl⟩ := Option.map_eq_some_iff.mp h
  have hcommits : (updateMessage input now).CommitsTo exec Key.row (Careful false) db q.1 _ :=
    Txn.CommitsTo.of_alone hq
  obtain ⟨_, -, hsame⟩ := hcommits.wp (holds_updateMessage hg input now)
  exact hsame

/-- **A webmail move is never the IMAP move**: it is only where there is no mailbox to
move to, and then neither succeeds. -/
theorem webmail_move_is_imap_move_iff (ids : List ℕ) (new : ℕ) (db : Db) (hg : Good db) (s : ℕ)
    (source : Mailbox) (hs : db s = some source) (x : Message) (hx : x ∈ source.messages) (t : ℕ)
    (ifMatch : Option ℕ) (add remove : List String) (now : ℕ) :
    MovesAlike ids new db s t x ⟨source.accountId, x.id, ifMatch, add, remove, some t⟩ now
      ↔ db t = none := by
  constructor
  · intro h
    by_contra hsome
    obtain ⟨target, ht⟩ := Option.ne_none_iff_exists'.mp hsome
    have hmove : Commits ids new db (move s [x.uid] t now) Table.empty := commits_move hg hs ht hx
    obtain ⟨db', hdb', _, _, source', _, -, -, hs', -, hmoved⟩ :=
      h (by rw [Script.leaves, Option.isSome_map]; exact hmove)
    -- the expunged rows are those there were, and none of them is of a message that is there
    have hsame := updateMessage_unrecorded hg hdb' s
    rw [hs', hs] at hsame
    obtain ⟨e, he, huid, -⟩ := hmoved.recorded
    rw [Option.some.inj hsame] at he
    exact (hg s source hs).expunged_dead e he x hx huid.symm
  · intro ht hmove
    rw [Script.leaves, Option.isSome_map] at hmove
    rw [move, alone_stmt (q := .lockMailboxes [s, t]) trivial rfl, Table.empty_over] at hmove
    dsimp only at hmove
    rw [lockedOrGone, find_locked (mem_lockOrder (by simp)), ht] at hmove
    cases hmove

/-- A copy of an inbound message. -/
def filedCopy (id : ℕ) : Message := ⟨id, 1, 1, [], "aa", 3, 0, 0, none, some 7⟩

/-- It is in INBOX; `archived` is in Archive. -/
def filedInInbox (archived : List Message) : Db :=
  (Table.single 1 ⟨1, "INBOX", some .inbox, 5, 2, 1, [filedCopy 10], []⟩).over
    (Table.single 2 ⟨1, "Archive", some .archive, 6, 2, 1, archived, []⟩)

theorem filedInInbox_good : Good (filedInInbox []) := by
  intro i m hm
  rw [filedInInbox, Table.single_over] at hm
  split at hm
  · injection hm with hm
    subst hm
    constructor <;> decide
  · unfold Table.single at hm
    split at hm
    · injection hm with hm
      subst hm
      exact Mailbox.wf_of_empty rfl rfl
    · cases hm

theorem webmail_move_is_imap_move_of_one_copy :
    ¬MovesAlike [1, 2] 20 (filedInInbox []) 1 2 (filedCopy 10) ⟨1, 10, some 1, [], [], some 2⟩ 0
      ∧ MovesAlike [1, 2] 20 (filedInInbox []) 1 3 (filedCopy 10)
      ⟨1, 10, some 1, [], [], some 3⟩ 0 := by
  have hiff := fun t => webmail_move_is_imap_move_iff [1, 2] 20
    (filedInInbox []) filedInInbox_good 1
    _ rfl (filedCopy 10) mem_cons_self t (some 1) [] [] 0
  exact ⟨fun h => (nomatch (hiff 2).mp h), (hiff 3).mpr rfl⟩

/-- The webmail moves the message and puts nothing on record; where Archive has a copy of
the same inbound message, it fails. `move` succeeds in both. -/
theorem webmail_move_unrecorded_or_refused :
    ¬MovesAlike [1, 2] 20 (filedInInbox []) 1 2 (filedCopy 10) ⟨1, 10, some 1, [], [], some 2⟩ 0
      ∧ ¬MovesAlike [1, 2] 20 (filedInInbox [filedCopy 11]) 1 2 (filedCopy 10)
          ⟨1, 10, some 1, [], [], some 2⟩ 0 := by
  constructor
  · intro h
    obtain ⟨db', hdb', _, _, source', _, -, -, hs', -, hmoved⟩ := h (by decide +kernel)
    have hnone : (((updateMessage ⟨1, 10, some 1, [], [], some 2⟩ 0).leaves [1, 2] 20
        (filedInInbox [])).bind fun db' => (db' 1).map Mailbox.expunged) = some [] := by
      decide +kernel
    rw [hdb', Option.bind_some, hs'] at hnone
    obtain ⟨e, he, -⟩ := hmoved.recorded
    rw [Option.some.inj hnone] at he
    cases he
  · intro h
    obtain ⟨db', hdb', -⟩ := h (by decide +kernel)
    have hrefused : ((updateMessage ⟨1, 10, some 1, [], [], some 2⟩ 0).leaves [1, 2] 20
        (filedInInbox [filedCopy 11])).isNone = true := by
      decide +kernel
    rw [hdb'] at hrefused
    cases hrefused

end Postroom.Mail
