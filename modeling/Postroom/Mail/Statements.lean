/-
What a writer may rely on, statement by statement.

`Commit recorded db db'` says that each mailbox of `db` has become a well-formed one
that it `Evolves` to, and that each new mailbox is well formed. A script is held to
it when it is replayed alone (Lib/Transactions.lean): a row it has locked is then
exactly as its view has it, any other row may have changed since it was read. The
rules below say this for each statement of Sql.lean, and that a statement writes
only what its script has locked.

Two statements are harmless only under a condition, `Careful`. RENAME of INBOX gives
the new mailbox the counters that it read before the lock, so they must still cover
the messages it moves; and the webmail's move deletes a row and leaves no expunged
row, so it does not count as `recorded`.
-/
import Postroom.Mail.Store

set_option autoImplicit false

namespace Postroom.Mail

open Lib List

/-! ## 1. Commits -/

/-- Every mailbox is well formed. -/
def Good (db : Db) : Prop := ∀ i m, db i = some m → m.Wf

/-- What may become of one mailbox, or of its absence. -/
def Evolved (recorded : Bool) : Option Mailbox → Option Mailbox → Prop
  | none, none => True
  | none, some m' => m'.Wf
  | some _, none => False
  | some m, some m' => m'.Wf ∧ Evolves recorded m m'

/-- What may become of all of them. -/
def Commit (recorded : Bool) (db db' : Db) : Prop := ∀ i, Evolved recorded (db i) (db' i)

/-- A view with one mailbox replaced. -/
def Db.set (db : Db) (i : ℕ) (m : Mailbox) : Db := (Table.single i m).over db

theorem Db.set_apply (db : Db) (i j : ℕ) (m : Mailbox) :
    db.set i m j = if j = i then some m else db j :=
  Table.single_over i j m db

@[simp] theorem Db.set_same (db : Db) (i : ℕ) (m : Mailbox) : db.set i m i = some m := by
  rw [Db.set_apply, if_pos rfl]

variable {db v : Db} {i j id accountId modseq now : ℕ} {m m' : Mailbox} {s : Stmt} {name : String}
  {row : Message} {Q : Unit → List Key → Db → Prop}

theorem Db.set_other (m : Mailbox) (h : j ≠ i) : db.set i m j = db j := by
  rw [Db.set_apply, if_neg h]

@[simp] theorem Db.set_set (db : Db) (i : ℕ) (m m' : Mailbox) :
    (db.set i m).set i m' = db.set i m' := by
  funext j
  simp only [Db.set_apply]
  split <;> rfl

theorem Db.set_comm (db : Db) (h : i ≠ j) (m n : Mailbox) :
    (db.set i m).set j n = (db.set j n).set i m := by
  funext l
  simp only [Db.set_apply]
  by_cases hi : l = i
  · rw [if_pos hi, if_neg (hi ▸ h), if_pos hi]
  · rw [if_neg hi, if_neg hi]

theorem Db.set_self (h : db i = some m) : db.set i m = db := by
  funext l
  rw [Db.set_apply]
  split
  · rename_i hl
    rw [hl, h]
  · rfl

variable {recorded : Bool}

theorem Evolved.rfl_of_good (h : Good db) (i : ℕ) : Evolved recorded (db i) (db i) := by
  cases hi : db i with
  | none => trivial
  | some m => exact ⟨h i m hi, Evolves.refl m⟩

theorem Commit.refl (h : Good db) : Commit recorded db db := Evolved.rfl_of_good h

theorem Commit.good {db' : Db} (h : Commit recorded db db') : Good db' := by
  intro i m' hm'
  have hi := h i
  rw [hm'] at hi
  cases hm : db i with
  | none =>
    rw [hm] at hi
    exact hi
  | some m =>
    rw [hm] at hi
    exact hi.1

theorem Commit.trans {db' db'' : Db} (h : Commit recorded db db') (h' : Commit recorded db' db'') :
    Commit recorded db db'' := by
  intro i
  have h1 := h i
  have h2 := h' i
  rcases hm : db i with _ | m <;> rcases hm' : db' i with _ | m' <;>
    rcases hm'' : db'' i with _ | m'' <;> rw [hm, hm'] at h1 <;> rw [hm', hm''] at h2
  · trivial
  · exact h2
  · exact h2.elim
  · exact h2.1
  · exact h1
  · exact h1.elim
  · exact h2
  · exact ⟨h2.1, h1.2.trans h2.2⟩

theorem Commit.of_evolved (h : Good db) (hm' : Evolved recorded (db i) (some m')) :
    Commit recorded db (db.set i m') := by
  intro j
  by_cases hj : j = i
  · rw [hj, Db.set_same]
    exact hm'
  · rw [Db.set_other m' hj]
    exact Evolved.rfl_of_good h j

/-- One mailbox changes. -/
theorem Commit.set (h : Good db) (hm : db i = some m) (hm' : m'.Wf ∧ Evolves recorded m m') :
    Commit recorded db (db.set i m') := by
  apply Commit.of_evolved h
  rw [hm]
  exact hm'

/-- One mailbox is created. -/
theorem Commit.insert (h : Good db) (hi : db i = none) (hm' : m'.Wf) :
    Commit recorded db (db.set i m') := by
  apply Commit.of_evolved h
  rw [hi]
  exact hm'

/-- Two mailboxes change. -/
theorem Commit.set_two (h : Good db) (hij : i ≠ j) {n n' : Mailbox} (hm : db i = some m)
    (hn : db j = some n) (hm' : m'.Wf ∧ Evolves recorded m m')
    (hn' : n'.Wf ∧ Evolves recorded n n') :
    Commit recorded db ((db.set i m').set j n') := by
  have hfirst : Commit recorded db (db.set i m') := Commit.set h hm hm'
  refine hfirst.trans (Commit.set hfirst.good ?_ hn')
  rw [Db.set_other m' hij.symm]
  exact hn

/-! ## 2. Statements

For each statement, what a script may rely on when it is replayed. A row it has
locked is as the view has it; a row it has not locked may be anything. -/

/-- `src` was read before its row was locked; its counters still cover the
mailbox. -/
def Covers (src : MailboxInfo) (m : Mailbox) : Prop :=
  ∀ x ∈ m.messages, x.uid < src.uidnext ∧ x.modseq ≤ src.highestModseq

/-- The condition on statements: RENAME moves INBOX's messages under counters that
cover them and, where removals are to be recorded, no row is deleted by its primary
key. -/
def Careful (recorded : Bool) (v : Db) : Stmt → Prop
  | .rehomeAll src _ _ => ∀ m, v src.id = some m → Covers src m
  | .deleteMessage _ _ => recorded = false
  | _ => True

/-- What a script is held to on a view. -/
abbrev Holds {α : Type} (recorded : Bool) (Q : α → List Key → Db → Prop) (p : Script α)
    (ks : List Key) (cur : Db) : Prop :=
  p.wp exec Key.row (Careful recorded) Q ks cur

variable {α β : Type} {ks : List Key} {cur : Db}
variable {p : Script α} {uids : List ℕ} {highestModseq targetId uid : ℕ} {trashedAt : Option ℕ}
  {target : Mailbox}

theorem Holds.bind {Q : β → List Key → Db → Prop} {f : α → Script β}
    (h : Holds recorded (fun a ks' cur' => Holds recorded Q (f a) ks' cur') p ks cur) :
    Holds recorded Q (p >>= f) ks cur :=
  Txn.wp_bind h

theorem Holds.mono {Q Q' : α → List Key → Db → Prop}
    (h : Holds recorded Q p ks cur) (hQ : ∀ a ks' cur', Q a ks' cur' → Q' a ks' cur') :
    Holds recorded Q' p ks cur :=
  Txn.wp_mono h hQ

/-- What a statement's effect is to be: it writes only locked mailboxes, and a script
may go on from what it leaves. -/
def Fits (Q : α → List Key → Db → Prop) (ks : List Key) (cur : Db)
    (e : Effect ℕ Mailbox Key α) : Prop :=
  (∀ i, (e.writes i).isSome → Key.row i ∈ ks ++ e.locks)
    ∧ Q e.result (ks ++ e.locks) (e.writes.over cur)

section fits

variable {Q : α → List Key → Db → Prop} {e : Effect ℕ Mailbox Key α} {a : α} {locks : List Key}

theorem fits_of_no_writes (he : some ⟨a, Table.empty, locks⟩ = some e)
    (h : Q a (ks ++ locks) cur) : Fits Q ks cur e := by
  injection he with he
  subst he
  refine ⟨?_, ?_⟩
  · intro i hi
    cases hi
  · exact h

theorem fits_of_reading (he : reading a = some e) (h : Q a ks cur) : Fits Q ks cur e := by
  apply fits_of_no_writes he
  rw [append_nil]
  exact h

theorem fits_single (he : some ⟨a, Table.single id m, locks⟩ = some e)
    (hk : Key.row id ∈ ks ++ locks) (h : Q a (ks ++ locks) (cur.set id m)) : Fits Q ks cur e := by
  injection he with he
  subst he
  refine ⟨?_, h⟩
  intro i hi
  rwa [Table.eq_of_single hi]

/-- A statement on the rows of one mailbox, which is locked. -/
theorem fits_locked (he : some ⟨a, Table.single id m, []⟩ = some e) (hk : Key.row id ∈ ks)
    (h : Q a ks (cur.set id m)) : Fits Q ks cur e := by
  apply fits_single he
  · exact mem_append_left _ hk
  · rw [append_nil]
    exact h

/-- A statement on the rows of two mailboxes, which are locked. -/
theorem fits_two (he : some ⟨a, (Table.single j m').over (Table.single i m), []⟩ = some e)
    (hi : Key.row i ∈ ks) (hj : Key.row j ∈ ks) (h : Q a ks ((cur.set i m).set j m')) :
    Fits Q ks cur e := by
  injection he with he
  subst he
  refine ⟨?_, ?_⟩
  · intro l hl
    apply mem_append_left
    dsimp only at hl
    by_cases hlj : l = j
    · rwa [hlj]
    · rw [Table.over_of_none (Table.single_other m' hlj)] at hl
      rwa [Table.eq_of_single hl]
  · rw [append_nil, Table.over_assoc]
    exact h

/-- A locked mailbox is as the view has it. -/
theorem locked_view (hv : AgreeOn Key.row (ks ++ locks) v cur) (hk : Key.row id ∈ ks)
    (hm : cur id = some m) : v id = some m :=
  (hv id (mem_append_left _ hk)).trans hm

end fits

/-- A statement that writes nothing and locks nothing, whatever it answers. -/
theorem holds_read {Q : s.Result → List Key → Db → Prop}
    (hs : ∀ ids v new, ∃ r, exec ids v s new = reading r) (h : ∀ r, Q r ks cur) :
    Holds recorded Q (sql s) ks cur := by
  intro ids v new e _ he _
  obtain ⟨r, hr⟩ := hs ids v new
  rw [hr] at he
  exact fits_of_reading he (h r)

/-- `row` is a row of the view. -/
def InView (v : Db) (row : MailboxInfo) : Prop := ∃ m, v row.id = some m ∧ row = m.info row.id

theorem inView_of_info {row : MailboxInfo} (h : ((v id).map fun m => m.info id) = some row) :
    InView v row := by
  obtain ⟨m, hm, rfl⟩ := Option.map_eq_some_iff.mp h
  exact ⟨m, hm, rfl⟩

/-- A scan finds rows of the view it scans. -/
theorem mem_scanMailboxes {ids : List ℕ} {p : MailboxInfo → Bool} {row : MailboxInfo}
    (h : row ∈ scanMailboxes ids v p) : InView v row := by
  obtain ⟨i, -, hi⟩ := mem_filterMap.mp (mem_filter.mp h).1
  exact inView_of_info hi

section

variable {Q : Option MailboxInfo → List Key → Db → Prop} (hnone : Q none ks cur)
include hnone

/-- A row that was locked is in the view. -/
theorem locked_in_view {r : Option MailboxInfo} (hr : ∀ row, r = some row → InView v row)
    {e : Effect ℕ Mailbox Key (Option MailboxInfo)} (he : locksRow r = some e)
    (hv : AgreeOn Key.row (ks ++ e.locks) v cur)
    (hsome : ∀ i m, cur i = some m → r = some (m.info i) →
      Q (some (m.info i)) (ks ++ [.row i]) cur) :
    Fits Q ks cur e := by
  cases r with
  | none => exact fits_of_reading he hnone
  | some row =>
    apply fits_of_no_writes he
    obtain ⟨m, hm, hrow⟩ := hr row rfl
    injection he with he
    subst he
    rw [hv row.id (by simp)] at hm
    have hlock := hsome row.id m hm (by rw [← hrow])
    rw [← hrow] at hlock
    exact hlock

theorem holds_lockMailbox (hsome : ∀ m, cur id = some m →
      Q (some (m.info id)) (ks ++ [.row id]) cur) :
    Holds recorded Q (sql (.lockMailbox id)) ks cur := by
  intro ids v new e _ he hv
  refine locked_in_view hnone (v := v) ?_ he hv ?_
  · exact fun row hrow => inView_of_info hrow
  · intro i m hm hrow
    obtain ⟨m', -, hinfo⟩ := Option.map_eq_some_iff.mp hrow
    have hid : i = id := (congrArg MailboxInfo.id hinfo).symm
    rw [hid] at hm ⊢
    exact hsome m hm

variable (hsome : ∀ i m, cur i = some m → Q (some (m.info i)) (ks ++ [.row i]) cur)
include hsome

theorem holds_lockMailboxOf :
    Holds recorded Q (sql (.lockMailboxOf id accountId)) ks cur := by
  intro ids v new e _ he hv
  refine locked_in_view hnone (v := v) ?_ he hv fun i m hm _ => hsome i m hm
  intro row hrow
  exact inView_of_info (Option.filter_eq_some_iff.mp hrow).1

theorem holds_lockMailboxNamed :
    Holds recorded Q (sql (.lockMailboxNamed accountId name)) ks cur := by
  intro ids v new e _ he hv
  refine locked_in_view hnone (v := v) ?_ he hv fun i m hm _ => hsome i m hm
  intro row hrow
  exact mem_scanMailboxes (mem_of_head? hrow)

end

/-- Rows that are locked and as they were read. -/
def LockedRows (cur : Db) (ks : List Key) (rows : List MailboxInfo) : Prop :=
  ∀ row ∈ rows, Key.row row.id ∈ ks ∧ ∃ m, cur row.id = some m ∧ row = m.info row.id

section

variable {Q : List MailboxInfo → List Key → Db → Prop}
  (h : ∀ rows ks', LockedRows cur ks' rows → Q rows ks' cur)
include h

/-- Rows locked together are all in the view. -/
theorem locked_rows_in_view {rs : List MailboxInfo} (hr : ∀ row ∈ rs, InView v row)
    {e : Effect ℕ Mailbox Key (List MailboxInfo)} (he : locksRows rs = some e)
    (hv : AgreeOn Key.row (ks ++ e.locks) v cur) : Fits Q ks cur e := by
  apply fits_of_no_writes he
  injection he with he
  subst he
  apply h
  intro row hrow
  have hkey : Key.row row.id ∈ ks ++ rs.map fun m => Key.row m.id :=
    mem_append_right _ (mem_map_of_mem hrow)
  obtain ⟨m, hm, hinfo⟩ := hr row hrow
  exact ⟨hkey, m, hv row.id hkey ▸ hm, hinfo⟩

theorem holds_lockMailboxes {wanted : List ℕ} :
    Holds recorded Q (sql (.lockMailboxes wanted)) ks cur := by
  intro ids v new e _ he hv
  refine locked_rows_in_view h (v := v) ?_ he hv
  intro row hrow
  obtain ⟨i, -, hi⟩ := mem_filterMap.mp hrow
  exact inView_of_info hi

theorem holds_lockSubtree {length : ℕ} {from_ : String} :
    Holds recorded Q (sql (.lockSubtree accountId from_ length)) ks cur := by
  intro ids v new e _ he hv
  refine locked_rows_in_view h (v := v) ?_ he hv
  intro row hrow
  exact mem_scanMailboxes hrow

end

/-- A statement on the message rows of a locked mailbox. -/
theorem holds_updateMessages {absent : s.Result} {f : Mailbox → s.Result × List Message}
    {Q : s.Result → List Key → Db → Prop}
    (hs : ∀ ids v new, exec ids v s new = updateMessages v id absent f) (hk : Key.row id ∈ ks)
    (hm : cur id = some m) (h : Q (f m).1 ks (cur.set id { m with messages := (f m).2 })) :
    Holds recorded Q (sql s) ks cur := by
  intro ids v new e _ he hv
  have hvm := locked_view hv hk hm
  rw [hs, updateMessages, hvm] at he
  exact fits_locked he hk h

/-- A read of the message rows of a locked mailbox is exact. -/
theorem holds_readLocked {f : Db → s.Result} {Q : s.Result → List Key → Db → Prop}
    (hs : ∀ ids v new, exec ids v s new = reading (f v)) (hk : Key.row id ∈ ks)
    (hm : cur id = some m) (h : ∀ v : Db, v id = some m → Q (f v) ks cur) :
    Holds recorded Q (sql s) ks cur := by
  intro ids v new e _ he hv
  rw [hs] at he
  exact fits_of_reading he (h v (locked_view hv hk hm))

section

variable (hk : Key.row id ∈ ks) (hm : cur id = some m)
include hk hm

/-- A row deleted by its primary key, which `Careful` allows only unrecorded. -/
theorem holds_deleteMessage
    (h : recorded = false → Q () ks
      (cur.set id { m with messages := m.messages.filter fun x => !row.sameRow x })) :
    Holds recorded Q (sql (.deleteMessage id row)) ks cur := by
  intro ids v new e hok he hv
  have hrule : Holds recorded Q (sql (.deleteMessage id row)) ks cur :=
    holds_updateMessages (fun _ _ _ => rfl) hk hm (h hok)
  exact hrule ids v new e hok he hv

theorem holds_messagesByUid {Q : List Message → List Key → Db → Prop}
    (h : Q (orderByUid (m.messages.filter fun x => x.uid ∈ uids)) ks cur) :
    Holds recorded Q (sql (.messagesByUid id uids)) ks cur := by
  refine holds_readLocked (fun _ _ _ => rfl) hk hm fun v hv => ?_
  rw [hv]
  exact h

theorem holds_messagesReceivedBefore {cutoff limit : ℕ} {Q : List Message → List Key → Db → Prop}
    (h : Q ((orderByUid (m.messages.filter fun x => x.receivedAt < cutoff)).take limit) ks cur) :
    Holds recorded Q (sql (.messagesReceivedBefore id cutoff limit)) ks cur := by
  refine holds_readLocked (fun _ _ _ => rfl) hk hm fun v hv => ?_
  rw [hv]
  exact h

theorem holds_messageIn {messageId : ℕ} {Q : Option Message → List Key → Db → Prop}
    (h : Q (m.messages.find? fun x => x.id = messageId) ks cur) :
    Holds recorded Q (sql (.messageIn id messageId)) ks cur := by
  refine holds_readLocked (fun _ _ _ => rfl) hk hm fun v hv => ?_
  rw [hv]
  exact h

/-- `UPDATE mailbox` of a row of the view. -/
theorem row_updated_in_view {f : Mailbox → Mailbox} {e : Effect ℕ Mailbox Key Unit}
    (he : updateMailbox v id f = some e) (hv : AgreeOn Key.row (ks ++ e.locks) v cur)
    (h : ∀ ks', (∀ k ∈ ks, k ∈ ks') → Q () ks' (cur.set id (f m))) : Fits Q ks cur e := by
  have hvm := locked_view hv hk hm
  rw [updateMailbox, hvm] at he
  exact fits_single he (mem_append_left _ hk) (h _ fun k hk => mem_append_left _ hk)

theorem holds_setCounters {uidnext : Option ℕ}
    (h : ∀ ks', (∀ k ∈ ks, k ∈ ks') → Q () ks'
      (cur.set id { m with uidnext := uidnext.getD m.uidnext, highestModseq := highestModseq })) :
    Holds recorded Q (sql (.setCounters id uidnext highestModseq)) ks cur := by
  intro ids v new e _ he hv
  exact row_updated_in_view hk hm he hv h

theorem holds_bumpModseq
    (h : ∀ ks', (∀ k ∈ ks, k ∈ ks') → Q () ks'
      (cur.set id { m with highestModseq := m.highestModseq + 1 })) :
    Holds recorded Q (sql (.bumpModseq id)) ks cur := by
  intro ids v new e _ he hv
  exact row_updated_in_view hk hm he hv h

/-- Nothing is written for no UIDs, which is what writing nothing comes to. -/
theorem holds_recordExpunged
    (h : Q () ks (cur.set id { m with expunged := Mail.recordExpunged m.expunged uids modseq })) :
    Holds recorded Q (sql (.recordExpunged id uids modseq)) ks cur := by
  intro ids v new e _ he hv
  have hvm := locked_view hv hk hm
  replace he : execRecordExpunged v id uids modseq = some e := he
  rw [execRecordExpunged] at he
  split at he
  · rename_i hempty
    have hsame : cur.set id { m with expunged := Mail.recordExpunged m.expunged uids modseq }
      = cur := by
      rw [isEmpty_iff.mp hempty]
      exact Db.set_self hm
    rw [hsame] at h
    exact fits_of_reading he h
  · rw [hvm] at he
    exact fits_locked he hk h

theorem holds_setName (h : ∀ ks', (∀ k ∈ ks, k ∈ ks') →
      Q () ks' (cur.set id { m with name := name })) :
    Holds recorded Q (sql (.setName id name)) ks cur := by
  intro ids v new e _ he hv
  have hvm := locked_view hv hk hm
  replace he : execSetName ids v id name = some e := he
  rw [execSetName, hvm] at he
  dsimp only at he
  split at he
  · exact fits_single he (mem_append_left _ hk) (h _ fun k hk => mem_append_left _ hk)
  · cases he

/-- A new message row, with the columns the statement names. -/
theorem holds_insertMessage {row : NewMessage} {Q : Message → List Key → Db → Prop}
    (h : ∀ x : Message, x.uid = row.uid → x.modseq = row.modseq → x.flags = row.flags →
      Q x ks (cur.set id { m with messages := m.messages ++ [x] })) :
    Holds recorded Q (sql (.insertMessage id row now)) ks cur := by
  intro ids v new e _ he hv
  have hvm := locked_view hv hk hm
  replace he : execInsertMessage v new id row now = some e := he
  rw [execInsertMessage, hvm] at he
  dsimp only at he
  split at he
  · exact fits_locked he hk (h _ rfl rfl rfl)
  · cases he

end

/-- A mailbox is created under an id that no mailbox has, or nothing happens. -/
theorem holds_insertMailbox {uidvalidity uidnext : ℕ} {specialUse : Option SpecialUse}
    {Q : Option ℕ → List Key → Db → Prop} (hnone : Q none ks cur)
    (hsome : ∀ i ks', cur i = none → (∀ k ∈ ks, k ∈ ks') → Key.row i ∈ ks' → Q (some i) ks'
      (cur.set i ⟨accountId, name, specialUse, uidvalidity, uidnext, highestModseq, [], []⟩)) :
    Holds recorded Q
      (sql (.insertMailbox accountId name specialUse uidvalidity uidnext highestModseq)) ks
      cur := by
  intro ids v new e _ he hv
  replace he : execInsertMailbox ids v new _ = some e := he
  rw [execInsertMailbox] at he
  split at he
  · split at he
    · cases he
    · rename_i hnew
      have hkey : Key.row new ∈ ks ++ [Key.row new, Key.name accountId name] := by simp
      apply fits_single he hkey
      injection he with he
      subst he
      exact hsome new _ ((hv new hkey).symm.trans hnew)
        (fun k hk => mem_append_left _ hk) hkey
  · exact fits_of_reading he hnone

/-! ### 2.1. Rows that change their mailbox -/

theorem sameRow_self (x : Message) : x.sameRow x = true := by simp [Message.sameRow]

theorem uid_of_sameRow {x y : Message} (h : x.sameRow y = true) : x.uid = y.uid := by
  simp only [Message.sameRow, decide_eq_true_eq] at h
  exact h.2

/-- The row that a statement finds under the keys of `x`, where UIDs are unique, is
`x`. -/
theorem find_sameRow {rows : List Message} (hnodup : (rows.map Message.uid).Nodup) {x : Message}
    (hx : x ∈ rows) : (rows.find? fun y => x.sameRow y) = some x := by
  cases hfind : rows.find? fun y => x.sameRow y with
  | none =>
    have := find?_eq_none.mp hfind x hx
    exact absurd (sameRow_self x) this
  | some y =>
    have huid : x.uid = y.uid := uid_of_sameRow (find?_some hfind)
    rw [inj_on_of_nodup_map hnodup hx (mem_of_find?_eq_some hfind) huid]

/-- A row moves to another mailbox. -/
theorem holds_rehomeMessage (hne : id ≠ targetId) (hk : Key.row id ∈ ks)
    (hk' : Key.row targetId ∈ ks)
    (hm : cur id = some m) (ht : cur targetId = some target)
    (hnodup : (m.messages.map Message.uid).Nodup) (hrow : row ∈ m.messages)
    (h : ∀ x : Message, x.uid = uid → x.modseq = modseq →
      Q () ks ((cur.set id { m with messages := m.messages.filter fun y => !row.sameRow y }).set
      targetId { target with messages := target.messages ++ [x] })) :
    Holds recorded Q (sql (.rehomeMessage id row targetId uid modseq trashedAt now)) ks cur := by
  intro ids v new e _ he hv
  have hvm := locked_view hv hk hm
  have hvt := locked_view hv hk' ht
  replace he : execRehomeMessage v id row targetId uid modseq trashedAt now = some e := he
  rw [execRehomeMessage, hvm, hvt] at he
  dsimp only at he
  rw [find_sameRow hnodup hrow] at he
  dsimp only at he
  rw [if_neg hne] at he
  split at he
  · exact fits_two he hk hk' (h _ rfl rfl)
  · cases he

/-- A row gets a new UID in its own mailbox. -/
theorem holds_rehomeMessage_self (hk : Key.row id ∈ ks)
    (hm : cur id = some m) (hnodup : (m.messages.map Message.uid).Nodup) (hrow : row ∈ m.messages)
    (h : ∀ x : Message, x.uid = uid → x.modseq = modseq → Q () ks
      (cur.set id { m with messages := (m.messages.filter fun y => !row.sameRow y) ++ [x] })) :
    Holds recorded Q (sql (.rehomeMessage id row id uid modseq trashedAt now)) ks cur := by
  intro ids v new e _ he hv
  have hvm := locked_view hv hk hm
  replace he : execRehomeMessage v id row id uid modseq trashedAt now = some e := he
  rw [execRehomeMessage, hvm] at he
  dsimp only at he
  rw [find_sameRow hnodup hrow] at he
  dsimp only at he
  rw [if_pos rfl] at he
  split at he
  · apply fits_two he hk hk
    rw [Db.set_set]
    exact h _ rfl rfl
  · cases he

/-- Every row of a mailbox moves to another, as it is but for its trash clock. -/
theorem holds_rehomeAll {src : MailboxInfo}
    {Q : List ℕ → List Key → Db → Prop} (hne : src.id ≠ targetId) (hk : Key.row src.id ∈ ks)
    (hk' : Key.row targetId ∈ ks) (hm : cur src.id = some m) (ht : cur targetId = some target)
    (h : ∀ f : Message → Message, (∀ x, (f x).uid = x.uid ∧ (f x).modseq = x.modseq) →
      Covers src m → Q (m.messages.map Message.uid) ks
    ((cur.set src.id { m with messages := [] }).set targetId
      { target with messages := target.messages ++ m.messages.map f })) :
    Holds recorded Q (sql (.rehomeAll src targetId now)) ks cur := by
  intro ids v new e hok he hv
  have hvm := locked_view hv hk hm
  have hvt := locked_view hv hk' ht
  replace he : execRehomeAll v src.id targetId now = some e := he
  rw [execRehomeAll, hvm, hvt] at he
  dsimp only at he
  rw [if_neg hne] at he
  split at he
  · exact fits_two he hk hk'
      (h (fun x => { x with trashedAt := messageTrashedAt target (some x) x.trashedAt now })
        (fun x => ⟨rfl, rfl⟩) (hok m hvm))
  · cases he

end Postroom.Mail
