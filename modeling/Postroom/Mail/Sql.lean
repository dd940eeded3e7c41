/-
The statements that the mailbox writers send to the database, and what each does.

The writers are apps/imap/src/store.ts, packages/dsn/src/file-local-message.ts,
updateMessage of apps/api/src/mail/store.ts and the two batches of
apps/worker/src/retention/sweep.ts. Together they use the statements below on the
tables mailbox, message and expunged_message; the other tables they write in the
same transactions (audit, blob, search, training) do not feed back into these
three and are left out.

`exec` runs a statement on a view of the tables, and is `none` where PostgreSQL
raises an error: a unique index or a foreign key. Rows are grouped by mailbox, so a
message row is addressed by its mailbox and its own keys. SELECT ... FOR UPDATE and
UPDATE take the row's lock; INSERT and UPDATE of a mailbox's name also take the
entry of the unique index on (account_id, name), which is what a second insert of
the same name waits for. Message rows are only ever written under the lock of their
mailbox; that is proved of the writers, not built in here.
-/
import Postroom.Lib.Transactions
import Postroom.Mail.Mailbox

set_option autoImplicit false

namespace Postroom.Mail

open Lib

/-! ## 1. Rows, locks and views -/

/-- A mailbox row as a query returns it. -/
structure MailboxInfo where
  id : ℕ
  accountId : ℕ
  name : String
  specialUse : Option SpecialUse
  uidvalidity : ℕ
  uidnext : ℕ
  highestModseq : ℕ
  deriving DecidableEq, Repr

def Mailbox.info (m : Mailbox) (id : ℕ) : MailboxInfo :=
  ⟨id, m.accountId, m.name, m.specialUse, m.uidvalidity, m.uidnext, m.highestModseq⟩

@[simp] theorem Mailbox.info_id (m : Mailbox) (id : ℕ) : (m.info id).id = id := rfl

/-- What a transaction can hold: a mailbox row, or an entry of the unique index on
(account_id, name). -/
inductive Key
  | row (id : ℕ)
  | name (accountId : ℕ) (name : String)
  deriving DecidableEq, Repr

abbrev Db := Table ℕ Mailbox

/-- `SELECT ... FROM mailbox WHERE p ORDER BY id`. -/
def scanMailboxes (ids : List ℕ) (v : Db) (p : MailboxInfo → Bool) : List MailboxInfo :=
  ((ids.insertionSort (· ≤ ·)).filterMap fun i => (v i).map fun m => m.info i).filter p

/-- `ORDER BY uid`. -/
def orderByUid (rows : List Message) : List Message :=
  rows.insertionSort fun a b => a.uid ≤ b.uid

/-- The trigger message_trashed_at: a row that enters Trash is stamped, unless the
statement stamped it itself; a row that enters any other mailbox is cleared. `old`
is absent on INSERT. -/
def messageTrashedAt (target : Mailbox) (old : Option Message) (trashedAt : Option ℕ) (now : ℕ) :
    Option ℕ :=
  if target.specialUse = some .trash then
    match old with
    | none => some (trashedAt.getD now)
    | some o => if trashedAt = o.trashedAt then some now else trashedAt
  else none

/-- The unique indexes on (mailbox_id, uid) and (mailbox_id, inbound_message_id). -/
def Mailbox.accepts (m : Mailbox) (x : Message) : Bool :=
  m.messages.all fun y =>
    y.uid ≠ x.uid ∧ (x.inboundMessageId = none ∨ y.inboundMessageId ≠ x.inboundMessageId)

/-- Is `y` the row that was read as `x`? The primary key alone would do. -/
def Message.sameRow (x y : Message) : Bool := x.id = y.id ∧ x.uid = y.uid

/-! ## 2. Statements -/

/-- What `INSERT INTO message` gives a value to; `received_at` defaults to now(). -/
structure NewMessage where
  uid : ℕ
  modseq : ℕ
  flags : List String
  blobSha256 : String
  size : ℕ
  internalDate : ℕ
  receivedAt : Option ℕ
  inboundMessageId : Option ℕ

inductive ExpireKind
  | expireTrash
  | expireRejects
  deriving DecidableEq, Repr

/-- `trashed_at < cutoff` or `received_at < cutoff`. -/
def ExpireKind.due (kind : ExpireKind) (cutoff : ℕ) (x : Message) : Bool :=
  match kind with
  | .expireTrash => x.trashedAt.any fun t => t < cutoff
  | .expireRejects => x.receivedAt < cutoff

/-- `WHERE due ORDER BY uid LIMIT limit`. -/
def ExpireKind.dueRows (kind : ExpireKind) (cutoff limit : ℕ) (rows : List Message) :
    List Message :=
  (orderByUid (rows.filter fun x => kind.due cutoff x)).take limit

/-- `'\\Deleted' = ANY(flags)`, and `uid = ANY(uids)` where a set is given. -/
def isDeleted (uids : Option (List ℕ)) (x : Message) : Bool :=
  DELETED ∈ x.flags ∧ uids.all fun us => x.uid ∈ us

inductive Stmt
  -- mailbox rows, read without and with their locks
  | findMailbox (accountId : ℕ) (name : String)
  | lockMailbox (id : ℕ)
  | lockMailboxOf (id accountId : ℕ)
  | lockMailboxes (ids : List ℕ)
  | lockMailboxNamed (accountId : ℕ) (name : String)
  | lockSubtree (accountId : ℕ) (from_ : String) (length : ℕ)
  | countNames (accountId : ℕ) (names : List String)
  -- mailbox rows, written
  | insertMailbox (accountId : ℕ) (name : String) (specialUse : Option SpecialUse)
      (uidvalidity uidnext highestModseq : ℕ)
  | setName (id : ℕ) (name : String)
  | setCounters (id : ℕ) (uidnext : Option ℕ) (highestModseq : ℕ)
  | bumpModseq (id : ℕ)
  -- message rows, read
  | findMessage (messageId accountId : ℕ)
  | messageIn (mailboxId messageId : ℕ)
  | messagesByUid (mailboxId : ℕ) (uids : List ℕ)
  | messagesReceivedBefore (mailboxId cutoff limit : ℕ)
  -- message rows, written
  | insertMessage (mailboxId : ℕ) (row : NewMessage) (now : ℕ)
  | updateFlags (mailboxId : ℕ) (updates : List (ℕ × List String)) (modseq : ℕ)
  | updateMessage (mailboxId : ℕ) (row : Message) (flags : List String) (modseq : ℕ)
  | rehomeMessage (mailboxId : ℕ) (row : Message) (targetId uid modseq : ℕ)
      (trashedAt : Option ℕ) (now : ℕ)
  | rehomeAll (src : MailboxInfo) (targetId now : ℕ)
  | deleteFlagged (mailboxId : ℕ) (uids : Option (List ℕ))
  | deleteDue (mailboxId : ℕ) (kind : ExpireKind) (cutoff limit : ℕ)
  | deleteMessage (mailboxId : ℕ) (row : Message)
  | stampTrashed (mailboxId now : ℕ)
  -- expunged_message rows
  | recordExpunged (mailboxId : ℕ) (uids : List ℕ) (modseq : ℕ)

/-- What a statement returns. -/
@[reducible] def Stmt.Result : Stmt → Type
  | .findMailbox .. | .lockMailbox .. | .lockMailboxOf .. | .lockMailboxNamed .. =>
    Option MailboxInfo
  | .lockMailboxes .. | .lockSubtree .. => List MailboxInfo
  | .countNames .. => ℕ
  | .insertMailbox .. => Option ℕ
  | .findMessage .. => Option ℕ
  | .messageIn .. => Option Message
  | .messagesByUid .. | .messagesReceivedBefore .. | .deleteFlagged .. | .deleteDue .. =>
    List Message
  | .insertMessage .. => Message
  | .rehomeAll .. => List ℕ
  | .setName .. | .setCounters .. | .bumpModseq .. | .updateFlags .. | .updateMessage ..
  | .rehomeMessage .. | .deleteMessage .. | .stampTrashed .. | .recordExpunged .. => Unit

/-! ## 3. What each does -/

/-- A row read FOR UPDATE. -/
def locksRow (r : Option MailboxInfo) : Option (Effect ℕ Mailbox Key (Option MailboxInfo)) :=
  some ⟨r, Table.empty, r.toList.map fun m => .row m.id⟩

/-- Rows read FOR UPDATE. -/
def locksRows (rs : List MailboxInfo) : Option (Effect ℕ Mailbox Key (List MailboxInfo)) :=
  some ⟨rs, Table.empty, rs.map fun m => .row m.id⟩

/-- `UPDATE mailbox ... WHERE id`. -/
def updateMailbox (v : Db) (id : ℕ) (f : Mailbox → Mailbox) :
    Option (Effect ℕ Mailbox Key Unit) :=
  match v id with
  | none => reading ()
  | some m => some ⟨(), Table.single id (f m), [.row id]⟩

/-- A statement on the message rows of one mailbox. -/
def updateMessages {α : Type} (v : Db) (id : ℕ) (absent : α)
    (f : Mailbox → α × List Message) : Option (Effect ℕ Mailbox Key α) :=
  match v id with
  | none => reading absent
  | some m => some ⟨(f m).1, Table.single id { m with messages := (f m).2 }, []⟩

/-- `INSERT ... ON CONFLICT (account_id, name) DO NOTHING RETURNING id`. -/
def execInsertMailbox (ids : List ℕ) (v : Db) (new : ℕ) (row : Mailbox) :
    Option (Effect ℕ Mailbox Key (Option ℕ)) :=
  if (scanMailboxes ids v fun r => r.accountId = row.accountId ∧ r.name = row.name).isEmpty then
    match v new with
    | some _ => none
    | none => some ⟨some new, Table.single new row, [.row new, .name row.accountId row.name]⟩
  else reading none

/-- `UPDATE mailbox SET name`. -/
def execSetName (ids : List ℕ) (v : Db) (id : ℕ) (name : String) :
    Option (Effect ℕ Mailbox Key Unit) :=
  match v id with
  | none => reading ()
  | some m =>
    if (scanMailboxes ids v fun r => r.id ≠ id ∧ r.accountId = m.accountId ∧ r.name = name).isEmpty
    then
      some ⟨(), Table.single id { m with name := name },
        [.row id, .name m.accountId m.name, .name m.accountId name]⟩
    else none

/-- `INSERT INTO message`. -/
def execInsertMessage (v : Db) (new mailboxId : ℕ) (row : NewMessage) (now : ℕ) :
    Option (Effect ℕ Mailbox Key Message) :=
  match v mailboxId with
  | none => none
  | some m =>
    let x : Message :=
      { id := new
        uid := row.uid
        modseq := row.modseq
        flags := row.flags
        blobSha256 := row.blobSha256
        size := row.size
        internalDate := row.internalDate
        receivedAt := row.receivedAt.getD now
        trashedAt := messageTrashedAt m none none now
        inboundMessageId := row.inboundMessageId }
    if m.accepts x then
      some ⟨x, Table.single mailboxId { m with messages := m.messages ++ [x] }, []⟩
    else none

/-- The row as `UPDATE message SET mailbox_id, uid, modseq, inbound_message_id`
leaves it: the inbound id is dropped where the target already has it, the row
itself included when source and target are one. -/
def rehomed (x : Message) (mailboxId : ℕ) (target : Mailbox) (targetId uid modseq : ℕ)
    (trashedAt : Option ℕ) (now : ℕ) : Message :=
  let stamp := trashedAt.or x.trashedAt
  { x with
    uid := uid
    modseq := modseq
    trashedAt := if mailboxId = targetId then stamp else messageTrashedAt target (some x) stamp now
    inboundMessageId :=
      if target.messages.any fun o =>
          x.inboundMessageId.isSome ∧ o.inboundMessageId = x.inboundMessageId
      then none else x.inboundMessageId }

def execRehomeMessage (v : Db) (mailboxId : ℕ) (row : Message) (targetId uid modseq : ℕ)
    (trashedAt : Option ℕ) (now : ℕ) : Option (Effect ℕ Mailbox Key Unit) :=
  match v mailboxId, v targetId with
  | none, _ => reading ()
  | some _, none => none
  | some m, some target =>
    match m.messages.find? fun y => row.sameRow y with
    | none => reading ()
    | some x =>
      let left := { m with messages := m.messages.filter fun y => !row.sameRow y }
      let receiving := if mailboxId = targetId then left else target
      let moved := rehomed x mailboxId target targetId uid modseq trashedAt now
      if receiving.accepts moved then
        some ⟨(), (Table.single targetId
          { receiving with messages := receiving.messages ++ [moved] }).over
            (Table.single mailboxId left), []⟩
      else none

/-- `UPDATE message SET mailbox_id = target WHERE mailbox_id = src RETURNING uid`. -/
def execRehomeAll (v : Db) (src targetId now : ℕ) : Option (Effect ℕ Mailbox Key (List ℕ)) :=
  match v src, v targetId with
  | none, _ => some ⟨[], Table.empty, []⟩
  | some _, none => none
  | some m, some target =>
    if src = targetId then some ⟨m.messages.map Message.uid, Table.empty, []⟩
    else
      let moved := m.messages.map fun x =>
        { x with trashedAt := messageTrashedAt target (some x) x.trashedAt now }
      if moved.all target.accepts then
        some ⟨m.messages.map Message.uid,
          (Table.single targetId { target with messages := target.messages ++ moved }).over
            (Table.single src { m with messages := [] }), []⟩
      else none

/-- `INSERT INTO expunged_message ... ON CONFLICT DO NOTHING`; an empty list is not
sent at all. -/
def execRecordExpunged (v : Db) (mailboxId : ℕ) (uids : List ℕ) (modseq : ℕ) :
    Option (Effect ℕ Mailbox Key Unit) :=
  if uids.isEmpty then some ⟨(), Table.empty, []⟩
  else
    match v mailboxId with
    | none => none
    | some m =>
      some ⟨(), Table.single mailboxId
        { m with expunged := recordExpunged m.expunged uids modseq }, []⟩

/-- Run a statement on a view; `ids` are the mailboxes a scan goes through, `new`
the id a row would get from gen_random_uuid(). -/
def exec (ids : List ℕ) (v : Db) : (s : Stmt) → ℕ → Option (Effect ℕ Mailbox Key s.Result)
  | .findMailbox accountId name, _ =>
    reading (scanMailboxes ids v fun r => r.accountId = accountId ∧ r.name = name).head?
  | .lockMailbox id, _ => locksRow ((v id).map fun m => m.info id)
  | .lockMailboxOf id accountId, _ =>
    locksRow (((v id).map fun m => m.info id).filter fun r => r.accountId = accountId)
  | .lockMailboxes wanted, _ =>
    locksRows ((wanted.dedup.insertionSort (· ≤ ·)).filterMap fun i => (v i).map fun m => m.info i)
  | .lockMailboxNamed accountId name, _ =>
    locksRow (scanMailboxes ids v fun r => r.accountId = accountId ∧ r.name = name).head?
  | .lockSubtree accountId from_ length, _ =>
    locksRows (scanMailboxes ids v fun r =>
      r.accountId = accountId
        ∧ (r.name = from_ ∨ r.name.toList.take (length + 1) = (from_ ++ "/").toList))
  | .countNames accountId names, _ =>
    reading (scanMailboxes ids v fun r => r.accountId = accountId ∧ r.name ∈ names).length
  | .insertMailbox accountId name specialUse uidvalidity uidnext highestModseq, new =>
    execInsertMailbox ids v new
      ⟨accountId, name, specialUse, uidvalidity, uidnext, highestModseq, [], []⟩
  | .setName id name, _ => execSetName ids v id name
  | .setCounters id uidnext highestModseq, _ =>
    updateMailbox v id fun m =>
      { m with uidnext := uidnext.getD m.uidnext, highestModseq := highestModseq }
  | .bumpModseq id, _ => updateMailbox v id fun m => { m with highestModseq := m.highestModseq + 1 }
  | .findMessage messageId accountId, _ =>
    reading ((scanMailboxes ids v fun r =>
      r.accountId = accountId
        ∧ (v r.id).any fun m => m.messages.any fun x => x.id = messageId).head?.map (·.id))
  | .messageIn mailboxId messageId, _ =>
    reading ((v mailboxId).bind fun m => m.messages.find? fun x => x.id = messageId)
  | .messagesByUid mailboxId uids, _ =>
    reading (((v mailboxId).map fun m =>
      orderByUid (m.messages.filter fun x => x.uid ∈ uids)).getD [])
  | .messagesReceivedBefore mailboxId cutoff limit, _ =>
    reading (((v mailboxId).map fun m =>
      (orderByUid (m.messages.filter fun x => x.receivedAt < cutoff)).take limit).getD [])
  | .insertMessage mailboxId row now, new => execInsertMessage v new mailboxId row now
  | .updateFlags mailboxId updates modseq, _ =>
    updateMessages v mailboxId () fun m =>
      ((), m.messages.map fun x =>
        match updates.find? fun u => u.1 = x.uid with
        | some u => { x with flags := u.2, modseq := modseq }
        | none => x)
  | .updateMessage mailboxId row flags modseq, _ =>
    updateMessages v mailboxId () fun m =>
      ((), m.messages.map fun x =>
        if row.sameRow x then { x with flags := flags, modseq := modseq } else x)
  | .rehomeMessage mailboxId row targetId uid modseq trashedAt now, _ =>
    execRehomeMessage v mailboxId row targetId uid modseq trashedAt now
  | .rehomeAll src targetId now, _ => execRehomeAll v src.id targetId now
  | .deleteFlagged mailboxId uids, _ =>
    updateMessages v mailboxId [] fun m =>
      (m.messages.filter fun x => isDeleted uids x, m.messages.filter fun x => !isDeleted uids x)
  | .deleteDue mailboxId kind cutoff limit, _ =>
    updateMessages v mailboxId [] fun m =>
      (kind.dueRows cutoff limit m.messages,
        m.messages.filter fun x => x ∉ kind.dueRows cutoff limit m.messages)
  | .deleteMessage mailboxId row, _ =>
    updateMessages v mailboxId () fun m => ((), m.messages.filter fun x => !row.sameRow x)
  | .stampTrashed mailboxId now, _ =>
    updateMessages v mailboxId () fun m =>
      ((), m.messages.map fun x => { x with trashedAt := x.trashedAt.or (some now) })
  | .recordExpunged mailboxId uids modseq, _ => execRecordExpunged v mailboxId uids modseq

end Postroom.Mail
