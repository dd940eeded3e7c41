/-
The writers of a mailbox, as scripts of SQL statements.

MailStore of apps/imap/src/store.ts (storeFlags, expunge, copy, move, append,
createMailbox, renameMailbox), fileLocalMessage of packages/dsn, updateMessage of
apps/api/src/mail/store.ts, moveBatch and expireBatch of
apps/worker/src/retention/sweep.ts.

A script is everything a writer sends, in order. What it reads before its
transaction begins (renameMailbox's findMailbox) is its first statement: at READ
COMMITTED a plain SELECT sees the last commit whether a transaction is open or not.
`now` is the transaction's now(), `draw` the random UIDVALIDITY given to a mailbox
that is created under a name. Notifications, audit rows, blob reference counts and
training events are not modelled.
-/
import Postroom.Mail.Sql

set_option autoImplicit false

namespace Postroom.Mail

open Lib

/-! ## 1. Names (apps/imap/src/names.ts) -/

/-- The loop of `parentsOf`; `seen` is the name so far, backwards. -/
def parentsOf.go (seen : List Char) : List Char → List String
  | [] => []
  | c :: cs =>
    if c = '/' then
      if seen.isEmpty then [] else String.ofList seen.reverse :: parentsOf.go (c :: seen) cs
    else parentsOf.go (c :: seen) cs

/-- "a/b/c" → ["a", "a/b"]; a name that begins with the delimiter has none. -/
def parentsOf (name : String) : List String := parentsOf.go [] name.toList

/-- True when `name` is `parent` or below it. -/
def isSelfOrChild (name parent : String) : Bool :=
  name = parent ∨ (parent ++ "/").toList.isPrefixOf name.toList

/-- `name.length`, in UTF-16 code units. -/
def utf16Length (name : String) : ℕ :=
  (name.toList.map fun c => if c.toNat < 0x10000 then 1 else 2).sum

/-- packages/dsn: the special use of one of the seven mailboxes an account starts
with. -/
def specialUseByName (name : String) : Option SpecialUse :=
  [("INBOX", SpecialUse.inbox), ("Sent", .sent), ("Drafts", .drafts), ("Trash", .trash),
    ("Junk", .junk), ("Archive", .archive), ("Rejects", .rejects)].lookup name

/-! ## 2. Scripts -/

/-- How a writer gives up; its transaction is rolled back. -/
inductive StoreError
  | mailboxGone
  | mailboxVanished (id : ℕ)
  | notFiled (name : String)
  | rollback (reason : String)
  | preconditionFailed (current : ℕ)
  deriving DecidableEq, Repr

abbrev Script (α : Type) := Txn Stmt Stmt.Result StoreError α

/-- `Txn.exec` at these statements. -/
def sql (s : Stmt) : Script s.Result := Txn.exec s

/-- The row a lock found, or the end of the script. -/
def orFail (e : StoreError) : Option MailboxInfo → Script MailboxInfo
  | some m => pure m
  | none => .fail e

/-- `lockMailbox`: SELECT ... FOR UPDATE, or MailboxGoneError. -/
def lockMailbox (id : ℕ) : Script MailboxInfo :=
  sql (.lockMailbox id) >>= orFail .mailboxGone

/-! ### 2.1. fileLocalMessage -/

structure FileLocalMessageInput where
  accountId : ℕ
  mailbox : String
  blobSha256 : String
  size : ℕ
  internalDate : ℕ
  flags : List String

def lockOrCreateMailbox (accountId : ℕ) (name : String) (uidvalidity : ℕ) :
    Script MailboxInfo := do
  let _ ← sql (.insertMailbox accountId name (specialUseByName name) uidvalidity 1 0)
  let found ← sql (.lockMailboxNamed accountId name)
  orFail (.notFiled name) found

def fileLocalMessage (input : FileLocalMessageInput) (uidvalidity now : ℕ) : Script Message := do
  let mailbox ← lockOrCreateMailbox input.accountId input.mailbox uidvalidity
  let message ← sql (.insertMessage mailbox.id
    { uid := mailbox.uidnext
      modseq := mailbox.highestModseq + 1
      flags := input.flags
      blobSha256 := input.blobSha256
      size := input.size
      internalDate := input.internalDate
      receivedAt := none
      inboundMessageId := none } now)
  sql (.setCounters mailbox.id (some (mailbox.uidnext + 1)) (mailbox.highestModseq + 1))
  pure message

/-! ### 2.2. The IMAP store -/

structure FlagRow where
  uid : ℕ
  flags : List String
  modseq : ℕ
  deriving DecidableEq, Repr

def Message.flagRow (x : Message) : FlagRow := ⟨x.uid, x.flags, x.modseq⟩

structure StoreFlagsResult where
  rows : List FlagRow
  changed : List ℕ
  modified : List ℕ
  modseq : Option ℕ
  deriving DecidableEq, Repr

/-- UNCHANGEDSINCE fails for a message changed after it. -/
def isModified (unchangedSince : Option ℕ) (x : Message) : Bool :=
  unchangedSince.any fun since => since < x.modseq

/-- The flag changes a STORE makes to the rows it found. -/
def flagUpdates (current : List Message) (op : StoreOperation) (flags : List String)
    (unchangedSince : Option ℕ) : List (ℕ × List String) :=
  (current.filter fun x =>
    !isModified unchangedSince x && !sameFlags (applyFlags x.flags op flags) x.flags).map
      fun x => (x.uid, applyFlags x.flags op flags)

/-- What storeFlags answers about the rows it found. -/
def storeFlagsResult (current : List Message) (updates : List (ℕ × List String))
    (unchangedSince : Option ℕ) (modseq : Option ℕ) : StoreFlagsResult where
  rows := (current.filter fun x => !isModified unchangedSince x).map fun x =>
    match updates.find? fun u => u.1 = x.uid, modseq with
    | some u, some n => ⟨x.uid, u.2, n⟩
    | _, _ => x.flagRow
  changed := updates.map Prod.fst
  modified := (current.filter fun x => isModified unchangedSince x).map Message.uid
  modseq := modseq

/-- The writing end of storeFlags: nothing when no flag changes. -/
def writeFlags (mailboxId hm : ℕ) (current : List Message) (updates : List (ℕ × List String))
    (unchangedSince : Option ℕ) : Script StoreFlagsResult :=
  if updates.isEmpty then pure (storeFlagsResult current updates unchangedSince none)
  else do
    sql (.updateFlags mailboxId updates (hm + 1))
    sql (.setCounters mailboxId none (hm + 1))
    pure (storeFlagsResult current updates unchangedSince (some (hm + 1)))

def storeFlags (mailboxId : ℕ) (uids : List ℕ) (op : StoreOperation) (flags : List String)
    (unchangedSince : Option ℕ) : Script StoreFlagsResult :=
  if uids.isEmpty then pure ⟨[], [], [], none⟩
  else do
    let hm ← lockMailbox mailboxId
    let current ← sql (.messagesByUid mailboxId uids)
    writeFlags mailboxId hm.highestModseq current (flagUpdates current op flags unchangedSince)
      unchangedSince

/-- The end that expunge and expireBatch share: the rows are gone, so the counter
moves and their UIDs are kept. -/
def finishExpunge (mailboxId hm : ℕ) (rows : List Message) : Script (List ℕ) :=
  if rows.isEmpty then pure []
  else do
    let removed := (rows.map Message.uid).insertionSort (· ≤ ·)
    sql (.setCounters mailboxId none (hm + 1))
    sql (.recordExpunged mailboxId removed (hm + 1))
    pure removed

def expunge (mailboxId : ℕ) (uids : Option (List ℕ)) : Script (List ℕ) :=
  if uids = some [] then pure []
  else do
    let hm ← lockMailbox mailboxId
    let rows ← sql (.deleteFlagged mailboxId uids)
    finishExpunge mailboxId hm.highestModseq rows

structure CopyResult where
  uidvalidity : ℕ
  pairs : List (ℕ × ℕ)
  deriving DecidableEq, Repr

/-- `locked.get(id)`, or MailboxGoneError. -/
def lockedOrGone (locked : List MailboxInfo) (id : ℕ) : Script MailboxInfo :=
  orFail .mailboxGone (locked.find? fun r => r.id = id)

def copy (sourceId : ℕ) (uids : List ℕ) (targetId : ℕ) (draw : String → ℕ) (now : ℕ) :
    Script CopyResult := do
  let locked ← sql (.lockMailboxes [sourceId, targetId])
  let target ← lockedOrGone locked targetId
  let rows ← sql (.messagesByUid sourceId uids)
  let pairs ← Txn.forEach rows [] fun pairs (r : Message) => do
    let filed ← fileLocalMessage
      ⟨target.accountId, target.name, r.blobSha256, r.size, r.internalDate, r.flags⟩
      (draw target.name) now
    pure (pairs ++ [(r.uid, filed.uid)])
  pure ⟨target.uidvalidity, pairs⟩

/-- Re-home each row in turn, each under the target's next UID. -/
def rehomeEach (sourceId targetId modseq : ℕ) (trashedAt : Option ℕ) (now uidnext : ℕ)
    (rows : List Message) : Script (ℕ × List (ℕ × ℕ)) :=
  Txn.forEach rows (uidnext, []) fun acc (r : Message) => do
    sql (.rehomeMessage sourceId r targetId acc.1 modseq trashedAt now)
    pure (acc.1 + 1, acc.2 ++ [(r.uid, acc.1)])

/-- The source's counter; the target's has been written already. -/
def bumpSource (sourceId targetId modseq : ℕ) : Script Unit :=
  if sourceId = targetId then pure () else sql (.setCounters sourceId none modseq)

/-- The end of move, once the rows are known to be some. -/
def moveRows (source target : MailboxInfo) (rows : List Message) (now : ℕ) :
    Script CopyResult := do
  let modseq := max target.highestModseq source.highestModseq + 1
  let moved ← rehomeEach source.id target.id modseq none now target.uidnext rows
  sql (.setCounters target.id (some moved.1) modseq)
  bumpSource source.id target.id modseq
  sql (.recordExpunged source.id (moved.2.map Prod.fst) modseq)
  pure ⟨target.uidvalidity, moved.2⟩

def move (sourceId : ℕ) (uids : List ℕ) (targetId now : ℕ) : Script CopyResult := do
  let locked ← sql (.lockMailboxes [sourceId, targetId])
  let target ← lockedOrGone locked targetId
  let source ← lockedOrGone locked sourceId
  let rows ← sql (.messagesByUid sourceId uids)
  if rows.isEmpty then pure ⟨target.uidvalidity, []⟩ else moveRows source target rows now

structure AppendInput where
  sha256 : String
  size : ℕ
  flags : List String
  internalDate : ℕ

def append (accountId mailboxId : ℕ) (input : AppendInput) (draw : String → ℕ) (now : ℕ) :
    Script (ℕ × ℕ) := do
  let mb ← sql (.lockMailboxOf mailboxId accountId) >>= orFail .mailboxGone
  let filed ← fileLocalMessage
    ⟨accountId, mb.name, input.sha256, input.size, input.internalDate, normalizeFlags input.flags⟩
    (draw mb.name) now
  pure (filed.uid, mb.uidvalidity)

/-- One of the mailboxes that createMailbox creates: a parent may exist, the mailbox
itself may not. -/
def createOne (accountId : ℕ) (name : String) (specialUse : Option SpecialUse)
    (draw : String → ℕ) (n : String) : Script Unit := do
  let made ← sql (.insertMailbox accountId n (if n = name then specialUse else none)
    (draw n) 1 0)
  if made = none ∧ n = name then .fail (.rollback "exists") else pure ()

def createMailbox (accountId : ℕ) (name : String) (specialUse : Option SpecialUse)
    (draw : String → ℕ) : Script Unit :=
  Txn.forEach (parentsOf name ++ [name]) () fun _ n =>
    createOne accountId name specialUse draw n

def createParents (accountId : ℕ) (name : String) (skip : List String) (draw : String → ℕ) :
    Script Unit :=
  Txn.forEach (parentsOf name) () fun _ p =>
    if p ∈ skip then pure ()
    else do
      let _ ← sql (.insertMailbox accountId p none (draw p) 1 0)
      pure ()

/-- The INBOX branch: the messages move to a new mailbox, with the counters that
`src` had when it was read. `locked` is the row as it is under the lock. -/
def renameInbox (accountId : ℕ) (src locked : MailboxInfo) (to_ : String) (draw : String → ℕ)
    (now : ℕ) : Script Unit := do
  createParents accountId to_ [] draw
  let created ← sql (.insertMailbox accountId to_ none (draw to_) src.uidnext
    src.highestModseq)
  match created with
  | none => .fail (.rollback "exists")
  | some target => do
    let moved ← sql (.rehomeAll src target now)
    sql (.bumpModseq src.id)
    sql (.recordExpunged src.id (moved.insertionSort (· ≤ ·)) (locked.highestModseq + 1))

/-- The new name of a mailbox below the one renamed. -/
def renamedTo (from_ to_ name : String) : String :=
  to_ ++ String.ofList (name.toList.drop from_.toList.length)

/-- The ordinary branch: the mailbox and everything below it change their names. -/
def renameTree (accountId : ℕ) (from_ to_ : String) (draw : String → ℕ) : Script Unit := do
  let moving ← sql (.lockSubtree accountId from_ (utf16Length from_))
  let after := moving.map fun m => renamedTo from_ to_ m.name
  let clash ← sql (.countNames accountId after)
  if 0 < clash then .fail (.rollback "exists")
  else do
    Txn.forEach moving () fun _ (m : MailboxInfo) =>
      sql (.setName m.id (renamedTo from_ to_ m.name))
    createParents accountId to_ after draw

/-- The transaction of renameMailbox, on the row `src` that was read before it. -/
def renameFound (accountId : ℕ) (src : MailboxInfo) (from_ to_ : String) (draw : String → ℕ)
    (now : ℕ) : Script Unit := do
  let locked ← lockMailbox src.id
  if from_ = "INBOX" then renameInbox accountId src locked to_ draw now
  else renameTree accountId from_ to_ draw

inductive RenameResult
  | ok
  | nonexistent
  | exists_
  | intoSelf
  deriving DecidableEq, Repr

def renameMailbox (accountId : ℕ) (from_ to_ : String) (draw : String → ℕ) (now : ℕ) :
    Script RenameResult :=
  if from_ = to_ then pure .exists_
  else if from_ ≠ "INBOX" ∧ isSelfOrChild to_ from_ then pure .intoSelf
  else do
    let src ← sql (.findMailbox accountId from_)
    match src with
    | none => pure .nonexistent
    | some src => do
      renameFound accountId src from_ to_ draw now
      pure .ok

/-! ### 2.3. The webmail -/

structure UpdateInput where
  accountId : ℕ
  messageId : ℕ
  /-- The modseq the client last saw; absent for `*`. -/
  ifMatch : Option ℕ
  add : List String
  remove : List String
  moveTo : Option ℕ

structure UpdateSnapshot where
  id : ℕ
  mailboxId : ℕ
  uid : ℕ
  modseq : ℕ
  flags : List String
  deriving DecidableEq, Repr

def Message.snap (x : Message) (mailboxId : ℕ) : UpdateSnapshot :=
  ⟨x.id, mailboxId, x.uid, x.modseq, x.flags⟩

/-- The flags after the removals and then the additions, as the loop builds them. -/
def UpdateInput.flags (input : UpdateInput) (current : List String) : List String :=
  input.add.foldl (fun flags f => if f ∉ flags ∧ f ∉ input.remove then flags ++ [f] else flags)
    (current.filter fun f => f ∉ input.remove)

/-- Lock in the order given; a mailbox that is gone ends the request. -/
def lockInOrder (ids : List ℕ) : Script (List MailboxInfo) :=
  Txn.forEach ids [] fun locked id => do
    let m ← sql (.lockMailbox id) >>= orFail (.mailboxVanished id)
    pure (locked ++ [m])

/-- Flags alone. -/
def updateInPlace (source : MailboxInfo) (message : Message) (flags : List String) :
    Script (UpdateSnapshot × UpdateSnapshot) :=
  let before := message.snap source.id
  if flags = message.flags then pure (before, before)
  else do
    sql (.updateMessage source.id message flags (source.highestModseq + 1))
    sql (.setCounters source.id none (source.highestModseq + 1))
    pure (before, { before with flags := flags, modseq := source.highestModseq + 1 })

/-- A move: a new row in the target, the old row deleted, both counters moved. -/
def updateAndMove (source target : MailboxInfo) (message : Message) (flags : List String)
    (now : ℕ) : Script (UpdateSnapshot × UpdateSnapshot) := do
  let moved ← sql (.insertMessage target.id
    { uid := target.uidnext
      modseq := target.highestModseq + 1
      flags := flags
      blobSha256 := message.blobSha256
      size := message.size
      internalDate := message.internalDate
      receivedAt := some message.receivedAt
      inboundMessageId := message.inboundMessageId } now)
  sql (.setCounters target.id (some (target.uidnext + 1)) (target.highestModseq + 1))
  sql (.deleteMessage source.id message)
  sql (.setCounters source.id none (source.highestModseq + 1))
  pure (message.snap source.id, moved.snap target.id)

/-- The request once its message is read under the lock. -/
def updateFound (input : UpdateInput) (locked : List MailboxInfo) (mailboxId : ℕ)
    (moving : Option ℕ) (message : Message) (now : ℕ) :
    Script (Option (UpdateSnapshot × UpdateSnapshot)) := do
  if input.ifMatch.any fun n => n ≠ message.modseq then .fail (.preconditionFailed message.modseq)
  else do
    let flags := input.flags message.flags
    let source ← orFail (.mailboxVanished mailboxId) (locked.find? fun r => r.id = mailboxId)
    match moving with
    | none => some <$> updateInPlace source message flags
    | some targetId => do
      let target ← orFail (.mailboxVanished targetId) (locked.find? fun r => r.id = targetId)
      some <$> updateAndMove source target message flags now

/-- The mailbox the message is to move to, when it is another one. -/
def UpdateInput.moving (input : UpdateInput) (mailboxId : ℕ) : Option ℕ :=
  input.moveTo.filter fun id => id ≠ mailboxId

def updateMessage (input : UpdateInput) (now : ℕ) :
    Script (Option (UpdateSnapshot × UpdateSnapshot)) := do
  let found ← sql (.findMessage input.messageId input.accountId)
  match found with
  | none => pure none
  | some mailboxId => do
    let moving := input.moving mailboxId
    let locked ← lockInOrder ((mailboxId :: moving.toList).insertionSort (· ≤ ·))
    let message ← sql (.messageIn mailboxId input.messageId)
    match message with
    | none => pure none
    | some message => updateFound input locked mailboxId moving message now

/-! ### 2.4. The retention sweep -/

def DAY_MS : ℕ := 86400000

inductive RetentionAction
  | expireTrash (days : ℕ)
  | expireRejects (days : ℕ)
  | toTrash (days : ℕ)
  deriving DecidableEq, Repr

def RetentionAction.days : RetentionAction → ℕ
  | .expireTrash d | .expireRejects d | .toTrash d => d

def moveBatch (mailboxId : ℕ) (action : RetentionAction) (trashId now batch : ℕ) : Script ℕ := do
  let locked ← sql (.lockMailboxes [mailboxId, trashId])
  match locked.find? (fun r => r.id = mailboxId), locked.find? fun r => r.id = trashId with
  | some source, some target =>
    if target.specialUse ≠ some .trash ∨ source.specialUse = some .trash then pure 0
    else do
      let rows ← sql (.messagesReceivedBefore mailboxId (now - action.days * DAY_MS) batch)
      if rows.isEmpty then pure 0
      else do
        let modseq := max target.highestModseq source.highestModseq + 1
        let moved ← rehomeEach source.id target.id modseq (some now) now target.uidnext rows
        sql (.setCounters target.id (some moved.1) modseq)
        sql (.setCounters source.id none modseq)
        sql (.recordExpunged source.id (rows.map Message.uid) modseq)
        pure rows.length
  | _, _ => pure 0

/-- What the action may expunge here: Trash by its clock, Rejects by arrival. -/
def RetentionAction.expires (action : RetentionAction) (box : MailboxInfo) : Option ExpireKind :=
  match action with
  | .expireTrash _ => if box.specialUse = some .trash then some .expireTrash else none
  | .expireRejects _ => if box.specialUse = some .rejects then some .expireRejects else none
  | .toTrash _ => none

/-- A Trash row with no clock gets one now. -/
def clockTrash (kind : ExpireKind) (mailboxId now : ℕ) : Script Unit :=
  match kind with
  | .expireTrash => sql (.stampTrashed mailboxId now)
  | .expireRejects => pure ()

def expireBatch (mailboxId : ℕ) (action : RetentionAction) (now batch : ℕ) : Script ℕ := do
  let locked ← sql (.lockMailboxes [mailboxId])
  match locked.find? fun r => r.id = mailboxId with
  | none => pure 0
  | some box =>
    match action.expires box with
    | none => pure 0
    | some kind => do
      clockTrash kind box.id now
      let rows ← sql (.deleteDue box.id kind (now - action.days * DAY_MS) batch)
      let removed ← finishExpunge box.id box.highestModseq rows
      pure removed.length

/-! ## 3. The server -/

/-- A request to one of the writers. -/
inductive Command
  | storeFlags (mailboxId : ℕ) (uids : List ℕ) (op : StoreOperation) (flags : List String)
      (unchangedSince : Option ℕ)
  | expunge (mailboxId : ℕ) (uids : Option (List ℕ))
  | copy (sourceId : ℕ) (uids : List ℕ) (targetId : ℕ) (draw : String → ℕ) (now : ℕ)
  | move (sourceId : ℕ) (uids : List ℕ) (targetId now : ℕ)
  | append (accountId mailboxId : ℕ) (input : AppendInput) (draw : String → ℕ) (now : ℕ)
  | fileLocalMessage (input : FileLocalMessageInput) (uidvalidity now : ℕ)
  | createMailbox (accountId : ℕ) (name : String) (specialUse : Option SpecialUse)
      (draw : String → ℕ)
  | renameMailbox (accountId : ℕ) (from_ to_ : String) (draw : String → ℕ) (now : ℕ)
  | updateMessage (input : UpdateInput) (now : ℕ)
  | moveBatch (mailboxId : ℕ) (action : RetentionAction) (trashId now batch : ℕ)
  | expireBatch (mailboxId : ℕ) (action : RetentionAction) (now batch : ℕ)

/-- A script whose answer is no longer of interest. -/
def quiet {α : Type} (p : Script α) : Script Unit := p >>= fun _ => pure ()

def Command.script : Command → Script Unit
  | .storeFlags mailboxId uids op flags unchangedSince =>
    quiet (Mail.storeFlags mailboxId uids op flags unchangedSince)
  | .expunge mailboxId uids => quiet (Mail.expunge mailboxId uids)
  | .copy sourceId uids targetId draw now => quiet (Mail.copy sourceId uids targetId draw now)
  | .move sourceId uids targetId now => quiet (Mail.move sourceId uids targetId now)
  | .append accountId mailboxId input draw now =>
    quiet (Mail.append accountId mailboxId input draw now)
  | .fileLocalMessage input uidvalidity now => quiet (Mail.fileLocalMessage input uidvalidity now)
  | .createMailbox accountId name specialUse draw =>
    Mail.createMailbox accountId name specialUse draw
  | .renameMailbox accountId from_ to_ draw now =>
    quiet (Mail.renameMailbox accountId from_ to_ draw now)
  | .updateMessage input now => quiet (Mail.updateMessage input now)
  | .moveBatch mailboxId action trashId now batch =>
    quiet (Mail.moveBatch mailboxId action trashId now batch)
  | .expireBatch mailboxId action now batch => quiet (Mail.expireBatch mailboxId action now batch)

/-- The database with the sessions that run on it. -/
abbrev MailServer := Server ℕ Mailbox Key Stmt Stmt.Result StoreError

/-- One step of the server: a request begins, one of its statements runs, it
commits, it is rolled back. -/
def MailServer.step : MailServer → Action ℕ Command → Option MailServer :=
  Server.step exec Command.script

end Postroom.Mail
