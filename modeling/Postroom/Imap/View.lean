/-
A session's view of its selected mailbox (apps/imap/src/view.ts).

The view is the map from sequence numbers to UIDs that the client believes in, and
what the client has been told about each message. `sync` compares it with the
database by up to four reads, none of them under a lock: any number of commits may
fall between two of them. A method is therefore a script of calls to the store
(Lib/Calls.lean), written in the order in which the source makes them; a read
answers from the state it is made in, a writer of apps/imap/src/store.ts commits as
Mail/Store.lean has it.

A sync can also throw when it has changed the view already: where a flag cannot be
written, and where there are more expunges than a call can have arguments. What it had
to say is then lost.

Not modelled: how a response is spelled on the wire, and the content of a message.
-/
import Postroom.Lib.Calls
import Postroom.Mail.Discipline
import Postroom.Imap.Sequence

set_option autoImplicit false

namespace Postroom.Imap

open Lib Mail

/-! ## 1. The store, as a session calls it -/

/-- uidnext and highest_modseq of a mailbox. -/
structure Probe where
  uidnext : ℕ
  highestModseq : ℕ
  deriving DecidableEq, Repr

structure SnapshotRow where
  uid : ℕ
  modseq : ℕ
  seen : Bool
  deriving DecidableEq, Repr

/-- The methods of MailStore that a session with a selected mailbox calls. -/
inductive StoreCall
  | findMailbox (accountId : ℕ) (name : String)
  | probe (mailboxId : ℕ)
  | snapshot (mailboxId : ℕ)
  | changedSince (mailboxId modseq : ℕ)
  | expungedSince (mailboxId modseq : ℕ)
  | uidsUpTo (mailboxId maxUid : ℕ)
  | countUpTo (mailboxId maxUid : ℕ)
  | rowsByUids (mailboxId : ℕ) (uids : List ℕ)
  | storeFlags (mailboxId : ℕ) (uids : List ℕ) (op : StoreOperation) (flags : List String)
      (unchangedSince : Option ℕ)
  | expunge (mailboxId : ℕ) (uids : Option (List ℕ))
  | copy (sourceId : ℕ) (uids : List ℕ) (targetId : ℕ)
  | move (sourceId : ℕ) (uids : List ℕ) (targetId : ℕ)

@[reducible] def StoreCall.Result : StoreCall → Type
  | .findMailbox .. => Option MailboxInfo
  | .probe _ => Option Probe
  | .snapshot _ => List SnapshotRow
  | .changedSince .. => List FlagRow
  | .expungedSince .. => List ℕ
  | .uidsUpTo .. => List ℕ
  | .countUpTo .. => ℕ
  | .rowsByUids .. => List Message
  | .storeFlags .. => StoreFlagsResult
  | .expunge .. => List ℕ
  | .copy .. => CopyResult
  | .move .. => CopyResult

abbrev Calls (α : Type) := Txn StoreCall StoreCall.Result StoreError α

/-- One call. -/
def call (c : StoreCall) : Calls c.Result := Txn.exec c

/-- The message rows of a mailbox; none when it is gone. -/
def messagesOf (db : Db) (mailboxId : ℕ) : List Message :=
  ((db mailboxId).map Mailbox.messages).getD []

def expungedOf (db : Db) (mailboxId : ℕ) : List Expunged :=
  ((db mailboxId).map Mailbox.expunged).getD []

/-- What a read answers; `none` for findMailbox, which goes by a name, and for the
writers. -/
def readAt (db : Db) : (c : StoreCall) → Option c.Result
  | .probe mailboxId => some ((db mailboxId).map fun m => ⟨m.uidnext, m.highestModseq⟩)
  | .snapshot mailboxId =>
    some ((orderByUid (messagesOf db mailboxId)).map fun x => ⟨x.uid, x.modseq, SEEN ∈ x.flags⟩)
  | .changedSince mailboxId modseq =>
    some ((orderByUid ((messagesOf db mailboxId).filter fun x => modseq < x.modseq)).map
      Message.flagRow)
  | .expungedSince mailboxId modseq =>
    some ((((expungedOf db mailboxId).filter fun e => modseq < e.modseq).map
      Expunged.uid).insertionSort (· ≤ ·))
  | .uidsUpTo mailboxId maxUid =>
    some ((orderByUid ((messagesOf db mailboxId).filter fun x => x.uid ≤ maxUid)).map Message.uid)
  | .countUpTo mailboxId maxUid =>
    some ((messagesOf db mailboxId).filter fun x => x.uid ≤ maxUid).length
  | .rowsByUids mailboxId uids =>
    some (orderByUid ((messagesOf db mailboxId).filter fun x => x.uid ∈ uids))
  | .findMailbox .. | .storeFlags .. | .expunge .. | .copy .. | .move .. => none

/-- `p` commits on `db` with the result `r` and leaves `db'`. -/
def commits {α : Type} (p : Script α) (db : Db) (r : α) (db' : Db) : Prop :=
  p.CommitsTo exec Key.row (Careful false) db r db'

/-- How a call is answered in `db`. A writer's transaction is replayed on the
database as it is when it commits. -/
def answers (db : Db) : (c : StoreCall) → c.Result → Db → Prop
  | .findMailbox accountId name, r, db' =>
    db' = db ∧ ∃ ids,
      r = (scanMailboxes ids db fun r => r.accountId = accountId ∧ r.name = name).head?
  | .storeFlags mailboxId uids op flags unchangedSince, r, db' =>
    commits (Mail.storeFlags mailboxId uids op flags unchangedSince) db r db'
  | .expunge mailboxId uids, r, db' => commits (Mail.expunge mailboxId uids) db r db'
  | .copy sourceId uids targetId, r, db' =>
    ∃ draw now, commits (Mail.copy sourceId uids targetId draw now) db r db'
  | .move sourceId uids targetId, r, db' =>
    ∃ now, commits (Mail.move sourceId uids targetId now) db r db'
  | c, r, db' => db' = db ∧ readAt db c = some r

/-- The store as a session finds it: requests of others commit between its calls,
and a call may fail, which rolls back what it began. `ok` is a condition on the
calls and on the state they find. The others are all the writers of the repository
but two: nobody deletes the selected mailbox, and a RENAME of INBOX gives the new
mailbox counters that cover what it moves (`Careful`), which the code does not see to
when a delivery comes between its read and its lock. -/
def shared (ok : Db → StoreCall → Prop) : Shared Db StoreCall StoreCall.Result StoreError where
  others := Served false
  answer db c out db' :=
    match out with
    | .ok r => ok db c ∧ answers db c r db'
    | .error _ => db' = db

/-! ## 2. Responses -/

inductive FetchResponseItem
  | uid (value : ℕ)
  | flags (flags : List String)
  | modseq (value : ℕ)
  /-- Any other data of the message. -/
  | data
  deriving DecidableEq, Repr

/-- The untagged responses that concern the selected mailbox. `message` is the UID
of the message that a FETCH answer is about; the client sees it only as a UID item,
or through the sequence number. -/
inductive Response
  | exists_ (n : ℕ)
  | uidValidity (value : ℕ)
  | uidNext (value : ℕ)
  | highestModseq (value : ℕ)
  | expunge (seq : ℕ)
  | vanished (uids : List ℕ)
  | vanishedEarlier (uids : List ℕ)
  | fetch (seq message : ℕ) (items : List FetchResponseItem)
  deriving DecidableEq, Repr

/-- `checkAtom` of the response writer. The UTF-16 code units that it refuses are those
of the code points refused here. -/
def checkAtom (value : String) : Bool :=
  value ≠ "" && value.toList.all fun c =>
    0x20 < c.toNat && c.toNat < 0x7f && c.toNat ∉ [0x28, 0x29, 0x7b, 0x22]

/-- fetchResponse throws where this is false. -/
def writable (r : FlagRow) : Bool := r.flags.all checkAtom

/-! ## 3. The view -/

structure MailboxView where
  mailboxId : ℕ
  name : String
  uidvalidity : ℕ
  readOnly : Bool
  /-- Sequence number - 1 to UID, ascending; includes expunged placeholders. -/
  uids : List ℕ
  /-- UID to the modseq the client last heard about. -/
  known : ℕ → Option ℕ
  /-- UIDs expunged in the database whose EXPUNGE the client has not been sent. -/
  pending : List ℕ
  highestModseq : ℕ

namespace MailboxView

/-- The largest UID, or 0. -/
def maxUid (view : MailboxView) : ℕ := view.uids.getLast?.getD 0

def isExpunged (view : MailboxView) (uid : ℕ) : Bool := uid ∈ view.pending

/-- The binary search, on the half-open interval from `lo` to `hi`: `hi` is one more
than the source's. -/
def seqOf.go (uids : List ℕ) (uid : ℕ) : ℕ → ℕ → ℕ → Option ℕ
  | 0, _, _ => none
  | fuel + 1, lo, hi =>
    if lo < hi then
      let mid := (lo + (hi - 1)) / 2
      let v := uids.getD mid 0
      if v = uid then some (mid + 1)
      else if v < uid then seqOf.go uids uid fuel (mid + 1) hi
      else seqOf.go uids uid fuel lo mid
    else none

def seqOf (view : MailboxView) (uid : ℕ) : Option ℕ :=
  seqOf.go view.uids uid (view.uids.length + 1) 0 view.uids.length

def uidAt (view : MailboxView) (seq : ℕ) : Option ℕ :=
  if seq = 0 then none else view.uids[seq - 1]?

/-- `this.known.set(uid, modseq)`. -/
def setKnown (view : MailboxView) (uid modseq : ℕ) : MailboxView :=
  { view with known := fun u => if u = uid then some modseq else view.known u }

/-- Remember what the client was just told. -/
def noteModseq (view : MailboxView) (uid modseq : ℕ) : MailboxView :=
  if (view.known uid).isSome then view.setKnown uid modseq else view

/-- The view at SELECT; `firstUnseen` is left to the caller. -/
def load (mb : MailboxInfo) (readOnly : Bool) (probe : Option Probe) (rows : List SnapshotRow) :
    MailboxView where
  mailboxId := mb.id
  name := mb.name
  uidvalidity := mb.uidvalidity
  readOnly := readOnly
  uids := rows.map SnapshotRow.uid
  known uid := (rows.find? fun r => r.uid = uid).map SnapshotRow.modseq
  pending := []
  highestModseq := (probe.map Probe.highestModseq).getD mb.highestModseq

structure Opened where
  view : MailboxView
  firstUnseen : Option ℕ
  highestModseq : ℕ
  uidnext : ℕ

/-- Load the view at SELECT time. The modseq is read first: a change racing the
snapshot is then seen again at the next sync. -/
def open_ (mb : MailboxInfo) (readOnly : Bool) : Calls Opened := do
  let probe ← call (.probe mb.id)
  let rows ← call (.snapshot mb.id)
  let view := load mb readOnly probe rows
  pure
    { view := view
      firstUnseen := (rows.findIdx? fun r => !r.seen).map (· + 1)
      highestModseq := view.highestModseq
      uidnext := Nat.max ((probe.map Probe.uidnext).getD 1) (view.maxUid + 1) }

/-! ### 3.1. Sequence sets against the view -/

/-- `[s, uids[s - 1]]`, where there is one. -/
def pairAt (view : MailboxView) (s : ℕ) : Option (ℕ × ℕ) :=
  (view.uidAt s).map fun uid => (s, uid)

def pairsForUids (view : MailboxView) (uids : List ℕ) : List (ℕ × ℕ) :=
  (uids.insertionSort (· ≤ ·)).filterMap fun u => (view.seqOf u).map fun s => (s, u)

/-- Message sequence numbers to [seq, uid] pairs, placeholders included. -/
def resolveSeqs (view : MailboxView) (set : SequenceSet) (saved : Option (List ℕ)) :
    List (ℕ × ℕ) :=
  match set with
  | .saved => view.pairsForUids (saved.getD [])
  | .set _ =>
    (normalizeSequenceSet set view.uids.length).flatMap fun r =>
      ((List.range' r.1 (Nat.min r.2 view.uids.length + 1 - r.1)).filterMap view.pairAt)

/-- The search for the first UID that is not below `uid`. -/
def lowerBound.go (uids : List ℕ) (uid : ℕ) : ℕ → ℕ → ℕ → ℕ
  | 0, lo, _ => lo
  | fuel + 1, lo, hi =>
    if lo < hi then
      let mid := (lo + hi) / 2
      if uids.getD mid 0 < uid then lowerBound.go uids uid fuel (mid + 1) hi
      else lowerBound.go uids uid fuel lo mid
    else lo

def lowerBound (view : MailboxView) (uid : ℕ) : ℕ :=
  lowerBound.go view.uids uid (view.uids.length + 1) 0 view.uids.length

/-- From index `i` on, as long as the UID is at most `hi`. -/
def pairsUpTo (hi : ℕ) : ℕ → List ℕ → List (ℕ × ℕ)
  | _, [] => []
  | i, uid :: rest => if hi < uid then [] else (i + 1, uid) :: pairsUpTo hi (i + 1) rest

/-- UIDs to [seq, uid] pairs for the messages in the view; `*` is the largest UID. -/
def resolveUids (view : MailboxView) (set : SequenceSet) (saved : Option (List ℕ)) :
    List (ℕ × ℕ) :=
  match set with
  | .saved => view.pairsForUids (saved.getD [])
  | .set _ =>
    if view.uids.isEmpty then []
    else
      (normalizeSequenceSet set view.maxUid).flatMap fun r =>
        pairsUpTo r.2 (view.lowerBound r.1) (view.uids.drop (view.lowerBound r.1))

/-- The two forms, by whether the command has the UID prefix. -/
def resolve (view : MailboxView) (uid : Bool) (set : SequenceSet) (saved : Option (List ℕ)) :
    List (ℕ × ℕ) :=
  if uid then view.resolveUids set saved else view.resolveSeqs set saved

/-! ### 3.2. Expunges -/

/-- `this.uids.splice(s - 1, 1)`, and `uid` is forgotten. -/
def forget (view : MailboxView) (s uid : ℕ) : MailboxView :=
  { view with
    uids := view.uids.eraseIdx (s - 1)
    known := fun u => if u = uid then none else view.known u
    pending := view.pending.filter fun u => u ≠ uid }

/-- One round of the loop under QRESYNC; `gone` are the UIDs removed so far. -/
def vanishOne (acc : MailboxView × List ℕ) (u : ℕ) : MailboxView × List ℕ :=
  match acc.1.seqOf u with
  | none => acc
  | some s => (acc.1.forget s u, acc.2 ++ [u])

/-- One round of the loop over sequence numbers. -/
def expungeOne (view : MailboxView) (s : ℕ) : MailboxView :=
  match view.uids[s - 1]? with
  | some uid => view.forget s uid
  | none => { view with uids := view.uids.eraseIdx (s - 1) }

/-- These are gone: "* n EXPUNGE" for each, descending so that no number shifts
under the next one, or one "* VANISHED uids". -/
def expungeNow (view : MailboxView) (uids : List ℕ) (vanished : Bool) :
    MailboxView × List Response :=
  if vanished then
    let (view', gone) := uids.foldl vanishOne (view, [])
    (view', if gone.isEmpty then [] else [.vanished (gone.insertionSort (· ≤ ·))])
  else
    let seqs := (uids.filterMap view.seqOf).insertionSort (· ≥ ·)
    (seqs.foldl expungeOne view, seqs.map .expunge)

/-- Deliver pending expunges. -/
def flushPending (view : MailboxView) (vanished : Bool) : MailboxView × List Response :=
  if view.pending.isEmpty then (view, []) else view.expungeNow view.pending vanished

/-! ### 3.3. sync -/

structure SyncOptions where
  allowExpunge : Bool
  condstore : Bool
  qresync : Bool
  /-- How many arguments the engine lets a call have, at the depth of this one. -/
  maxArguments : ℕ
  deriving DecidableEq, Repr

/-- How a sync ends: the mailbox is gone; a view and what is to be written; or an error
that leaves the view as it is by then, with nothing written. -/
inductive SyncOutcome
  | gone
  | synced (result : MailboxView × List Response)
  | threw (view : MailboxView)

def flushIfAllowed (view : MailboxView) (opts : SyncOptions) : MailboxView × List Response :=
  if opts.allowExpunge then view.flushPending opts.qresync else (view, [])

/-- `responses.push(...this.flushPending())` throws when there are too many. -/
def flushOnly (view : MailboxView) (opts : SyncOptions) : SyncOutcome :=
  let flushed := view.flushIfAllowed opts
  if opts.maxArguments < flushed.2.length then .threw flushed.1 else .synced flushed

/-- `this.pending.add(u)`. -/
def addPending (view : MailboxView) (u : ℕ) : MailboxView :=
  if u ∈ view.pending then view else { view with pending := view.pending ++ [u] }

/-- Which messages are gone: count first, list only when something did go. -/
def markExpunged (view : MailboxView) : Calls MailboxView :=
  let known := view.uids.length - view.pending.length
  if known = 0 then pure view
  else do
    let count ← call (.countUpTo view.mailboxId view.maxUid)
    if count = known then pure view
    else do
      let present ← call (.uidsUpTo view.mailboxId view.maxUid)
      pure (view.uids.foldl (fun v u => if u ∈ present then v else v.addPending u) view)

/-- `this.uids.push(r.uid)`. -/
def arrive (view : MailboxView) (r : FlagRow) : MailboxView :=
  { view.setKnown r.uid r.modseq with uids := view.uids ++ [r.uid] }

/-- UIDs above everything we knew, in UID order. -/
def arrivals (view : MailboxView) (new : List FlagRow) : MailboxView × List Response :=
  let view' := new.foldl arrive view
  (view', if new.isEmpty then [] else [.exists_ view'.uids.length])

/-- The number under which a change is to be told, if it is. `maxUid` is the one from
before the arrivals. -/
def dueAt (view : MailboxView) (maxUid : ℕ) (r : FlagRow) : Option ℕ :=
  if maxUid < r.uid ∨ view.isExpunged r.uid then none
  else if (view.known r.uid).any fun seen => r.modseq ≤ seen then none
  else view.seqOf r.uid

/-- One round of the flag loop. -/
def announce (opts : SyncOptions) (maxUid : ℕ) (acc : MailboxView × List Response)
    (r : FlagRow) : MailboxView × List Response :=
  match acc.1.dueAt maxUid r with
  | none => acc
  | some seq =>
    (acc.1.setKnown r.uid r.modseq,
      acc.2 ++ [.fetch seq r.uid
        ([.uid r.uid, .flags r.flags] ++ if opts.condstore then [.modseq r.modseq] else [])])

/-- The flag loop. A change is noted before its response is made, which may throw. -/
def announceAll (opts : SyncOptions) (maxUid : ℕ) : MailboxView × List Response → List FlagRow →
    Except MailboxView (MailboxView × List Response)
  | acc, [] => .ok acc
  | acc, r :: rest =>
    let acc' := announce opts maxUid acc r
    if (acc.1.dueAt maxUid r).isSome ∧ !writable r then .error acc'.1
    else announceAll opts maxUid acc' rest

/-- What is left to do once every read is made. `view` has its placeholders marked. -/
def applyChanges (view : MailboxView) (opts : SyncOptions) (highestModseq : ℕ)
    (changed : List FlagRow) : SyncOutcome :=
  let maxUid := view.maxUid
  let (flushed, expunges) := view.flushIfAllowed opts
  if opts.maxArguments < expunges.length then .threw flushed
  else
    let (grown, arrived) := flushed.arrivals (changed.filter fun r => maxUid < r.uid)
    match announceAll opts maxUid (grown, []) changed with
    | .error view' => .threw view'
    | .ok (told, fetches) =>
      .synced ({ told with highestModseq := highestModseq }, expunges ++ arrived ++ fetches)

def sync (view : MailboxView) (opts : SyncOptions) : Calls SyncOutcome := do
  let probe ← call (.probe view.mailboxId)
  match probe with
  | none => pure .gone
  | some probe =>
    if probe.highestModseq = view.highestModseq then pure (view.flushOnly opts)
    else do
      let changed ← call (.changedSince view.mailboxId view.highestModseq)
      let marked ← view.markExpunged
      pure (marked.applyChanges opts probe.highestModseq changed)

/-! ### 3.4. When a sync cannot throw -/

/-- Its expunges are no more than a call can have arguments. -/
def CanFlush (view : MailboxView) (opts : SyncOptions) : Prop :=
  (if opts.qresync then 1 else view.uids.length) ≤ opts.maxArguments

/-- Of the messages that the client has, those that have changed have flags that can be
written. -/
def CanTell (view : MailboxView) (db : Db) : Prop :=
  ∀ x ∈ messagesOf db view.mailboxId, view.highestModseq < x.modseq → x.uid ≤ view.maxUid →
    writable x.flagRow = true

instance (view : MailboxView) (opts : SyncOptions) : Decidable (view.CanFlush opts) :=
  inferInstanceAs (Decidable (_ ≤ _))

instance (view : MailboxView) (db : Db) : Decidable (view.CanTell db) :=
  inferInstanceAs (Decidable (∀ x ∈ messagesOf db view.mailboxId, _ → _ → _))

end MailboxView

end Postroom.Imap
