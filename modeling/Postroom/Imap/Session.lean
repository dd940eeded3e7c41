/-
A session with a selected mailbox (apps/imap/src/session.ts, fetch.ts and
extensions/qresync.ts): SELECT, FETCH, STORE, EXPUNGE, COPY and MOVE, and the sync
that ends every command and every wake-up of IDLE.

A handler is a script of calls to the store that ends with the view it leaves and
the untagged responses it wrote. What a session has enabled, what a SEARCH saved
and which blobs cannot be decoded are `Settings`: they may be different at every
command. SEARCH reads the view and changes nothing; so does every command that is
not about the selected mailbox.

A FETCH or a STORE that meets a flag that cannot be written is answered NO after the
responses before it; the handlers here go on, as they do where every flag can be.
-/
import Postroom.Imap.View

set_option autoImplicit false

namespace Postroom.Imap

open Lib Mail

structure Settings where
  accountId : ℕ
  condstore : Bool
  qresync : Bool
  /-- The UIDs a SEARCH RETURN (SAVE) kept. -/
  saved : Option (List ℕ)
  /-- BINARY was asked for a part of this blob whose encoding cannot be undone. -/
  undecodable : String → Bool
  /-- How many arguments the engine lets a call have. -/
  maxArguments : ℕ

/-! ## 1. SELECT -/

structure QresyncParams where
  uidValidity : ℕ
  modseq : ℕ
  knownUids : Option SequenceSet
  deriving DecidableEq, Repr

/-- Is the UID in the set, when there is one? `*` is the last UID handed out. -/
def inKnown (set : Option SequenceSet) (uidnext uid : ℕ) : Bool :=
  set.all fun set => sequenceSetHas set uid (Nat.max (uidnext - 1) 1)

/-- UIDs of `set` expunged from the mailbox after `since`, ascending. -/
def vanishedSince (mailboxId since : ℕ) (set : Option SequenceSet) (uidnext : ℕ) :
    Calls (List ℕ) := do
  let uids ← call (.expungedSince mailboxId since)
  pure (uids.filter (inKnown set uidnext))

/-- One round of the loop over the messages changed since the client's modseq. -/
def resyncOne (known : Option SequenceSet) (uidnext : ℕ) (acc : MailboxView × List Response)
    (r : FlagRow) : MailboxView × List Response :=
  if inKnown known uidnext r.uid then
    match acc.1.seqOf r.uid with
    | none => acc
    | some seq =>
      (acc.1.noteModseq r.uid r.modseq,
        acc.2 ++ [.fetch seq r.uid [.uid r.uid, .flags r.flags, .modseq r.modseq]])
  else acc

/-- The QRESYNC part of a SELECT answer. -/
def qresyncSelectResponses (view : MailboxView) (params : QresyncParams) (uidnext : ℕ) :
    Calls (MailboxView × List Response) :=
  if params.uidValidity ≠ view.uidvalidity then pure (view, [])
  else do
    let gone ← vanishedSince view.mailboxId params.modseq params.knownUids uidnext
    let changed ← call (.changedSince view.mailboxId params.modseq)
    pure (changed.foldl (resyncOne params.knownUids uidnext)
      (view, if gone.isEmpty then [] else [.vanishedEarlier gone]))

/-- The QRESYNC part, where the client asked for it. -/
def resyncIfAsked (qresync : Option QresyncParams) (view : MailboxView) (uidnext : ℕ) :
    Calls (MailboxView × List Response) :=
  match qresync with
  | none => pure (view, [])
  | some params => qresyncSelectResponses view params uidnext

/-- SELECT and EXAMINE of the mailbox that findMailbox found. -/
def selectFound (mb : MailboxInfo) (readOnly : Bool) (qresync : Option QresyncParams) :
    Calls (MailboxView × List Response) := do
  let opened ← MailboxView.open_ mb readOnly
  let (view, resync) ← resyncIfAsked qresync opened.view opened.uidnext
  pure (view,
    [.exists_ opened.view.uids.length, .uidValidity mb.uidvalidity, .uidNext opened.uidnext,
      .highestModseq opened.highestModseq] ++ resync)

/-! ## 2. FETCH -/

inductive FetchAtt
  | uid
  | flags
  | modseq
  /-- Any other item; `marksSeen` for a body section that is not a PEEK. -/
  | data (marksSeen : Bool)
  deriving DecidableEq, Repr

def FetchAtt.marksSeen : FetchAtt → Bool
  | .data b => b
  | _ => false

structure FetchCommand where
  uid : Bool
  set : SequenceSet
  items : List FetchAtt
  changedSince : Option ℕ
  vanished : Bool

/-- MODSEQ is added whenever FLAGS is asked for by a session that is aware of it, and
whenever CHANGEDSINCE is used. -/
def withModseq (cmd : FetchCommand) (aware : Bool) : FetchCommand :=
  if .modseq ∈ cmd.items then cmd
  else if cmd.changedSince.isSome ∨ (aware ∧ .flags ∈ cmd.items) then
    { cmd with items := cmd.items ++ [.modseq] }
  else cmd

/-- UID comes first where it is implied. -/
def fetchItems (cmd : FetchCommand) : List FetchAtt :=
  if (cmd.uid ∨ cmd.changedSince.isSome) ∧ .uid ∉ cmd.items then .uid :: cmd.items else cmd.items

def FetchAtt.answer (row : Message) : FetchAtt → FetchResponseItem
  | .uid => .uid row.uid
  | .flags => .flags row.flags
  | .modseq => .modseq row.modseq
  | .data _ => .data

/-- The rows with the flags and modseqs a STORE answered. -/
def withFlagRows (rows : List Message) (stored : List FlagRow) : List Message :=
  rows.map fun x =>
    match stored.find? fun r => r.uid = x.uid with
    | some r => { x with flags := r.flags, modseq := r.modseq }
    | none => x

/-- \Seen, set before any data leaves: the rows after it, and the UIDs it changed. -/
def markSeen (view : MailboxView) (items : List FetchAtt) (rows : List Message) :
    Calls (List Message × List ℕ) :=
  let unseen := (rows.filter fun x => !hasFlag x.flags SEEN).map Message.uid
  if view.readOnly ∨ !items.any FetchAtt.marksSeen ∨ unseen.isEmpty then pure (rows, [])
  else do
    let res ← call (.storeFlags view.mailboxId unseen .add [SEEN] none)
    pure (withFlagRows rows res.rows,
      ((res.rows.map FlagRow.uid).filter fun u => u ∈ rows.map Message.uid ∧ u ∈ res.changed))

/-- One round of the loop that answers. -/
def fetchOne (condstore : Bool) (items : List FetchAtt) (byUid : List Message) (seenSet : List ℕ)
    (acc : MailboxView × List Response) (pair : ℕ × ℕ) : MailboxView × List Response :=
  match byUid.find? fun x => x.uid = pair.2 with
  | none => acc
  | some row =>
    let seen := pair.2 ∈ seenSet
    let out := items.map (FetchAtt.answer row)
      ++ (if seen ∧ .flags ∉ items then [.flags row.flags] else [])
      ++ (if seen ∧ condstore ∧ .modseq ∉ items then [.modseq row.modseq] else [])
    (if .flags ∈ items ∨ seen then acc.1.noteModseq pair.2 row.modseq else acc.1,
      acc.2 ++ [.fetch pair.1 pair.2 out])

def runFetch (s : Settings) (view : MailboxView) (cmd : FetchCommand) :
    Calls (MailboxView × List Response) := do
  let items := fetchItems cmd
  let live := (view.resolve cmd.uid cmd.set s.saved).filter fun p => !view.isExpunged p.2
  let found ← call (.rowsByUids view.mailboxId (live.map Prod.snd))
  let rows := found.filter fun x => cmd.changedSince.all fun since => since < x.modseq
  if rows.any fun x => s.undecodable x.blobSha256 then pure (view, [])
  else do
    let (byUid, seenSet) ← markSeen view items rows
    pure (live.foldl (fetchOne s.condstore items byUid seenSet) (view, []))

/-- UID FETCH ... (CHANGEDSINCE m VANISHED): the set's expunges since m first. -/
def fetchVanished (s : Settings) (view : MailboxView) (cmd : FetchCommand) :
    Calls (List Response) := do
  let probe ← call (.probe view.mailboxId)
  let uidnext := (probe.map Probe.uidnext).getD (view.maxUid + 1)
  let set := match cmd.set with
    | .saved => sequenceSetFromNumbers (s.saved.getD [])
    | .set ranges => .set ranges
  let gone ← vanishedSince view.mailboxId (cmd.changedSince.getD 0) (some set) uidnext
  pure (if gone.isEmpty then [] else [.vanishedEarlier gone])

/-- VANISHED without QRESYNC is a tagged BAD. -/
def fetch (s : Settings) (view : MailboxView) (original : FetchCommand) :
    Calls (MailboxView × List Response) :=
  let cmd := withModseq original s.condstore
  if cmd.vanished then
    if s.qresync then do
      let earlier ← fetchVanished s view cmd
      let (view', answers) ← runFetch s view cmd
      pure (view', earlier ++ answers)
    else pure (view, [])
  else runFetch s view cmd

/-! ## 3. STORE -/

structure StoreCommand where
  uid : Bool
  set : SequenceSet
  operation : StoreOperation
  flags : List String
  silent : Bool
  unchangedSince : Option ℕ

/-- The messages a STORE names, without the placeholders. -/
def StoreCommand.pairs (cmd : StoreCommand) (s : Settings) (view : MailboxView) :
    List (ℕ × ℕ) :=
  (view.resolve cmd.uid cmd.set s.saved).filter fun p => !view.isExpunged p.2

/-- One round of the loop over the rows that storeFlags answered. -/
def storeOne (s : Settings) (cmd : StoreCommand) (pairs : List (ℕ × ℕ))
    (acc : MailboxView × List Response) (row : FlagRow) : MailboxView × List Response :=
  let view := acc.1.noteModseq row.uid row.modseq
  if cmd.silent then (view, acc.2)
  else
    -- a Map from pairs keeps the last of two pairs with one UID
    match pairs.reverse.find? fun p => p.2 = row.uid with
    | none => (view, acc.2)
    | some p =>
      (view, acc.2 ++ [.fetch p.1 row.uid
        ((if cmd.uid then [.uid row.uid] else []) ++ [.flags row.flags]
          ++ if cmd.unchangedSince.isSome ∨ s.condstore then [.modseq row.modseq] else [])])

/-- What the tagged answer to a STORE tells: whether it was carried out, and the UIDs
in its [MODIFIED] code. -/
structure Stored where
  carriedOut : Bool
  modified : List ℕ
  deriving DecidableEq, Repr

def store (s : Settings) (view : MailboxView) (cmd : StoreCommand) :
    Calls (MailboxView × List Response × Stored) :=
  if view.readOnly then pure (view, [], ⟨false, []⟩)
  else do
    let pairs := cmd.pairs s view
    let res ← call (.storeFlags view.mailboxId (pairs.map Prod.snd) cmd.operation cmd.flags
      cmd.unchangedSince)
    let (view', answers) := res.rows.foldl (storeOne s cmd pairs) (view, [])
    pure (view', answers, ⟨true, res.modified⟩)

/-! ## 4. EXPUNGE, COPY and MOVE -/

/-- EXPUNGE, or UID EXPUNGE of a set. -/
def expunge (s : Settings) (view : MailboxView) (set : Option SequenceSet) :
    Calls (MailboxView × List Response) :=
  if view.readOnly then pure (view, [])
  else do
    let uids := set.map fun set =>
      ((view.resolveUids set s.saved).filter fun p => !view.isExpunged p.2).map Prod.snd
    let removed ← call (.expunge view.mailboxId uids)
    pure (view.expungeNow removed s.qresync)

structure CopyCommand where
  move : Bool
  uid : Bool
  set : SequenceSet
  mailbox : String

/-- COPY or MOVE to a mailbox that was found. -/
def copyOrMoveTo (s : Settings) (view : MailboxView) (cmd : CopyCommand) (target : MailboxInfo) :
    Calls (MailboxView × List Response) :=
  let uids := ((view.resolve cmd.uid cmd.set s.saved).filter fun p =>
    !view.isExpunged p.2).map Prod.snd
  if uids.isEmpty then pure (view, [])
  else if cmd.move then do
    let r ← call (.move view.mailboxId uids target.id)
    pure (if r.pairs.isEmpty then (view, []) else view.expungeNow (r.pairs.map Prod.fst) s.qresync)
  else do
    let _ ← call (.copy view.mailboxId uids target.id)
    pure (view, [])

def copyOrMove (s : Settings) (view : MailboxView) (cmd : CopyCommand) :
    Calls (MailboxView × List Response) :=
  if cmd.move ∧ view.readOnly then pure (view, [])
  else do
    let target ← call (.findMailbox s.accountId cmd.mailbox)
    match target with
    | none => pure (view, [])
    | some target => copyOrMoveTo s view cmd target

/-! ## 5. Commands -/

inductive SessionCommand
  | fetch (cmd : FetchCommand)
  | store (cmd : StoreCommand)
  | search (uid : Bool)
  | expunge (set : Option SequenceSet)
  | copyOrMove (cmd : CopyCommand)
  /-- Any other command that leaves the mailbox selected: NOOP, CHECK, LIST, STATUS,
  APPEND, CREATE, ... -/
  | other

/-- A command's handler. -/
def dispatch (s : Settings) (view : MailboxView) :
    SessionCommand → Calls (MailboxView × List Response × Stored)
  | .fetch cmd => do
    let (view', responses) ← fetch s view cmd
    pure (view', responses, ⟨true, []⟩)
  | .store cmd => store s view cmd
  | .search _ => pure (view, [], ⟨true, []⟩)
  | .expunge set => do
    let (view', responses) ← expunge s view set
    pure (view', responses, ⟨true, []⟩)
  | .copyOrMove cmd => do
    let (view', responses) ← copyOrMove s view cmd
    pure (view', responses, ⟨true, []⟩)
  | .other => pure (view, [], ⟨true, []⟩)

/-- Whether the sync at the end of a command may send expunges: not after the
non-UID forms of FETCH, STORE and SEARCH. -/
def numbered : SessionCommand → Bool
  | .fetch cmd => cmd.uid
  | .store cmd => cmd.uid
  | .search uid => uid
  | _ => true

def syncOptions (s : Settings) (allowExpunge : Bool) : MailboxView.SyncOptions where
  allowExpunge := allowExpunge
  condstore := s.condstore
  qresync := s.qresync
  maxArguments := s.maxArguments

end Postroom.Imap
