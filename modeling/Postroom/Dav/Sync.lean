/-
The sync-collection report (RFC 6578) and a client that follows it.

`syncCollection` of apps/dav reads three times, outside any transaction: the
collection's counter, then its members or its change log, then the rows to report.
Others may commit between any two of these reads. It is a script of queries; each is
answered from the database as it is when the query runs.

The client keeps one map from names to entity tags, sets it from every member
response, removes a name on every 404, and always sends the last token it got.
-/
import Postroom.Dav.Store
import Postroom.Lib.Calls
import Postroom.Lib.Decimal

set_option autoImplicit false

namespace Postroom.Dav

open Lib List

/-! ## 1. Tokens (apps/dav/src/props.ts) -/

def tokenBase : Text := "http://postroom.d3cloud.io/ns/sync/".toList

/-- The sync token of a collection at `seq`. -/
def syncToken (collectionId : Text) (seq : ℕ) : Text :=
  tokenBase ++ (collectionId ++ '/' :: decimal seq)

def isDigit (c : Char) : Bool := '0' ≤ c ∧ c ≤ '9'

/-- `[0-9a-f-]`. -/
def isIdChar (c : Char) : Bool := isDigit c ∨ 'a' ≤ c ∧ c ≤ 'f' ∨ c = '-'

/-- `0|[1-9][0-9]{0,18}`. -/
def isSeq (digits : Text) : Bool :=
  digits = ['0'] ∨ digits.all isDigit ∧ digits.head?.any (fun c => c ≠ '0') ∧ digits.length ≤ 19

/-- The inverse of `syncToken`; `none` when it is not one of ours. -/
def parseSyncToken (token : Text) : Option (Text × ℕ) :=
  if tokenBase.isPrefixOf token then
    let rest := token.drop tokenBase.length
    let collectionId := rest.take 36
    let digits := (rest.drop 36).tail
    if collectionId.length = 36 ∧ collectionId.all isIdChar ∧ (rest.drop 36).head? = some '/'
      ∧ isSeq digits then
      some (collectionId, bigInt digits)
    else none
  else none

/-- What the primary key of a collection looks like. -/
def IsCollectionId (id : Text) : Prop := id.length = 36 ∧ id.all isIdChar = true

instance (id : Text) : Decidable (IsCollectionId id) := inferInstanceAs (Decidable (_ ∧ _))

theorem digitChar_spec {d : ℕ} (h : d < 10) : isDigit (digitChar d) = true
    ∧ (digitChar d = '0' ↔ d = 0) := by
  have hall : ∀ d < 10, isDigit (digitChar d) = true ∧ (digitChar d = '0' ↔ d = 0) := by decide
  exact hall d h

theorem isSeq_decimal {n : ℕ} (h : n ≤ INT8_MAX) : isSeq (decimal n) = true := by
  unfold decimal
  split
  · rfl
  · rename_i hn
    have hne : Nat.digits 10 n ≠ [] := Nat.digits_ne_nil_iff_ne_zero.mpr hn
    have hlen : (Nat.digits 10 n).length ≤ 19 := by
      rw [Nat.digits_length_le_iff (by decide)]
      exact Nat.lt_of_le_of_lt h (by decide)
    have hall : ((Nat.digits 10 n).reverse.map digitChar).all isDigit = true := by
      rw [all_map, all_reverse, all_eq_true]
      intro d hd
      exact (digitChar_spec (Nat.digits_lt_base (by decide) hd)).1
    have hhead : ((Nat.digits 10 n).reverse.map digitChar).head?.any (fun c => c ≠ '0') = true := by
      have hlast := Nat.getLast_digit_ne_zero 10 hn
      have hlt : (Nat.digits 10 n).getLast hne < 10 :=
        Nat.digits_lt_base (by decide) (getLast_mem hne)
      rw [head?_map, head?_reverse, getLast?_eq_some_getLast hne, Option.map_some, Option.any_some,
        decide_eq_true_eq]
      exact fun hzero => hlast ((digitChar_spec hlt).2.mp hzero)
    simp only [isSeq, Bool.decide_or, Bool.or_eq_true, decide_eq_true_eq]
    right
    rw [length_map, length_reverse]
    exact ⟨hall, hhead, hlen⟩

/-- A token of ours is read back. -/
theorem parseSyncToken_syncToken {id : Text} (hid : IsCollectionId id) {seq : ℕ}
    (hseq : seq ≤ INT8_MAX) :
    parseSyncToken (syncToken id seq) = some (id, seq) := by
  obtain ⟨hlen, hall⟩ := hid
  have hbase : tokenBase.isPrefixOf (syncToken id seq) = true := by
    rw [List.isPrefixOf_iff_prefix]
    exact prefix_append _ _
  have htake : (id ++ '/' :: decimal seq).take 36 = id := take_left' hlen
  have hdrop : (id ++ '/' :: decimal seq).drop 36 = '/' :: decimal seq := drop_left' hlen
  unfold parseSyncToken
  rw [if_pos hbase]
  dsimp only
  rw [syncToken, drop_left, htake, hdrop, tail_cons, head?_cons, bigInt_decimal,
    if_pos ⟨hlen, hall, rfl, isSeq_decimal hseq⟩]

theorem syncToken_ne_nil (id : Text) (seq : ℕ) : syncToken id seq ≠ [] := by
  intro h
  have hlen := congrArg List.length h
  rw [syncToken, length_append, length_append, length_cons] at hlen
  simp at hlen

/-! ## 2. The report (apps/dav/src/server.ts) -/

/-- A collection as the request's route found it. -/
structure Collection where
  id : Text
  syncSeq : ℕ

structure SyncRequest where
  /-- Empty for an initial sync. -/
  syncToken : Text
  limit : Option ℕ
  /-- `needsData(props)`. -/
  withData : Bool

inductive Query
  | currentSeq (collectionId : Text)
  | listResources (collectionId : Text)
  | getResources (collectionId : Text) (names : List String)
  | changesBetween (collectionId : Text) («from» upTo : ℕ)

@[reducible] def Query.Result : Query → Type
  | .currentSeq _ => Option ℕ
  | .listResources _ => List ResourceMeta
  | .getResources .. => List ResourceMeta
  | .changesBetween .. => List Change

def Query.collectionId : Query → Text
  | .currentSeq id => id
  | .listResources id => id
  | .getResources id _ => id
  | .changesBetween id _ _ => id

/-- `orderBy: { modSeq: 'asc' }`. -/
def orderByModSeq (rows : List ResourceMeta) : List ResourceMeta :=
  rows.insertionSort fun a b => a.modSeq ≤ b.modSeq

def answerOf (c : Option CollectionRow) : (q : Query) → q.Result
  | .currentSeq _ => c.map (·.syncSeq)
  | .listResources _ => c.elim [] fun c => orderByModSeq c.resources
  | .getResources _ names =>
    c.elim [] fun c => orderByModSeq (c.resources.filter fun r => r.name ∈ names)
  -- the log is kept in the order of its keys
  | .changesBetween _ lo hi =>
    c.elim [] fun c => c.changes.filter fun ch => lo < ch.seq ∧ ch.seq ≤ hi

def answer (db : Db) (q : Query) : q.Result := answerOf (db q.collectionId) q

abbrev Reads (α : Type) := Txn Query Query.Result Empty α

/-- `Txn.exec` at these queries. -/
def ask (q : Query) : Reads q.Result := Txn.exec q

/-- One `DAV:response`: a member with its etag, a removed member, or the collection
itself with 507 and number-of-matches-within-limits. -/
inductive Entry
  | member (name etag : String)
  | removed (name : String)
  | withinLimits
  deriving DecidableEq, Repr

inductive Reply
  | multistatus (responses : List Entry) (syncToken : Text)
  /-- 403 with `DAV:valid-sync-token`. -/
  | validSyncToken
  deriving DecidableEq, Repr

/-- `latest`, a Map in the order of the last change, and the token if the loop broke
off. -/
def scanChanges (limit : Option ℕ) : List Change → List (String × Bool) →
    List (String × Bool) × Option ℕ
  | [], latest => (latest, none)
  | c :: cs, latest =>
    if (!latest.any fun e => e.1 = c.name) ∧ limit.any (fun l => l ≤ latest.length) then
      (latest, some (c.seq - 1))
    else scanChanges limit cs (latest.filter (fun e => e.1 ≠ c.name) ++ [(c.name, c.deleted)])

/-- The members of an initial sync, and the token if there are too many. -/
def firstMembers (limit : Option ℕ) (members : List ResourceMeta) : List ResourceMeta × Option ℕ :=
  match limit with
  | none => (members, none)
  | some l =>
    if l < members.length then
      (members.take l, some (((members.take l).getLast?.map (·.modSeq)).getD 0))
    else (members, none)

def memberEntry (m : ResourceMeta) : Entry := .member m.name m.etag

def changeEntry (rows : List ResourceMeta) (e : String × Bool) : Entry :=
  match if e.2 then none else rows.find? fun r => r.name = e.1 with
  | none => .removed e.1
  | some row => memberEntry row

/-- The 507 entry and the token. -/
def finishReply (collectionId : Text) (current : ℕ) (responses : List Entry) (stopped : Option ℕ) :
    Reply :=
  .multistatus (responses ++ if stopped.isSome then [.withinLimits] else [])
    (syncToken collectionId (stopped.getD current))

def initialSync (collection : Collection) (r : SyncRequest) (current : ℕ) : Reads Reply := do
  let all ← ask (.listResources collection.id)
  let page := firstMembers r.limit (all.filter fun m => m.modSeq ≤ current)
  let rows
      ← if r.withData then ask (.getResources collection.id (page.1.map (·.name))) else pure page.1
  pure (finishReply collection.id current (rows.map memberEntry) page.2)

/-- `listMeta`. -/
def listMeta (collectionId : Text) (names : List String) : Reads (List ResourceMeta) := do
  let all ← ask (.listResources collectionId)
  pure (all.filter fun m => m.name ∈ names)

def changesSync (collection : Collection) (r : SyncRequest) (seq current : ℕ) : Reads Reply := do
  let changes ← ask (.changesBetween collection.id seq current)
  let scan := scanChanges r.limit changes []
  let live := (scan.1.filter fun e => !e.2).map (·.1)
  let rows
      ← if r.withData then ask (.getResources collection.id live) else listMeta collection.id live
  pure (finishReply collection.id current (scan.1.map (changeEntry rows)) scan.2)

def syncCollection (collection : Collection) (r : SyncRequest) : Reads Reply := do
  let seq ← ask (.currentSeq collection.id)
  let current := seq.getD collection.syncSeq
  if r.syncToken = [] then initialSync collection r current
  else
    match parseSyncToken r.syncToken with
    | none => pure .validSyncToken
    | some parsed =>
      if parsed.1 ≠ collection.id ∨ current < parsed.2 then pure .validSyncToken
      else changesSync collection r parsed.2 current

/-! ## 3. The client -/

structure Client where
  token : Text := []
  map : String → Option String := fun _ => none

def applyEntry (map : String → Option String) : Entry → String → Option String
  | .member name etag => fun n => if n = name then some etag else map n
  | .removed name => fun n => if n = name then none else map n
  | .withinLimits => map

def Client.receive (client : Client) : Reply → Client
  | .multistatus responses token => { token, map := responses.foldl applyEntry client.map }
  | .validSyncToken => client

/-- The response holds the 507 entry. -/
def Reply.truncated : Reply → Bool
  | .multistatus responses _ => responses.any fun e => e = .withinLimits
  | .validSyncToken => false

/-! ## 4. The client among the writers -/

/-- A request on its way, and the collection as each read so far has seen it. -/
structure Flight where
  request : SyncRequest
  rest : Reads Reply
  seen : List (Option CollectionRow)

/-- A request that was answered. -/
structure Exchange where
  request : SyncRequest
  reply : Reply
  seen : List (Option CollectionRow)
  after : Client

structure World where
  server : DavServer
  client : Client := {}
  flight : Option Flight := none
  exchanges : List Exchange := []

inductive Act
  /-- A writer goes on. -/
  | server (a : Action Text Command)
  /-- The client asks; `known` is the counter of the row its route found. -/
  | send (known : ℕ) (limit : Option ℕ) (withData : Bool)
  | read
  | receive

/-- One step, for a client of the collection `id`. -/
def World.step (id : Text) (w : World) : Act → Option World
  | .server a => (w.server.step exec Command.script a).map fun server => { w with server }
  | .send known limit withData =>
    match w.flight with
    | some _ => none
    | none =>
      let request : SyncRequest := ⟨w.client.token, limit, withData⟩
      some { w with flight := some ⟨request, syncCollection ⟨id, known⟩ request, []⟩ }
  | .read =>
    match w.flight with
    | some ⟨request, .stmt q k, seen⟩ =>
      some { w with flight := some ⟨request, k (answer w.server.db q), seen ++ [w.server.db id]⟩ }
    | _ => none
  | .receive =>
    match w.flight with
    | some ⟨request, .done reply, seen⟩ =>
      let client := w.client.receive reply
      some { w with
        client, flight := none, exchanges := w.exchanges ++ [⟨request, reply, seen, client⟩] }
    | _ => none

/-- Limits are at least one. -/
def positiveLimit (_ : World) : Act → Prop
  | .send _ limit _ => limit ≠ some 0
  | _ => True

end Postroom.Dav
