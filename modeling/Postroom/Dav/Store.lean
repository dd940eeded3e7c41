/-
Calendars and address books: the rows of a collection, and its two writers.

A collection's `sync_seq` is its change counter. putResource and deleteResource of
packages/dav-store lock the collection row, take `sync_seq + 1`, stamp the resource
with it and append a dav_change row, all in one transaction. Here a collection stands
in one row with its resources and its change log, under its own lock.

The bytes of a resource and their encryption are left out, and so are audit rows.
An If-Match or If-None-Match header comes as `parseEtagList` reads it.
-/
import Mathlib.Algebra.GroupWithZero.Nat
import Mathlib.Data.List.Find
import Mathlib.Data.List.Nodup
import Postroom.Lib.Transactions

set_option autoImplicit false

namespace Postroom.Dav

open Lib List

abbrev Text := List Char

/-! ## 1. Rows -/

structure ResourceMeta where
  id : ℕ
  name : String
  uid : String
  componentType : Option String
  etag : String
  size : ℕ
  modSeq : ℕ
  deriving DecidableEq, Repr

structure Change where
  name : String
  deleted : Bool
  seq : ℕ
  deriving DecidableEq, Repr

/-- A dav_collection row with the dav_resource and dav_change rows that refer to it. -/
structure CollectionRow where
  syncSeq : ℕ
  resources : List ResourceMeta
  changes : List Change
  deriving DecidableEq, Repr

abbrev Db := Table Text CollectionRow

def CollectionRow.row (c : CollectionRow) (name : String) : Option ResourceMeta :=
  c.resources.find? fun r => r.name = name

/-- The primary key and the unique indexes on (collection_id, name) and
(collection_id, uid), for a row that is not in the table. -/
def CollectionRow.accepts (c : CollectionRow) (row : ResourceMeta) : Bool :=
  c.resources.all fun r => r.id ≠ row.id ∧ r.name ≠ row.name ∧ r.uid ≠ row.uid

/-- The same for a row that takes the place of the one with its id. -/
def CollectionRow.acceptsUpdate (c : CollectionRow) (row : ResourceMeta) : Bool :=
  c.resources.any (fun r => r.id = row.id)
    ∧ c.resources.all fun r => r.id = row.id ∨ r.name ≠ row.name ∧ r.uid ≠ row.uid

/-- The largest `bigint`. -/
def INT8_MAX : ℕ := 2 ^ 63 - 1

/-! ## 2. Statements -/

inductive Stmt
  | lock (collectionId : Text)
  | findByName (collectionId : Text) (name : String)
  | findByUid (collectionId : Text) (uid : String)
  | countResources (collectionId : Text)
  | createResource (collectionId : Text) (row : ResourceMeta)
  | updateResource (collectionId : Text) (row : ResourceMeta)
  | deleteResource (collectionId : Text) (id : ℕ)
  | setSyncSeq (collectionId : Text) (syncSeq : ℕ)
  | createChange (collectionId : Text) (change : Change)

@[reducible] def Stmt.Result : Stmt → Type
  | .lock _ => Option ℕ
  | .findByName .. => Option ResourceMeta
  | .findByUid .. => Option String
  | .countResources _ => ℕ
  | _ => Unit

/-- The collection's row is rewritten. -/
def rewrites (collectionId : Text) (c : CollectionRow) :
    Option (Effect Text CollectionRow Text Unit) :=
  some ⟨(), Table.single collectionId c, []⟩

/-- A statement on a view; it is `none` where PostgreSQL raises an error: a unique
index, a foreign key, a number out of range, or a row to write that is not there. -/
def exec (_ids : List Text) (v : Db) : (s : Stmt) → Text →
    Option (Effect Text CollectionRow Text s.Result)
  | .lock id, _ => some ⟨(v id).map (·.syncSeq), Table.empty, if (v id).isSome then [id] else []⟩
  | .findByName id name, _ => reading ((v id).bind fun c => c.row name)
  | .findByUid id uid, _ =>
    reading ((v id).bind fun c => (c.resources.find? fun r => r.uid = uid).map (·.name))
  | .countResources id, _ => reading ((v id).elim 0 fun c => c.resources.length)
  | .createResource id row, _ =>
    (v id).bind fun c =>
      if c.accepts row then rewrites id { c with resources := c.resources ++ [row] } else none
  | .updateResource id row, _ =>
    (v id).bind fun c =>
      if c.acceptsUpdate row then
        rewrites id
          { c with resources := c.resources.map fun r => if r.id = row.id then row else r }
      else none
  | .deleteResource id resourceId, _ =>
    (v id).bind fun c =>
      if c.resources.any fun r => r.id = resourceId then
        rewrites id { c with resources := c.resources.filter fun r => r.id ≠ resourceId }
      else none
  | .setSyncSeq id seq, _ =>
    (v id).bind fun c => if seq ≤ INT8_MAX then rewrites id { c with syncSeq := seq } else none
  | .createChange id change, _ =>
    (v id).bind fun c =>
      if c.changes.all fun ch => ch.seq ≠ change.seq then
        rewrites id { c with changes := c.changes ++ [change] }
      else none

/-! ## 3. Preconditions (packages/dav-proto/src/http.ts) -/

structure EntityTag where
  weak : Bool
  opaqueValue : String

/-- What `parseEtagList` makes of a header. -/
inductive EtagList
  | star
  | tags (list : List EntityTag)
  | malformed

structure Preconditions where
  ifMatch : Option EtagList := none
  ifNoneMatch : Option EtagList := none

/-- `DavRequestError(400, 'malformed entity-tag list')`, or what the database throws. -/
inductive DavError
  | malformedEtagList

/-- `list === '*' || list.some(...)`, for a resource that is there. -/
def EtagList.hits (list : EtagList) (strong : Bool) (current : String) : Except DavError Bool :=
  match list with
  | .star => .ok true
  | .tags ts => .ok (ts.any fun t => (!strong || !t.weak) && t.opaqueValue = current)
  | .malformed => .error .malformedEtagList

/-- `evaluatePreconditions(p, current, method) === null` for PUT and DELETE. -/
def evaluatePreconditions (p : Preconditions) (current : Option String) : Except DavError Bool := do
  let ok ← match p.ifMatch with
    | none => pure true
    | some .malformed => throw .malformedEtagList
    | some list => match current with
      | none => pure false
      | some tag => list.hits true tag
  if ok then
    match p.ifNoneMatch with
    | none => pure true
    | some .malformed => throw .malformedEtagList
    | some list => match current with
      | none => pure true
      | some tag => return !(← list.hits false tag)
  else pure false

/-! ## 4. Writers -/

/-- A script of these statements. -/
abbrev Script (α : Type) := Txn Stmt Stmt.Result DavError α

/-- `Txn.exec` at these statements, so that a script names them by their last word. -/
def sql (s : Stmt) : Script s.Result := Txn.exec s

inductive PutOutcome
  | created (etag : String)
  | updated (etag : String)
  | preconditionFailed
  | uidConflict (existingName : String)
  | collectionGone
  | collectionFull
  deriving DecidableEq, Repr

structure PutInput where
  name : String
  uid : String
  componentType : Option String
  size : ℕ
  preconditions : Preconditions

/-- The two random values of a put: `newEtag()` and `randomUUID()`. -/
structure Drawn where
  etag : String
  id : ℕ

/-- The row, the counter and the change log, once nothing stands against the put. -/
def writeResource (collectionId : Text) (input : PutInput) (drawn : Drawn) (seq : ℕ)
    (existing : Option ResourceMeta) :
    Script PutOutcome := do
  let next := seq + 1
  let common : ℕ → ResourceMeta := fun id =>
    { id, name := input.name, uid := input.uid, componentType := input.componentType,
      etag := drawn.etag,
      size := input.size, modSeq := next }
  match existing with
  | none => sql (.createResource collectionId (common drawn.id))
  | some row => sql (.updateResource collectionId (common row.id))
  sql (.setSyncSeq collectionId next)
  sql (.createChange collectionId ⟨input.name, false, next⟩)
  pure (if existing.isNone then .created drawn.etag else .updated drawn.etag)

/-- `existing === null && count >= maxResourcesPerCollection`. -/
def isFull (maxResourcesPerCollection : ℕ) (collectionId : Text) (existing : Option ResourceMeta) :
    Script Bool :=
  match existing with
  | none => do
      let n ← sql (.countResources collectionId)
      pure (maxResourcesPerCollection ≤ n)
  | some _ => pure false

def putResource (maxResourcesPerCollection : ℕ) (collectionId : Text) (input : PutInput)
    (drawn : Drawn) :
    Script PutOutcome := do
  match ← sql (.lock collectionId) with
  | none => pure .collectionGone
  | some seq =>
    let existing ← sql (.findByName collectionId input.name)
    match evaluatePreconditions input.preconditions (existing.map (·.etag)) with
    | .error e => .fail e
    | .ok false => pure .preconditionFailed
    | .ok true =>
      match existing.filter fun r => r.uid ≠ input.uid with
      | some r => pure (.uidConflict r.name)
      | none =>
        let holder ← sql (.findByUid collectionId input.uid)
        match holder.filter fun n => n ≠ input.name with
        | some n => pure (.uidConflict n)
        | none =>
          if ← isFull maxResourcesPerCollection collectionId existing then pure .collectionFull
          else writeResource collectionId input drawn seq existing

inductive DeleteOutcome
  | deleted
  | notFound
  | preconditionFailed
  deriving DecidableEq, Repr

def deleteResource (collectionId : Text) (name : String) (preconditions : Preconditions) :
    Script DeleteOutcome := do
  match ← sql (.lock collectionId) with
  | none => pure .notFound
  | some seq =>
    match ← sql (.findByName collectionId name) with
    | none => pure .notFound
    | some existing =>
      match evaluatePreconditions preconditions (some existing.etag) with
      | .error e => .fail e
      | .ok false => pure .preconditionFailed
      | .ok true =>
        let next := seq + 1
        sql (.deleteResource collectionId existing.id)
        sql (.setSyncSeq collectionId next)
        sql (.createChange collectionId ⟨name, true, next⟩)
        pure .deleted

/-- What the rest of the world asks of the store. -/
inductive Command
  | put (maxResourcesPerCollection : ℕ) (collectionId : Text) (input : PutInput) (drawn : Drawn)
  | delete (collectionId : Text) (name : String) (preconditions : Preconditions)

def Command.script : Command → Script Unit
  | .put limit id input drawn => putResource limit id input drawn >>= fun _ => pure ()
  | .delete id name preconditions => deleteResource id name preconditions >>= fun _ => pure ()

/-! ## 5. What a collection keeps -/

/-- The last change of a name. -/
def lastChange (changes : List Change) (name : String) : Option Change :=
  (changes.filter fun ch => ch.name = name).getLast?

/-- The log explains the rows: a resource is there, stamped with its last change,
unless that change deleted it. -/
structure CollectionRow.Wf (c : CollectionRow) : Prop where
  names : (c.resources.map (·.name)).Nodup
  ids : (c.resources.map (·.id)).Nodup
  sorted : c.changes.Pairwise fun a b => a.seq < b.seq
  bounds : ∀ ch ∈ c.changes, 1 ≤ ch.seq ∧ ch.seq ≤ c.syncSeq
  int8 : c.syncSeq ≤ INT8_MAX
  explained : ∀ name, (c.row name).map (·.modSeq)
    = (lastChange c.changes name).bind fun ch => if ch.deleted then none else some ch.seq

/-- `c'` is `c` some changes later. -/
structure Later (c c' : CollectionRow) : Prop where
  seq_le : c.syncSeq ≤ c'.syncSeq
  log : ∃ new, c'.changes = c.changes ++ new ∧ (∀ ch ∈ new, c.syncSeq < ch.seq)
    ∧ ∀ name, (∀ ch ∈ new, ch.name ≠ name) → c'.row name = c.row name

theorem Later.refl (c : CollectionRow) : Later c c :=
  ⟨Nat.le_refl _, [], (append_nil _).symm, nofun, fun _ _ => rfl⟩

theorem Later.trans {a b c : CollectionRow} (h1 : Later a b) (h2 : Later b c) : Later a c := by
  obtain ⟨hseq1, new1, hlog1, hnew1, hrow1⟩ := h1
  obtain ⟨hseq2, new2, hlog2, hnew2, hrow2⟩ := h2
  refine ⟨Nat.le_trans hseq1 hseq2, new1 ++ new2, ?_, ?_, ?_⟩
  · rw [hlog2, hlog1, append_assoc]
  · exact forall_mem_append.mpr ⟨hnew1, fun ch hch => Nat.lt_of_le_of_lt hseq1 (hnew2 ch hch)⟩
  · intro name hname
    rw [hrow2 name fun ch hch => hname ch (mem_append_right _ hch),
      hrow1 name fun ch hch => hname ch (mem_append_left _ hch)]

theorem lastChange_concat (changes : List Change) (ch : Change) (name : String) :
    lastChange (changes ++ [ch]) name = if ch.name = name then some ch
    else lastChange changes name := by
  unfold lastChange
  rw [filter_append]
  by_cases h : ch.name = name
  · simp [h]
  · simp [h]

variable {resources : List ResourceMeta} {name : String} {s : Stmt}
  {Q : s.Result → List Text → Db → Prop}
variable {deleted : Bool}

/-- The rows of one name have become what one change says. -/
structure OneChange (c : CollectionRow) (name : String) (deleted : Bool)
    (resources : List ResourceMeta) : Prop where
  names : (resources.map (·.name)).Nodup
  ids : (resources.map (·.id)).Nodup
  other : ∀ n, n ≠ name → resources.find? (fun r => r.name = n) = c.row n
  changed : (resources.find? fun r => r.name = name).map (·.modSeq)
    = if deleted then none else some (c.syncSeq + 1)

theorem CollectionRow.Wf.change {c : CollectionRow} (h : c.Wf)
    (hint8 : c.syncSeq + 1 ≤ INT8_MAX) (hone : OneChange c name deleted resources) :
    (CollectionRow.mk (c.syncSeq + 1) resources (c.changes ++ [⟨name, deleted, c.syncSeq + 1⟩])).Wf
      ∧ Later c ⟨c.syncSeq + 1, resources, c.changes ++ [⟨name, deleted, c.syncSeq + 1⟩]⟩ := by
  refine ⟨⟨hone.names, hone.ids, ?_, ?_, hint8, ?_⟩,
    ⟨Nat.le_succ _, [⟨name, deleted, c.syncSeq + 1⟩], rfl, ?_, ?_⟩⟩
  · refine pairwise_append.mpr ⟨h.sorted, pairwise_singleton _ _, ?_⟩
    intro a ha b hb
    have hbound := h.bounds a ha
    rw [mem_singleton.mp hb]
    dsimp only
    omega
  · intro ch hch
    dsimp only at hch ⊢
    rcases mem_append.mp hch with hch | hch
    · have hbound := h.bounds ch hch
      omega
    · rw [mem_singleton.mp hch]
      dsimp only
      omega
  · intro n
    rw [lastChange_concat, CollectionRow.row]
    by_cases hn : name = n
    · subst hn
      rw [if_pos rfl, hone.changed]
      rfl
    · rw [if_neg hn, hone.other n fun h => hn h.symm]
      exact h.explained n
  · intro ch hch
    rw [mem_singleton.mp hch]
    exact Nat.lt_succ_self _
  · intro n hn
    exact hone.other n fun h => hn _ (mem_singleton_self _) h.symm

/-! ## 6. The writers, replayed alone -/

/-- Every collection is well formed. -/
def Good (db : Db) : Prop := ∀ id c, db id = some c → c.Wf

/-- Every collection is still there, some changes later. -/
def Follows (db db' : Db) : Prop := ∀ id c, db id = some c → ∃ c', db' id = some c' ∧ Later c c'

theorem Follows.refl (db : Db) : Follows db db := fun _ c h => ⟨c, h, Later.refl c⟩

/-- What a script is held to on a view. -/
abbrev Holds {α : Type} (Q : α → List Text → Db → Prop) (p : Script α) (ks : List Text) (cur : Db) :
    Prop :=
  p.wp exec (fun id => id) (fun _ _ => True) Q ks cur

variable {α β : Type} {ks : List Text} {cur : Db} {id : Text} {c : CollectionRow}
variable {a : α} {r : ResourceMeta} {input : PutInput} {drawn : Drawn} {limit : ℕ}

theorem Holds.bind {Q : β → List Text → Db → Prop} {p : Script α} {f : α → Script β}
    (h : Holds (fun a ks' cur' => Holds Q (f a) ks' cur') p ks cur) : Holds Q (p >>= f) ks cur :=
  Txn.wp_bind h

theorem holds_pure {Q : α → List Text → Db → Prop} (h : Q a ks cur) :
    Holds Q (pure a : Script α) ks cur := h

theorem holds_lock {Q : Option ℕ → List Text → Db → Prop} (hnone : Q none ks cur)
    (hsome : ∀ c, cur id = some c → Q (some c.syncSeq) (ks ++ [id]) cur) :
    Holds Q (sql (.lock id)) ks cur := by
  intro ids v new e _ he hv
  injection he with he
  subst he
  refine ⟨nofun, ?_⟩
  show Q _ _ (Table.empty.over cur)
  cases hid : v id with
  | none => simpa using hnone
  | some c =>
    rw [hid] at hv
    have hcur : v id = cur id := hv id (by simp)
    exact hsome c (hcur ▸ hid)

theorem holds_findByName {Q : Option ResourceMeta → List Text → Db → Prop} (hk : id ∈ ks)
    (hc : cur id = some c) (h : Q (c.row name) ks cur) :
    Holds Q (sql (.findByName id name)) ks cur := by
  intro ids v new e _ he hv
  have hview : v id = some c := (hv id (mem_append_left _ hk)).trans hc
  rw [exec, hview] at he
  cases he
  rw [append_nil, Table.empty_over]
  exact ⟨nofun, h⟩

/-- What a read answers does not matter here. -/
theorem holds_any (hs : ∀ ids v new e, exec ids v s new = some e → e.writes = Table.empty
      ∧ e.locks = [])
    (h : ∀ r, Q r ks cur) : Holds Q (sql s) ks cur := by
  intro ids v new e _ he _
  obtain ⟨hw, hl⟩ := hs ids v new e he
  rw [hw, hl, append_nil, Table.empty_over]
  exact ⟨nofun, h _⟩

theorem single_over_same (db : Db) (id : Text) (c : CollectionRow) :
    (Table.single id c).over db id = some c := by
  rw [Table.single_over, if_pos rfl]

theorem single_over_single (db : Db) (id : Text) (c c' : CollectionRow) :
    (Table.single id c').over ((Table.single id c).over db) = (Table.single id c').over db := by
  funext i
  simp only [Table.single_over]
  split <;> rfl

/-- A statement that rewrites the row under its lock, if it may. -/
theorem holds_rewrite {ok : Prop} [Decidable ok] {r : s.Result} {c' : CollectionRow} (hk : id ∈ ks)
    (hc : cur id = some c)
    (hexec : ∀ ids v new, v id = some c → exec ids v s new = if ok then some
      ⟨r, Table.single id c', []⟩ else none)
    (h : ok → Q r ks ((Table.single id c').over cur)) : Holds Q (sql s) ks cur := by
  intro ids v new e _ he hv
  rw [hexec ids v new ((hv id (mem_append_left _ hk)).trans hc)] at he
  split_ifs at he with hok
  cases he
  rw [append_nil]
  refine ⟨fun i hi => ?_, h hok⟩
  rwa [Table.eq_of_single hi]

/-- The counter and the log are written last: what the resources have become by then
is one change. -/
theorem holds_finish {db : Db} (hgood : Good db) (hc : db id = some c)
    (hk : id ∈ ks) (hone : OneChange c name deleted resources)
    (hcur : cur = (Table.single id { c with resources }).over db) :
    Holds (fun _ _ db' => Good db' ∧ Follows db db')
      (sql (.setSyncSeq id (c.syncSeq + 1)) >>= fun _ =>
        sql (.createChange id ⟨name, deleted, c.syncSeq + 1⟩) >>= fun _ =>
        (pure a : Script α)) ks cur := by
  subst hcur
  refine Holds.bind (holds_rewrite hk (single_over_same _ _ _)
    (fun ids v new hv => by rw [exec, hv]; rfl) fun hint8 => ?_)
  rw [single_over_single]
  refine Holds.bind (holds_rewrite hk (single_over_same _ _ _)
    (fun ids v new hv => by rw [exec, hv]; rfl) fun _ => ?_)
  rw [single_over_single]
  obtain ⟨hwf, hlater⟩ := (hgood id c hc).change hint8 hone
  refine holds_pure ⟨fun i c' hi => ?_, fun i c' hi => ?_⟩
  · rw [Table.single_over] at hi
    split at hi
    · rw [← Option.some.inj hi]
      exact hwf
    · exact hgood i c' hi
  · rw [Table.single_over]
    split
    · rename_i hid
      rw [hid, hc, Option.some.injEq] at hi
      exact ⟨_, rfl, hi ▸ hlater⟩
    · exact ⟨c', hi, Later.refl c'⟩


/-- The row under a name is in the list, and it is the only one. -/
theorem CollectionRow.row_spec (h : c.row name = some r) : r ∈ c.resources ∧ r.name = name := by
  refine ⟨mem_of_find?_eq_some h, ?_⟩
  have hname := find?_some h
  simpa using hname

theorem CollectionRow.Wf.row_of_mem (h : c.Wf) (hr : r ∈ c.resources) : c.row r.name = some r := by
  obtain ⟨r', hr'⟩ : ∃ r', c.row r.name = some r' := by
    rw [← Option.isSome_iff_exists, CollectionRow.row, find?_isSome]
    exact ⟨r, hr, by simp⟩
  obtain ⟨hmem, hname⟩ := CollectionRow.row_spec hr'
  rw [hr', inj_on_of_nodup_map h.names hmem hr hname]

/-- A row takes the place of the one with its name. -/
theorem CollectionRow.Wf.replace (h : c.Wf) {old row : ResourceMeta}
    (hrow : c.row row.name = some old) (hid : row.id = old.id) (hseq : row.modSeq = c.syncSeq + 1)
    (hdef : resources = c.resources.map fun r => if r.id = row.id then row else r) :
    OneChange c row.name false resources := by
  obtain ⟨hold, hname⟩ := CollectionRow.row_spec hrow
  have honly : ∀ r ∈ c.resources, r.id = row.id → r = old := fun r hr hr' =>
    inj_on_of_nodup_map h.ids hr hold (hr'.trans hid)
  have hkeeps : ∀ r ∈ c.resources,
      (if r.id = row.id then row else r).name = r.name
        ∧ (if r.id = row.id then row else r).id = r.id := by
    intro r hr
    split
    · rename_i hr'
      rw [honly r hr hr', hname, hid]
      exact ⟨rfl, rfl⟩
    · exact ⟨rfl, rfl⟩
  have hfind : ∀ n, resources.find? (fun r => r.name = n)
      = (c.row n).map fun r => if r.id = row.id then row else r := by
    intro n
    rw [hdef, find?_map, CollectionRow.row]
    refine congrArg _ (find?_congr fun r hr => ?_)
    simp only [Function.comp, (hkeeps r hr).1]
  refine ⟨?_, ?_, fun n hn => ?_, ?_⟩
  · rw [hdef, map_map]
    exact (map_congr_left fun r hr => (hkeeps r hr).1) ▸ h.names
  · rw [hdef, map_map]
    exact (map_congr_left fun r hr => (hkeeps r hr).2) ▸ h.ids
  · rw [hfind]
    cases hfound : c.row n with
    | none => rfl
    | some r =>
      obtain ⟨hr, hrn⟩ := CollectionRow.row_spec hfound
      rw [Option.map_some, if_neg]
      intro hr'
      rw [honly r hr hr', hname] at hrn
      exact hn hrn.symm
  · rw [hfind, hrow, Option.map_some, if_pos hid.symm, Option.map_some, hseq]
    rfl

theorem holds_writeResource (hgood : Good cur) (hc : cur id = some c) (hk : id ∈ ks) :
    Holds (fun _ _ db' => Good db' ∧ Follows cur db')
      (writeResource id input drawn c.syncSeq (c.row input.name)) ks cur := by
  have hwf := hgood id c hc
  cases hrow : c.row input.name with
  | none =>
    refine Holds.bind (holds_rewrite hk hc (fun ids v new hv => by rw [exec, hv]; rfl)
      fun haccepts => ?_)
    simp only [CollectionRow.accepts, all_eq_true, decide_eq_true_eq] at haccepts
    have hnew {α : Type} {f : ResourceMeta → α} {row : ResourceMeta}
        (hnodup : (c.resources.map f).Nodup)
        (hne : ∀ r ∈ c.resources, f r ≠ f row) : ((c.resources ++ [row]).map f).Nodup := by
      rw [map_append, nodup_append]
      refine ⟨hnodup, pairwise_singleton _ _, ?_⟩
      intro n hn n' hn'
      obtain ⟨r, hr, rfl⟩ := mem_map.mp hn
      rw [mem_singleton.mp hn']
      exact hne r hr
    refine holds_finish hgood hc hk ⟨?_, ?_, ?_, ?_⟩ rfl
    · exact hnew hwf.names fun r hr => (haccepts r hr).2.1
    · exact hnew hwf.ids fun r hr => (haccepts r hr).1
    · intro n hn
      rw [find?_append, CollectionRow.row]
      simp [hn.symm]
    · rw [find?_append]
      rw [CollectionRow.row] at hrow
      simp [hrow]
  | some old =>
    refine Holds.bind (holds_rewrite hk hc (fun ids v new hv => by rw [exec, hv]; rfl) fun _ => ?_)
    let row : ResourceMeta :=
      ⟨old.id, input.name, input.uid, input.componentType, drawn.etag, input.size, c.syncSeq + 1⟩
    have hrow' : c.row row.name = some old := hrow
    exact holds_finish hgood hc hk (hwf.replace hrow' rfl rfl rfl) rfl

theorem holds_isFull {existing : Option ResourceMeta} {Q : Bool → List Text → Db → Prop}
    (h : ∀ full, Q full ks cur) : Holds Q (isFull limit id existing) ks cur := by
  cases existing with
  | some r => exact h false
  | none =>
    refine Holds.bind (holds_any (fun _ _ _ e he => ?_) fun n => h _)
    injection he with he
    subst he
    exact ⟨rfl, rfl⟩

theorem holds_putResource (hgood : Good cur) :
    Holds (fun _ _ db' => Good db' ∧ Follows cur db')
    (putResource limit id input drawn) ks cur := by
  have hsame : Good cur ∧ Follows cur cur := ⟨hgood, Follows.refl cur⟩
  refine Holds.bind (holds_lock hsame fun c hc => ?_)
  have hk : id ∈ ks ++ [id] := by simp
  refine Holds.bind (holds_findByName hk hc ?_)
  cases evaluatePreconditions input.preconditions ((c.row input.name).map (·.etag)) with
  | error e => trivial
  | ok proceed =>
    cases proceed with
    | false => exact hsame
    | true =>
      cases (c.row input.name).filter fun r => r.uid ≠ input.uid with
      | some r => exact hsame
      | none =>
        refine Holds.bind (holds_any (fun _ _ _ e he => ?_) fun holder => ?_)
        · injection he with he
          subst he
          exact ⟨rfl, rfl⟩
        cases holder.filter fun n => n ≠ input.name with
        | some n => exact hsame
        | none =>
          refine Holds.bind (holds_isFull fun full => ?_)
          split
          · exact hsame
          · exact holds_writeResource hgood hc hk

theorem holds_deleteResource {preconditions : Preconditions} (hgood : Good cur) :
    Holds (fun _ _ db' => Good db' ∧ Follows cur db')
    (deleteResource id name preconditions) ks cur := by
  have hsame : Good cur ∧ Follows cur cur := ⟨hgood, Follows.refl cur⟩
  refine Holds.bind (holds_lock hsame fun c hc => ?_)
  have hk : id ∈ ks ++ [id] := by simp
  have hwf := hgood id c hc
  refine Holds.bind (holds_findByName hk hc ?_)
  cases hrow : c.row name with
  | none => exact hsame
  | some old =>
    obtain ⟨hold, hname⟩ := CollectionRow.row_spec hrow
    dsimp only
    cases evaluatePreconditions preconditions (some old.etag) with
    | error e => trivial
    | ok proceed =>
      cases proceed with
      | false => exact hsame
      | true =>
        refine Holds.bind (holds_rewrite hk hc (fun ids v new hv => by rw [exec, hv]; rfl) fun _ =>
          ?_)
        have honly : ∀ r ∈ c.resources, r.id = old.id ↔ r.name = name := by
          intro r hr
          constructor
          · intro hid
            rw [inj_on_of_nodup_map hwf.ids hr hold hid, hname]
          · intro hn
            rw [inj_on_of_nodup_map hwf.names hr hold (hn.trans hname.symm)]
        refine holds_finish hgood hc hk ⟨?_, ?_, ?_, ?_⟩ rfl
        · exact hwf.names.sublist (filter_sublist.map _)
        · exact hwf.ids.sublist (filter_sublist.map _)
        · intro n hn
          rw [find?_filter, CollectionRow.row]
          refine find?_congr fun r hr => ?_
          by_cases hrn : r.name = n
          · have hid : r.id ≠ old.id := fun hid => hn (hrn.symm.trans ((honly r hr).mp hid))
            simp [hrn, hid]
          · simp [hrn]
        · have hgone : (c.resources.filter fun r => r.id ≠ old.id).find? (fun r => r.name = name)
              = none := by
            rw [find?_eq_none]
            intro r hr
            obtain ⟨hr, hid⟩ := mem_filter.mp hr
            simp only [ne_eq, decide_not, Bool.not_eq_true', decide_eq_false_iff_not,
              honly r hr] at hid
            simpa using hid
          rw [hgone]
          rfl

/-- **Every writer keeps the log and the rows together.** -/
theorem holds_command (command : Command) (hgood : Good cur) :
    Holds (fun _ _ db' => Good db' ∧ Follows cur db') command.script ks cur := by
  cases command with
  | put limit id input drawn =>
    exact Holds.bind (Txn.wp_mono (holds_putResource hgood) fun _ _ _ h => h)
  | delete id name preconditions =>
    exact Holds.bind (Txn.wp_mono (holds_deleteResource hgood) fun _ _ _ h => h)

/-! ## 7. Any number of writers at once -/

abbrev DavServer := Server Text CollectionRow Text Stmt Stmt.Result DavError

abbrev DavServer.Serial (w : DavServer) : Prop :=
  Lib.Serial exec (fun id => id) (fun _ _ => True) Command.script Good w

/-- Whatever a server does, its collections are well formed and only get later. -/
theorem DavServer.Serial.follows {w w' : DavServer} {a : Action Text Command}
    (h : DavServer.Serial w)
    (hstep : w.step exec Command.script a = some w') :
    DavServer.Serial w' ∧ Follows w.db w'.db := by
  have hscript : ∀ (c : Command) (db : Db), Good db →
      c.script.wp exec (fun id => id) (fun _ _ => True) (fun _ _ db' => Good db') [] db :=
    fun c db hdb => Txn.wp_mono (holds_command c hdb) fun _ _ _ h => h.1
  have hok : onStatements (fun _ _ => True) w a := by
    cases a with
    | start c => trivial
    | advance i new => exact fun _ _ _ _ _ => trivial
    | abort i => trivial
  obtain ⟨hserial, hdb⟩ := Lib.Serial.step hscript h hok hstep
  refine ⟨hserial, ?_⟩
  rcases hdb with hdb | ⟨c, hc⟩
  · rw [hdb]
    exact Follows.refl _
  · obtain ⟨-, -, hfollows⟩ := hc.wp (holds_command c h.good)
    exact hfollows

end Postroom.Dav
