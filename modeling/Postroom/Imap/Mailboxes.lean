/-
`apps/imap/src/store.ts` (`createMailbox`, `deleteMailbox`, `renameMailbox`,
`createParents`) and the handlers of CREATE, DELETE and RENAME in
`apps/imap/src/session.ts`: the mailboxes of one account.

The account's rows of the table `mailbox` carry its constraints, the primary key
and UNIQUE (account_id, name), so an INSERT or UPDATE that breaks one has no
result. A row is its id, name and special use; ids are given out in order.

SQL and JavaScript measure a name differently: `left(name, n)` takes `n`
characters and `name.length` counts UTF-16 units. The statements below keep the
two apart, as `List.take` and `utf16Length`.
-/
import Mathlib.Data.List.Nodup
import Postroom.Imap.Names

set_option autoImplicit false

namespace Postroom.Imap.Mailboxes

open Lib List
open Mime (Text)

inductive SpecialUse where
  | inbox
  | sent
  | drafts
  | trash
  | junk
  | archive
  | rejects
  deriving DecidableEq, Repr

structure Mailbox where
  id : ℕ
  name : Text
  specialUse : Option SpecialUse
  deriving DecidableEq, Repr

/-! ## 1. The table -/

/-- The rows of an account, oldest first. -/
structure Account where
  rows : List Mailbox
  nextId : ℕ
  fresh : ∀ m ∈ rows, m.id < nextId
  ids : (rows.map Mailbox.id).Nodup
  names : (rows.map Mailbox.name).Nodup

namespace Account

/-- The names in use. -/
def nameList (a : Account) : List Text := a.rows.map Mailbox.name

/-- `findMailbox`. -/
def find (a : Account) (name : Text) : Option Mailbox := a.rows.find? fun m => m.name = name

/-- INSERT … ON CONFLICT (account_id, name) DO NOTHING RETURNING. -/
def insert (a : Account) (name : Text) (use : Option SpecialUse) : Account × Option Mailbox :=
  if h : name ∈ a.rows.map Mailbox.name then (a, none)
  else
    let row : Mailbox := ⟨a.nextId, name, use⟩
    ({ rows := a.rows ++ [row]
       nextId := a.nextId + 1
       fresh := by
         intro m hm
         rcases mem_append.mp hm with hold | hnew
         · exact Nat.lt_succ_of_lt (a.fresh m hold)
         · rw [mem_singleton.mp hnew]
           exact Nat.lt_succ_self _
       ids := by
         rw [map_append, map_singleton, ← concat_eq_append, nodup_concat]
         refine ⟨fun hmem => ?_, a.ids⟩
         obtain ⟨m, hm, hid⟩ := mem_map.mp hmem
         exact absurd (a.fresh m hm) (by rw [hid]; exact Nat.lt_irrefl _)
       names := by
         rw [map_append, map_singleton, ← concat_eq_append, nodup_concat]
         exact ⟨h, a.names⟩ },
      some row)

/-- A row with this id gets this name. -/
def setName (id : ℕ) (name : Text) (m : Mailbox) : Mailbox :=
  if m.id = id then { m with name := name } else m

@[simp] theorem setName_id (id : ℕ) (name : Text) (m : Mailbox) :
    (setName id name m).id = m.id := by
  unfold setName
  split <;> rfl

/-- UPDATE mailbox SET name = … WHERE id = …; `none` where the name is taken. -/
def updateName (a : Account) (id : ℕ) (name : Text) : Option Account :=
  if h : ((a.rows.map (setName id name)).map Mailbox.name).Nodup then
    some
      { rows := a.rows.map (setName id name)
        nextId := a.nextId
        fresh := by
          intro m hm
          obtain ⟨m', hm', rfl⟩ := mem_map.mp hm
          rw [setName_id]
          exact a.fresh m' hm'
        ids := by
          have hsame : Mailbox.id ∘ setName id name = Mailbox.id := funext (setName_id id name)
          rw [map_map, hsame]
          exact a.ids
        names := h }
  else none

/-- DELETE FROM mailbox WHERE id = …. -/
def remove (a : Account) (id : ℕ) : Account where
  rows := a.rows.filter fun m => m.id ≠ id
  nextId := a.nextId
  fresh m hm := a.fresh m (mem_of_mem_filter hm)
  ids := a.ids.sublist (filter_sublist.map _)
  names := a.names.sublist (filter_sublist.map _)

/-- An account with no mailboxes. -/
def empty : Account := ⟨[], 0, nofun, nodup_nil, nodup_nil⟩

end Account

/-- `DEFAULT_MAILBOXES` of `packages/db/src/seeding.ts`. -/
def defaultMailboxes : List (Text × Option SpecialUse) :=
  [("INBOX".toList, some .inbox), ("Sent".toList, some .sent), ("Drafts".toList, some .drafts),
    ("Trash".toList, some .trash), ("Junk".toList, some .junk), ("Archive".toList, some .archive),
    ("Rejects".toList, some .rejects), ("Newsletters".toList, none), ("Updates".toList, none),
    ("Receipts".toList, none), ("Notifications".toList, none)]

/-- The account the seed makes. -/
def seeded : Account := defaultMailboxes.foldl (fun a mb => (a.insert mb.1 mb.2).1) Account.empty

/-! ## 2. The store -/

/-- The parents of a name, created where they are not there; those in `skip` are left alone. -/
def createParents (a : Account) (name : Text) (skip : List Text) : Account :=
  (parentsOf name).foldl (fun a p => if p ∈ skip then a else (a.insert p none).1) a

/-- `none` is 'exists'; what was created on the way is rolled back. -/
def createMailbox (a : Account) (name : Text) (specialUse : Option SpecialUse) :
    Option (Account × Mailbox) :=
  let parents := (parentsOf name).foldl (fun a p => (a.insert p none).1) a
  match parents.insert name specialUse with
  | (_, none) => none
  | (a', some row) => some (a', row)

/-- `left(name, ${parent.length + 1}) = ${parent + '/'}`. -/
def sqlChildOf (parent : Text) (m : Mailbox) : Bool :=
  m.name.take (utf16Length parent + 1) = parent ++ ['/']

inductive DeleteResult where
  | nonexistent
  | inbox
  | special
  | children
  | ok
  deriving DecidableEq, Repr

def deleteMailbox (a : Account) (name : Text) : DeleteResult × Account :=
  match a.find name with
  | none => (.nonexistent, a)
  | some mb =>
    if mb.name = inbox then (.inbox, a)
    else if mb.specialUse ≠ none then (.special, a)
    else if 0 < a.rows.countP (sqlChildOf name) then (.children, a)
    else (.ok, a.remove mb.id)

inductive RenameResult where
  | nonexistent
  | exists_
  | intoSelf
  | ok
  deriving DecidableEq, Repr

/-- RFC 3501 §6.3.6: INBOX's messages move to a new mailbox; INBOX stays. -/
def renameInbox (a : Account) (to_ : Text) : RenameResult × Account :=
  match (createParents a to_ []).insert to_ none with
  | (_, none) => (.exists_, a)
  | (a', some _) => (.ok, a')

def moves (from_ : Text) (m : Mailbox) : Bool := m.name = from_ || sqlChildOf from_ m

/-- The rows that move, each with its name afterwards. -/
def renamed (a : Account) (from_ to_ : Text) : List (Mailbox × Text) :=
  (a.rows.filter (moves from_)).map fun m => (m, to_ ++ dropUnits m.name (utf16Length from_))

def updateNames (a : Account) : List (Mailbox × Text) → Option Account
  | [] => some a
  | (m, after) :: rest => (a.updateName m.id after).bind fun a' => updateNames a' rest

/-- `none` is an error of the database, after which nothing has changed. -/
def renameMailbox (a : Account) (from_ to_ : Text) : Option (RenameResult × Account) :=
  if from_ = to_ then some (.exists_, a)
  else if from_ ≠ inbox ∧ isSelfOrChild to_ from_ = true then some (.intoSelf, a)
  else match a.find from_ with
  | none => some (.nonexistent, a)
  | some _ =>
    if from_ = inbox then some (renameInbox a to_)
    else
      let afters := (renamed a from_ to_).map Prod.snd
      if 0 < a.rows.countP (fun m => m.name ∈ afters) then some (.exists_, a)
      else (updateNames a (renamed a from_ to_)).map fun a' => (.ok, createParents a' to_ afters)

/-! ## 3. The session -/

inductive ResponseCode where
  | alreadyExists
  | cannot
  | useAttr
  | nonexistent
  | hasChildren
  | closed
  deriving DecidableEq, Repr

structure Outcome where
  ok : Bool
  text : Text
  code : Option ResponseCode
  deriving DecidableEq, Repr

def ok (text : String) : Outcome := ⟨true, text.toList, none⟩

def no (text : Text) (code : ResponseCode) : Outcome := ⟨false, text, some code⟩

/-- The account, the name of the selected mailbox and whether IMAP4rev2 is on. -/
structure Session where
  account : Account
  view : Option Text
  rev2 : Bool

/-- The untagged OK lines and the tagged outcome. -/
structure Answer where
  untagged : List Outcome
  outcome : Outcome

variable (js : Casing)

/-- The special use a CREATE (USE (...)) attribute asks for. -/
def specialUseFromAttribute (attr : Text) : Option SpecialUse :=
  let lower := js.lower attr
  if lower = "\\sent".toList then some .sent
  else if lower = "\\drafts".toList then some .drafts
  else if lower = "\\trash".toList then some .trash
  else if lower = "\\junk".toList then some .junk
  else if lower = "\\archive".toList then some .archive
  else none

/-- The last attribute counts; the first that is not supported is named. -/
def specialUseOf (use : Option SpecialUse) : List Text → Except Text (Option SpecialUse)
  | [] => .ok use
  | attr :: rest =>
    match specialUseFromAttribute js attr with
    | none => .error attr
    | some u => specialUseOf (some u) rest

def create (s : Session) (raw : Text) (specialUse : Option (List Text)) : Answer × Session :=
  let name := canonicalName js (stripTrailingDelimiter raw)
  if name = inbox then (⟨[], no "INBOX already exists".toList .alreadyExists⟩, s)
  else match invalidNameReason name with
  | some reason => (⟨[], no reason.toList .cannot⟩, s)
  | none =>
    match specialUseOf js none (specialUse.getD []) with
    | .error attr =>
      (⟨[], no ("Special use ".toList ++ attr ++ " is not supported".toList) .useAttr⟩, s)
    | .ok use =>
      match createMailbox s.account name use with
      | some (account, _) => (⟨[], ok "CREATE completed"⟩, { s with account := account })
      | none => (⟨[], no "Mailbox already exists".toList .alreadyExists⟩, s)

def delete (s : Session) (raw : Text) : Answer × Session :=
  let name := canonicalName js raw
  match deleteMailbox s.account name with
  | (.nonexistent, _) => (⟨[], no "No such mailbox".toList .nonexistent⟩, s)
  | (.inbox, _) => (⟨[], no "INBOX cannot be deleted".toList .cannot⟩, s)
  | (.special, _) => (⟨[], no "A special-use mailbox cannot be deleted".toList .cannot⟩, s)
  | (.children, _) => (⟨[], no "Delete its child mailboxes first".toList .hasChildren⟩, s)
  | (.ok, account) =>
    if s.view = some name then
      (⟨if s.rev2 then [⟨true, "The selected mailbox is closed".toList, some .closed⟩]
        else [], ok "DELETE completed"⟩,
        { s with account := account, view := none })
    else (⟨[], ok "DELETE completed"⟩, { s with account := account })

def rename (s : Session) (rawFrom rawTo : Text) : Option (Answer × Session) :=
  let from_ := canonicalName js rawFrom
  let to_ := canonicalName js (stripTrailingDelimiter rawTo)
  if to_ = inbox then some (⟨[], no "INBOX already exists".toList .alreadyExists⟩, s)
  else match invalidNameReason to_ with
  | some reason => some (⟨[], no reason.toList .cannot⟩, s)
  | none =>
    (renameMailbox s.account from_ to_).map fun
      | (.nonexistent, _) => (⟨[], no "No such mailbox".toList .nonexistent⟩, s)
      | (.exists_, _) => (⟨[], no "Target mailbox already exists".toList .alreadyExists⟩, s)
      | (.intoSelf, _) => (⟨[], no "A mailbox cannot be moved inside itself".toList .cannot⟩, s)
      | (.ok, account) => (⟨[], ok "RENAME completed"⟩, { s with account := account })

inductive Command where
  | create (raw : Text) (specialUse : Option (List Text))
  | delete (raw : Text)
  | rename (rawFrom rawTo : Text)
  deriving DecidableEq, Repr

def run (s : Session) : Command → Option (Answer × Session)
  | .create raw specialUse => some (create js s raw specialUse)
  | .delete raw => some (delete js s raw)
  | .rename rawFrom rawTo => rename js s rawFrom rawTo

/-- One command of the session, as a step of the account. -/
def step (s : Session) (command : Command) : Option Session := (run js s command).map Prod.snd

/-! ## 4. What the statements do to the names -/

section table

variable {a a' : Account} {n name : Text} {use : Option SpecialUse}

theorem mem_nameList : n ∈ a.nameList ↔ ∃ m ∈ a.rows, m.name = n := mem_map

theorem find_eq_none : a.find name = none ↔ name ∉ a.nameList := by
  unfold Account.find
  rw [find?_eq_none, mem_nameList]
  simp

theorem find_eq_some {mb : Mailbox} (h : a.find name = some mb) : mb ∈ a.rows ∧ mb.name = name :=
  ⟨mem_of_find?_eq_some h, by simpa using find?_some h⟩

/-- Two rows of one name are one row. -/
theorem eq_of_name_eq {m m' : Mailbox} (hm : m ∈ a.rows) (hm' : m' ∈ a.rows)
    (h : m.name = m'.name) : m = m' :=
  inj_on_of_nodup_map a.names hm hm' h

theorem eq_of_id_eq {m m' : Mailbox} (hm : m ∈ a.rows) (hm' : m' ∈ a.rows) (h : m.id = m'.id) :
    m = m' :=
  inj_on_of_nodup_map a.ids hm hm' h

/-- An INSERT leaves the rows there and adds one of the name where there was none. -/
theorem insert_rows (name : Text) (use : Option SpecialUse) :
    ∃ added, (a.insert name use).1.rows = a.rows ++ added ∧ (∀ m ∈ added, m.name = name)
      ∧ name ∈ (a.insert name use).1.nameList := by
  unfold Account.insert Account.nameList
  split
  · rename_i h
    exact ⟨[], (append_nil _).symm, nofun, h⟩
  · refine ⟨[⟨a.nextId, name, use⟩], rfl, fun m hm => by rw [mem_singleton.mp hm], ?_⟩
    rw [map_append]
    exact mem_append_right _ (mem_singleton.mpr rfl)

theorem mem_insert : n ∈ (a.insert name use).1.nameList ↔ n ∈ a.nameList ∨ n = name := by
  obtain ⟨added, hrows, hadded, hthere⟩ := insert_rows (a := a) name use
  constructor
  · intro hn
    obtain ⟨m, hm, rfl⟩ := mem_nameList.mp hn
    rw [hrows] at hm
    exact (mem_append.mp hm).imp (fun hold => mem_nameList.mpr ⟨m, hold, rfl⟩) (hadded m)
  · rintro (hold | rfl)
    · obtain ⟨m, hm, rfl⟩ := mem_nameList.mp hold
      exact mem_nameList.mpr ⟨m, by rw [hrows]; exact mem_append_left _ hm, rfl⟩
    · exact hthere

/-- Creating parents only adds rows, each of a parent. -/
theorem foldl_insert_rows (ps : List Text) (p : Text → Prop) [DecidablePred p] (a : Account) :
    ∃ added, (ps.foldl (fun a n => if p n then a else (a.insert n none).1) a).rows = a.rows ++ added
      ∧ ∀ m ∈ added, m.name ∈ ps := by
  induction ps generalizing a with
  | nil => exact ⟨[], (append_nil _).symm, nofun⟩
  | cons n ps ih =>
    rw [foldl_cons]
    obtain ⟨later, hlater, hps⟩ := ih (if p n then a else (a.insert n none).1)
    rw [hlater]
    split
    · exact ⟨later, rfl, fun m hm => mem_cons_of_mem _ (hps m hm)⟩
    · obtain ⟨added, hrows, hadded, -⟩ := insert_rows (a := a) n none
      refine ⟨added ++ later, by rw [hrows, append_assoc], fun m hm => ?_⟩
      rcases mem_append.mp hm with hfirst | hthen
      · rw [hadded m hfirst]
        exact mem_cons_self
      · exact mem_cons_of_mem _ (hps m hthen)

theorem mem_foldl_insert (ps : List Text) (p : Text → Prop) [DecidablePred p] (a : Account) :
    n ∈ (ps.foldl (fun a n => if p n then a else (a.insert n none).1) a).nameList
      ↔ n ∈ a.nameList ∨ (n ∈ ps ∧ ¬ p n) := by
  induction ps generalizing a with
  | nil => simp
  | cons q ps ih =>
    rw [foldl_cons, ih]
    by_cases hq : p q
    · rw [if_pos hq, mem_cons]
      refine or_congr_right ⟨fun ⟨hn, hpn⟩ => ⟨.inr hn, hpn⟩, fun ⟨hn, hpn⟩ =>
        ⟨hn.resolve_left ?_, hpn⟩⟩
      rintro rfl
      exact hpn hq
    · rw [if_neg hq, mem_insert, mem_cons]
      constructor
      · rintro ((hold | rfl) | ⟨hn, hpn⟩)
        · exact .inl hold
        · exact .inr ⟨.inl rfl, hq⟩
        · exact .inr ⟨.inr hn, hpn⟩
      · rintro (hold | ⟨rfl | hn, hpn⟩)
        · exact .inl (.inl hold)
        · exact .inl (.inr rfl)
        · exact .inr ⟨hn, hpn⟩

theorem mem_createParents {skip : List Text} :
    n ∈ (createParents a name skip).nameList ↔ n ∈ a.nameList ∨ (n ∈ parentsOf name ∧ n ∉ skip) :=
  mem_foldl_insert (parentsOf name) (· ∈ skip) a

theorem createMailbox_eq (name : Text) (use : Option SpecialUse) :
    createMailbox a name use = match (createParents a name []).insert name use with
        | (_, none) => none
        | (a', some row) => some (a', row) := by
  unfold createMailbox createParents
  simp only [not_mem_nil, if_false]

/-- A mailbox that has been created is there, with its parents. -/
theorem mem_of_createMailbox {row : Mailbox} (h : createMailbox a name use = some (a', row)) :
    n ∈ a'.nameList ↔ n ∈ a.nameList ∨ n ∈ parentsOf name ∨ n = name := by
  rw [createMailbox_eq] at h
  split at h
  · cases h
  · rename_i b _ hinsert
    obtain ⟨rfl, rfl⟩ := Prod.mk.inj (Option.some.inj h)
    have hb := congrArg Prod.fst hinsert
    dsimp only at hb
    rw [← hb, mem_insert, mem_createParents, or_assoc]
    simp

end table

end Postroom.Imap.Mailboxes
