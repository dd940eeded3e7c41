/-
RENAME and DELETE act on the whole subtree, as far as they see it.

Both look for children with `left(name, parent.length + 1) = parent + '/'`, where
the length is JavaScript's. For a parent whose characters are one UTF-16 unit
each that is "starts with `parent/`" (`sqlChildOf_iff`). For a parent with a
character above U+FFFF `left` takes one character too many and no valid name
passes, so children are not seen: DELETE takes the parent from above them and
RENAME leaves them behind.

`Account.Closed` is the shape of the tree: what stands before a delimiter is
itself a mailbox. The commands keep it wherever the children are seen.
-/
import Postroom.Imap.Mailboxes
import Postroom.Lib.Runs

set_option autoImplicit false

namespace Postroom.Imap.Mailboxes

open Lib List
open Mime (Text)

/-! ## 1. Children -/

/-- Below `parent`. -/
def ChildOf (parent : Text) (m : Mailbox) : Prop := parent ++ ['/'] <+: m.name

instance (parent : Text) (m : Mailbox) : Decidable (ChildOf parent m) :=
  inferInstanceAs (Decidable (parent ++ ['/'] <+: m.name))

variable {parent : Text} {m : Mailbox} {name : Text}

theorem childOf_iff : ChildOf parent m ↔ ∃ rest, m.name = parent ++ '/' :: rest := by
  refine ⟨fun ⟨rest, h⟩ => ⟨rest, ?_⟩, fun ⟨rest, h⟩ => ⟨rest, ?_⟩⟩
  · rw [← h, append_assoc, singleton_append]
  · rw [h, append_assoc, singleton_append]

/-- Every character of the name is one UTF-16 unit. -/
def OneUnitEach (name : Text) : Prop := utf16Length name = name.length

instance (name : Text) : Decidable (OneUnitEach name) := inferInstanceAs (Decidable (_ = _))

/-- A child that SQL finds is one. -/
theorem ChildOf.of_sql (h : sqlChildOf parent m = true) : ChildOf parent m := by
  unfold sqlChildOf at h
  rw [decide_eq_true_eq] at h
  unfold ChildOf
  rw [← h]
  exact take_prefix _ _

/-- SQL finds every child of a name whose characters are one unit each. -/
theorem sqlChildOf_iff (hunits : OneUnitEach parent) :
    sqlChildOf parent m = true ↔ ChildOf parent m := by
  refine ⟨ChildOf.of_sql, fun h => ?_⟩
  obtain ⟨rest, hname⟩ := h
  unfold sqlChildOf
  rw [hunits, ← hname, decide_eq_true_eq]
  exact take_left' (by simp)

/-- Of the others it finds none: `left` would have to stop at the delimiter. -/
theorem sqlChildOf_eq_false (hunits : ¬ OneUnitEach parent) (hvalid : ValidName m.name) :
    sqlChildOf parent m = false := by
  unfold sqlChildOf
  rw [decide_eq_false_iff_not]
  intro h
  have hmore : parent.length < utf16Length parent :=
    Nat.lt_of_le_of_ne (length_le_utf16Length parent) fun heq => hunits heq.symm
  -- the name is shorter than what is taken of it, so it ends in the delimiter
  have hlength := congrArg List.length h
  simp only [length_take, length_append, length_singleton] at hlength
  rw [take_of_length_le (by omega)] at h
  apply hvalid.last
  rw [h, getLast?_append]
  rfl

/-- Children are seen: the name has no character of two units, or no children. -/
def SeesChildren (a : Account) (name : Text) : Prop :=
  OneUnitEach name ∨ ∀ m ∈ a.rows, ¬ ChildOf name m

instance (a : Account) (name : Text) : Decidable (SeesChildren a name) :=
  inferInstanceAs (Decidable (_ ∨ ∀ m ∈ a.rows, _))

/-! ## 2. DELETE -/

section delete

variable {a a' : Account} {name : Text}

theorem countP_sqlChildOf_eq_zero :
    ¬ 0 < a.rows.countP (sqlChildOf name) ↔ ∀ m ∈ a.rows, sqlChildOf name m = false := by
  simp

/-- What `deleteMailbox` has checked when it answers ok. -/
theorem deleteMailbox_ok_iff : (deleteMailbox a name).1 = .ok
      ↔ ∃ mb, a.find name = some mb ∧ mb.name ≠ inbox ∧ mb.specialUse = none
          ∧ ∀ m ∈ a.rows, sqlChildOf name m = false := by
  unfold deleteMailbox
  split
  · rename_i hfind
    rw [hfind]
    exact ⟨nofun, fun ⟨_, h, _⟩ => nomatch h⟩
  · rename_i mb hfind
    rw [hfind]
    constructor
    · intro h
      split_ifs at h with hinbox hspecial hchildren
      exact ⟨mb, rfl, hinbox, not_not.mp hspecial, countP_sqlChildOf_eq_zero.mp hchildren⟩
    · rintro ⟨_, heq, hinbox, hspecial, hchildren⟩
      cases heq
      rw [if_neg hinbox, if_neg (not_not.mpr hspecial),
        if_neg (countP_sqlChildOf_eq_zero.mpr hchildren)]

/-- Where it answers ok the mailbox is gone and nothing else has changed. -/
theorem deleteMailbox_ok (h : deleteMailbox a name = (.ok, a')) :
    ∃ mb ∈ a.rows, mb.name = name ∧ a'.rows = a.rows.filter (fun m => m.id ≠ mb.id) := by
  unfold deleteMailbox at h
  split at h
  · cases h
  · rename_i mb hfind
    split_ifs at h
    · cases h
    · cases h
    · cases h
    · obtain ⟨-, rfl⟩ := Prod.mk.inj h
      exact ⟨mb, (find_eq_some hfind).1, (find_eq_some hfind).2, rfl⟩

/-- The name of a mailbox that DELETE does not refuse for what it is. -/
def Deletable (a : Account) (name : Text) : Prop :=
  ∃ mb ∈ a.rows, mb.name = name ∧ name ≠ inbox ∧ mb.specialUse = none

instance (a : Account) (name : Text) : Decidable (Deletable a name) :=
  inferInstanceAs (Decidable (∃ mb ∈ a.rows, _))

theorem deletable_of_ok (h : (deleteMailbox a name).1 = .ok) : Deletable a name := by
  obtain ⟨mb, hfind, hinbox, hspecial, -⟩ := deleteMailbox_ok_iff.mp h
  obtain ⟨hmb, rfl⟩ := find_eq_some hfind
  exact ⟨mb, hmb, rfl, hinbox, hspecial⟩

/-- A DELETE that sees the children and answers ok has found none. -/
theorem childless_of_sees (hsees : SeesChildren a name) (h : (deleteMailbox a name).1 = .ok) :
    ∀ m ∈ a.rows, ¬ ChildOf name m := by
  intro m hm hchild
  rcases hsees with hunits | hnone
  · obtain ⟨-, -, -, -, hsql⟩ := deleteMailbox_ok_iff.mp h
    exact absurd ((sqlChildOf_iff hunits).mpr hchild) (by rw [hsql m hm]; exact Bool.false_ne_true)
  · exact hnone m hm hchild

theorem find_of_mem {mb : Mailbox} (hmb : mb ∈ a.rows) : a.find mb.name = some mb := by
  cases hfind : a.find mb.name with
  | none => exact absurd (mem_nameList.mpr ⟨mb, hmb, rfl⟩) (find_eq_none.mp hfind)
  | some other =>
    obtain ⟨hother, hname⟩ := find_eq_some hfind
    rw [eq_of_name_eq hother hmb hname]

/-- DELETE answers ok over children exactly where the name has a character of two units. -/
theorem delete_leaves_no_child_iff (hvalid : ∀ m ∈ a.rows, invalidNameReason m.name = none) :
    ((deleteMailbox a name).1 = .ok → ∀ m ∈ a.rows, ¬ ChildOf name m)
      ↔ SeesChildren a name ∨ ¬ Deletable a name := by
  constructor
  · intro h
    refine Classical.or_iff_not_imp_right.mpr fun hdeletable =>
      Classical.or_iff_not_imp_left.mpr fun hunits => ?_
    obtain ⟨mb, hmb, rfl, hinbox, hspecial⟩ := not_not.mp hdeletable
    exact h (deleteMailbox_ok_iff.mpr ⟨mb, find_of_mem hmb, hinbox, hspecial,
      fun m hm => sqlChildOf_eq_false hunits (invalidNameReason_eq_none.mp (hvalid m hm))⟩)
  · rintro (hsees | hrefused) hok
    · exact childless_of_sees hsees hok
    · exact absurd (deletable_of_ok hok) hrefused

end delete

/-! ## 3. RENAME -/

section rename

variable {a a' : Account} {from_ to_ : Text}

/-- What RENAME is to do to a row: `from_` and what is below it go to `to_` with the rest
of their name. -/
def movedTo (from_ to_ : Text) (m : Mailbox) : Mailbox :=
  if isSelfOrChild m.name from_ then { m with name := to_ ++ m.name.drop from_.length } else m

/-- What it does: the rows that SQL selects. -/
def movedBySql (from_ to_ : Text) (m : Mailbox) : Mailbox :=
  if moves from_ m then { m with name := to_ ++ dropUnits m.name (utf16Length from_) } else m

variable {m : Mailbox}

/-- A row that moves is `from_` or below it. -/
theorem isSelfOrChild_of_moves (h : moves from_ m = true) : isSelfOrChild m.name from_ = true := by
  rw [isSelfOrChild_iff]
  unfold moves at h
  rw [Bool.or_eq_true, decide_eq_true_eq] at h
  exact h.imp_right fun hchild => childOf_iff.mp (ChildOf.of_sql hchild)

theorem isSelfOrChild_iff_suffix : isSelfOrChild name from_ = true
    ↔ ∃ suffix, name = from_ ++ suffix ∧ (suffix = [] ∨ ∃ rest, suffix = '/' :: rest) := by
  rw [isSelfOrChild_iff]
  constructor
  · rintro (rfl | ⟨rest, rfl⟩)
    · exact ⟨[], (append_nil _).symm, .inl rfl⟩
    · exact ⟨'/' :: rest, rfl, .inr ⟨rest, rfl⟩⟩
  · rintro ⟨_, rfl, rfl | ⟨rest, rfl⟩⟩
    · exact .inl (append_nil _)
    · exact .inr ⟨rest, rfl⟩

/-- The two cuts of a name that starts with `from_` agree. -/
theorem dropUnits_eq_drop (h : isSelfOrChild name from_ = true) :
    dropUnits name (utf16Length from_) = name.drop from_.length := by
  obtain ⟨suffix, rfl, -⟩ := isSelfOrChild_iff_suffix.mp h
  rw [dropUnits_append, drop_left]

/-- Rows that move keep apart. -/
theorem renamed_snd_nodup : ((renamed a from_ to_).map Prod.snd).Nodup := by
  unfold renamed
  rw [map_map]
  refine List.Nodup.map_on ?_ ((List.Nodup.of_map _ a.ids).filter _)
  intro m hm m' hm' heq
  obtain ⟨hrow, hmoves⟩ := mem_filter.mp hm
  obtain ⟨hrow', hmoves'⟩ := mem_filter.mp hm'
  obtain ⟨suffix, hname, -⟩ := isSelfOrChild_iff_suffix.mp (isSelfOrChild_of_moves hmoves)
  obtain ⟨suffix', hname', -⟩ := isSelfOrChild_iff_suffix.mp (isSelfOrChild_of_moves hmoves')
  have hsuffix : suffix = suffix' := by
    have := append_cancel_left heq
    rwa [hname, hname', dropUnits_append, dropUnits_append] at this
  exact eq_of_name_eq hrow hrow' (by rw [hname, hname', hsuffix])

theorem renamed_ids_nodup : ((renamed a from_ to_).map fun r => r.1.id).Nodup := by
  unfold renamed
  rw [map_map]
  exact a.ids.sublist (filter_sublist.map _)

/-- A name that is free can be given. -/
theorem updateName_of_free (id : ℕ) (h : name ∉ a.nameList) :
    ∃ a', a.updateName id name = some a' ∧ a'.rows = a.rows.map (Account.setName id name) := by
  have hfree : ∀ m ∈ a.rows, m.name ≠ name := fun m hm heq => h (mem_nameList.mpr ⟨m, hm, heq⟩)
  have hnodup : ((a.rows.map (Account.setName id name)).map Mailbox.name).Nodup := by
    rw [map_map]
    refine List.Nodup.map_on ?_ (List.Nodup.of_map _ a.ids)
    intro m hm m' hm' heq
    simp only [Function.comp_apply, Account.setName] at heq
    split_ifs at heq with hid hid' hid'
    · exact eq_of_id_eq hm hm' (hid.trans hid'.symm)
    · exact absurd heq.symm (hfree m' hm')
    · exact absurd heq (hfree m hm)
    · exact eq_of_name_eq hm hm' heq
  unfold Account.updateName
  rw [dif_pos hnodup]
  exact ⟨_, rfl, rfl⟩

/-- What a list of new names makes of a row. -/
def applyNames (rs : List (Mailbox × Text)) (m : Mailbox) : Mailbox :=
  match rs.find? fun r => r.1.id = m.id with
  | none => m
  | some r => { m with name := r.2 }

/-- New names that are free and distinct can all be given. -/
theorem updateNames_of_free (rs : List (Mailbox × Text)) (a : Account)
    (hids : (rs.map fun r => r.1.id).Nodup)
    (hnames : (rs.map Prod.snd).Nodup) (hfree : ∀ n ∈ rs.map Prod.snd, n ∉ a.nameList) :
    ∃ a', updateNames a rs = some a' ∧ a'.rows = a.rows.map (applyNames rs) := by
  induction rs generalizing a with
  | nil =>
    have hid : applyNames [] = id := rfl
    exact ⟨a, rfl, by rw [hid, map_id]⟩
  | cons r rs ih =>
    obtain ⟨m, after⟩ := r
    rw [map_cons, nodup_cons] at hids hnames
    obtain ⟨a1, hupdate, hrows⟩ := updateName_of_free m.id (hfree after mem_cons_self)
    -- the other new names are still free
    have hfree₁ : ∀ n ∈ rs.map Prod.snd, n ∉ a1.nameList := by
      intro n hn hmem
      obtain ⟨m₁, hm₁, rfl⟩ := mem_nameList.mp hmem
      rw [hrows] at hm₁
      obtain ⟨m₀, hm₀, rfl⟩ := mem_map.mp hm₁
      unfold Account.setName at hn
      split_ifs at hn with hid
      · exact hnames.1 hn
      · exact hfree _ (mem_cons_of_mem _ hn) (mem_nameList.mpr ⟨m₀, hm₀, rfl⟩)
    obtain ⟨a₂, hrest, hrows₂⟩ := ih a1 hids.2 hnames.2 hfree₁
    refine ⟨a₂, ?_, ?_⟩
    · rw [updateNames, hupdate]
      exact hrest
    · rw [hrows₂, hrows, map_map]
      refine map_congr_left fun m₀ hm₀ => ?_
      by_cases hid : m₀.id = m.id
      · -- no later name is for this row
        have hlater : rs.find? (fun r => r.1.id = m₀.id) = none := by
          rw [find?_eq_none]
          intro r hr heq
          rw [decide_eq_true_eq, hid] at heq
          exact hids.1 (heq ▸ mem_map_of_mem hr)
        simp [applyNames, Account.setName, hid, hid ▸ hlater]
      · have hne : ¬ m.id = m₀.id := fun heq => hid heq.symm
        simp [applyNames, Account.setName, hid, hne]

/-- The names RENAME gives make the rows that SQL selects move. -/
theorem applyNames_renamed (hm : m ∈ a.rows) :
    applyNames (renamed a from_ to_) m = movedBySql from_ to_ m := by
  unfold applyNames movedBySql
  cases hfind : (renamed a from_ to_).find? fun r => r.1.id = m.id with
  | none =>
    rw [find?_eq_none] at hfind
    rw [if_neg]
    intro hmoves
    exact hfind _ (mem_map_of_mem (mem_filter.mpr ⟨hm, hmoves⟩)) (by simp)
  | some r =>
    have hid : r.1.id = m.id := by simpa using find?_some hfind
    obtain ⟨m', hm', rfl⟩ := mem_map.mp (mem_of_find?_eq_some hfind)
    obtain ⟨hrow, hmoves⟩ := mem_filter.mp hm'
    have heq : m' = m := eq_of_id_eq hrow hm hid
    subst heq
    rw [if_pos hmoves]

theorem countP_afters_eq_zero {afters : List Text} :
    ¬ 0 < a.rows.countP (fun m => m.name ∈ afters) ↔ ∀ n ∈ afters, n ∉ a.nameList := by
  rw [Nat.not_lt, Nat.le_zero, countP_eq_zero]
  simp only [decide_eq_true_eq, mem_nameList, not_exists, not_and]
  exact ⟨fun h n hn m hm heq => h m hm (heq ▸ hn), fun h m hm hn => h _ hn m hm rfl⟩

/-- Where there is something to rename and every new name is free, the rows that SQL
selects move and the parents of the new name come after them. -/
theorem renameMailbox_eq_ok (hinbox : from_ ≠ inbox) (hself : isSelfOrChild to_ from_ = false)
    (hthere : from_ ∈ a.nameList)
    (hfree : ∀ n ∈ (renamed a from_ to_).map Prod.snd, n ∉ a.nameList) :
    ∃ a1, a1.rows = a.rows.map (movedBySql from_ to_)
      ∧ renameMailbox a from_ to_ = some
      (.ok, createParents a1 to_ ((renamed a from_ to_).map Prod.snd)) := by
  obtain ⟨a1, hupdate, hrows⟩ := updateNames_of_free _ a renamed_ids_nodup renamed_snd_nodup hfree
  refine ⟨a1, hrows.trans (map_congr_left fun m hm => applyNames_renamed hm), ?_⟩
  have hne : from_ ≠ to_ := by
    rintro rfl
    rw [isSelfOrChild_iff.mpr (.inl rfl)] at hself
    cases hself
  unfold renameMailbox
  rw [if_neg hne, if_neg (by rw [hself]; simp)]
  cases hfind : a.find from_ with
  | none => exact absurd hthere (find_eq_none.mp hfind)
  | some src =>
    rw [if_neg hinbox, if_neg (countP_afters_eq_zero.mpr hfree), hupdate]
    rfl

/-- What RENAME has checked when it answers ok. -/
theorem of_renameMailbox_ok (hinbox : from_ ≠ inbox)
    (h : renameMailbox a from_ to_ = some (.ok, a')) :
    isSelfOrChild to_ from_ = false ∧ from_ ∈ a.nameList
      ∧ ∀ n ∈ (renamed a from_ to_).map Prod.snd, n ∉ a.nameList := by
  unfold renameMailbox at h
  split_ifs at h with hsame hself
  · cases h
  · cases h
  · have hself' : isSelfOrChild to_ from_ = false := by
      rw [← Bool.not_eq_true]
      exact fun hchild => hself ⟨hinbox, hchild⟩
    split at h
    · cases h
    · rename_i src hfind
      dsimp only at h
      split_ifs at h with hclash
      · cases h
      · obtain ⟨hsrc, rfl⟩ := find_eq_some hfind
        exact ⟨hself', mem_nameList.mpr ⟨src, hsrc, rfl⟩, countP_afters_eq_zero.mp hclash⟩

theorem movedBySql_eq_movedTo (h : SeesChildren a from_) (hm : m ∈ a.rows) :
    movedBySql from_ to_ m = movedTo from_ to_ m := by
  have hsame : moves from_ m = isSelfOrChild m.name from_ := by
    rw [Bool.eq_iff_iff]
    refine ⟨isSelfOrChild_of_moves, fun hself => ?_⟩
    unfold moves
    rw [Bool.or_eq_true, decide_eq_true_eq]
    refine (isSelfOrChild_iff.mp hself).imp_right fun hchild => ?_
    have hchild' := childOf_iff.mpr hchild
    rcases h with hunits | hnone
    · exact (sqlChildOf_iff hunits).mpr hchild'
    · exact absurd hchild' (hnone m hm)
  unfold movedBySql movedTo
  rw [hsame]
  split
  · rename_i hself
    rw [dropUnits_eq_drop hself]
  · rfl

/-- `to_` after `from_` and what is below it have moved, with nothing else touched and
parents of `to_` added. -/
def RenamesSubtree (from_ to_ : Text) (a a' : Account) : Prop :=
  ∃ created, a'.rows = a.rows.map (movedTo from_ to_) ++ created
    ∧ ∀ m ∈ created, m.name ∈ parentsOf to_

theorem createParents_rows (a : Account) (name : Text) (skip : List Text) :
    ∃ created, (createParents a name skip).rows = a.rows ++ created
      ∧ ∀ m ∈ created, m.name ∈ parentsOf name :=
  foldl_insert_rows (parentsOf name) (· ∈ skip) a

/-- A RENAME that sees the children renames the subtree. -/
theorem renamesSubtree_of_sees (hinbox : from_ ≠ inbox) (hsees : SeesChildren a from_)
    (h : renameMailbox a from_ to_ = some (.ok, a')) : RenamesSubtree from_ to_ a a' := by
  obtain ⟨hself, hthere, hfree⟩ := of_renameMailbox_ok hinbox h
  obtain ⟨a1, hrows, hok⟩ := renameMailbox_eq_ok hinbox hself hthere hfree
  obtain ⟨-, rfl⟩ := Prod.mk.inj (Option.some.inj (h.symm.trans hok))
  obtain ⟨created, hcreated, hparents⟩ := createParents_rows a1 to_
    ((renamed a from_ to_).map Prod.snd)
  refine ⟨created, ?_, hparents⟩
  rw [hcreated, hrows, map_congr_left fun m hm => movedBySql_eq_movedTo hsees hm]

/-- The rename is not refused: there is such a mailbox, none of the new name, and the new
name is not below it. -/
def Renamable (a : Account) (from_ to_ : Text) : Prop :=
  from_ ∈ a.nameList ∧ to_ ∉ a.nameList ∧ isSelfOrChild to_ from_ = false

instance (a : Account) (from_ to_ : Text) : Decidable (Renamable a from_ to_) :=
  inferInstanceAs (Decidable (_ ∈ _ ∧ _ ∉ _ ∧ _ = _))

theorem renamable_of_ok (hinbox : from_ ≠ inbox) (h : renameMailbox a from_ to_ = some (.ok, a')) :
    Renamable a from_ to_ := by
  obtain ⟨hself, hthere, hfree⟩ := of_renameMailbox_ok hinbox h
  refine ⟨hthere, ?_, hself⟩
  -- `from_` itself moves to `to_`
  obtain ⟨m, hm, rfl⟩ := mem_nameList.mp hthere
  refine hfree to_ (mem_map.mpr ⟨(m, to_), ?_, rfl⟩)
  refine mem_map.mpr ⟨m, mem_filter.mpr ⟨hm, by simp [moves]⟩, ?_⟩
  rw [dropUnits_self, append_nil]

/-- RENAME moves the subtree exactly where it sees the children or refuses. -/
theorem rename_moves_subtree_iff (hvalid : ∀ m ∈ a.rows, invalidNameReason m.name = none)
    (hinbox : from_ ≠ inbox) :
    (∀ a', renameMailbox a from_ to_ = some (.ok, a') → RenamesSubtree from_ to_ a a')
      ↔ SeesChildren a from_ ∨ ¬ Renamable a from_ to_ := by
  constructor
  · intro h
    refine Classical.or_iff_not_imp_right.mpr fun hrenamable => ?_
    obtain ⟨hthere, hto, hself⟩ := not_not.mp hrenamable
    refine Classical.or_iff_not_imp_left.mpr fun hunits m hm hchild => ?_
    -- only `from_` itself is selected
    have halone : ∀ m ∈ a.rows, moves from_ m = true → m.name = from_ := by
      intro m hm hmoves
      unfold moves at hmoves
      rw [sqlChildOf_eq_false hunits (invalidNameReason_eq_none.mp (hvalid m hm)), Bool.or_false,
        decide_eq_true_eq] at hmoves
      exact hmoves
    have hfree : ∀ n ∈ (renamed a from_ to_).map Prod.snd, n ∉ a.nameList := by
      intro n hn
      obtain ⟨r, hr, rfl⟩ := mem_map.mp hn
      obtain ⟨m', hm', rfl⟩ := mem_map.mp hr
      obtain ⟨hrow, hmoves⟩ := mem_filter.mp hm'
      rw [halone m' hrow hmoves, dropUnits_self, append_nil]
      exact hto
    obtain ⟨a1, hrows, hok⟩ := renameMailbox_eq_ok hinbox hself hthere hfree
    obtain ⟨created, hmoved, -⟩ := h _ hok
    obtain ⟨created', hcreated, -⟩ := createParents_rows a1 to_ ((renamed a from_ to_).map Prod.snd)
    rw [hcreated, hrows] at hmoved
    have hmaps := (append_inj hmoved (by rw [length_map, length_map])).1
    have hkept := map_inj_left.mp hmaps m hm
    -- the child has stayed where it was
    obtain ⟨rest, hname⟩ := childOf_iff.mp hchild
    have hstays : movedBySql from_ to_ m = m := by
      refine if_neg fun hmoves => ?_
      have := halone m hm hmoves
      rw [hname] at this
      simp at this
    have hgoes : (movedTo from_ to_ m).name = to_ ++ '/' :: rest := by
      unfold movedTo
      rw [if_pos (isSelfOrChild_iff.mpr (.inr ⟨rest, hname⟩)), hname, drop_left]
    have heq : from_ ++ '/' :: rest = to_ ++ '/' :: rest := by
      rw [← hname, ← hgoes, ← hkept, hstays]
    rw [append_cancel_right heq, isSelfOrChild_iff.mpr (.inl rfl)] at hself
    cases hself
  · rintro (hsees | hrefused) a' h
    · exact renamesSubtree_of_sees hinbox hsees h
    · exact absurd (renamable_of_ok hinbox h) hrefused

/-- Where RENAME saw the children, the names are the moved ones and the parents of the new one. -/
theorem mem_of_renameMailbox (hinbox : from_ ≠ inbox) (hsees : SeesChildren a from_)
    (h : renameMailbox a from_ to_ = some (.ok, a')) {n : Text} :
    n ∈ a'.nameList ↔ (∃ m ∈ a.rows, (movedTo from_ to_ m).name = n) ∨ n ∈ parentsOf to_ := by
  obtain ⟨hself, hthere, hfree⟩ := of_renameMailbox_ok hinbox h
  obtain ⟨a1, hrows, hok⟩ := renameMailbox_eq_ok hinbox hself hthere hfree
  obtain ⟨-, rfl⟩ := Prod.mk.inj (Option.some.inj (h.symm.trans hok))
  have hmoved : ∀ n, n ∈ a1.nameList ↔ ∃ m ∈ a.rows, (movedTo from_ to_ m).name = n := by
    intro n
    rw [mem_nameList, hrows]
    simp only [mem_map, exists_exists_and_eq_and]
    refine exists_congr fun m => and_congr_right fun hm => ?_
    rw [movedBySql_eq_movedTo hsees hm]
  rw [mem_createParents, hmoved]
  refine ⟨Or.imp_right And.left, fun hn => ?_⟩
  -- a parent that is skipped has just been renamed to that name
  by_cases hskip : n ∈ (renamed a from_ to_).map Prod.snd
  · left
    obtain ⟨r, hr, rfl⟩ := mem_map.mp hskip
    obtain ⟨m, hm, rfl⟩ := mem_map.mp hr
    obtain ⟨hrow, hmoves⟩ := mem_filter.mp hm
    refine ⟨m, hrow, ?_⟩
    rw [← movedBySql_eq_movedTo hsees hrow, movedBySql, if_pos hmoves]
  · exact hn.imp_right fun hparent => ⟨hparent, hskip⟩

end rename

/-! ## 4. The shape of the tree -/

section tree

variable {a a' : Account} {to_ : Text}

/-- What stands before a delimiter of a mailbox's name is itself a mailbox. -/
def Account.Closed (a : Account) : Prop := ∀ n ∈ a.nameList, ∀ p rest, n = p ++ '/' :: rest →
    p ∈ a.nameList

theorem closed_of_created (hhead : name.head? ≠ some '/') (h : a.Closed)
    (hnames : ∀ n, n ∈ a'.nameList ↔ n ∈ a.nameList ∨ n ∈ parentsOf name ∨ n = name) :
    a'.Closed := by
  intro n hn p rest hsplit
  rw [hnames] at hn ⊢
  rcases hn with hold | hparent | rfl
  · exact .inl (h n hold p rest hsplit)
  · obtain ⟨rest', hname⟩ := (mem_parentsOf hhead).mp hparent
    refine .inr (.inl ((mem_parentsOf hhead).mpr ⟨rest ++ '/' :: rest', ?_⟩))
    rw [hname, hsplit, append_assoc, cons_append]
  · exact .inr (.inl ((mem_parentsOf hhead).mpr ⟨rest, hsplit⟩))

theorem closed_of_createMailbox {use : Option SpecialUse} {row : Mailbox} (hvalid : ValidName name)
    (h : a.Closed) (hcreate : createMailbox a name use = some (a', row)) : a'.Closed :=
  closed_of_created hvalid.head h fun _ => mem_of_createMailbox hcreate

/-- A RENAME of INBOX creates a mailbox. -/
theorem renameMailbox_inbox (h : renameMailbox a inbox to_ = some (.ok, a')) :
    renameInbox a to_ = (.ok, a') := by
  unfold renameMailbox at h
  rw [if_neg (fun hself : inbox ≠ inbox ∧ _ => hself.1 rfl)] at h
  split_ifs at h with hsame hinbox
  · cases h
  · split at h
    · cases h
    · exact Option.some.inj h
  · exact absurd rfl hinbox

theorem mem_of_renameInbox {n : Text} (h : renameInbox a to_ = (.ok, a')) :
    n ∈ a'.nameList ↔ n ∈ a.nameList ∨ n ∈ parentsOf to_ ∨ n = to_ := by
  unfold renameInbox at h
  split at h
  · cases h
  · rename_i b row hinsert
    obtain ⟨-, rfl⟩ := Prod.mk.inj h
    have hb := congrArg Prod.fst hinsert
    dsimp only at hb
    rw [← hb, mem_insert, mem_createParents, or_assoc]
    simp

theorem closed_of_renameInbox (hvalid : ValidName to_) (h : a.Closed)
    (hrename : renameInbox a to_ = (.ok, a')) : a'.Closed :=
  closed_of_created hvalid.head h fun _ => mem_of_renameInbox hrename

/-- A DELETE that sees the children takes none from under its parent. -/
theorem closed_of_deleteMailbox (hsees : SeesChildren a name) (h : a.Closed)
    (hdelete : deleteMailbox a name = (.ok, a')) : a'.Closed := by
  have hchildless := childless_of_sees hsees (congrArg Prod.fst hdelete)
  obtain ⟨mb, hmb, rfl, hrows⟩ := deleteMailbox_ok hdelete
  intro n hn p rest hsplit
  obtain ⟨m, hm, rfl⟩ := mem_nameList.mp hn
  rw [hrows] at hm
  have hrow := mem_of_mem_filter hm
  obtain ⟨m', hm', rfl⟩ := mem_nameList.mp
    (h m.name (mem_nameList.mpr ⟨m, hrow, rfl⟩) p rest hsplit)
  refine mem_nameList.mpr ⟨m', ?_, rfl⟩
  rw [hrows, mem_filter]
  refine ⟨hm', decide_eq_true fun hid => ?_⟩
  -- the deleted mailbox would have had `m` as a child
  rw [eq_of_id_eq hm' hmb hid] at hsplit
  exact hchildless m hrow (childOf_iff.mpr ⟨rest, hsplit⟩)

/-- A RENAME that sees the children moves the tree as it is. -/
theorem closed_of_renameMailbox {from_ : Text} (hinbox : from_ ≠ inbox) (hvalid : ValidName to_)
    (hsees : SeesChildren a from_) (h : a.Closed)
    (hrename : renameMailbox a from_ to_ = some (.ok, a')) :
    a'.Closed := by
  have hnames := fun n => mem_of_renameMailbox hinbox hsees hrename (n := n)
  have hthere := (of_renameMailbox_ok hinbox hrename).2.1
  -- a row of `a` below `from_`, or `from_`, gives `to_` with the rest
  have hmove : ∀ suffix, (suffix = [] ∨ ∃ rest, suffix = '/' :: rest) →
      from_ ++ suffix ∈ a.nameList →
      to_ ++ suffix ∈ a'.nameList := by
    intro suffix hsuffix hmem
    obtain ⟨m, hm, hname⟩ := mem_nameList.mp hmem
    refine (hnames _).mpr (.inl ⟨m, hm, ?_⟩)
    have hself : isSelfOrChild m.name from_ = true :=
      isSelfOrChild_iff_suffix.mpr ⟨suffix, hname, hsuffix⟩
    rw [movedTo, if_pos hself, hname, drop_left]
  intro n hn p rest hsplit
  rcases (hnames n).mp hn with ⟨m, hm, hmoved⟩ | hparent
  · unfold movedTo at hmoved
    split_ifs at hmoved with hself
    · obtain ⟨suffix, hname, hsuffix⟩ := isSelfOrChild_iff_suffix.mp hself
      rw [hname, drop_left] at hmoved
      rcases append_eq_append_iff.mp (hmoved.trans hsplit) with ⟨x, rfl, hrest⟩ | ⟨y, rfl, hrest⟩
      · -- the delimiter is in the part that moved along
        refine hmove x ?_ ?_
        · cases x with
          | nil => exact .inl rfl
          | cons c x =>
            obtain ⟨rest', hrest'⟩ := (hrest ▸ hsuffix).resolve_left (cons_ne_nil _ _)
            exact .inr ⟨x, by rw [(List.cons.inj hrest').1]⟩
        · refine h m.name (mem_nameList.mpr ⟨m, hm, rfl⟩) _ rest ?_
          rw [hname, hrest, append_assoc]
      · cases y with
        | nil =>
          rw [append_nil] at hmove
          have := hmove [] (.inl rfl) (by rwa [append_nil])
          rwa [append_nil] at this
        | cons c y =>
          obtain ⟨rfl, -⟩ := List.cons.inj hrest
          exact (hnames p).mpr (.inr ((mem_parentsOf hvalid.head).mpr ⟨y, rfl⟩))
    · -- nothing above a mailbox that stays moves
      rw [← hmoved] at hsplit
      obtain ⟨m', hm', rfl⟩ := mem_nameList.mp
        (h m.name (mem_nameList.mpr ⟨m, hm, rfl⟩) p rest hsplit)
      refine (hnames _).mpr (.inl ⟨m', hm', ?_⟩)
      rw [movedTo, if_neg]
      intro hself'
      apply hself
      rw [isSelfOrChild_iff] at hself' ⊢
      rcases hself' with hname | ⟨rest', hname⟩
      · exact .inr ⟨rest, by rw [hsplit, hname]⟩
      · exact .inr ⟨rest' ++ '/' :: rest, by rw [hsplit, hname, append_assoc, cons_append]⟩
  · obtain ⟨rest', hname⟩ := (mem_parentsOf hvalid.head).mp hparent
    refine (hnames p).mpr (.inr ((mem_parentsOf hvalid.head).mpr ⟨rest ++ '/' :: rest', ?_⟩))
    rw [hname, hsplit, append_assoc, cons_append]

end tree

/-! ## 5. Sessions -/

section session

variable {js : Casing} {s s' : Session} {command : Command}

/-- The mailbox a command acts on has its children seen, unless the command is refused anyway. -/
def Sees (js : Casing) (s : Session) : Command → Prop
  | .create _ _ => True
  | .delete raw =>
    SeesChildren s.account (canonicalName js raw) ∨ ¬ Deletable s.account (canonicalName js raw)
  | .rename rawFrom rawTo =>
    SeesChildren s.account (canonicalName js rawFrom)
      ∨ ¬ Renamable s.account (canonicalName js rawFrom)
        (canonicalName js (stripTrailingDelimiter rawTo))

instance (js : Casing) (s : Session) (command : Command) : Decidable (Sees js s command) :=
  match command with
  | .create _ _ => isTrue trivial
  | .delete _ => inferInstanceAs (Decidable (_ ∨ _))
  | .rename _ _ => inferInstanceAs (Decidable (_ ∨ _))

/-- What a command can do to the account: nothing, or what one of the store's functions did. -/
inductive Did (js : Casing) (s : Session) : Command → Account → Prop
  | nothing (command : Command) : Did js s command s.account
  | created {raw : Text} {specialUse : Option (List Text)} {name : Text} {use : Option SpecialUse}
    {row : Mailbox}
      {a' : Account} (hname : name = canonicalName js (stripTrailingDelimiter raw))
        (hvalid : ValidName name)
      (h : createMailbox s.account name use = some (a', row)) : Did js s (.create raw specialUse) a'
  | deleted {raw : Text} {a' : Account} (h : deleteMailbox s.account (canonicalName js raw)
    = (.ok, a')) :
      Did js s (.delete raw) a'
  | renamed {rawFrom rawTo to_ : Text} {a' : Account}
    (hname : to_ = canonicalName js (stripTrailingDelimiter rawTo))
      (hvalid : ValidName to_) (h : renameMailbox s.account (canonicalName js rawFrom) to_
        = some (.ok, a')) :
      Did js s (.rename rawFrom rawTo) a'

theorem did_create (raw : Text) (specialUse : Option (List Text)) :
    Did js s (.create raw specialUse) (create js s raw specialUse).2.account := by
  unfold create
  dsimp only
  split
  · exact .nothing _
  · split
    · exact .nothing _
    · rename_i hreason
      split
      · exact .nothing _
      · split
        · rename_i hcreate
          exact .created rfl (invalidNameReason_eq_none.mp hreason) hcreate
        · exact .nothing _

theorem did_delete (raw : Text) : Did js s (.delete raw) (delete js s raw).2.account := by
  unfold delete
  dsimp only
  split
  · exact .nothing _
  · exact .nothing _
  · exact .nothing _
  · exact .nothing _
  · rename_i hdelete
    split
    · exact .deleted hdelete
    · exact .deleted hdelete

theorem did_rename {rawFrom rawTo : Text} {answer : Answer}
    (h : rename js s rawFrom rawTo = some (answer, s')) :
    Did js s (.rename rawFrom rawTo) s'.account := by
  unfold rename at h
  dsimp only at h
  split at h
  · cases h
    exact .nothing _
  · split at h
    · cases h
      exact .nothing _
    · rename_i hreason
      obtain ⟨r, hrename, hr⟩ := Option.map_eq_some_iff.mp h
      obtain ⟨result, a'⟩ := r
      cases result with
      | nonexistent | exists_ | intoSelf => cases hr; exact .nothing _
      | ok => cases hr; exact .renamed rfl (invalidNameReason_eq_none.mp hreason) hrename

theorem step_did (h : step js s command = some s') : Did js s command s'.account := by
  obtain ⟨⟨answer, s₁⟩, hrun, rfl⟩ := Option.map_eq_some_iff.mp h
  cases command with
  | create raw specialUse =>
    have hcreate : create js s raw specialUse = (answer, s₁) := Option.some.inj hrun
    exact hcreate ▸ did_create (s := s) raw specialUse
  | delete raw =>
    have hdelete : delete js s raw = (answer, s₁) := Option.some.inj hrun
    exact hdelete ▸ did_delete (s := s) raw
  | rename rawFrom rawTo => exact did_rename hrun

/-- A command that sees the children keeps the shape of the tree. -/
theorem Did.closed {a' : Account} (hdid : Did js s command a') (hclosed : s.account.Closed)
    (hsees : Sees js s command) : a'.Closed := by
  cases hdid with
  | nothing => exact hclosed
  | created _ hvalid hcreate => exact closed_of_createMailbox hvalid hclosed hcreate
  | deleted hdelete =>
    have hdeletable := deletable_of_ok (congrArg Prod.fst hdelete)
    exact closed_of_deleteMailbox (hsees.resolve_right (not_not.mpr hdeletable)) hclosed hdelete
  | @renamed rawFrom _ _ _ hname hvalid hrename =>
    by_cases hinbox : canonicalName js rawFrom = inbox
    · rw [hinbox] at hrename
      exact closed_of_renameInbox hvalid hclosed (renameMailbox_inbox hrename)
    · have hrenamable := renamable_of_ok hinbox hrename
      rw [hname] at hrenamable
      exact closed_of_renameMailbox hinbox hvalid
        (hsees.resolve_right (not_not.mpr hrenamable)) hclosed hrename

/-- **RENAME and DELETE act on the whole subtree exactly where they see the children.** On
an account of valid names, a RENAME that answers ok moves the mailbox and everything below
it, and nothing else, for precisely the names with no character of two UTF-16 units, no
children, or a RENAME that is refused anyway; a DELETE that answers ok leaves no child
behind for precisely the same names. A session whose commands all see the children keeps
the tree closed. -/
theorem subtree_commands_reach_children (js : Casing) :
    (∀ (a : Account) (from_ to_ : Text), (∀ m ∈ a.rows, invalidNameReason m.name = none) →
      from_ ≠ inbox →
      ((∀ a', renameMailbox a from_ to_ = some (.ok, a') → RenamesSubtree from_ to_ a a')
        ↔ SeesChildren a from_ ∨ ¬ Renamable a from_ to_))
    ∧ (∀ (a : Account) (name : Text), (∀ m ∈ a.rows, invalidNameReason m.name = none) →
      (((deleteMailbox a name).1 = .ok → ∀ m ∈ a.rows, ¬ ChildOf name m)
        ↔ SeesChildren a name ∨ ¬ Deletable a name))
    ∧ ∀ s s' : Session, s.account.Closed → Run (step js) (Sees js) s s' → s'.account.Closed := by
  refine ⟨fun a from_ to_ hvalid hinbox => rename_moves_subtree_iff hvalid hinbox,
    fun a name hvalid => delete_leaves_no_child_iff hvalid, fun s s' hclosed hrun => ?_⟩
  refine hrun.invariant (fun s => s.account.Closed) hclosed ?_
  intro s₁ command s₂ h₁ hsees hstep
  exact (step_did hstep).closed h₁ hsees

/-- The tree is closed when every parent of every name is there. -/
theorem closed_of_parentsOf {a : Account} (hvalid : ∀ n ∈ a.nameList, n.head? ≠ some '/')
    (h : ∀ n ∈ a.nameList, ∀ p ∈ parentsOf n, p ∈ a.nameList) : a.Closed :=
  fun n hn p rest hsplit => h n hn p ((mem_parentsOf (hvalid n hn)).mpr ⟨rest, hsplit⟩)

theorem seeded_closed : seeded.Closed := closed_of_parentsOf (by decide +kernel) (by decide +kernel)

/-- A session of the seeded account: create, delete, rename. -/
def fewCommands : List Command :=
  [.create "a/b/c".toList none, .create "é/x".toList none, .delete "a/b/c".toList,
    .rename "a".toList "é/y".toList]

theorem fewCommands_run :
    (runWhile (step plainCasing) (Sees plainCasing) ⟨seeded, none, true⟩ fewCommands).any
      (fun s => decide ("é/y/b".toList ∈ s.account.nameList)) = true := by
  decide +kernel

theorem subtree_commands_reach_children_few :
    ∃ s' : Session, Run (step plainCasing) (Sees plainCasing) ⟨seeded, none, true⟩ s'
      ∧ "é/y/b".toList ∈ s'.account.nameList ∧ s'.account.Closed := by
  obtain ⟨s', hs', hmem⟩ := (Option.any_eq_true _ _).mp fewCommands_run
  have hrun := Run.refl.runWhile fewCommands hs'
  exact ⟨s', hrun, of_decide_eq_true hmem,
    (subtree_commands_reach_children plainCasing).2.2 _ s' seeded_closed hrun⟩

/-- A mailbox named by one character of two units. -/
def emoji : Text := ['😀']

/-- DELETE answers ok above a child, and RENAME leaves the child behind. -/
def childNotSeen (s : Session) : Bool :=
  (deleteMailbox s.account emoji).1 = .ok && s.account.rows.any (fun m => ChildOf emoji m)
    && s.account.rows.all (fun m => invalidNameReason m.name = none)
    && (renameMailbox s.account emoji ['x']).any fun r =>
      r.1 = .ok && r.2.rows.take s.account.rows.length ≠ s.account.rows.map (movedTo emoji ['x'])

theorem childNotSeen_run :
    (runAll (step plainCasing) ⟨seeded, none, true⟩ [.create (emoji ++ "/x".toList) none]).any
    childNotSeen = true := by
  decide +kernel

theorem orphan_run :
    (runAll (step plainCasing) ⟨seeded, none, true⟩ [.create (emoji ++ "/x".toList) none,
      .delete emoji]).any
      (fun s => decide (emoji ++ "/x".toList ∈ s.account.nameList ∧ emoji ∉ s.account.nameList))
        = true := by
  decide +kernel

/-- CREATE "😀/x", then DELETE "😀": answered ok, with the child left behind; RENAME "😀" x
would have left it behind too. -/
theorem children_of_emoji_not_seen :
    (∃ s, Run (step plainCasing) anyStep ⟨seeded, none, true⟩ s ∧ childNotSeen s = true)
      ∧ ∃ s', Run (step plainCasing) anyStep ⟨seeded, none, true⟩ s' ∧ ¬ s'.account.Closed := by
  constructor
  · obtain ⟨s, hs, hseen⟩ := (Option.any_eq_true _ _).mp childNotSeen_run
    exact ⟨s, Run.refl.runAll _ hs, hseen⟩
  · obtain ⟨s', hs', horphan⟩ := (Option.any_eq_true _ _).mp orphan_run
    obtain ⟨hchild, hparent⟩ := of_decide_eq_true horphan
    exact ⟨s', Run.refl.runAll _ hs', fun hclosed => hparent (hclosed _ hchild emoji ['x'] rfl)⟩

end session

end Postroom.Imap.Mailboxes
