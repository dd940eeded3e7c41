/-
What the callers of the submission path keep to.

The messages of a path are changed only under the lock of the path's own cap and the
lock of the account, so one of them is enough to know that they do not change. An app
password is frozen, recorded and thawed by turns (`Moves`); between a freeze and its
audit row it is in the hands of the `checkCaps` call that has frozen it, though that
call holds no lock. This is `team`.

`Settled` is what the record of freezes takes: whoever looks at or changes an app
password finds no freeze whose audit row is still to come, and a thaw finds it frozen.
The caps do not need it. Both are shown at once: what is said of the app passwords is
said under the assumption `settled` that the steps are `Settled`.
-/
import Mathlib.Data.List.Infix
import Postroom.Submission.Caps
import Mathlib.Data.List.Chain

set_option autoImplicit false

namespace Postroom.Submission

open Lib

/-! ## 1. An app password -/

/-- The record of freezes and thaws goes with `frozenAt`. -/
structure GoodAppPassword (x : AppPassword) : Prop where
  /-- Freezes and thaws alternate. -/
  turns : x.rows.IsChain (· ≠ ·)
  thawed : x.frozenAt = none → x.owing = none ∧ x.rows.getLast? ≠ some .freeze
  recorded : x.frozenAt ≠ none → x.owing = none → x.rows.getLast? = some .freeze
  owing : x.owing ≠ none → x.rows.getLast? ≠ some .freeze

/-- What one change by the process `me` makes of an app password. -/
inductive Moves (me : ℕ) (x : AppPassword) : AppPassword → Prop
  | same : Moves me x x
  | freeze (t : ℕ) : x.frozenAt = none → x.owing = none →
      Moves me x { x with frozenAt := some t, owing := some me }
  | record : x.owing = some me → Moves me x { x with rows := x.rows ++ [.freeze], owing := none }
  | freezeAndAudit (t : ℕ) : x.frozenAt = none → x.owing = none →
      Moves me x { x with frozenAt := some t, rows := x.rows ++ [.freeze] }
  | thaw : x.frozenAt ≠ none → x.owing = none → Moves me x
    { x with frozenAt := none, rows := x.rows ++ [.thaw] }

theorem isChain_append {rows : List AuditRow} {row : AuditRow} (h : rows.IsChain (· ≠ ·))
    (hlast : rows.getLast? ≠ some row) : (rows ++ [row]).IsChain (· ≠ ·) := by
  refine List.isChain_append.mpr ⟨h, List.isChain_singleton _, fun a ha b hb => ?_⟩
  rintro rfl
  obtain rfl : row = a := by simpa using hb
  exact hlast ha

section moves

variable {me : ℕ} {x x' : AppPassword}

theorem Moves.good (h : Moves me x x') (hx : GoodAppPassword x) : GoodAppPassword x' := by
  cases h with
  | same => exact hx
  | freeze t hfrozen howing =>
    exact ⟨hx.turns, nofun, nofun, fun _ => (hx.thawed hfrozen).2⟩
  | record howing =>
    have hne : x.owing ≠ none := by
      rw [howing]
      exact nofun
    refine ⟨isChain_append hx.turns (hx.owing hne), fun hfrozen =>
      absurd (hx.thawed hfrozen).1 hne, ?_, fun h => absurd rfl h⟩
    intro _ _
    simp
  | freezeAndAudit t hfrozen howing =>
    refine ⟨isChain_append hx.turns (hx.thawed hfrozen).2, nofun, ?_, fun h => absurd howing h⟩
    intro _ _
    simp
  | thaw hfrozen howing =>
    have hlast : x.rows.getLast? ≠ some .thaw := by
      rw [hx.recorded hfrozen howing]
      decide
    refine ⟨isChain_append hx.turns hlast, fun _ => ⟨howing, ?_⟩, fun h => absurd rfl h, fun h =>
      absurd howing h⟩
    simp

theorem Moves.rows (h : Moves me x x') : x.rows <+: x'.rows := by
  cases h with
  | same | freeze t _ _ => exact List.prefix_refl _
  | record _ | freezeAndAudit t _ _ | thaw _ _ => exact List.prefix_append _ _

/-- What is in the hands of another process does not change. -/
theorem Moves.other {other : ℕ} (h : Moves me x x') (hne : other ≠ me) (hx : x.owing = some other) :
    x' = x := by
  cases h with
  | same => rfl
  | record howing =>
    rw [hx] at howing
    exact absurd (Option.some.inj howing) hne
  | freeze t _ howing | freezeAndAudit t _ howing | thaw _ howing => rw [hx] at howing; cases howing

end moves

/-! ## 2. The table -/

variable (cfg : Config) (settled : Prop) {me : ℕ}

/-- Both caps hold in every window. -/
def Within (caps : Caps) (stamps : List ℕ) : Prop :=
  Bounded HOUR_MS caps.hourly stamps ∧ Bounded DAY_MS caps.daily stamps

/-- A message is queued for every address of its envelope, once. -/
def Complete (m : Message) : Prop := queuedAddresses cfg m.envelope
    = some (m.recipients.map (·.address))

structure Good (db : Db) : Prop where
  path : ∀ path caps, Path.caps cfg path = some caps → Within caps (stamps (outboundOf db path))
  account : ∀ accountId, Within (accountCaps cfg) (accountStamps cfg db accountId)
  complete : ∀ path, ∀ m ∈ outboundOf db path, Complete cfg m
  appPassword : settled → ∀ id, GoodAppPassword (appPasswordOf db id)

/-- What any number of changes keep. -/
structure Later (db db' : Db) : Prop where
  clock : clockOf db ≤ clockOf db'
  outbound : ∀ path, outboundOf db path <+: outboundOf db' path
  rows : settled → ∀ id, (appPasswordOf db id).rows <+: (appPasswordOf db' id).rows

/-- One change by the process `me`. -/
structure Step (me : ℕ) (db db' : Db) : Prop where
  clock : clockOf db ≤ clockOf db'
  outbound : ∀ path, outboundOf db path <+: outboundOf db' path
  moves : settled → ∀ id, Moves me (appPasswordOf db id) (appPasswordOf db' id)

/-- Any number of changes by processes other than `me`. -/
structure Rely (me : ℕ) (db db' : Db) : Prop where
  later : Later settled db db'
  mine : settled → ∀ id, (appPasswordOf db id).owing = some me →
    appPasswordOf db' id = appPasswordOf db id

variable {settled}

theorem Later.refl (db : Db) : Later settled db db :=
  ⟨le_rfl, fun _ => List.prefix_refl _, fun _ _ => List.prefix_refl _⟩

theorem Later.trans {a b c : Db} (h : Later settled a b) (h' : Later settled b c) :
    Later settled a c :=
  ⟨Nat.le_trans h.clock h'.clock, fun path => (h.outbound path).trans (h'.outbound path),
    fun hs id => (h.rows hs id).trans (h'.rows hs id)⟩

theorem Step.refl (me : ℕ) (db : Db) : Step settled me db db :=
  ⟨le_rfl, fun _ => List.prefix_refl _, fun _ _ => .same⟩

theorem Step.later {a b : Db} (h : Step settled me a b) : Later settled a b :=
  ⟨h.clock, h.outbound, fun hs id => (h.moves hs id).rows⟩

theorem Rely.trans {a b c : Db} (h : Rely settled me a b) (h' : Rely settled me b c) :
    Rely settled me a c := by
  refine ⟨h.later.trans h'.later, fun hs id hid => ?_⟩
  have hab := h.mine hs id hid
  rw [h'.mine hs id (by rw [hab]; exact hid), hab]

/-- The lock of the path's own cap. -/
def Path.lock : Path → List Lock
  | .submission appPasswordId => [.caps appPasswordId]
  | .webmail accountId => [.webmail accountId]
  | .vacation _ => []

def guard : Place → List Lock
  | .clock => []
  | .outbound path => path.lock ++ [.account (path.accountId cfg)]
  | .appPassword id => [.appPassword id]
  | .seeded _ => []

variable (settled)

def team : Team Place Row Lock Stmt where
  guard := guard cfg
  good := Good cfg settled
  any := Later settled
  later := Later settled
  step := Step settled
  rely := Rely settled
  same := Step.refl
  refl := fun _ db => ⟨Later.refl db, fun _ _ _ => rfl⟩
  trans := Rely.trans
  one := Step.later
  other := fun h hne => ⟨h.later, fun hs id hid => (h.moves hs id).other hne hid⟩
  some := id
  others := Rely.later
  all := Later.trans

/-- Whoever looks at or changes an app password finds every freeze on record, and a
thaw finds it frozen. -/
def Settled (db : Db) : Moment Stmt Command → Prop
  | .stmt (.findAppPassword id) => (appPasswordOf db id).owing = none
  | .stmt (.freeze id _ _) => (appPasswordOf db id).owing = none
  | .stmt (.freezeAndAudit id _) => (appPasswordOf db id).owing = none
  | .stmt (.thaw id) => (appPasswordOf db id).owing = none ∧ (appPasswordOf db id).frozenAt ≠ none
  | _ => True

instance : (db : Db) → (m : Moment Stmt Command) → Decidable (Settled db m)
  | db, .stmt (.findAppPassword id) => inferInstanceAs
    (Decidable ((appPasswordOf db id).owing = none))
  | db, .stmt (.freeze id _ _) => inferInstanceAs (Decidable ((appPasswordOf db id).owing = none))
  | db, .stmt (.freezeAndAudit id _) =>
    inferInstanceAs (Decidable ((appPasswordOf db id).owing = none))
  | db, .stmt (.thaw id) =>
    inferInstanceAs (Decidable ((appPasswordOf db id).owing = none
      ∧ (appPasswordOf db id).frozenAt ≠ none))
  | _, .stmt .clock => isTrue trivial
  | _, .stmt (.lock _) => isTrue trivial
  | _, .stmt (.count ..) => isTrue trivial
  | _, .stmt (.createMessage ..) => isTrue trivial
  | _, .stmt (.createRecipients ..) => isTrue trivial
  | _, .stmt (.recordFreeze _) => isTrue trivial
  | _, .stmt (.recordThaw _) => isTrue trivial
  | _, .commit _ => isTrue trivial

/-- What is asked of the steps. -/
abbrev Asked : Db → Db → Moment Stmt Command → Prop := under settled (onView Settled)

/-! ## 3. Changes of one row -/

section rows

variable {settled} {db db' : Db}

theorem clockOf_congr (h : db .clock = db' .clock) : clockOf db = clockOf db' := by
  unfold clockOf
  rw [h]

theorem outboundOf_congr {path : Path} (h : db (.outbound path) = db' (.outbound path)) :
    outboundOf db path = outboundOf db' path := by
  unfold outboundOf
  rw [h]

theorem appPasswordOf_congr {id : ℕ} (h : db (.appPassword id) = db' (.appPassword id)) :
    appPasswordOf db id = appPasswordOf db' id := by
  unfold appPasswordOf
  rw [h]

theorem appPasswordOf_single (id : ℕ) (row : AppPassword) (db : Db) (id' : ℕ) :
    appPasswordOf ((Table.single (.appPassword id) (.appPassword row)).over db) id'
      = if id' = id then row else appPasswordOf db id' := by
  by_cases h : id' = id
  · rw [if_pos h, h]
    unfold appPasswordOf
    rw [Table.single_over, if_pos rfl]
  · rw [if_neg h]
    refine appPasswordOf_congr ?_
    rw [Table.single_over, if_neg fun heq => h (Place.appPassword.inj heq)]

/-- The messages stay, and the app passwords stay good. -/
theorem Good.congr (hgood : Good cfg settled db)
    (hout : ∀ path, outboundOf db' path = outboundOf db path)
    (happ : settled → ∀ id, GoodAppPassword (appPasswordOf db' id)) : Good cfg settled db' := by
  refine ⟨fun path caps hcaps => ?_, fun accountId => ?_, fun path => ?_, happ⟩
  · rw [hout]
    exact hgood.path path caps hcaps
  · unfold accountStamps
    simp only [hout]
    exact hgood.account accountId
  · rw [hout]
    exact hgood.complete path

/-- A change of one app password. -/
theorem appPassword_step {id : ℕ} {row : AppPassword} (hgood : Good cfg settled db)
    (hmoves : settled → Moves me (appPasswordOf db id) row) :
    Good cfg settled ((Table.single (.appPassword id) (.appPassword row)).over db)
      ∧ Step settled me db ((Table.single (.appPassword id) (.appPassword row)).over db) := by
  have hother : ∀ p, p ≠ .appPassword id →
      (Table.single (.appPassword id) (.appPassword row)).over db p = db p := by
    intro p hp
    rw [Table.single_over, if_neg hp]
  have hout : ∀ path, outboundOf ((Table.single (.appPassword id) (.appPassword row)).over db) path
      = outboundOf db path := fun path => outboundOf_congr (hother (.outbound path) nofun)
  refine ⟨hgood.congr cfg hout ?_, ⟨?_, ?_, ?_⟩⟩
  · intro hs id'
    rw [appPasswordOf_single]
    split_ifs with h
    · rw [h] at *
      exact (hmoves hs).good (hgood.appPassword hs id)
    · exact hgood.appPassword hs id'
  · exact (clockOf_congr (hother .clock nofun)).ge
  · intro path
    rw [hout]
  · intro hs id'
    rw [appPasswordOf_single]
    split_ifs with h
    · rw [h]
      exact hmoves hs
    · exact .same

/-- A change of a row that no lock guards: the clock, and what the seeding route adds. -/
theorem surroundings {p : Place} {row : Row} (hp : guard cfg p = []) (hgood : Good cfg settled db)
    (hclock : clockOf db ≤ clockOf ((Table.single p row).over db)) :
    Good cfg settled ((Table.single p row).over db)
      ∧ Later settled db ((Table.single p row).over db)
      ∧ (∀ me, Rely settled me db ((Table.single p row).over db))
      ∧ ∀ q, guard cfg q ≠ [] → db q = (Table.single p row).over db q := by
  have hsame : ∀ q, guard cfg q ≠ [] → (Table.single p row).over db q = db q := by
    intro q hq
    refine Table.single_over_other row db ?_
    rintro rfl
    exact hq hp
  generalize (Table.single p row).over db = db' at hclock hsame ⊢
  have hout' : ∀ path, outboundOf db' path = outboundOf db path :=
    fun path => outboundOf_congr
      (hsame _ (List.append_ne_nil_of_right_ne_nil _ (List.cons_ne_nil _ _)))
  have happ' : ∀ id, appPasswordOf db' id = appPasswordOf db id :=
    fun id => appPasswordOf_congr (hsame _ (List.cons_ne_nil _ _))
  have hlater : Later settled db db' := by
    refine ⟨hclock, fun path => ?_, fun _ id => ?_⟩
    · rw [hout']
    · rw [happ']
  refine ⟨hgood.congr cfg hout' fun hs id => ?_, hlater, fun me => ⟨hlater, fun _ id _ => happ' id⟩,
    fun q hq => (hsame q hq).symm⟩
  rw [happ']
  exact hgood.appPassword hs id

end rows

end Postroom.Submission
