/-
Transactions over a table with row locks, run statement by statement.

A table maps keys to rows. A transaction is a script of statements; each
statement is executed on the transaction's own view (the committed table under
the rows it has written), answers with a result, writes rows and takes locks that
are held until the transaction ends. Sessions run in any order, a statement at a
time; a statement whose locks another session holds waits; a session may be
aborted anywhere. This is the READ COMMITTED level: nothing is said about what a
plain read sees, except that it is committed or the reader's own.

The point of the file is `Serial.run`. If every script, *replayed alone* on the
table as it stands at its commit, is known to write only rows it has locked, then
every commit of every interleaving is such a replay. In a replay the results that
the held locks protect are exact; every other result is arbitrary, since it may
be stale by then. So a property of interleavings is proved by going through each
script once, on one table, with `Txn.wp`.

Nothing here knows what a row is or what the statements are.
-/
import Postroom.Lib.Runs
import Mathlib.Logic.Relation

set_option autoImplicit false

namespace Postroom.Lib

open List

/-! ## 1. Tables

`over` lays one table over another: a transaction's writes over the committed
rows. -/

/-- Rows by key. -/
abbrev Table (ι β : Type) := ι → Option β

section table

variable {ι β κ : Type}

/-- No rows. -/
def Table.empty : Table ι β := fun _ => none

/-- The rows of `new`, and those of `old` where `new` has none. -/
def Table.over (new old : Table ι β) : Table ι β := fun i => (new i).or (old i)

/-- One row. -/
def Table.single [DecidableEq ι] (i : ι) (b : β) : Table ι β :=
  fun j => if j = i then some b else none

variable {i : ι} {a b : Table ι β}

theorem Table.over_of_some {new old : Table ι β} {b : β} (h : new i = some b) :
    new.over old i = some b := by
  simp [Table.over, h]

theorem Table.over_of_none {new old : Table ι β} (h : new i = none) : new.over old i = old i := by
  simp [Table.over, h]

@[simp] theorem Table.empty_over (old : Table ι β) : Table.empty.over old = old := by
  funext i
  exact Table.over_of_none rfl

theorem Table.over_assoc (a b c : Table ι β) : (a.over b).over c = a.over (b.over c) := by
  funext i
  simp [Table.over, Option.or_assoc]

@[simp] theorem Table.single_same [DecidableEq ι] (i : ι) (b : β) : Table.single i b i = some b :=
  if_pos rfl

theorem Table.single_other [DecidableEq ι] {j : ι} (b : β) (h : j ≠ i) :
    Table.single i b j = none :=
  if_neg h

theorem Table.eq_of_single [DecidableEq ι] {j : ι} {b : β}
    (h : (Table.single i b j).isSome = true) : j = i := by
  by_contra hne
  rw [Table.single_other b hne] at h
  cases h

theorem Table.single_over [DecidableEq ι] (i j : ι) (b : β) (t : Table ι β) :
    (Table.single i b).over t j = if j = i then some b else t j := by
  by_cases h : j = i
  · rw [if_pos h, h]
    exact Table.over_of_some (Table.single_same i b)
  · rw [if_neg h]
    exact Table.over_of_none (Table.single_other b h)

theorem Table.single_over_other [DecidableEq ι] {j : ι} (b : β) (t : Table ι β) (h : j ≠ i) :
    (Table.single i b).over t j = t j :=
  Table.over_of_none (Table.single_other b h)

/-- Two tables have the same rows wherever a lock of `ks` guards them. -/
def AgreeOn (guard : ι → κ) (ks : List κ) (a b : Table ι β) : Prop :=
  ∀ i, guard i ∈ ks → a i = b i

theorem AgreeOn.rfl {guard : ι → κ} {ks : List κ} : AgreeOn guard ks a a :=
  fun _ _ => Eq.refl _

theorem AgreeOn.trans {guard : ι → κ} {ks : List κ} {c : Table ι β} (h1 : AgreeOn guard ks a b)
    (h2 : AgreeOn guard ks b c) : AgreeOn guard ks a c :=
  fun i hi => (h1 i hi).trans (h2 i hi)

theorem AgreeOn.mono {guard : ι → κ} {ks ks' : List κ} (h : AgreeOn guard ks' a b)
    (hsub : ∀ k ∈ ks, k ∈ ks') : AgreeOn guard ks a b :=
  fun i hi => h i (hsub _ hi)

theorem AgreeOn.over {guard : ι → κ} {ks : List κ} (new : Table ι β) (h : AgreeOn guard ks a b) :
    AgreeOn guard ks (new.over a) (new.over b) := by
  intro i hi
  simp only [Table.over, h i hi]

end table

/-! ## 2. Scripts -/

/-- A script over statements `S` with results `R`: it ends with a value, which
commits, or with an error, which rolls back. -/
inductive Txn (S : Type) (R : S → Type) (ε α : Type) : Type
  | done (a : α)
  | fail (e : ε)
  | stmt (s : S) (k : R s → Txn S R ε α)

section script

variable {S : Type} {R : S → Type} {ε α β σ : Type}

/-- Go on with the value. -/
def Txn.bind : Txn S R ε α → (α → Txn S R ε β) → Txn S R ε β
  | .done a, f => f a
  | .fail e, _ => .fail e
  | .stmt s k, f => .stmt s fun r => (k r).bind f

instance : Monad (Txn S R ε) where
  pure := .done
  bind := Txn.bind

/-- One statement. -/
def Txn.exec (s : S) : Txn S R ε (R s) := .stmt s .done

/-- A loop that carries a value from one element to the next. -/
def Txn.forEach : List α → σ → (σ → α → Txn S R ε σ) → Txn S R ε σ
  | [], acc, _ => .done acc
  | a :: as, acc, f => (f acc a).bind fun acc' => Txn.forEach as acc' f

end script

/-! ## 3. Sessions -/

/-- What one statement does on a view. -/
structure Effect (ι β κ α : Type) where
  result : α
  writes : Table ι β
  locks : List κ

/-- A statement that only reads. -/
def reading {ι β κ α : Type} (a : α) : Option (Effect ι β κ α) := some ⟨a, Table.empty, []⟩

/-- A session inside its transaction. -/
structure Session (ι β κ : Type) (S : Type) (R : S → Type) (ε : Type) where
  held : List κ
  writes : Table ι β
  rest : Txn S R ε Unit

/-- The committed table, the identifiers ever drawn, and the sessions; a session
that has ended leaves its place empty. -/
structure Server (ι β κ : Type) (S : Type) (R : S → Type) (ε : Type) where
  db : Table ι β
  ids : List ι
  sessions : List (Option (Session ι β κ S R ε))

/-- What can happen next: a command begins, a session runs its next statement
(with a fresh identifier at hand, should it need one) or ends, a session is
aborted. -/
inductive Action (ι C : Type)
  | start (c : C)
  | advance (i : ℕ) (new : ι)
  | abort (i : ℕ)

variable {j : ℕ}

section server

variable {ι β κ : Type} [DecidableEq κ] {S : Type} {R : S → Type} {ε : Type} {C : Type}

/-- No one but the `i`-th holds a lock of `ks`. -/
def clear {σ : Type} (held : σ → List κ) (ss : List σ) (i : ℕ) (ks : List κ) : Bool :=
  (List.range ss.length).all fun j =>
    j == i || ss[j]?.all fun u => ks.all fun k => !decide (k ∈ held u)

theorem not_mem_of_clear {σ : Type} {held : σ → List κ} {ss : List σ} {i j : ℕ} {ks : List κ}
    {u : σ} (h : clear held ss i ks = true) (hu : ss[j]? = some u) (hji : j ≠ i) :
    ∀ k ∈ ks, k ∉ held u := by
  intro k hk
  have hclear := all_eq_true.mp h j (mem_range.mpr (List.getElem?_eq_some_iff.mp hu).1)
  rw [hu] at hclear
  simp only [Bool.or_eq_true, beq_iff_eq, hji, false_or, Option.all_some, all_eq_true] at hclear
  simpa using hclear k hk

/-- The locks of a session; one that has ended has none. -/
def heldBy : Option (Session ι β κ S R ε) → List κ
  | some u => u.held
  | none => []

variable (exec : List ι → Table ι β → (s : S) → ι → Option (Effect ι β κ (R s)))

/-- The `i`-th session goes on: its next statement runs on its view, waits when
another session holds a lock it needs, and ends the session when it is an error;
a script at its end commits or rolls back. -/
def Server.advance (w : Server ι β κ S R ε) (i : ℕ) (t : Session ι β κ S R ε) (new : ι) :
    Option (Server ι β κ S R ε) :=
  match t.rest with
  | .done _ => some { w with db := t.writes.over w.db, sessions := w.sessions.set i none }
  | .fail _ => some { w with sessions := w.sessions.set i none }
  | .stmt s k =>
    match exec w.ids (t.writes.over w.db) s new with
    | none => some { w with sessions := w.sessions.set i none }
    | some e =>
      if clear heldBy w.sessions i e.locks then
        some { w with
          ids := new :: w.ids
          sessions := w.sessions.set i
            (some ⟨t.held ++ e.locks, e.writes.over t.writes, k e.result⟩) }
      else none

variable [DecidableEq ι] (script : C → Txn S R ε Unit)

/-- One step of the server. -/
def Server.step (w : Server ι β κ S R ε) : Action ι C → Option (Server ι β κ S R ε)
  | .start c => some { w with sessions := w.sessions ++ [some ⟨[], Table.empty, script c⟩] }
  | .advance i new =>
    if new ∈ w.ids then none
    else
      match w.sessions[i]? with
      | some (some t) => w.advance exec i t new
      | _ => none
  | .abort i =>
    match w.sessions[i]? with
    | some (some _) => some { w with sessions := w.sessions.set i none }
    | _ => none

/-- A server with no session. -/
def Server.init (db : Table ι β) (ids : List ι) : Server ι β κ S R ε := ⟨db, ids, []⟩

/-- A condition on the statements run, on the view they are run on, as a condition
on the server's steps. -/
def onStatements (ok : Table ι β → S → Prop) (w : Server ι β κ S R ε) : Action ι C → Prop
  | .advance i _ =>
    ∀ t s k, w.sessions[i]? = some (some t) → t.rest = .stmt s k → ok (t.writes.over w.db) s
  | _ => True

instance (ok : Table ι β → S → Prop) [∀ v s, Decidable (ok v s)] (w : Server ι β κ S R ε) :
    (a : Action ι C) → Decidable (onStatements ok w a)
  | .start _ => isTrue trivial
  | .abort _ => isTrue trivial
  | .advance i new =>
    match ht : w.sessions[i]? with
    | none => isTrue fun t s k h _ => by rw [ht] at h; cases h
    | some none => isTrue fun t s k h _ => by rw [ht] at h; cases h
    | some (some t) =>
      match hr : t.rest with
      | .done _ => isTrue fun t' s k h hs => by
          rw [ht] at h
          cases h
          rw [hr] at hs
          cases hs
      | .fail _ => isTrue fun t' s k h hs => by
          rw [ht] at h
          cases h
          rw [hr] at hs
          cases hs
      | .stmt s k =>
        decidable_of_iff (ok (t.writes.over w.db) s) ⟨fun h t' s' k' ht' hs => by
          rw [ht] at ht'
          cases ht'
          rw [hr] at hs
          cases hs
          exact h, fun h => h t s k ht hr⟩

/-- What a step of the server is, by cases: nothing but the sessions' own state
changes, except at a commit. -/
theorem Server.step_cases {w w' : Server ι β κ S R ε} {a : Action ι C}
    (h : w.step exec script a = some w') :
    (∃ c, a = .start c
      ∧ w' = { w with sessions := w.sessions ++ [some ⟨[], Table.empty, script c⟩] })
      ∨ (∃ i, w' = { w with sessions := w.sessions.set i none })
      ∨ (∃ i new t s k e, a = .advance i new ∧ w.sessions[i]? = some (some t)
          ∧ t.rest = .stmt s k ∧ exec w.ids (t.writes.over w.db) s new = some e
          ∧ clear heldBy w.sessions i e.locks = true
          ∧ w' = { w with
              ids := new :: w.ids
              sessions := w.sessions.set i
                (some ⟨t.held ++ e.locks, e.writes.over t.writes, k e.result⟩) })
      ∨ (∃ i t, w.sessions[i]? = some (some t) ∧ t.rest = .done ()
          ∧ w' = { w with db := t.writes.over w.db, sessions := w.sessions.set i none }) := by
  cases a with
  | start c =>
    injection h with h
    exact .inl ⟨c, rfl, h.symm⟩
  | abort i =>
    rw [Server.step] at h
    split at h
    · injection h with h
      exact .inr (.inl ⟨i, h.symm⟩)
    · cases h
  | advance i new =>
    rw [Server.step] at h
    split at h
    · cases h
    split at h
    case h_2 => cases h
    case h_1 t ht =>
      unfold Server.advance at h
      split at h
      · rename_i hrest
        injection h with h
        exact .inr (.inr (.inr ⟨i, t, ht, hrest, h.symm⟩))
      · injection h with h
        exact .inr (.inl ⟨i, h.symm⟩)
      · rename_i s k hrest
        split at h
        · injection h with h
          exact .inr (.inl ⟨i, h.symm⟩)
        · rename_i e he
          split at h
          · rename_i hclear
            injection h with h
            exact .inr (.inr (.inl ⟨i, new, t, s, k, e, rfl, ht, hrest, he, hclear, h.symm⟩))
          · cases h

end server

/-! ## 4. Replays

`Replay db p ks ov q`: on the table `db`, the script `p` has come to `q`, holds
`ks` and has written `ov`. A statement may have run on any view that has the same
rows as `ov` over `db` under the locks it holds by then. -/

section replay

variable {ι β κ : Type} {S : Type} {R : S → Type} {ε : Type} {α γ σ : Type}
variable (exec : List ι → Table ι β → (s : S) → ι → Option (Effect ι β κ (R s)))
variable (guard : ι → κ) (ok : Table ι β → S → Prop)

inductive Replay (db : Table ι β) (p : Txn S R ε α) :
    List κ → Table ι β → Txn S R ε α → Prop
  | start : Replay db p [] Table.empty p
  | stmt {ks : List κ} {ov : Table ι β} {s : S} {k : R s → Txn S R ε α}
      (ids : List ι) (v : Table ι β) (new : ι) (e : Effect ι β κ (R s)) :
      Replay db p ks ov (.stmt s k) → ok v s → exec ids v s new = some e →
      AgreeOn guard (ks ++ e.locks) v (ov.over db) →
      Replay db p (ks ++ e.locks) (e.writes.over ov) (k e.result)

variable {exec guard ok} {p : Txn S R ε α} {Q : α → List κ → Table ι β → Prop} {db' : Table ι β}

/-- **A replay depends on the rows it has locked, and on no other.** -/
theorem Replay.congr {db : Table ι β} {q : Txn S R ε α} {ks : List κ} {ov : Table ι β}
    (h : Replay exec guard ok db p ks ov q) (hagree : AgreeOn guard ks db db') :
    Replay exec guard ok db' p ks ov q := by
  induction h with
  | start => exact .start
  | stmt ids v new e _ hok he hv ih =>
    have hbefore := ih (hagree.mono fun k hk => mem_append_left _ hk)
    exact .stmt ids v new e hbefore hok he (hv.trans (hagree.over _))

variable (exec guard ok)

/-- What a script is held to from a point on, on a view `cur`: it writes only rows
it has locked, and the view it ends with satisfies `Q`. -/
def Txn.wp (Q : α → List κ → Table ι β → Prop) :
    Txn S R ε α → List κ → Table ι β → Prop
  | .done a, ks, cur => Q a ks cur
  | .fail _, _, _ => True
  | .stmt s k, ks, cur =>
    ∀ ids v new (e : Effect ι β κ (R s)), ok v s → exec ids v s new = some e →
      AgreeOn guard (ks ++ e.locks) v cur →
      (∀ i, (e.writes i).isSome → guard i ∈ ks ++ e.locks)
        ∧ (k e.result).wp Q (ks ++ e.locks) (e.writes.over cur)

variable {exec guard ok} {db : Table ι β} {ks : List κ} {ov cur : Table ι β}

theorem Txn.wp_mono {Q' : α → List κ → Table ι β → Prop} (h : p.wp exec guard ok Q ks cur)
    (hQ : ∀ a ks' cur', Q a ks' cur' → Q' a ks' cur') : p.wp exec guard ok Q' ks cur := by
  induction p generalizing ks cur with
  | done a => exact hQ a ks cur h
  | fail e => trivial
  | stmt s k ih =>
    intro ids v new e hok he hv
    obtain ⟨hcov, hrest⟩ := h ids v new e hok he hv
    exact ⟨hcov, ih e.result hrest⟩

theorem Txn.wp_bind {Q : γ → List κ → Table ι β → Prop} {f : α → Txn S R ε γ}
    (h : p.wp exec guard ok (fun a ks' cur' => (f a).wp exec guard ok Q ks' cur') ks cur) :
    (p >>= f).wp exec guard ok Q ks cur := by
  show (p.bind f).wp exec guard ok Q ks cur
  induction p generalizing ks cur with
  | done a => exact h
  | fail e => trivial
  | stmt s k ih =>
    intro ids v new e hok he hv
    obtain ⟨hcov, hrest⟩ := h ids v new e hok he hv
    exact ⟨hcov, ih e.result hrest⟩

/-- A loop keeps what its body keeps. `I` speaks of the elements still to come. -/
theorem Txn.wp_forEach {Q : σ → List κ → Table ι β → Prop} {f : σ → α → Txn S R ε σ}
    (I : List α → σ → List κ → Table ι β → Prop)
    (hstep : ∀ a as acc ks cur, I (a :: as) acc ks cur →
      (f acc a).wp exec guard ok (fun acc' ks' cur' => I as acc' ks' cur') ks cur)
    (hend : ∀ acc ks cur, I [] acc ks cur → Q acc ks cur) (as : List α) (acc : σ)
    (h : I as acc ks cur) :
    (Txn.forEach as acc f).wp exec guard ok Q ks cur := by
  induction as generalizing acc ks cur with
  | nil => exact hend acc ks cur h
  | cons a as ih =>
    apply Txn.wp_bind
    exact Txn.wp_mono (hstep a as acc ks cur h) fun acc' ks' cur' h' => ih acc' h'

/-- A script that is held to something is still held to it where a replay has
come, and has written only what it has locked. -/
theorem Replay.wp {q : Txn S R ε α} (h : Replay exec guard ok db p ks ov q)
    (hp : p.wp exec guard ok Q [] db) :
    (∀ i, (ov i).isSome → guard i ∈ ks) ∧ q.wp exec guard ok Q ks (ov.over db) := by
  induction h with
  | start =>
    refine ⟨?_, hp⟩
    intro i hi
    cases hi
  | stmt ids v new e _ hok he hv ih =>
    obtain ⟨hcov, hwp⟩ := ih
    obtain ⟨hcov', hrest⟩ := hwp ids v new e hok he hv
    rw [Table.over_assoc]
    refine ⟨?_, hrest⟩
    intro i hi
    -- a row of the new view is one this statement wrote or one written before
    by_cases hw : (e.writes i).isSome
    · exact hcov' i hw
    · rw [Table.over_of_none (Option.not_isSome_iff_eq_none.mp hw)] at hi
      exact mem_append_left _ (hcov i hi)

/-- Replayed alone on `db`, the script commits with the value `a` and leaves `db'`. -/
def Txn.CommitsTo (exec : List ι → Table ι β → (s : S) → ι → Option (Effect ι β κ (R s)))
    (guard : ι → κ) (ok : Table ι β → S → Prop) (p : Txn S R ε α) (db : Table ι β) (a : α)
    (db' : Table ι β) : Prop :=
  ∃ ks ov, Replay exec guard ok db p ks ov (.done a) ∧ db' = ov.over db

/-- What a script is held to is true of what it commits. -/
theorem Txn.CommitsTo.wp {a : α} (h : p.CommitsTo exec guard ok db a db')
    (hp : p.wp exec guard ok Q [] db) : ∃ ks', Q a ks' db' := by
  obtain ⟨ks', ov', hreplay, rfl⟩ := h
  exact ⟨ks', (hreplay.wp hp).2⟩

/-- Run a script with nobody else about; `none` when a statement fails, or is not
`ok`, or the script rolls back. -/
def Txn.alone (exec : List ι → Table ι β → (s : S) → ι → Option (Effect ι β κ (R s)))
    (ok : Table ι β → S → Prop) [∀ v s, Decidable (ok v s)] (ids : List ι) (new : ι)
    (db : Table ι β) : Txn S R ε α → Table ι β → Option (α × Table ι β)
  | .done a, ov => some (a, ov)
  | .fail _, _ => none
  | .stmt s k, ov =>
    if ok (ov.over db) s then
      (exec ids (ov.over db) s new).bind fun e =>
        (k e.result).alone exec ok ids new db (e.writes.over ov)
    else none

/-- Then it is its own replay. -/
theorem Txn.CommitsTo.of_alone [∀ v s, Decidable (ok v s)] {ids : List ι} {new : ι} {a : α}
    {ov' : Table ι β} (h : p.alone exec ok ids new db Table.empty = some (a, ov')) :
    p.CommitsTo exec guard ok db a (ov'.over db) := by
  have hrun : ∀ (q : Txn S R ε α) ks ov, Replay exec guard ok db p ks ov q →
      q.alone exec ok ids new db ov = some (a, ov') →
      ∃ ks', Replay exec guard ok db p ks' ov' (.done a) := by
    intro q
    induction q with
    | done b =>
      intro ks ov hq hdone
      injection hdone with hdone
      injection hdone with hb hov
      subst hb hov
      exact ⟨ks, hq⟩
    | fail e =>
      intro ks ov _ hfail
      cases hfail
    | stmt s k ih =>
      intro ks ov hq hstmt
      rw [Txn.alone] at hstmt
      split at hstmt
      · rename_i hok
        obtain ⟨e, he, hrest⟩ := Option.bind_eq_some_iff.mp hstmt
        exact ih _ _ _ (.stmt ids _ new e hq hok he AgreeOn.rfl) hrest
      · cases hstmt
  obtain ⟨ks', hreplay⟩ := hrun p [] Table.empty .start h
  exact ⟨ks', ov', hreplay, rfl⟩

end replay

/-! ## 5. Every interleaving is a sequence of replays -/

section serial

variable {ι β κ : Type} {S : Type} {R : S → Type} {ε : Type} {C : Type}
variable {exec : List ι → Table ι β → (s : S) → ι → Option (Effect ι β κ (R s))}
variable {guard : ι → κ} {ok : Table ι β → S → Prop} {script : C → Txn S R ε Unit}
  {I : Table ι β → Prop}

/-- The state of a server between two statements: the committed table is good,
each session is where a replay on it would be, and no two hold a common lock. -/
structure Serial (exec : List ι → Table ι β → (s : S) → ι → Option (Effect ι β κ (R s)))
    (guard : ι → κ) (ok : Table ι β → S → Prop) (script : C → Txn S R ε Unit)
    (I : Table ι β → Prop) (w : Server ι β κ S R ε) : Prop where
  good : I w.db
  replay : ∀ (i : ℕ) (t : Session ι β κ S R ε), w.sessions[i]? = some (some t) →
    ∃ c, Replay exec guard ok w.db (script c) t.held t.writes t.rest
  excl : ∀ (i j : ℕ) (t u : Session ι β κ S R ε), w.sessions[i]? = some (some t) →
    w.sessions[j]? = some (some u) → i ≠ j → ∀ k ∈ t.held, k ∉ u.held

theorem Serial.init {db : Table ι β} (ids : List ι) (h : I db) :
    Serial exec guard ok script I (Server.init db ids) := by
  refine ⟨h, ?_, ?_⟩
  · intro i t ht
    cases ht
  · intro i j t u ht
    cases ht

variable {i : ℕ} {w : Server ι β κ S R ε} {α : Type} {xs : List α} {t : Session ι β κ S R ε}

/-- What stands in a list one of whose places was filled anew. -/
theorem getElem?_set_cases {x y : α} (h : (xs.set i x)[j]? = some y) :
    (j = i ∧ y = x) ∨ (j ≠ i ∧ xs[j]? = some y) := by
  rw [getElem?_set] at h
  by_cases hij : i = j
  · rw [if_pos hij] at h
    split at h
    · exact .inl ⟨hij.symm, (Option.some.inj h).symm⟩
    · cases h
  · rw [if_neg hij] at h
    exact .inr ⟨Ne.symm hij, h⟩

theorem getElem?_concat_cases {x y : α} (h : (xs ++ [x])[j]? = some y) :
    xs[j]? = some y ∨ j = xs.length ∧ y = x := by
  rcases Nat.lt_or_ge j xs.length with hj | hj
  · rw [getElem?_append_left hj] at h
    exact .inl h
  · have hlen := (List.getElem?_eq_some_iff.mp h).1
    rw [length_append, length_singleton] at hlen
    rw [getElem?_append_right hj] at h
    exact .inr ⟨by omega, mem_singleton.mp (mem_of_getElem? h)⟩

/-- The sessions left when one has ended. -/
theorem getElem?_set_none {ss : List (Option α)} {t : α}
    (h : (ss.set i none)[j]? = some (some t)) : j ≠ i ∧ ss[j]? = some (some t) := by
  rcases getElem?_set_cases h with ⟨-, h⟩ | h
  · cases h
  · exact h

section

variable (h : Serial exec guard ok script I w)
include h

/-- A session that ends without committing leaves everything as it is. -/
theorem Serial.leave (i : ℕ) :
    Serial exec guard ok script I { w with sessions := w.sessions.set i none } := by
  refine ⟨h.good, ?_, ?_⟩
  · intro j t ht
    exact h.replay j t (getElem?_set_none ht).2
  · intro j j' t u ht hu
    exact h.excl j j' t u (getElem?_set_none ht).2 (getElem?_set_none hu).2

theorem Serial.begin (c : C) :
    Serial exec guard ok script I
      { w with sessions := w.sessions ++ [some ⟨[], Table.empty, script c⟩] } := by
  refine ⟨h.good, ?_, ?_⟩
  · intro j t ht
    rcases getElem?_concat_cases ht with ht | ⟨-, ht⟩
    · exact h.replay j t ht
    · cases ht
      exact ⟨c, .start⟩
  · intro j j' t u ht hu hne k hk
    rcases getElem?_concat_cases ht with ht | ⟨-, ht⟩
    · rcases getElem?_concat_cases hu with hu | ⟨-, hu⟩
      · exact h.excl j j' t u ht hu hne k hk
      · cases hu
        exact not_mem_nil
    · cases ht
      exact absurd hk not_mem_nil

/-- A commit changes no row that another session has locked. -/
theorem Serial.agree {u : Session ι β κ S R ε}
    (ht : w.sessions[i]? = some (some t)) (hu : w.sessions[j]? = some (some u)) (hne : j ≠ i)
    (hcov : ∀ r, (t.writes r).isSome → guard r ∈ t.held) :
    AgreeOn guard u.held w.db (t.writes.over w.db) := by
  intro r hr
  by_cases hw : (t.writes r).isSome
  · exact absurd (hcov r hw) (h.excl j i u t hu ht hne _ hr)
  · rw [Table.over_of_none (Option.not_isSome_iff_eq_none.mp hw)]

end

variable [DecidableEq κ]

/-- A statement that does not have to wait. -/
theorem Serial.statement (h : Serial exec guard ok script I w) {new : ι}
    {s : S} {k : R s → Txn S R ε Unit} {e : Effect ι β κ (R s)}
    (ht : w.sessions[i]? = some (some t)) (hrest : t.rest = .stmt s k)
    (hok : ok (t.writes.over w.db) s) (he : exec w.ids (t.writes.over w.db) s new = some e)
    (hclear : clear heldBy w.sessions i e.locks = true) :
    Serial exec guard ok script I
      { w with
        ids := new :: w.ids
        sessions := w.sessions.set i
          (some ⟨t.held ++ e.locks, e.writes.over t.writes, k e.result⟩) } := by
  refine ⟨h.good, ?_, ?_⟩
  · intro j u hu
    rcases getElem?_set_cases hu with ⟨rfl, hnew⟩ | ⟨_, hu⟩
    · cases hnew
      obtain ⟨c, hc⟩ := h.replay j t ht
      rw [hrest] at hc
      -- the view it ran on is the one it has, so every row of it is exact
      exact ⟨c, .stmt w.ids _ new e hc hok he AgreeOn.rfl⟩
    · exact h.replay j u hu
  · intro j j' u u' hu hu' hne k hk
    rcases getElem?_set_cases hu with ⟨rfl, hnew⟩ | ⟨hji, hj⟩
    · cases hnew
      rcases getElem?_set_cases hu' with ⟨rfl, -⟩ | ⟨hji, hj'⟩
      · exact absurd rfl hne
      · rcases mem_append.mp hk with hk | hk
        · exact h.excl _ j' t u' ht hj' hne k hk
        · exact not_mem_of_clear hclear hj' hji k hk
    · rcases getElem?_set_cases hu' with ⟨rfl, hnew⟩ | ⟨_, hj'⟩
      · cases hnew
        intro hk'
        rcases mem_append.mp hk' with hk' | hk'
        · exact h.excl j _ u t hj ht hne k hk hk'
        · exact not_mem_of_clear hclear hj hji k hk' hk
      · exact h.excl j j' u u' hj hj' hne k hk

variable [DecidableEq ι]

/-- **One step.** The server stays serial, and a change of the committed table is
what some script, replayed on that table, commits. -/
theorem Serial.step (hscript : ∀ c db, I db → (script c).wp exec guard ok (fun _ _ db' => I db')
      [] db)
    {w' : Server ι β κ S R ε} {a : Action ι C} (h : Serial exec guard ok script I w)
    (hok : onStatements ok w a) (hstep : w.step exec script a = some w') :
    Serial exec guard ok script I w'
      ∧ (w'.db = w.db ∨ ∃ c, (script c).CommitsTo exec guard ok w.db () w'.db) := by
  rcases Server.step_cases exec script hstep with
    ⟨c, -, rfl⟩ | ⟨i, rfl⟩ | ⟨i, new, t, s, k, e, rfl, ht, hrest, he, hclear, rfl⟩
      | ⟨i, t, ht, hrest, rfl⟩
  · exact ⟨h.begin c, .inl rfl⟩
  · exact ⟨h.leave i, .inl rfl⟩
  · exact ⟨h.statement ht hrest (hok t s k ht hrest) he hclear, .inl rfl⟩
  · obtain ⟨c, hc⟩ := h.replay i t ht
    obtain ⟨hcov, hwp⟩ := hc.wp (hscript c w.db h.good)
    rw [hrest] at hwp hc
    refine ⟨⟨hwp, ?_, ?_⟩, .inr ⟨c, t.held, t.writes, hc, rfl⟩⟩
    · intro j u hu
      obtain ⟨hne, hu⟩ := getElem?_set_none hu
      obtain ⟨c', hc'⟩ := h.replay j u hu
      exact ⟨c', hc'.congr (h.agree ht hu hne hcov)⟩
    · intro j j' u u' hu hu'
      exact h.excl j j' u u' (getElem?_set_none hu).2 (getElem?_set_none hu').2

/-- **Every run.** Whatever the interleaving, the committed table goes through the
commits of scripts replayed alone. -/
theorem Serial.run (hscript : ∀ c db, I db → (script c).wp exec guard ok (fun _ _ db' => I db')
      [] db)
    {w' : Server ι β κ S R ε} (h : Serial exec guard ok script I w)
    (hrun : Run (Server.step exec script) (onStatements ok) w w') : Serial exec guard ok script I w'
      ∧ Relation.ReflTransGen (fun db db' => ∃ c, (script c).CommitsTo exec guard ok db () db') w.db
      w'.db := by
  induction hrun with
  | refl => exact ⟨h, .refl⟩
  | step a _ hok hs ih =>
    obtain ⟨hserial, hchain⟩ := ih
    obtain ⟨hserial', hdb⟩ := hserial.step hscript hok hs
    refine ⟨hserial', ?_⟩
    rcases hdb with hdb | hdb
    · rw [hdb]
      exact hchain
    · exact hchain.tail hdb

end serial

end Postroom.Lib
