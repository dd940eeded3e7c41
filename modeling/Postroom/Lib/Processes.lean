/-
Processes that share a table, run statement by statement.

A process is a script of two kinds of operations: a statement on its own, which
commits at once, and a whole transaction. The statements of a transaction see the
committed table under its own writes, take locks that are held until it ends, and
their writes become visible at its commit. Between any two statements of a process
others run theirs, the surroundings (a clock, an answer from outside) change, and
any process may stop for good. What a process keeps between two operations may be
stale by the next one.

The rule is rely and guarantee with locks. `good` is what every committed table
satisfies and `rely` what the changes of others keep; while a process holds locks,
the rows they guard do not change either. A script is gone through once, with
everything that others may do in between universally quantified (`Txn.holds`,
`Proc.safe`), and `Sound.run` says that this is enough for every interleaving.

A process has a number, and what it may rely on can depend on it (`Team`), so a row
can be in the hands of one process without being locked. A statement of a transaction
may change something outside of it at once (`Aside`).

Nothing here knows what a row is or what the statements are.
-/
import Postroom.Lib.Transactions

set_option autoImplicit false

namespace Postroom.Lib

open List

/-! ## 1. Processes -/

/-- What a process does next: a statement on its own, or a transaction. -/
inductive Op (S C : Type)
  | now (s : S)
  | txn (c : C)

/-- What the process gets back. -/
def Op.Result {S C : Type} (R : S → Type) (A : C → Type) (ε : Type) : Op S C → Type
  | .now s => R s
  | .txn c => Except ε (A c)

/-- A process that ends with a value, or with an error. -/
abbrev Proc (S : Type) (R : S → Type) (C : Type) (A : C → Type) (ε α : Type) : Type :=
  Txn (Op S C) (Op.Result R A ε) ε α

section scripts

variable {S : Type} {R : S → Type} {C : Type} {A : C → Type} {ε : Type}

/-- A statement on its own. -/
def Proc.ask (s : S) : Proc S R C A ε (R s) := .stmt (.now s) .done

/-- A transaction; the process goes on with its value or its error. -/
def Proc.attempt (c : C) : Proc S R C A ε (Except ε (A c)) := .stmt (.txn c) .done

/-- A transaction; its error is the process's. -/
def Proc.transact (c : C) : Proc S R C A ε (A c) :=
  .stmt (.txn c) fun
    | .ok a => .done a
    | .error e => .fail e

end scripts

/-- Rows that are written at once, and locks nobody else may hold at that moment. -/
structure Aside (ι β κ : Type) where
  writes : Table ι β
  locks : List κ

/-- Statements change nothing outside their transaction. -/
def noAside {ι β κ S : Type} : Table ι β → S → Aside ι β κ := fun _ _ => ⟨Table.empty, []⟩

/-- What the processes run on, and what a call of each kind runs. -/
structure System (ι β κ S : Type) (R : S → Type) (C : Type) (A : C → Type) (ε P α X : Type) where
  exec : Table ι β → (s : S) → Option (Effect ι β κ (R s))
  /-- What a statement of a transaction changes outside of it: a file, a row that is
  written over another connection. -/
  aside : Table ι β → S → Aside ι β κ
  script : (c : C) → Txn S R ε (A c)
  /-- The error of a transaction one of whose statements failed. -/
  broken : ε
  /-- The script of a call, by the number of its process. -/
  body : ℕ → P → Proc S R C A ε α
  /-- What the surroundings do. -/
  env : X → Table ι β → Option (Table ι β)

/-- Where a process is. -/
inductive Slot (ι β κ S : Type) (R : S → Type) (C : Type) (A : C → Type) (ε α : Type)
  | idle (p : Proc S R C A ε α)
  | inside (c : C) (held : List κ) (writes : Table ι β) (rest : Txn S R ε (A c))
      (k : Except ε (A c) → Proc S R C A ε α)
  | over (a : Option α)

/-- A call, the table it was made on, and where it is. -/
structure Process (ι β κ S : Type) (R : S → Type) (C : Type) (A : C → Type) (ε P α : Type) where
  call : P
  born : Table ι β
  slot : Slot ι β κ S R C A ε α

/-- The committed table and the processes. -/
structure World (ι β κ S : Type) (R : S → Type) (C : Type) (A : C → Type) (ε P α : Type) where
  db : Table ι β
  procs : List (Process ι β κ S R C A ε P α)

/-- What can happen next. -/
inductive Act (P X : Type)
  | call (p : P)
  | step (i : ℕ)
  | crash (i : ℕ)
  | env (x : X)

/-- What a process is about to do to the table. -/
inductive Moment (S C : Type)
  | stmt (s : S)
  | commit (c : C)

section world

variable {ι β κ S : Type} {R : S → Type} {C : Type} {A : C → Type} {ε P α X : Type}

/-- The locks held in a slot. -/
def Slot.held : Slot ι β κ S R C A ε α → List κ
  | .inside _ held _ _ _ => held
  | _ => []

/-- The `i`-th process is now in the given slot. -/
def World.put (w : World ι β κ S R C A ε P α) (i : ℕ) (p : Process ι β κ S R C A ε P α)
    (s : Slot ι β κ S R C A ε α) : World ι β κ S R C A ε P α :=
  { w with procs := w.procs.set i { p with slot := s } }

/-- What the `i`-th process is about to do, and its own view of the table. -/
def World.next (w : World ι β κ S R C A ε P α) (i : ℕ) : Option (Table ι β × Moment S C) :=
  (w.procs[i]?).bind fun p =>
    match p.slot with
    | .idle (.stmt (.now s) _) => some (w.db, .stmt s)
    | .inside _ _ writes (.stmt s _) _ => some (writes.over w.db, .stmt s)
    | .inside c _ _ (.done _) _ => some (w.db, .commit c)
    | _ => none

/-- A condition on what is about to be done, if anything is, on the committed table
and on the view. -/
def Moment.meets (ok : Table ι β → Table ι β → Moment S C → Prop) (db : Table ι β) :
    Option (Table ι β × Moment S C) → Prop
  | some (v, m) => ok db v m
  | none => True

instance (ok : Table ι β → Table ι β → Moment S C → Prop) [∀ db v m, Decidable (ok db v m)]
    (db : Table ι β) :
    (o : Option (Table ι β × Moment S C)) → Decidable (Moment.meets ok db o)
  | some (v, m) => inferInstanceAs (Decidable (ok db v m))
  | none => isTrue trivial

/-- A condition on the view alone. -/
abbrev onView (ok : Table ι β → Moment S C → Prop) : Table ι β → Table ι β → Moment S C → Prop :=
  fun _ => ok

/-- The same as a condition on steps. -/
def World.meets (ok : Table ι β → Table ι β → Moment S C → Prop) (w : World ι β κ S R C A ε P α) :
    Act P X → Prop
  | .step i => Moment.meets ok w.db (w.next i)
  | _ => True

instance (ok : Table ι β → Table ι β → Moment S C → Prop) [∀ db v m, Decidable (ok db v m)]
    (w : World ι β κ S R C A ε P α) :
    (a : Act P X) → Decidable (w.meets ok a)
  | .call _ => isTrue trivial
  | .crash _ => isTrue trivial
  | .env _ => isTrue trivial
  | .step i => inferInstanceAs (Decidable (Moment.meets ok w.db (w.next i)))

/-- A condition that is asked for only under the assumption `p`. -/
def under (p : Prop) (ok : Table ι β → Table ι β → Moment S C → Prop) :
    Table ι β → Table ι β → Moment S C → Prop :=
  fun db v m => p → ok db v m

theorem World.meets_of_forall {ok : Table ι β → Table ι β → Moment S C → Prop}
    (h : ∀ db v m, ok db v m)
    (w : World ι β κ S R C A ε P α) (a : Act P X) : w.meets ok a := by
  cases a with
  | step i =>
    show Moment.meets ok w.db (w.next i)
    cases w.next i with
    | none => trivial
    | some o => exact h _ _ _
  | call p | crash i | env x => trivial

theorem World.meets_imp {ok ok' : Table ι β → Table ι β → Moment S C → Prop}
    (h : ∀ db v m, ok db v m → ok' db v m)
    (w : World ι β κ S R C A ε P α) (a : Act P X) (hok : w.meets ok a) : w.meets ok' a := by
  cases a with
  | step i =>
    have hnext : Moment.meets ok w.db (w.next i) := hok
    show Moment.meets ok' w.db (w.next i)
    cases hn : w.next i with
    | none => trivial
    | some o =>
      rw [hn] at hnext
      exact h _ _ _ hnext
  | call p | crash i | env x => trivial

variable [DecidableEq κ]

/-- No process but the `i`-th holds a lock of `ks`. -/
abbrev World.clear (w : World ι β κ S R C A ε P α) (i : ℕ) (ks : List κ) : Bool :=
  Lib.clear (·.slot.held) w.procs i ks

variable (sys : System ι β κ S R C A ε P α X)

/-- The `i`-th process goes on. A statement whose locks another process holds waits. -/
def World.advance (w : World ι β κ S R C A ε P α) (i : ℕ) (p : Process ι β κ S R C A ε P α) :
    Option (World ι β κ S R C A ε P α) :=
  match p.slot with
  | .over _ => none
  | .idle (.done a) => some (w.put i p (.over (some a)))
  | .idle (.fail _) => some (w.put i p (.over none))
  | .idle (.stmt (.now s) k) =>
    match sys.exec w.db s with
    | none => some (w.put i p (.over none))
    | some e =>
      if w.clear i e.locks then
        some { w.put i p (.idle (k e.result)) with db := e.writes.over w.db } else none
  | .idle (.stmt (.txn c) k) => some (w.put i p (.inside c [] Table.empty (sys.script c) k))
  | .inside _ _ writes (.done a) k =>
    some { w.put i p (.idle (k (.ok a))) with db := writes.over w.db }
  | .inside _ _ _ (.fail e) k => some (w.put i p (.idle (k (.error e))))
  | .inside c held writes (.stmt s rest) k =>
    match sys.exec (writes.over w.db) s with
    | none => some (w.put i p (.idle (k (.error sys.broken))))
    | some e =>
      let aside := sys.aside (writes.over w.db) s
      if w.clear i (e.locks ++ aside.locks) then
        some { w.put i p (.inside c (held ++ e.locks) (e.writes.over writes) (rest e.result) k) with
          db := aside.writes.over w.db }
      else none

/-- One step of the whole. -/
def World.step (w : World ι β κ S R C A ε P α) : Act P X → Option (World ι β κ S R C A ε P α)
  | .call p => some { w with procs := w.procs ++ [⟨p, w.db, .idle (sys.body w.procs.length p)⟩] }
  | .step i => (w.procs[i]?).bind fun p => w.advance sys i p
  | .crash i => (w.procs[i]?).map fun p => w.put i p (.over none)
  | .env x => (sys.env x w.db).map fun db => { w with db := db }

end world

/-! ## 2. What a script is held to -/

/-- How a process uses the table: the locks that guard each row (whoever writes it
holds them all; whoever holds one of them knows it does not change), what every
committed table satisfies, what one change by this process is, what any number of
changes by others keep and what any number of changes by anybody keep. -/
structure Rules (ι β κ S : Type) where
  guard : ι → List κ
  good : Table ι β → Prop
  step : Table ι β → Table ι β → Prop
  rely : Table ι β → Table ι β → Prop
  later : Table ι β → Table ι β → Prop
  same : ∀ db, step db db
  refl : ∀ db, rely db db
  trans : ∀ {a b c}, rely a b → rely b c → rely a c
  one : ∀ {a b}, step a b → later a b
  others : ∀ {a b}, rely a b → later a b
  all : ∀ {a b c}, later a b → later b c → later a c

section rules

variable {ι β κ S : Type} {R : S → Type} {C : Type} {A : C → Type} {ε P α γ σ X : Type}

/-- Two tables have the same rows wherever a lock of `ks` guards them. -/
def KeepOn (guard : ι → List κ) (ks : List κ) (a b : Table ι β) : Prop :=
  ∀ i, ∀ k ∈ guard i, k ∈ ks → a i = b i

/-- What others may have done to the table meanwhile, while the locks `ks` are held. -/
structure Rules.Others (rules : Rules ι β κ S) (ks : List κ) (db db' : Table ι β) : Prop where
  rely : rules.rely db db'
  good : rules.good db'
  agree : KeepOn rules.guard ks db db'

/-- A change that takes effect at once, made while the locks `ks` are held. -/
structure Rules.Allows (rules : Rules ι β κ S) (ks : List κ) (writes : Table ι β) (db : Table ι β) :
    Prop where
  covered : ∀ i, (writes i).isSome → rules.guard i ⊆ ks
  good : rules.good (writes.over db)
  step : rules.step db (writes.over db)

variable (rules : Rules ι β κ S)
variable (exec : Table ι β → (s : S) → Option (Effect ι β κ (R s)))
  (aside : Table ι β → S → Aside ι β κ)
variable (broken : ε) (ok : Table ι β → Table ι β → Moment S C → Prop)

/-- What a transaction is held to from a point on: it writes only rows it has
locked, `post` holds where it comes to its end and `err` where it fails. -/
def Txn.holds (post : α → List κ → Table ι β → Table ι β → Prop) (err : ε → Table ι β → Prop) :
    Txn S R ε α → List κ → Table ι β → Table ι β → Prop
  | .done a, ks, ov, db => post a ks ov db
  | .fail e, ks, _, db => ∀ db', rules.Others ks db db' → err e db'
  | .stmt s k, ks, ov, db => ∀ db', rules.Others ks db db' → ok db' (ov.over db') (.stmt s) →
      (exec (ov.over db') s = none → err broken db') ∧
      (∀ e, exec (ov.over db') s = some e →
        (∀ i, (e.writes i).isSome → rules.guard i ⊆ ks ++ e.locks)
          ∧ rules.Allows (ks ++ e.locks ++ (aside (ov.over db') s).locks)
          (aside (ov.over db') s).writes db'
          ∧ (k e.result).holds post err (ks ++ e.locks) (e.writes.over ov)
          ((aside (ov.over db') s).writes.over db'))

/-- At its end a transaction commits, some time later. -/
def commits (c : C) (Q : α → Table ι β → Prop) (a : α) (ks : List κ) (ov db : Table ι β) : Prop :=
  ∀ db', rules.Others ks db db' → ok db' db' (.commit c) →
    rules.good (ov.over db') ∧ rules.step db' (ov.over db') ∧ Q a (ov.over db')

/-- What a process is held to from a point on. -/
def Proc.safe (script : (c : C) → Txn S R ε (A c)) (Q : α → Table ι β → Prop) :
    Proc S R C A ε α → Table ι β → Prop
  | .done a, db => ∀ db', rules.Others [] db db' → Q a db'
  | .fail _, _ => True
  | .stmt (.now s) k, db => ∀ db', rules.Others [] db db' → ok db' db' (.stmt s) →
      ∀ e, exec db' s = some e →
        rules.Allows e.locks e.writes db' ∧ Proc.safe script Q (k e.result) (e.writes.over db')
  | .stmt (.txn c) k, db => ∀ db', rules.Others [] db db' →
      (script c).holds rules exec aside broken ok
        (commits rules ok c fun a db => Proc.safe script Q (k (.ok a)) db)
        (fun e db => Proc.safe script Q (k (.error e)) db) [] Table.empty db'

variable {rules exec aside broken ok} {guard : ι → List κ} {a b : Table ι β} {p : Txn S R ε α}
variable {F : Table ι β → Prop} {err' err : ε → Table ι β → Prop} {Q Q' : α → Table ι β → Prop}

theorem KeepOn.rfl {ks : List κ} : KeepOn guard ks a a :=
  fun _ _ _ _ => Eq.refl _

theorem KeepOn.trans {ks : List κ} {c : Table ι β} (h : KeepOn guard ks a b)
    (h' : KeepOn guard ks b c) : KeepOn guard ks a c :=
  fun i k hk hks => (h i k hk hks).trans (h' i k hk hks)

theorem KeepOn.of_unlocked {ks : List κ} {writes db : Table ι β}
    (h : ∀ i, (writes i).isSome → ∀ k ∈ guard i, k ∉ ks) : KeepOn guard ks db (writes.over db) := by
  intro i k hk hks
  have hnone : writes i = none := by
    by_contra hne
    exact h i (Option.isSome_iff_ne_none.mpr hne) k hk hks
  exact (Table.over_of_none hnone).symm

/-- A change of one row is covered by the locks of this row. -/
theorem covered_single [DecidableEq ι] {ks : List κ} {i : ι} {b : β} (h : guard i ⊆ ks) :
    ∀ j, (Table.single i b j).isSome → guard j ⊆ ks := by
  intro j hj
  rwa [Table.eq_of_single hj]

theorem Rules.Others.refl {ks : List κ} {db : Table ι β} (h : rules.good db) :
    rules.Others ks db db :=
  ⟨rules.refl db, h, KeepOn.rfl⟩

theorem Rules.Others.trans {ks : List κ} {c : Table ι β} (h : rules.Others ks a b)
    (h' : rules.Others ks b c) : rules.Others ks a c :=
  ⟨rules.trans h.rely h'.rely, h'.good, h.agree.trans h'.agree⟩

theorem Rules.Others.mono {ks ks' : List κ} (h : rules.Others ks' a b) (hsub : ∀ k ∈ ks, k ∈ ks') :
    rules.Others ks a b :=
  ⟨h.rely, h.good, fun i k hk hks => h.agree i k hk (hsub k hks)⟩

section transactions

variable {post post' : α → List κ → Table ι β → Table ι β → Prop} {err : ε → Table ι β → Prop}
variable {ks : List κ} {ov db : Table ι β} {p : Txn S R ε α}

/-- What a transaction ends with may be weakened, with the help of anything that every
change keeps. -/
theorem Txn.holds_imp
    (hF : ∀ {a b}, rules.later a b → F a → F b)
    (h : p.holds rules exec aside broken ok post err ks ov db)
    (hdb : F db) (hpost : ∀ a ks ov db, F db → post a ks ov db → post' a ks ov db)
    (herr : ∀ e db, rules.good db → F db → err e db → err' e db) :
    p.holds rules exec aside broken ok post' err' ks ov db := by
  induction p generalizing ks ov db with
  | done a => exact hpost _ _ _ _ hdb h
  | fail e => exact fun db' ho => herr _ _ ho.good (hF (rules.others ho.rely) hdb) (h db' ho)
  | stmt s k ih =>
    intro db' ho hok
    obtain ⟨hnone, hsome⟩ := h db' ho hok
    have hdb' := hF (rules.others ho.rely) hdb
    refine ⟨fun hn => herr _ _ ho.good hdb' (hnone hn), fun e he => ?_⟩
    obtain ⟨hcov, haside, hrest⟩ := hsome e he
    exact ⟨hcov, haside, ih e.result hrest (hF (rules.one haside.step) hdb')⟩

theorem Txn.holds_mono (h : p.holds rules exec aside broken ok post err ks ov db)
    (hpost : ∀ a ks ov db, post a ks ov db → post' a ks ov db) :
    p.holds rules exec aside broken ok post' err ks ov db :=
  Txn.holds_imp (F := fun _ => True) (fun _ _ => trivial) h trivial
    (fun a ks ov db _ => hpost a ks ov db)
    fun _ _ _ _ he => he

theorem Txn.holds_bind {f : α → Txn S R ε γ}
    {post : γ → List κ → Table ι β → Table ι β → Prop} (h : p.holds rules exec aside broken ok
      (fun a ks ov db => (f a).holds rules exec aside broken ok post err ks ov db) err ks ov db) :
    (p >>= f).holds rules exec aside broken ok post err ks ov db := by
  induction p generalizing ks ov db with
  | done a => exact h
  | fail e => exact h
  | stmt s k ih =>
    intro db' ho hok
    obtain ⟨hnone, hsome⟩ := h db' ho hok
    refine ⟨hnone, fun e he => ?_⟩
    obtain ⟨hcov, haside, hrest⟩ := hsome e he
    exact ⟨hcov, haside, ih e.result hrest⟩

/-- A loop keeps what its body keeps. `J` speaks of the elements still to come. -/
theorem Txn.holds_forEach {f : σ → α → Txn S R ε σ}
    {post : σ → List κ → Table ι β → Table ι β → Prop}
    (J : List α → σ → List κ → Table ι β → Table ι β → Prop)
    (hstep : ∀ a as acc ks ov db, J (a :: as) acc ks ov db →
      (f acc a).holds rules exec aside broken ok
      (fun acc' ks ov db => J as acc' ks ov db) err ks ov db)
    (hend : ∀ acc ks ov db, J [] acc ks ov db → post acc ks ov db)
    (as : List α) (acc : σ) (h : J as acc ks ov db) :
    (Txn.forEach as acc f).holds rules exec aside broken ok post err ks ov db := by
  induction as generalizing acc ks ov db with
  | nil => exact hend acc ks ov db h
  | cons a as ih =>
    apply Txn.holds_bind
    exact Txn.holds_mono (hstep a as acc ks ov db h) fun acc' ks ov db h' => ih acc' h'

theorem commits_mono {c : C} {a : α} (h : commits rules ok c Q a ks ov db)
    (hQ : ∀ db, Q a db → Q' a db) : commits rules ok c Q' a ks ov db := by
  intro db' ho hok
  obtain ⟨hgood, hone, hq⟩ := h db' ho hok
  exact ⟨hgood, hone, hQ _ hq⟩

theorem Rules.allows_nothing {rules : Rules ι β κ S} {ks : List κ} {db : Table ι β}
    (h : rules.good db) :
    rules.Allows ks Table.empty db := by
  refine ⟨nofun, ?_, ?_⟩
  · exact h
  · exact rules.same db

/-- One statement that changes nothing outside. -/
theorem Txn.holds_exec {s : S} {post : R s → List κ → Table ι β → Table ι β → Prop}
    (haside : ∀ v, aside v s = ⟨Table.empty, []⟩)
    (hnone : ∀ db', rules.Others ks db db' → exec (ov.over db') s = none → err broken db')
    (h : ∀ db' e, rules.Others ks db db' → ok db' (ov.over db') (.stmt s) →
      exec (ov.over db') s = some e →
      (∀ i, (e.writes i).isSome → rules.guard i ⊆ ks ++ e.locks)
        ∧ post e.result (ks ++ e.locks) (e.writes.over ov) db') :
    (Txn.exec s : Txn S R ε (R s)).holds rules exec aside broken ok post err ks ov db := by
  intro db' ho hok
  refine ⟨hnone db' ho, fun e he => ?_⟩
  obtain ⟨hcov, hpost⟩ := h db' e ho hok he
  rw [haside]
  refine ⟨hcov, Rules.allows_nothing ho.good, ?_⟩
  exact hpost

/-- A statement that only looks, though it may take locks, and what follows. -/
theorem Txn.holds_looking {s : S} {f : R s → Txn S R ε α} (look : Table ι β → R s) {locks : List κ}
    (haside : ∀ v, aside v s = ⟨Table.empty, []⟩)
    (hlook : ∀ v, exec v s = some ⟨look v, Table.empty, locks⟩)
    (h : ∀ db', rules.Others ks db db' → ok db' (ov.over db') (.stmt s) →
      (f (look (ov.over db'))).holds rules exec aside broken ok post err (ks ++ locks) ov db') :
    (Txn.exec s >>= f).holds rules exec aside broken ok post err ks ov db := by
  refine Txn.holds_bind (Txn.holds_exec haside ?_ ?_)
  · intro db' _ hnone
    rw [hlook] at hnone
    cases hnone
  · intro db' e ho hok he
    rw [hlook] at he
    cases he
    exact ⟨nofun, h db' ho hok⟩

end transactions

/-- Where a process is safe, it still is after others have run. -/
theorem Proc.safe_others {script : (c : C) → Txn S R ε (A c)}
    {p : Proc S R C A ε α} {db db' : Table ι β} (h : p.safe rules exec aside broken ok script Q db)
    (ho : rules.Others [] db db') : p.safe rules exec aside broken ok script Q db' := by
  cases p with
  | done a => exact fun db'' ho' => h db'' (ho.trans ho')
  | fail e => trivial
  | stmt o k =>
    cases o with
    | now s | txn c => exact fun db'' ho' => h db'' (ho.trans ho')

/-- The same inside a transaction, as long as the locks are held. -/
theorem Txn.holds_others {c : C} {ks : List κ} {ov db db' : Table ι β}
    (h : p.holds rules exec aside broken ok (commits rules ok c Q) err ks ov db)
    (ho : rules.Others ks db db') :
    p.holds rules exec aside broken ok (commits rules ok c Q) err ks ov db' := by
  cases p with
  | done a | fail e | stmt s k => exact fun db'' ho' => h db'' (ho.trans ho')

/-- The same for a transaction that commits. -/
theorem Txn.holds_commits_imp {c : C}
    (hF : ∀ {a b}, rules.later a b → F a → F b) {ks : List κ} {ov db : Table ι β}
    (h : p.holds rules exec aside broken ok (commits rules ok c Q) err ks ov db) (hdb : F db)
    (hQ : ∀ a db, rules.good db → F db → Q a db → Q' a db)
    (herr : ∀ e db, rules.good db → F db → err e db → err' e db) :
    p.holds rules exec aside broken ok (commits rules ok c Q') err' ks ov db := by
  refine Txn.holds_imp hF h hdb ?_ herr
  intro a ks ov db hdb hcommits db' ho hok
  obtain ⟨hgood, hone, hq⟩ := hcommits db' ho hok
  exact ⟨hgood, hone, hQ _ _ hgood (hF (rules.one hone) (hF (rules.others ho.rely) hdb)) hq⟩

section processes

variable {script : (c : C) → Txn S R ε (A c)} {Q : α → Table ι β → Prop} {db : Table ι β}
  {p : Proc S R C A ε α}

/-- What a process ends with may be weakened in the same way. -/
theorem Proc.safe_imp (hF : ∀ {a b}, rules.later a b → F a → F b)
    (h : p.safe rules exec aside broken ok script Q db) (hdb : F db)
    (hQ : ∀ a db, rules.good db → F db → Q a db → Q' a db) :
    p.safe rules exec aside broken ok script Q' db := by
  induction p generalizing db with
  | done a => exact fun db' ho => hQ _ _ ho.good (hF (rules.others ho.rely) hdb) (h db' ho)
  | fail e => trivial
  | stmt o k ih =>
    cases o with
    | now s =>
      intro db' ho hok e he
      obtain ⟨hallows, hrest⟩ := h db' ho hok e he
      exact ⟨hallows, ih e.result hrest
        (hF (rules.one hallows.step) (hF (rules.others ho.rely) hdb))⟩
    | txn c =>
      intro db' ho
      exact Txn.holds_commits_imp hF (h db' ho) (hF (rules.others ho.rely) hdb)
        (fun a db _ hdb ha => ih (.ok a) ha hdb) fun e db _ hdb he => ih (.error e) he hdb

theorem Proc.safe_mono (h : p.safe rules exec aside broken ok script Q db)
    (hQ : ∀ a db, rules.good db → Q a db → Q' a db) :
    p.safe rules exec aside broken ok script Q' db :=
  Proc.safe_imp (F := fun _ => True) (fun _ _ => trivial) h trivial fun a db hgood _ =>
    hQ a db hgood

theorem Proc.safe_bind {f : α → Proc S R C A ε γ} {Q : γ → Table ι β → Prop} (hgood : rules.good db)
    (h : p.safe rules exec aside broken ok script
      (fun a db => (f a).safe rules exec aside broken ok script Q db) db) :
    (p >>= f).safe rules exec aside broken ok script Q db := by
  induction p generalizing db with
  | done a => exact h db (.refl hgood)
  | fail e => trivial
  | stmt o k ih =>
    cases o with
    | now s =>
      intro db' ho hok e he
      obtain ⟨hallows, hrest⟩ := h db' ho hok e he
      exact ⟨hallows, ih e.result hallows.good hrest⟩
    | txn c =>
      intro db' ho
      exact Txn.holds_commits_imp (F := fun _ => True) (fun _ _ => trivial) (h db' ho) trivial
        (fun a db hg _ ha => ih (.ok a) hg ha) fun e db hg _ he => ih (.error e) hg he

/-- A loop keeps what its body keeps. `J` speaks of the elements still to come. -/
theorem Proc.safe_forEach {f : σ → α → Proc S R C A ε σ} {Q : σ → Table ι β → Prop}
    (J : List α → σ → Table ι β → Prop) (hstep : ∀ a as acc db, rules.good db → J (a :: as) acc db →
      (f acc a).safe rules exec aside broken ok script (fun acc' db => J as acc' db) db)
    (hend : ∀ acc db db', J [] acc db → rules.Others [] db db' → Q acc db')
    (as : List α) (acc : σ) (hgood : rules.good db) (h : J as acc db) :
    Proc.safe rules exec aside broken ok script Q (Txn.forEach as acc f) db := by
  induction as generalizing acc db with
  | nil => exact fun db' ho => hend acc db db' h ho
  | cons a as ih =>
    apply Proc.safe_bind hgood
    exact Proc.safe_mono (hstep a as acc db hgood h) fun acc' db hg h' => ih acc' hg h'

/-- A statement on its own, and what follows. -/
theorem Proc.safe_ask_bind {s : S} {f : R s → Proc S R C A ε α}
    (h : ∀ db' e, rules.Others [] db db' → ok db' db' (.stmt s) → exec db' s = some e →
      rules.Allows e.locks e.writes db' ∧ (f e.result).safe rules exec aside broken ok script Q
      (e.writes.over db')) :
    (Proc.ask s >>= f).safe rules exec aside broken ok script Q db :=
  fun db' ho hok e he => h db' e ho hok he

/-- A statement on its own that only looks, and what follows. -/
theorem Proc.safe_looking {s : S} {f : R s → Proc S R C A ε α} (look : Table ι β → R s)
    (hlook : ∀ v, exec v s = reading (look v))
    (h : ∀ db', rules.Others [] db db' → ok db' db' (.stmt s) →
      (f (look db')).safe rules exec aside broken ok script Q db') :
    (Proc.ask s >>= f).safe rules exec aside broken ok script Q db := by
  refine Proc.safe_ask_bind ?_
  intro db' e ho hok he
  rw [hlook] at he
  cases he
  exact ⟨Rules.allows_nothing ho.good, h db' ho hok⟩

/-- A transaction, and what follows when it commits and when it does not. -/
theorem Proc.safe_attempt_bind {c : C} {f : Except ε (A c) → Proc S R C A ε α}
    (post : A c → Table ι β → Prop)
    (err : ε → Table ι β → Prop)
    (htxn : ∀ db', rules.Others [] db db' → (script c).holds rules exec aside broken ok
      (commits rules ok c post) err [] Table.empty db')
    (h : ∀ a db', rules.good db' → rules.later db db' → post a db' →
      (f (.ok a)).safe rules exec aside broken ok script Q db')
    (herr : ∀ e db', rules.good db' → rules.later db db' → err e db' →
      (f (.error e)).safe rules exec aside broken ok script Q db') :
    (Proc.attempt c >>= f).safe rules exec aside broken ok script Q db := by
  intro db' ho
  exact Txn.holds_commits_imp (F := rules.later db) (fun hr hx => rules.all hx hr) (htxn db' ho)
    (rules.others ho.rely)
    h herr

/-- The same when an error ends the process. -/
theorem Proc.safe_transact_bind {c : C} {f : A c → Proc S R C A ε α} (post : A c → Table ι β → Prop)
    (htxn : ∀ db', rules.Others [] db db' → (script c).holds rules exec aside broken ok
      (commits rules ok c post) (fun _ _ => True) [] Table.empty db')
    (h : ∀ a db', rules.good db' → rules.later db db' → post a db' →
      (f a).safe rules exec aside broken ok script Q db') :
    (Proc.transact c >>= f).safe rules exec aside broken ok script Q db := by
  intro db' ho
  exact Txn.holds_commits_imp (F := rules.later db) (fun hr hx => rules.all hx hr) (htxn db' ho)
    (rules.others ho.rely)
    h fun _ _ _ _ _ => trivial

end processes

end rules

/-! ## 3. Every interleaving -/

/-- The rules of all processes, by their numbers. `any` is one change by anybody. -/
structure Team (ι β κ S : Type) where
  guard : ι → List κ
  good : Table ι β → Prop
  any : Table ι β → Table ι β → Prop
  later : Table ι β → Table ι β → Prop
  step : ℕ → Table ι β → Table ι β → Prop
  rely : ℕ → Table ι β → Table ι β → Prop
  same : ∀ i db, step i db db
  refl : ∀ i db, rely i db db
  trans : ∀ {i a b c}, rely i a b → rely i b c → rely i a c
  one : ∀ {i a b}, step i a b → any a b
  other : ∀ {i j a b}, step i a b → j ≠ i → rely j a b
  some : ∀ {a b}, any a b → later a b
  others : ∀ {i a b}, rely i a b → later a b
  all : ∀ {a b c}, later a b → later b c → later a c

section team

variable {ι β κ S : Type}

def Team.rules (team : Team ι β κ S) (i : ℕ) : Rules ι β κ S where
  guard := team.guard
  good := team.good
  step := team.step i
  rely := team.rely i
  later := team.later
  same := team.same i
  refl := team.refl i
  trans := team.trans
  one := fun h => team.some (team.one h)
  others := team.others
  all := team.all

/-- One set of rules for everybody. -/
def Rules.forAll (rules : Rules ι β κ S) (h : ∀ {a b}, rules.step a b → rules.rely a b) :
    Team ι β κ S where
  guard := rules.guard
  good := rules.good
  any := rules.step
  later := rules.later
  step := fun _ => rules.step
  rely := fun _ => rules.rely
  same := fun _ => rules.same
  refl := fun _ => rules.refl
  trans := rules.trans
  one := id
  other := fun hstep _ => h hstep
  some := rules.one
  others := rules.others
  all := rules.all

end team

section soundness

variable {ι β κ S : Type} {R : S → Type} {C : Type} {A : C → Type} {ε P α X : Type}
variable (sys : System ι β κ S R C A ε P α X) (ok : Table ι β → Table ι β → Moment S C → Prop)
variable (Q : P → Table ι β → α → Table ι β → Prop)

/-- What a process is held to where it is. One that has returned did so on a table
that satisfied `Q`. -/
def Process.Safe (rules : Rules ι β κ S) (p : Process ι β κ S R C A ε P α) (db : Table ι β) :
    Prop :=
  match p.slot with
  | .idle q => q.safe rules sys.exec sys.aside sys.broken ok sys.script (Q p.call p.born) db
  | .inside c held writes rest k =>
    rest.holds rules sys.exec sys.aside sys.broken ok
        (commits rules ok c fun a db =>
          (k (.ok a)).safe rules sys.exec sys.aside sys.broken ok sys.script (Q p.call p.born) db)
        (fun e db => (k (.error e)).safe rules sys.exec sys.aside sys.broken ok sys.script
          (Q p.call p.born) db)
        held writes db
      ∧ ∀ i, (writes i).isSome → rules.guard i ⊆ held
  | .over (some a) => ∃ then', rules.later then' db ∧ Q p.call p.born a then'
  | .over none => True

variable (team : Team ι β κ S)

/-- The state of the whole between two steps. -/
structure World.Sound (w : World ι β κ S R C A ε P α) : Prop where
  good : team.good w.db
  safe : ∀ (i : ℕ) (p : Process ι β κ S R C A ε P α), w.procs[i]? = some p →
    p.Safe sys ok Q (team.rules i) w.db
  excl : ∀ (i j : ℕ) (p q : Process ι β κ S R C A ε P α), w.procs[i]? = some p →
    w.procs[j]? = some q → i ≠ j →
    ∀ k ∈ p.slot.held, k ∉ q.slot.held

/-- What is asked of the system: every call is safe where it is made, and the
surroundings change only rows that nothing locks. -/
structure System.Follows : Prop where
  calls : ∀ i p db, team.good db →
    (sys.body i p).safe (team.rules i) sys.exec sys.aside sys.broken ok sys.script (Q p db) db
  env : ∀ x db db', team.good db → sys.env x db = some db' →
    team.good db' ∧ team.any db db' ∧ (∀ j, team.rely j db db')
      ∧ ∀ i, team.guard i ≠ [] → db i = db' i

variable {sys ok Q team} {p : Process ι β κ S R C A ε P α} {w w' : World ι β κ S R C A ε P α}
  {i : ℕ}

theorem Process.Safe.others {rules : Rules ι β κ S} {db db' : Table ι β}
    (h : p.Safe sys ok Q rules db) (ho : rules.Others p.slot.held db db') :
    p.Safe sys ok Q rules db' := by
  obtain ⟨call, born, slot⟩ := p
  rcases slot with q | ⟨c, held, writes, rest, k⟩ | a
  · exact Proc.safe_others h ho
  · exact ⟨Txn.holds_others h.1 ho, h.2⟩
  · cases a with
    | none => trivial
    | some a =>
      obtain ⟨then', hlater, hq⟩ := h
      exact ⟨then', rules.all hlater (rules.others ho.rely), hq⟩

/-- One process goes on and the table changes, under nobody else's locks. -/
theorem World.Sound.update (h : w.Sound sys ok Q team) (hp : w.procs[i]? = some p)
    {s : Slot ι β κ S R C A ε α} {db' : Table ι β} (hgood : team.good db')
    (hrely : ∀ j, j ≠ i → team.rely j w.db db')
    (hsafe : Process.Safe sys ok Q (team.rules i) { p with slot := s } db')
    (hagree : ∀ (j : ℕ) q, w.procs[j]? = some q → j ≠ i → KeepOn team.guard q.slot.held w.db db')
    (hexcl : ∀ (j : ℕ) q, w.procs[j]? = some q → j ≠ i → ∀ k ∈ s.held, k ∉ q.slot.held) :
    World.Sound sys ok Q team { w.put i p s with db := db' } := by
  refine ⟨hgood, ?_, ?_⟩
  · intro j q hq
    rcases getElem?_set_cases hq with ⟨rfl, rfl⟩ | ⟨hne, hq'⟩
    · exact hsafe
    · exact (h.safe j q hq').others ⟨hrely j hne, hgood, hagree j q hq' hne⟩
  · intro j j' q q' hq hq' hne k hk
    rcases getElem?_set_cases hq with ⟨rfl, rfl⟩ | ⟨hj, hqj⟩
    · rcases getElem?_set_cases hq' with ⟨rfl, -⟩ | ⟨hj', hqj'⟩
      · exact absurd rfl hne
      · exact hexcl j' q' hqj' hj' k hk
    · rcases getElem?_set_cases hq' with ⟨rfl, rfl⟩ | ⟨hj', hqj'⟩
      · exact fun hk' => hexcl j q hqj hj k hk' hk
      · exact h.excl j j' q q' hqj hqj' hne k hk

/-- One process goes on and the table stays as it is. -/
theorem World.Sound.put (h : w.Sound sys ok Q team) (hp : w.procs[i]? = some p)
    {s : Slot ι β κ S R C A ε α}
    (hsafe : Process.Safe sys ok Q (team.rules i) { p with slot := s } w.db)
    (hexcl : ∀ (j : ℕ) q, w.procs[j]? = some q → j ≠ i → ∀ k ∈ s.held, k ∉ q.slot.held) :
    (w.put i p s).Sound sys ok Q team :=
  h.update hp h.good (fun j _ => team.refl j _) hsafe (fun _ _ _ _ => KeepOn.rfl) hexcl

/-- A world without processes. -/
def World.init (db : Table ι β) : World ι β κ S R C A ε P α := ⟨db, []⟩

theorem World.Sound.init {db : Table ι β} (h : team.good db) :
    (World.init db : World ι β κ S R C A ε P α).Sound sys ok Q team :=
  ⟨h, nofun, nofun⟩

/-- A process that has returned did so on a table that satisfied `Q`. -/
theorem World.Sound.returned (h : w.Sound sys ok Q team) (hp : p ∈ w.procs) {a : α}
    (hslot : p.slot = .over (some a)) :
    ∃ then', team.later then' w.db ∧ Q p.call p.born a then' := by
  obtain ⟨j, hj⟩ := mem_iff_getElem?.mp hp
  have hsafe := h.safe j p hj
  unfold Process.Safe at hsafe
  rw [hslot] at hsafe
  exact hsafe

/-- A process comes to its end, on a table that satisfies `Q` if it returns. -/
theorem World.Sound.finish (h : w.Sound sys ok Q team) (hp : w.procs[i]? = some p) {a : Option α}
    (hQ : ∀ b, a = some b → Q p.call p.born b w.db) :
    (w.put i p (.over a)).Sound sys ok Q team := by
  refine h.put hp ?_ nofun
  cases a with
  | none => trivial
  | some a => exact ⟨w.db, team.some (team.one (team.same i w.db)), hQ a rfl⟩

variable [DecidableEq κ]

theorem World.Sound.advance (h : w.Sound sys ok Q team) (hp : w.procs[i]? = some p)
    (hok : Moment.meets ok w.db (w.next i))
    (hstep : w.advance sys i p = some w') : w'.Sound sys ok Q team ∧ team.any w.db w'.db := by
  have hsafe := h.safe i p hp
  have hexcl := h.excl i
  have hnow : ∀ ks, (team.rules i).Others ks w.db w.db := fun ks => .refl h.good
  unfold World.next at hok
  rw [hp, Option.bind_some] at hok
  have hsame : team.any w.db w.db := team.one (team.same i w.db)
  obtain ⟨call, born, slot⟩ := p
  unfold World.advance at hstep
  match slot, hsafe, hok, hstep, hp with
  | .over a, _, _, hstep, _ => cases hstep
  | .idle (.done a), hsafe, _, hstep, hp =>
    cases hstep
    refine ⟨h.finish hp fun b hb => ?_, hsame⟩
    rw [← Option.some.inj hb]
    exact hsafe w.db (hnow _)
  | .idle (.fail e), _, _, hstep, hp =>
    cases hstep
    exact ⟨h.finish hp nofun, hsame⟩
  | .idle (.stmt (.now s) k), hsafe, hok, hstep, hp =>
    dsimp only at hstep
    split at hstep
    · cases hstep
      exact ⟨h.finish hp nofun, hsame⟩
    · rename_i e he
      split at hstep
      case isFalse => cases hstep
      rename_i hclear
      cases hstep
      obtain ⟨hallows, hrest⟩ := hsafe w.db (hnow _) hok e he
      refine ⟨h.update hp hallows.good (fun j hj => team.other hallows.step hj) hrest ?_
        nofun, team.one hallows.step⟩
      intro j q hq hne
      exact KeepOn.of_unlocked fun i' hi' k hk =>
        not_mem_of_clear hclear hq hne k (hallows.covered i' hi' hk)
  | .idle (.stmt (.txn c) k), hsafe, _, hstep, hp =>
    cases hstep
    refine ⟨h.put hp ⟨hsafe w.db (hnow _), ?_⟩ nofun, hsame⟩
    intro i' hi'
    cases hi'
  | .inside c held writes (.done a) k, hsafe, hok, hstep, hp =>
    cases hstep
    obtain ⟨hgood, hone, hrest⟩ := hsafe.1 w.db (hnow _) hok
    refine ⟨h.update hp hgood (fun j hj => team.other hone hj) hrest ?_
      nofun, team.one hone⟩
    intro j q hq hne
    exact KeepOn.of_unlocked fun i' hi' k hk =>
      hexcl j _ q hp hq (Ne.symm hne) k (hsafe.2 i' hi' hk)
  | .inside c held writes (.fail e) k, hsafe, _, hstep, hp =>
    cases hstep
    exact ⟨h.put hp (hsafe.1 w.db (hnow _)) nofun, hsame⟩
  | .inside c held writes (.stmt s rest) k, hsafe, hok, hstep, hp =>
    obtain ⟨hnone, hsome⟩ := hsafe.1 w.db (hnow _) hok
    dsimp only at hstep
    split at hstep
    · rename_i he
      cases hstep
      exact ⟨h.put hp (hnone he) nofun, hsame⟩
    · rename_i e he
      split at hstep
      case isFalse => cases hstep
      rename_i hclear
      cases hstep
      obtain ⟨hcov, hallows, hrest⟩ := hsome e he
      -- what this process holds or has just found free, no other process holds
      have hmine : ∀ (j : ℕ) q, w.procs[j]? = some q → j ≠ i →
          ∀ k' ∈ held ++ e.locks ++ (sys.aside (writes.over w.db) s).locks, k' ∉ q.slot.held := by
        intro j q hq hne k' hk'
        rw [append_assoc] at hk'
        rcases mem_append.mp hk' with hk' | hk'
        · exact hexcl j _ q hp hq (Ne.symm hne) k' hk'
        · exact not_mem_of_clear hclear hq hne k' hk'
      refine ⟨h.update hp hallows.good (fun j hj => team.other hallows.step hj) ⟨hrest, ?_⟩ ?_ ?_,
        team.one hallows.step⟩
      · -- a row written so far is written by this statement or was before
        intro i' hi'
        by_cases hw : (e.writes i').isSome
        · exact hcov i' hw
        · rw [Table.over_of_none (Option.not_isSome_iff_eq_none.mp hw)] at hi'
          exact fun k' hk' => mem_append_left _ (hsafe.2 i' hi' hk')
      · intro j q hq hne
        exact KeepOn.of_unlocked fun i' hi' k' hk' =>
          hmine j q hq hne k' (hallows.covered i' hi' hk')
      · intro j q hq hne k' hk'
        exact hmine j q hq hne k' (mem_append_left _ hk')

/-- **One step** of any process, or of the surroundings. -/
theorem World.Sound.step {a : Act P X} (hsys : sys.Follows ok Q team) (h : w.Sound sys ok Q team)
    (hok : w.meets ok a) (hstep : w.step sys a = some w') :
    w'.Sound sys ok Q team ∧ team.any w.db w'.db := by
  cases a with
  | step i =>
    obtain ⟨p, hp, hadv⟩ := Option.bind_eq_some_iff.mp hstep
    exact h.advance hp hok hadv
  | crash i =>
    obtain ⟨p, hp, rfl⟩ := Option.map_eq_some_iff.mp hstep
    exact ⟨h.finish hp nofun, team.one (team.same i w.db)⟩
  | env x =>
    obtain ⟨db', henv, rfl⟩ := Option.map_eq_some_iff.mp hstep
    obtain ⟨hgood, hone, hrely, hsame⟩ := hsys.env x w.db db' h.good henv
    refine ⟨⟨hgood, fun i p hp => ?_, h.excl⟩, hone⟩
    exact (h.safe i p hp).others ⟨hrely i, hgood, fun i' k hk _ => hsame i' (ne_nil_of_mem hk)⟩
  | call c =>
    cases hstep
    refine ⟨⟨h.good, fun j q hq => ?_, fun j j' q q' hq hq' hne k hk hk' => ?_⟩,
      team.one (team.same 0 w.db)⟩
    · rcases getElem?_concat_cases hq with hq | ⟨rfl, rfl⟩
      · exact h.safe j q hq
      · exact hsys.calls _ c w.db h.good
    · rcases getElem?_concat_cases hq with hq | ⟨-, rfl⟩
      · rcases getElem?_concat_cases hq' with hq' | ⟨-, rfl⟩
        · exact h.excl j j' q q' hq hq' hne k hk hk'
        · exact not_mem_nil hk'
      · exact not_mem_nil hk

/-- **Every interleaving is safe.** -/
theorem World.Sound.run (hsys : sys.Follows ok Q team) (h : w.Sound sys ok Q team)
    (hrun : Run (World.step sys) (World.meets ok) w w') :
    w'.Sound sys ok Q team ∧ team.later w.db w'.db :=
  hrun.invariant (fun w' => w'.Sound sys ok Q team ∧ team.later w.db w'.db)
    ⟨h, team.some (team.one (team.same 0 w.db))⟩
    fun _ _ _ ih hok hstep =>
      have hnext := ih.1.step hsys hok hstep
      ⟨hnext.1, team.all ih.2 (team.some hnext.2)⟩

end soundness

end Postroom.Lib
