/-
What every change of a domain's keys keeps.

The keys of a domain are only ever added to. A key moves one state at a time, from
`pending` to `active` only after DNS was heard to publish it, and out of `active`
only with a `retireAfter` seven days ahead. This is `rules`, the discipline that
all calls keep; each transaction is checked against it here, once.

Three things the code relies on are not in its own hands, since `now` was read when
the call began: that no key has become active after the `now` of a call that looks for
active keys under the lock, or of one that loads them, and that a switch commits soon
after its `now` (`Timely`). Each matters to one thing only (`Aspect`). The scripts are
gone through once for all: `q` is what is assumed, if anything.
-/
import Postroom.Dkim.Keys

set_option autoImplicit false

namespace Postroom.Dkim

open Lib AuthChecks

/-! ## 1. Selectors -/

theorem firstFree_not_mem {base : Text} {taken : List Text} : ∀ (fuel n : ℕ),
    firstFree base taken fuel n ∈ taken → ∀ m, n ≤ m → m ≤ n + fuel → base ++ decimal m ∈ taken
  | 0, n, h, m, hle, hge => by
      obtain rfl : m = n := by omega
      exact h
  | fuel + 1, n, h, m, hle, hge => by
      unfold firstFree at h
      by_cases htaken : base ++ decimal n ∈ taken
      · rw [if_pos htaken] at h
        rcases Nat.eq_or_lt_of_le hle with rfl | hlt
        · exact htaken
        · exact firstFree_not_mem fuel (n + 1) h m hlt (by omega)
      · rw [if_neg htaken] at h
        exact absurd h htaken

/-- A dated selector is never one that is taken. -/
theorem datedSelector_not_mem (rt : Runtime) (now : ℕ) (algorithm : Algorithm) (taken : List Text) :
    datedSelector rt now algorithm taken ∉ taken := by
  unfold datedSelector
  by_cases hbase : selectorFor rt now algorithm ∈ taken
  · rw [if_neg (not_not.mpr hbase)]
    intro hmem
    -- more candidates than taken selectors, and no two of them are equal
    let candidates := (List.range (taken.length + 1)).map fun i =>
      selectorFor rt now algorithm ++ decimal (2 + i)
    have hnodup : candidates.Nodup := by
      refine List.Nodup.map ?_ List.nodup_range
      intro i j hij
      have := decimal_injective (List.append_cancel_left hij)
      omega
    have hsub : candidates ⊆ taken := by
      intro c hc
      obtain ⟨i, hi, rfl⟩ := List.mem_map.mp hc
      rw [List.mem_range] at hi
      exact firstFree_not_mem taken.length 2 hmem (2 + i) (by omega) (by omega)
    have hlen := (hnodup.subperm hsub).length_le
    rw [List.length_map, List.length_range] at hlen
    omega
  · rw [if_pos hbase]
    exact hbase

/-! ## 2. Keys -/

/-- `pending → active → retiring → retired`. -/
def KeyState.rank : KeyState → ℕ
  | .pending => 0
  | .active => 1
  | .retiring => 2
  | .retired => 3

/-- What depends on how the calls lie in time: that one key is active, that a key stays
published for seven days less `slack` after it was active, and that both keys are loaded. -/
inductive Aspect
  | oneActive
  | overlap (slack : ℕ)
  | bothLoaded
  deriving DecidableEq

variable (rt : Runtime) (q : Option Aspect)

/-- DNS was heard to publish the key: a TXT value at its name with its own `k=` and
`p=`. -/
def Published (heard : List (Text × Answer)) (name : Text) (k : DkimKey) : Prop :=
  ∃ answer records txt tags, (dnsNameOf k.selector name, answer) ∈ heard
    ∧ answer.records = some records
    ∧ txt ∈ records ∧ keyTag rt txt = some tags ∧ keyTag rt k.dnsRecord = some tags ∧ tags.2 ≠ []

/-- What has become of a key: `t` is the time it is compared from. -/
structure Moves (t : ℕ) (heard : List (Text × Answer)) (name : Text) (k k' : DkimKey) : Prop where
  id : k'.id = k.id
  selector : k'.selector = k.selector
  algorithm : k'.algorithm = k.algorithm
  dnsRecord : k'.dnsRecord = k.dnsRecord
  forward : k.state.rank ≤ k'.state.rank
  verified : k.state = .pending → k'.state ≠ .pending → Published rt heard name k
  overlap : ∀ slack, q = some (.overlap slack) → k.state = .active → 2 ≤ k'.state.rank →
    ∃ r, k'.retireAfter = some r ∧ retireAfterFor t ≤ r + slack
  kept : 2 ≤ k.state.rank → k'.retireAfter = k.retireAfter

/-- The same for one change: no state is skipped. -/
structure Proceeds (t : ℕ) (heard : List (Text × Answer)) (name : Text) (k k' : DkimKey) :
    Prop where
  moves : Moves rt q t heard name k k'
  next : k'.state = k.state ∨ k'.state.rank = k.state.rank + 1

/-- The keys of a domain, at time `t`. -/
structure GoodKeys (t : ℕ) (ks : List DkimKey) : Prop where
  ids : ∀ (i : ℕ) (k : DkimKey), ks[i]? = some k → k.id = i
  selectors : (ks.map (·.selector)).Nodup
  active : q = some .oneActive →
    ∀ k ∈ ks, ∀ k' ∈ ks, k.algorithm = k'.algorithm → k.state = .active → k'.state = .active →
      k = k'
  pending : ∀ k ∈ ks, ∀ k' ∈ ks, k.algorithm = k'.algorithm → k.state = .pending →
    k'.state = .pending → k = k'
  retired : ∀ k ∈ ks, k.state = .retired → ∃ r, k.retireAfter = some r ∧ r ≤ t
  unretired : ∀ k ∈ ks, k.state ≠ .retired → k.retiredAt = none

/-- There is a key that signs. -/
def Signs (ks : List DkimKey) (algorithm : Algorithm) : Prop :=
  ∃ k ∈ ks, k.algorithm = algorithm ∧ k.state = .active

/-- What any number of changes keep. -/
structure Later (db db' : Db) : Prop where
  clock : clockOf db ≤ clockOf db'
  heard : ∀ x ∈ heardIn db, x ∈ heardIn db'
  keys : ∀ (name : Text) (i : ℕ) (k : DkimKey), (keysOf db name)[i]? = some k →
    ∃ k', (keysOf db' name)[i]? = some k' ∧ Moves rt q (clockOf db) (heardIn db') name k k'
  signs : ∀ name algorithm, Signs (keysOf db name) algorithm → Signs (keysOf db' name) algorithm

/-- One change: in addition, no key skips a state. -/
structure OneStep (db db' : Db) : Prop where
  later : Later rt q db db'
  next : ∀ (name : Text) (i : ℕ) (k k' : DkimKey), (keysOf db name)[i]? = some k →
    (keysOf db' name)[i]? = some k' →
    k'.state = k.state ∨ k'.state.rank = k.state.rank + 1

variable {rt q} {name : Text} {p : Place}

theorem Published.mono {heard heard' : List (Text × Answer)} {k k' : DkimKey}
    (h : Published rt heard name k) (hheard : ∀ x ∈ heard, x ∈ heard')
    (hsel : k'.selector = k.selector) (hrec : k'.dnsRecord = k.dnsRecord) :
    Published rt heard' name k' := by
  obtain ⟨answer, records, txt, tags, hmem, hrest⟩ := h
  refine ⟨answer, records, txt, tags, ?_, ?_⟩
  · rw [hsel]
    exact hheard _ hmem
  · rw [hrec]
    exact hrest

theorem Moves.refl (t : ℕ) (heard : List (Text × Answer)) (name : Text) (k : DkimKey) :
    Moves rt q t heard name k k where
  id := rfl
  selector := rfl
  algorithm := rfl
  dnsRecord := rfl
  forward := le_rfl
  verified hp hn := absurd hp hn
  overlap _ _ ha hr := by
    rw [ha] at hr
    exact absurd hr (by decide)
  kept _ := rfl

theorem Moves.trans {t t' : ℕ} {heard heard' : List (Text × Answer)} {a b c : DkimKey} (ht : t ≤ t')
    (hheard : ∀ x ∈ heard, x ∈ heard') (h : Moves rt q t heard name a b)
    (h' : Moves rt q t' heard' name b c) : Moves rt q t heard' name a c where
  id := h'.id.trans h.id
  selector := h'.selector.trans h.selector
  algorithm := h'.algorithm.trans h.algorithm
  dnsRecord := h'.dnsRecord.trans h.dnsRecord
  forward := Nat.le_trans h.forward h'.forward
  verified := by
    intro hp hn
    by_cases hb : b.state = .pending
    · exact (h'.verified hb hn).mono (fun _ hx => hx) h.selector.symm h.dnsRecord.symm
    · exact (h.verified hp hb).mono hheard rfl rfl
  overlap := by
    intro slack hq ha hc
    -- the key stopped being active before `b`, or after it
    by_cases hb : 2 ≤ b.state.rank
    · obtain ⟨r, hr, hle⟩ := h.overlap slack hq ha hb
      exact ⟨r, (h'.kept hb).trans hr, hle⟩
    · have hactive : b.state = .active := by
        have hforward := h.forward
        rw [ha] at hforward
        cases hstate : b.state with
        | pending => rw [hstate] at hforward; exact absurd hforward (by decide)
        | active => rfl
        | retiring | retired => rw [hstate] at hb; exact absurd (by decide) hb
      obtain ⟨r, hr, hle⟩ := h'.overlap slack hq hactive hc
      refine ⟨r, hr, ?_⟩
      unfold retireAfterFor at hle ⊢
      omega
  kept := by
    intro ha
    exact (h'.kept (Nat.le_trans ha h.forward)).trans (h.kept ha)

theorem OneStep.refl (db : Db) : OneStep rt q db db where
  later := {
    clock := le_rfl
    heard := fun _ hx => hx
    keys := fun name _ k hk => ⟨k, hk, Moves.refl _ _ name k⟩
    signs := fun _ _ h => h }
  next := by
    intro name i k k' hk hk'
    rw [hk] at hk'
    exact .inl (by rw [Option.some.inj hk'])

theorem Later.trans {a b c : Db} (h : Later rt q a b) (h' : Later rt q b c) : Later rt q a c where
  clock := Nat.le_trans h.clock h'.clock
  heard := fun x hx => h'.heard x (h.heard x hx)
  keys := by
    intro name i k hk
    obtain ⟨k', hk', hmoves⟩ := h.keys name i k hk
    obtain ⟨k'', hk'', hmoves'⟩ := h'.keys name i k' hk'
    exact ⟨k'', hk'', hmoves.trans h.clock h'.heard hmoves'⟩
  signs := fun name algorithm hs => h'.signs name algorithm (h.signs name algorithm hs)

/-- Every row but a domain's keys is out of reach of the locks. -/
def unlocked : Place → Prop
  | .domain _ => False
  | _ => True

/-- The keys of a domain go with its advisory lock. -/
def guard : Place → List Place
  | .domain name => [.domain name]
  | _ => []

theorem guard_unlocked (h : unlocked p) : guard p = [] := by
  cases p with
  | domain name => exact False.elim h
  | _ => rfl

theorem unlocked_of_guard (h : guard p ≠ []) : ¬ unlocked p := fun hp => h (guard_unlocked hp)

variable (rt q)

/-- The discipline of the keys. -/
def rules : Rules Place Row Place Stmt where
  guard := guard
  good := fun db => ∀ name, GoodKeys q (clockOf db) (keysOf db name)
  step := OneStep rt q
  rely := Later rt q
  later := Later rt q
  same := OneStep.refl
  refl := fun db => (OneStep.refl db).later
  trans := Later.trans
  one := fun h => h.later
  others := id
  all := Later.trans

def team : Team Place Row Place Stmt := (rules rt q).forAll fun h => h.later

/-- What an aspect relies on at a step: no key that is active has become so after the
`now` of the look under the lock, or of the look of a call that loads keys; and a switch
commits at most `slack` after its own `now`. -/
def Timely : Aspect → Db → Moment Stmt Command → Prop
  | .oneActive, db, .stmt (.findActive name algorithm now) =>
    ∀ k ∈ keysOf db name, k.algorithm = algorithm → k.state = .active → k.activeFrom ≤ now
  | .overlap slack, db, .commit (.switch _ _ _ now) => clockOf db ≤ now + slack
  | .bothLoaded, db, .stmt (.activeKeys name now) =>
    ∀ k ∈ keysOf db name, k.state = .active → k.activeFrom ≤ now
  | _, _, _ => True

/-- What is asked of the steps. -/
def Asked (db v : Db) (m : Moment Stmt Command) : Prop :=
  ∀ aspect, q = some aspect → onView (Timely aspect) db v m

variable {rt q}

/-! ## 3. Changes of a domain's keys -/

/-- The keys of one domain are replaced. -/
def setKeys (db : Db) (name : Text) (ks : List DkimKey) : Db :=
  (Table.single (.domain name) (.keys ks)).over db

@[simp] theorem clockOf_setKeys (db : Db) (name : Text) (ks : List DkimKey) :
    clockOf (setKeys db name ks) = clockOf db := by
  unfold clockOf setKeys
  rw [Table.single_over, if_neg nofun]

@[simp] theorem keysOf_setKeys (db : Db) (name : Text) (ks : List DkimKey) :
    keysOf (setKeys db name ks) name = ks := by
  unfold keysOf setKeys
  rw [Table.single_over, if_pos rfl]

theorem keysOf_setKeys_other (db : Db) {other : Text} (ks : List DkimKey) (h : other ≠ name) :
    keysOf (setKeys db name ks) other = keysOf db other := by
  unfold keysOf setKeys
  rw [Table.single_over, if_neg fun heq => h (Place.domain.inj heq)]

theorem Proceeds.refl (t : ℕ) (heard : List (Text × Answer)) (name : Text) (k : DkimKey) :
    Proceeds rt q t heard name k k := ⟨Moves.refl t heard name k, .inl rfl⟩

/-- New keys for one domain that follow from the old ones are one step. -/
theorem settles {db : Db} {ks : List DkimKey} (hgood : (rules rt q).good db)
    (hks : GoodKeys q (clockOf db) ks)
    (hkeys : ∀ (i : ℕ) (k : DkimKey), (keysOf db name)[i]? = some k →
      ∃ k', ks[i]? = some k' ∧ Proceeds rt q (clockOf db) (heardIn db) name k k')
    (hsigns : ∀ algorithm, Signs (keysOf db name) algorithm → Signs ks algorithm) :
    (rules rt q).good (setKeys db name ks) ∧ OneStep rt q db (setKeys db name ks) := by
  refine ⟨?_, ⟨⟨?_, ?_, ?_, ?_⟩, ?_⟩⟩
  · intro other
    by_cases h : other = name
    · rw [h, keysOf_setKeys]
      exact hks
    · rw [keysOf_setKeys_other db ks h]
      exact hgood other
  · rw [clockOf_setKeys]
  · exact fun _ hx => hx
  · intro other i k hk
    by_cases h : other = name
    · rw [h, keysOf_setKeys]
      rw [h] at hk
      obtain ⟨k', hk', hproceeds⟩ := hkeys i k hk
      exact ⟨k', hk', hproceeds.moves⟩
    · rw [keysOf_setKeys_other db ks h]
      exact ⟨k, hk, Moves.refl _ _ _ k⟩
  · intro other algorithm hs
    by_cases h : other = name
    · rw [h, keysOf_setKeys]
      rw [h] at hs
      exact hsigns algorithm hs
    · rw [keysOf_setKeys_other db ks h]
      exact hs
  · intro other i k k' hk hk'
    by_cases h : other = name
    · rw [h, keysOf_setKeys] at hk'
      rw [h] at hk
      obtain ⟨k'', hk'', hproceeds⟩ := hkeys i k hk
      rw [hk''] at hk'
      rw [← Option.some.inj hk']
      exact hproceeds.next
    · rw [keysOf_setKeys_other db ks h, hk] at hk'
      exact .inl (by rw [Option.some.inj hk'])

end Postroom.Dkim
