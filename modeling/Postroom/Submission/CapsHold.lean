/-
The caps hold in every window, whatever runs at the same time.

The accepting transaction is followed statement by statement. `Stage` says what it
has by then: its own view of the path's messages, that this view fits under all caps,
and, once a cap has been checked, that there is room under it for what is to come.
The room was counted from a clock read before the lock was there, and the recipients
are stamped with a later one; `Bounded.append` takes care of that.
-/
import Postroom.Submission.CapsDiscipline

set_option autoImplicit false

namespace Postroom.Submission

open Lib List
open Table (over_of_none single empty_over single_over over_assoc)

/-! ## 1. The accepting transaction -/

/-- The stamps of an account, where the messages of one path are `L`. -/
def stampsWith (cfg : Config) (path : Path) (L : List Message) (db : Db) (accountId : ℕ) : List ℕ :=
  (paths cfg accountId).flatMap fun q => stamps (if q = path then L else outboundOf db q)

/-- The messages `L` of the path are under all caps. -/
structure Fits (cfg : Config) (path : Path) (L : List Message) (db : Db) : Prop where
  own : ∀ caps, path.caps cfg = some caps → Within caps (stamps L)
  account : Within (accountCaps cfg) (stampsWith cfg path L db (path.accountId cfg))
  complete : ∀ m ∈ L, Complete cfg m

/-- There is room for `n` more recipients, counted from `now`. -/
def Room (caps : Caps) (now n : ℕ) (stamps : List ℕ) : Prop :=
  since (now - HOUR_MS) stamps + n ≤ caps.hourly ∧ since (now - DAY_MS) stamps + n ≤ caps.daily

/-- There is a freeze on record that was the last row at some moment since `base`. -/
def OnRecord (base : Db) (id : ℕ) (db : Db) : Prop :=
  ∃ rows, (appPasswordOf base id).rows <+: rows ∧ rows <+: (appPasswordOf db id).rows
    ∧ rows.getLast? = some .freeze

theorem OnRecord.later {settled : Prop} {base db db' : Db} {id : ℕ} (h : OnRecord base id db)
    (hlater : Later settled db db') (hs : settled) : OnRecord base id db' := by
  obtain ⟨rows, hbase, hdb, hlast⟩ := h
  exact ⟨rows, hbase, hdb.trans (hlater.rows hs id), hlast⟩

/-- A freeze that is the last row now was written at some state of the run. -/
theorem onRecord_of_last {settled : Prop} {base db : Db} {id : ℕ} (hlater : Later settled base db)
    (hs : settled)
    (hlast : (appPasswordOf db id).rows.getLast? = some .freeze) : OnRecord base id db :=
  ⟨_, hlater.rows hs id, prefix_refl _, hlast⟩

/-- The app password is frozen, or there is a thaw on record after that freeze. -/
def LeftFrozen (base : Db) (id : ℕ) (db : Db) : Prop :=
  ∃ rows more, (appPasswordOf base id).rows <+: rows ∧ rows.getLast? = some .freeze
    ∧ (appPasswordOf db id).rows = rows ++ more
      ∧ ((appPasswordOf db id).frozenAt ≠ none ∨ .thaw ∈ more)

/-- Freezes and thaws alternate, so the row after a freeze is a thaw. -/
theorem OnRecord.leftFrozen {base db : Db} {id : ℕ} (h : OnRecord base id db)
    (hgood : GoodAppPassword (appPasswordOf db id)) : LeftFrozen base id db := by
  obtain ⟨rows, hbase, ⟨more, hmore⟩, hlast⟩ := h
  refine ⟨rows, more, hbase, hlast, hmore.symm, ?_⟩
  cases more with
  | nil =>
    refine .inl fun hthawed => (hgood.thawed hthawed).2 ?_
    rw [← hmore, append_nil]
    exact hlast
  | cons row more =>
    right
    have hturns := hgood.turns
    rw [← hmore] at hturns
    have hne := (List.isChain_append.mp hturns).2.2 _ hlast row rfl
    cases row with
    | freeze => exact absurd rfl hne
    | thaw => exact mem_cons_self

/-- The message of a copy is there. -/
def Queued (copy : Copy) (L : List Message) : Prop :=
  ∃ m ∈ L, m.id = copy.id ∧ m.envelope = copy.recipients

/-- A transaction along `path`: `L` is its own view of the path's messages. Room for
`n` recipients was found under the cap of the path, and for `n'` under the account's. -/
structure StageAt (cfg : Config) (settled : Prop) (base : Db) (path : Path) (done : List Copy)
    (now n now' n' : ℕ) (L : List Message)
    (ks : List Lock) (ov db : Db) : Prop where
  only : ∀ q, q ≠ .outbound path → ov q = none
  locked : ov (.outbound path) ≠ none → guard cfg (.outbound path) ⊆ ks
  view : outboundOf (ov.over db) path = L
  grows : outboundOf db path <+: L
  fits : Fits cfg path L db
  later : Later settled base db
  queued : ∀ copy ∈ done, Queued copy L
  clock : now ≤ clockOf db
  clock' : now' ≤ clockOf db
  room : 0 < n → path.lock ⊆ ks ∧ ∀ caps, path.caps cfg = some caps → Room caps now n (stamps L)
  room' : 0 < n' → Lock.account (path.accountId cfg) ∈ ks
    ∧ Room (accountCaps cfg) now' n' (stampsWith cfg path L db (path.accountId cfg))

def Stage (cfg : Config) (settled : Prop) (base : Db) (path : Path) (done : List Copy)
    (now n now' n' : ℕ) (ks : List Lock) (ov db : Db) :
    Prop :=
  ∃ L, StageAt cfg settled base path done now n now' n' L ks ov db

/-- A transaction that is rolled back over the cap of an app password leaves it frozen. -/
def Err (settled : Prop) (base : Db) (path : Path) (e : Failure) (db : Db) : Prop :=
  settled → ∀ id, path = .submission id → e = .frozen ∨ e = .capReached → OnRecord base id db

abbrev Holds {α : Type} (cfg : Config) (settled : Prop) (me : ℕ) (p : Script α)
    (post : α → List Lock → Db → Db → Prop)
    (err : Failure → Db → Prop) (ks : List Lock) (ov db : Db) : Prop :=
  p.holds ((team cfg settled).rules me) (exec cfg) aside Failure.database
    (Asked settled) post err ks ov db

/-- What others may have done meanwhile. -/
abbrev Others (cfg : Config) (settled : Prop) (me : ℕ) (ks : List Lock) (db db' : Db) : Prop :=
  ((team cfg settled).rules me).Others ks db db'

section paths

variable {cfg : Config} {settled : Prop} {path q : Path} {accountId : ℕ}

theorem accountId_of_mem_paths (h : q ∈ paths cfg accountId) : q.accountId cfg = accountId := by
  unfold paths at h
  simp only [mem_cons, mem_map] at h
  rcases h with rfl | rfl | ⟨id, hid, rfl⟩
  · rfl
  · rfl
  · exact (cfg.mem_appPasswords accountId id).mp hid

theorem mem_paths (path : Path) : path ∈ paths cfg (path.accountId cfg) := by
  cases path with
  | submission id =>
    refine mem_cons_of_mem _ (mem_cons_of_mem _ (mem_map_of_mem ?_))
    exact (cfg.mem_appPasswords _ id).mpr rfl
  | webmail accountId => exact mem_cons_self
  | vacation accountId => exact mem_cons_of_mem _ mem_cons_self

theorem nodup_paths (accountId : ℕ) : (paths cfg accountId).Nodup := by
  have hsub : ((cfg.appPasswords accountId).map Path.submission).Nodup :=
    (cfg.nodup_appPasswords accountId).map fun _ _ h => Path.submission.inj h
  unfold paths
  simp [hsub]

theorem stampsWith_self (db : Db) (path : Path) (accountId : ℕ) :
    stampsWith cfg path (outboundOf db path) db accountId = accountStamps cfg db accountId := by
  refine flatMap_congr fun q _ => ?_
  split_ifs with h
  · rw [h]
  · rfl

/-- A good database, as a transaction of this path finds it. -/
theorem Good.fits {db : Db} (h : Good cfg settled db) : Fits cfg path (outboundOf db path) db :=
  ⟨h.path path, by rw [stampsWith_self]; exact h.account _, h.complete path⟩

end paths

variable {caps : Caps}

section stages

variable {cfg : Config} {settled : Prop} {base : Db} {me : ℕ} {path : Path} {done : List Copy}
  {now n now' n' : ℕ} {L : List Message}
variable {ks : List Lock} {ov db db' : Db}

theorem guard_of_lock {lock : Lock} (h : lock ∈ path.lock) : lock ∈ guard cfg (.outbound path) :=
  mem_append_left _ h

theorem guard_account : Lock.account (path.accountId cfg) ∈ guard cfg (.outbound path) :=
  mem_append_right _ mem_cons_self

/-- Under the lock of the account, nothing of it changes. -/
theorem stampsWith_others (hlock : Lock.account (path.accountId cfg) ∈ ks)
    (ho : Others cfg settled me ks db db') :
    stampsWith cfg path L db' (path.accountId cfg)
      = stampsWith cfg path L db (path.accountId cfg) := by
  refine flatMap_congr fun q hq => ?_
  have hguard : Lock.account (path.accountId cfg) ∈ guard cfg (.outbound q) := by
    have hguard' := @guard_account cfg q
    rw [accountId_of_mem_paths hq] at hguard'
    exact hguard'
  rw [outboundOf_congr (ho.agree (.outbound q) _ hguard hlock)]

/-- Under the lock of the path's cap, its messages do not change. -/
theorem outboundOf_others {lock : Lock} (hguard : lock ∈ guard cfg (.outbound path))
    (hlock : lock ∈ ks)
    (ho : Others cfg settled me ks db db') : db' (.outbound path) = db (.outbound path) :=
  (ho.agree (.outbound path) lock hguard hlock).symm

/-- A path with a cap has a lock. -/
theorem lock_of_caps (h : path.caps cfg = some caps) : ∃ lock, lock ∈ path.lock := by
  cases path with
  | submission id | webmail accountId => exact ⟨_, mem_cons_self⟩
  | vacation accountId => cases h

section view

variable (h : StageAt cfg settled base path done now n now' n' L ks ov db)
include h

/-- What the others commit in the meantime is below the locks that are held. -/
theorem StageAt.others (ho : Others cfg settled me ks db db') :
    Stage cfg settled base path done now n now' n' ks ov db' := by
  have hlater : Later settled db db' := ho.rely.later
  by_cases hown : ov (.outbound path) = none
  · -- nothing written yet: the view is the committed table
    have hL : L = outboundOf db path := by
      rw [← h.view]
      exact outboundOf_congr (over_of_none hown)
    have hsame : ∀ lock ∈ guard cfg (.outbound path), lock ∈ ks → outboundOf db' path = L := by
      intro lock hguard hlock
      rw [hL]
      exact outboundOf_congr (outboundOf_others hguard hlock ho)
    refine ⟨outboundOf db' path, h.only, h.locked, outboundOf_congr (over_of_none hown),
      prefix_refl _,
      Good.fits ho.good, h.later.trans hlater, ?_, Nat.le_trans h.clock hlater.clock,
      Nat.le_trans h.clock' hlater.clock, ?_, ?_⟩
    · intro copy hcopy
      obtain ⟨m, hm, hid⟩ := h.queued copy hcopy
      exact ⟨m, (hlater.outbound path).subset (hL ▸ hm), hid⟩
    · intro hn
      obtain ⟨hlocks, hroom⟩ := h.room hn
      refine ⟨hlocks, fun caps hcaps => ?_⟩
      obtain ⟨lock, hlock⟩ := lock_of_caps hcaps
      rw [hsame lock (guard_of_lock hlock) (hlocks hlock)]
      exact hroom caps hcaps
    · intro hn'
      obtain ⟨hlock, hroom⟩ := h.room' hn'
      rw [hsame _ guard_account hlock, stampsWith_others hlock ho]
      exact ⟨hlock, hroom⟩
  · -- something written: both locks are held, and nobody else can add a message
    have hks := h.locked hown
    have hlock := hks guard_account
    refine ⟨L, h.only, h.locked, ?_, ?_, ⟨h.fits.own, ?_, h.fits.complete⟩, h.later.trans hlater,
      h.queued,
      Nat.le_trans h.clock hlater.clock, Nat.le_trans h.clock' hlater.clock, h.room, ?_⟩
    · rw [← h.view]
      refine outboundOf_congr ?_
      unfold Table.over
      rw [outboundOf_others guard_account hlock ho]
    · rw [outboundOf_congr (outboundOf_others guard_account hlock ho)]
      exact h.grows
    · rw [stampsWith_others hlock ho]
      exact h.fits.account
    · intro hn'
      rw [stampsWith_others hlock ho]
      exact h.room' hn'

/-- Under a lock that guards the path's messages, the view stays the same. -/
theorem StageAt.keeps {lock : Lock}
    (hguard : lock ∈ guard cfg (.outbound path)) (hlock : lock ∈ ks)
    (ho : Others cfg settled me ks db db') :
    StageAt cfg settled base path done now n now' n' L ks ov db' := by
  obtain ⟨L', hL'⟩ := h.others ho
  have hsame : L' = L := by
    rw [← hL'.view, ← h.view]
    refine outboundOf_congr ?_
    unfold Table.over
    rw [outboundOf_others hguard hlock ho]
  exact hsame ▸ hL'

/-- More locks do no harm. -/
theorem StageAt.lock (more : List Lock) :
    StageAt cfg settled base path done now n now' n' L (ks ++ more) ov db := by
  refine { h with locked := fun hown => ?_, room := fun hn => ?_, room' := fun hn' => ?_ }
  · exact List.Subset.trans (h.locked hown) (subset_append_left _ _)
  · exact ⟨List.Subset.trans (h.room hn).1 (subset_append_left _ _), (h.room hn).2⟩
  · exact ⟨mem_append_left _ (h.room' hn').1, (h.room' hn').2⟩

/-- The view of anything but the path's messages is the committed table. -/
theorem StageAt.clockOf_view : clockOf (ov.over db) = clockOf db :=
  clockOf_congr (over_of_none (h.only .clock nofun))

theorem StageAt.appPasswordOf_view (id : ℕ) : appPasswordOf (ov.over db) id = appPasswordOf db id :=
  appPasswordOf_congr (over_of_none (h.only (.appPassword id) nofun))

theorem StageAt.accountStamps_view :
    accountStamps cfg (ov.over db) (path.accountId cfg)
      = stampsWith cfg path L db (path.accountId cfg) := by
  refine flatMap_congr fun q _ => ?_
  split_ifs with hq
  · rw [hq, h.view]
  · rw [outboundOf_congr (over_of_none (h.only (.outbound q) fun heq =>
      hq (Place.outbound.inj heq)))]

/-- The count that is compared with the cap is the one of the view. -/
theorem StageAt.pathCount (start : ℕ) :
    recipientCount cfg (ov.over db) (.path path) start = since start (stamps L) := by
  rw [← h.view]
  rfl

theorem StageAt.accountCount (start : ℕ) :
    recipientCount cfg (ov.over db) (.account (path.accountId cfg)) start
      = since start (stampsWith cfg path L db (path.accountId cfg))
        + since start (seededOf (ov.over db) (path.accountId cfg)) := by
  rw [← h.accountStamps_view]
  rfl

end view

theorem Stage.others (h : Stage cfg settled base path done now n now' n' ks ov db)
    (ho : Others cfg settled me ks db db') :
    Stage cfg settled base path done now n now' n' ks ov db' := by
  obtain ⟨L, hL⟩ := h
  exact hL.others ho

/-- Reading the clock: a later instant to count from. -/
theorem StageAt.clocked (h : StageAt cfg settled base path done 0 0 0 0 L ks ov db) :
    StageAt cfg settled base path done (clockOf db) 0 0 0 L ks ov db :=
  { h with clock := le_rfl, room := nofun }

end stages

/-! ## 2. Statements -/

variable {s : Stmt}

section statements

variable {α : Type} {cfg : Config} {settled : Prop} {me : ℕ} {post : α → List Lock → Db → Db → Prop}
  {err : Failure → Db → Prop}
variable {ks : List Lock} {ov db : Db}

/-- A read inside the transaction sees its own writes over the others' commits. -/
theorem holds_reading {f : s.Result → Script α} (read : Db → s.Result)
    (h : ∀ db', Others cfg settled me ks db db' → (settled → Settled (ov.over db') (.stmt s)) →
      Holds cfg settled me (f (read (ov.over db'))) post err ks ov db')
    (hread : ∀ v, exec cfg v s = reading (read v) := by intro; rfl)
    (haside : ∀ v, aside v s = ⟨Table.empty, []⟩ := by intro; rfl) :
    Holds cfg settled me (sql s >>= f) post err ks ov db := by
  refine Txn.holds_looking read haside hread fun db' ho hok => ?_
  rw [append_nil]
  exact h db' ho hok

theorem holds_pure {a : α} (h : post a ks ov db) :
    Holds cfg settled me (pure a) post err ks ov db := h

theorem holds_fail {e : Failure} (h : ∀ db', Others cfg settled me ks db db' → err e db') :
    Holds cfg settled me (.fail e : Script α) post err ks ov db := h

end statements

/-! ## 3. The checks -/

/-- A check that passes leaves room for the recipients it was made for. -/
theorem room_of_not_over {now n hourCount dayCount : ℕ} {stamps : List ℕ}
    (h : ¬ exceeds caps hourCount dayCount n = true)
    (hhour : since (now - HOUR_MS) stamps ≤ hourCount)
    (hday : since (now - DAY_MS) stamps ≤ dayCount) : Room caps now n stamps := by
  unfold exceeds at h
  simp only [Bool.or_eq_true, decide_eq_true_eq] at h
  unfold Room
  omega

section checks

variable {cfg : Config} {settled : Prop} {base : Db} {me : ℕ} {path : Path} {done : List Copy}
  {now n now' n' : ℕ}
variable {ks : List Lock} {ov db : Db}

/-- No error but the two of a cap asks for anything. -/
theorem err_other {e : Failure} (h : e ≠ .frozen := by decide) (h' : e ≠ .capReached := by decide) :
    Err settled base path e db := by
  rintro - id - (he | he)
  · exact absurd he h
  · exact absurd he h'

/-- A lock is taken. -/
theorem holds_locked {lock : Lock} {α : Type} {f : Unit → Script α}
    {post : α → List Lock → Db → Db → Prop}
    {err : Failure → Db → Prop} (hstage : Stage cfg settled base path done now n now' n' ks ov db)
    (h : ∀ L db', StageAt cfg settled base path done now n now' n' L (ks ++ [lock]) ov db' →
      Holds cfg settled me (f ()) post err (ks ++ [lock]) ov db') :
    Holds cfg settled me (sql (.lock lock) >>= f) post err ks ov db := by
  refine Txn.holds_looking (fun _ => ()) (fun _ => rfl) (fun _ => rfl) fun db' ho _ => ?_
  obtain ⟨L, hL⟩ := hstage.others ho
  exact h L db' (hL.lock [lock])

/-- The two counts under the lock of the path's cap: there is room, or the message is
refused. -/
theorem holds_pathCounts {lock : Lock} {L : List Message} {refuse : Script Unit}
    (hlock : path.lock = [lock]) (hcaps : path.caps cfg = some caps) (hheld : lock ∈ ks)
    (hstage : StageAt cfg settled base path done now 0 0 0 L ks ov db)
    (hrefuse : ∀ db', StageAt cfg settled base path done now 0 0 0 L ks ov db' →
      Holds cfg settled me refuse
      (fun _ => Stage cfg settled base path done now n 0 0) (Err settled base path) ks ov db') :
    Holds cfg settled me (do
      let hourCount : ℕ ← sql (.count (.path path) (now - HOUR_MS))
      let dayCount : ℕ ← sql (.count (.path path) (now - DAY_MS))
      if exceeds caps hourCount dayCount n then refuse else pure ())
      (fun _ => Stage cfg settled base path done now n 0 0) (Err settled base path) ks ov db := by
  have hguard : lock ∈ guard cfg (.outbound path) := guard_of_lock (hlock ▸ mem_cons_self)
  refine holds_reading (fun v => recipientCount cfg v (.path path) (now - HOUR_MS)) fun db1 ho1 _ =>
    ?_
  have h1 := hstage.keeps hguard hheld ho1
  refine holds_reading (fun v => recipientCount cfg v (.path path) (now - DAY_MS)) fun db2 ho2 _ =>
    ?_
  have h2 := h1.keeps hguard hheld ho2
  rw [h1.pathCount, h2.pathCount]
  by_cases hover : exceeds caps (since (now - HOUR_MS) (stamps L))
    (since (now - DAY_MS) (stamps L)) n = true
  · rw [if_pos hover]
    exact hrefuse db2 h2
  · rw [if_neg hover]
    refine holds_pure ⟨L, { h2 with room := fun _ => ⟨?_, fun caps' hcaps' => ?_⟩ }⟩
    · rw [hlock]
      exact cons_subset.mpr ⟨hheld, nil_subset _⟩
    · rw [hcaps] at hcaps'
      exact Option.some.inj hcaps' ▸ room_of_not_over hover le_rfl le_rfl

/-- The freeze over another connection leaves the app password frozen and on record. -/
theorem holds_freezeAndAudit {id : ℕ} {L : List Message} (hpath : path = .submission id)
    (hstage : StageAt cfg settled base path done now 0 0 0 L ks ov db)
    {post : Unit → List Lock → Db → Db → Prop} :
    Holds cfg settled me (do
      let _ : ℕ ← sql (.freezeAndAudit id now)
      .fail .capReached) post (Err settled base path) ks ov db := by
  intro db' ho hok
  obtain ⟨L', h⟩ := hstage.others ho
  refine ⟨nofun, fun e he => ?_⟩
  cases he
  have hgood : Good cfg settled db' := ho.good
  have howing : settled → (appPasswordOf db' id).owing = none := by
    intro hs
    rw [← h.appPasswordOf_view]
    exact hok hs
  -- however it comes about, the last row is a freeze, and stays on record from there
  have hrecords : ∀ db'', Later settled db' db'' →
      (settled → (appPasswordOf db'' id).rows.getLast? = some .freeze) →
      ∀ db3, Others cfg settled me (ks ++ []) db'' db3 → Err settled base path .capReached db3 := by
    intro db'' hlater hlast db3 ho3 hs id' hid' _
    obtain rfl := Path.submission.inj (hpath.symm.trans hid')
    exact (onRecord_of_last (h.later.trans hlater) hs (hlast hs)).later ho3.rely.later hs
  by_cases hfrozen : (appPasswordOf db' id).frozenAt = none
  · have haside : aside (ov.over db') (.freezeAndAudit id now) = ⟨single (.appPassword id)
        (.appPassword { appPasswordOf db' id with
          frozenAt := some now, rows := (appPasswordOf db' id).rows ++ [.freeze] }),
          [.appPassword id]⟩ := by
      unfold aside
      dsimp only
      rw [h.appPasswordOf_view, if_pos hfrozen]
    obtain ⟨hgood', hstep⟩ := appPassword_step cfg hgood
      fun hs => (.freezeAndAudit now hfrozen (howing hs) : Moves me _ _)
    rw [haside]
    refine ⟨fun i hi => absurd hi Bool.false_ne_true,
      ⟨covered_single (subset_append_right _ _), hgood', hstep⟩, ?_⟩
    · refine hrecords _ hstep.later fun _ => ?_
      rw [appPasswordOf_single, if_pos rfl]
      simp
  · have haside : aside (ov.over db') (.freezeAndAudit id now) = ⟨Table.empty, []⟩ := by
      unfold aside
      dsimp only
      rw [h.appPasswordOf_view, if_neg hfrozen]
    rw [haside]
    refine ⟨fun i hi => absurd hi Bool.false_ne_true, Rules.allows_nothing hgood, ?_⟩
    exact hrecords db' (Later.refl db') fun hs =>
      (hgood.appPassword hs id).recorded hfrozen (howing hs)

variable {recipients : List Text}

/-- Either there is room under the lock, or the app password is frozen. -/
theorem holds_enforceCaps {id : ℕ} (hpath : path = .submission id)
    (hstage : Stage cfg settled base path done now 0 0 0 ks ov db) :
    Holds cfg settled me (enforceCaps cfg id recipients now)
      (fun _ => Stage cfg settled base path done now recipients.length 0 0)
      (Err settled base path) ks ov db := by
  unfold enforceCaps
  by_cases hnil : recipients = []
  · rw [if_pos hnil, hnil]
    exact holds_pure hstage
  rw [if_neg hnil]
  refine holds_locked hstage fun L db1 h1 => ?_
  have hlock : path.lock = [.caps id] := congrArg Path.lock hpath
  have hheld : Lock.caps id ∈ ks ++ [.caps id] := mem_append_right _ mem_cons_self
  refine holds_reading (fun v => (appPasswordOf v id).frozenAt) fun db2 ho2 hok2 => ?_
  have h2 := h1.keeps (guard_of_lock (hlock ▸ mem_cons_self)) hheld ho2
  rw [h2.appPasswordOf_view]
  have howing : settled → (appPasswordOf db2 id).owing = none := by
    intro hs
    rw [← h2.appPasswordOf_view]
    exact hok2 hs
  by_cases hfrozen : (appPasswordOf db2 id).frozenAt.isSome = true
  · rw [if_pos hfrozen]
    refine holds_fail fun db3 ho3 hs id' hid' _ => ?_
    obtain rfl := Path.submission.inj (hpath.symm.trans hid')
    have hlast := (Good.appPassword ho2.good hs id).recorded (Option.isSome_iff_ne_none.mp hfrozen)
      (howing hs)
    exact (onRecord_of_last h2.later hs hlast).later ho3.rely.later hs
  · rw [if_neg hfrozen]
    rw [← hpath]
    exact holds_pathCounts hlock (congrArg (Path.caps cfg) hpath) hheld h2 fun db3 h3 =>
      holds_freezeAndAudit hpath h3

/-- The same without a freeze. -/
theorem holds_enforceWebmailCaps {accountId : ℕ} (hpath : path = .webmail accountId)
    (hstage : Stage cfg settled base path done now 0 0 0 ks ov db) :
    Holds cfg settled me (enforceWebmailCaps cfg accountId recipients now)
      (fun _ => Stage cfg settled base path done now recipients.length 0 0)
      (Err settled base path) ks ov db := by
  unfold enforceWebmailCaps
  by_cases hnil : recipients = []
  · rw [if_pos hnil, hnil]
    exact holds_pure hstage
  rw [if_neg hnil]
  refine holds_locked hstage fun L db1 h1 => ?_
  rw [← hpath]
  refine holds_pathCounts (congrArg Path.lock hpath) (congrArg (Path.caps cfg) hpath)
    (mem_append_right _ mem_cons_self) h1 ?_
  intro db2 _
  refine holds_fail fun db3 _ _ id hid _ => ?_
  rw [hpath] at hid
  cases hid

theorem holds_pathEnforceCaps (hstage : Stage cfg settled base path done now 0 0 0 ks ov db) :
    Holds cfg settled me (path.enforceCaps cfg recipients now)
      (fun _ => Stage cfg settled base path done now recipients.length 0 0)
      (Err settled base path) ks ov db := by
  cases path with
  | submission id => exact holds_enforceCaps rfl hstage
  | webmail accountId => exact holds_enforceWebmailCaps rfl hstage
  | vacation accountId =>
    obtain ⟨L, h⟩ := hstage
    exact holds_pure ⟨L, { h with room := fun _ => ⟨nil_subset _, nofun⟩ }⟩

/-- The account's lock comes second, for all paths in the same order. -/
theorem holds_enforceAccountCap {recipients : ℕ}
    (hstage : Stage cfg settled base path done now n now' 0 ks ov db) :
    Holds cfg settled me (enforceAccountCap cfg (path.accountId cfg) recipients now')
      (fun _ => Stage cfg settled base path done now n now' recipients)
      (Err settled base path) ks ov db := by
  unfold enforceAccountCap
  by_cases hzero : recipients = 0
  · rw [if_pos hzero, hzero]
    exact holds_pure hstage
  rw [if_neg hzero]
  refine holds_locked hstage fun L db1 h1 => ?_
  have hheld : Lock.account (path.accountId cfg) ∈ ks ++ [.account (path.accountId cfg)] :=
    mem_append_right _ mem_cons_self
  refine holds_reading (fun v => recipientCount cfg v (.account (path.accountId cfg))
    (now' - HOUR_MS)) fun db2 ho2 _ => ?_
  have h2 := h1.keeps guard_account hheld ho2
  refine holds_reading (fun v => recipientCount cfg v (.account (path.accountId cfg))
    (now' - DAY_MS)) fun db3 ho3 _ => ?_
  have h3 := h2.keeps guard_account hheld ho3
  rw [h2.accountCount, h3.accountCount, ← stampsWith_others hheld ho3]
  split_ifs with hover
  · exact holds_fail fun db4 _ => err_other
  · have hroom : Room (accountCaps cfg) now' recipients
        (stampsWith cfg path L db3 (path.accountId cfg)) :=
      room_of_not_over hover (Nat.le_add_right _ _) (Nat.le_add_right _ _)
    exact holds_pure ⟨L, { h3 with room' := fun _ => ⟨hheld, hroom⟩ }⟩

end checks

/-! ## 4. Queueing -/

/-- No more addresses are queued than were submitted. -/
theorem distinct_length_le (addresses : List Text) :
    (distinct addresses).length ≤ addresses.length := by
  have hfold : ∀ (l seen : List Text),
      (l.foldl (fun seen address => if address ∈ seen then seen else seen ++ [address]) seen).length
        ≤ seen.length + l.length := by
    intro l
    induction l with
    | nil => exact fun seen => le_rfl
    | cons a l ih =>
      intro seen
      have hnext := ih (if a ∈ seen then seen else seen ++ [a])
      rw [foldl_cons, length_cons]
      split_ifs at hnext ⊢ with ha
      · omega
      · rw [length_append, length_singleton] at hnext
        omega
  have hnil := hfold addresses []
  rw [length_nil, Nat.zero_add] at hnil
  exact hnil

theorem mapM_length {α β : Type} {f : α → Option β} {xs : List α} {ys : List β}
    (h : xs.mapM f = some ys) :
    ys.length = xs.length := by
  induction xs generalizing ys with
  | nil =>
    cases h
    rfl
  | cons x xs ih =>
    rw [mapM_cons] at h
    obtain ⟨y, -, h⟩ := Option.bind_eq_some_iff.mp h
    obtain ⟨ys', hys', h⟩ := Option.bind_eq_some_iff.mp h
    cases h
    rw [length_cons, length_cons, ih hys']

variable {recipients : List Text}

/-- No message is queued for more recipients than it was submitted for. -/
theorem queuedAddresses_length {cfg : Config} {addresses : List Text}
    (h : queuedAddresses cfg recipients = some addresses) :
    addresses.length ≤ recipients.length := by
  obtain ⟨all, hall, rfl⟩ := Option.map_eq_some_iff.mp h
  rw [← mapM_length hall]
  exact distinct_length_le all

section queueing

variable {cfg : Config} {settled : Prop} {base : Db} {me : ℕ} {path : Path} {done : List Copy}
  {now n now' n' t : ℕ}
variable {L : List Message} {m : Message} {ks : List Lock} {ov db db' : Db}

theorem single_twice (p : Place) (r r' : Row) : (single p r).over (single p r') = single p r := by
  funext q
  rw [single_over]
  unfold single
  split_ifs
  · rfl
  · rfl

theorem stamps_append (L : List Message) (m : Message) :
    stamps (L ++ [m]) = stamps L ++ m.recipients.map (·.createdAt) := by
  unfold stamps
  rw [flatMap_append, flatMap_singleton]

/-- A message more, for which there was room. -/
theorem Fits.append (h : Fits cfg path L db) (hcomplete : Complete cfg m)
    (hstamp : ∀ r ∈ m.recipients, r.createdAt = t)
    (hn : m.recipients.length ≤ n) (hn' : m.recipients.length ≤ n') (hclock : now ≤ t)
    (hclock' : now' ≤ t)
    (hroom : ∀ caps, path.caps cfg = some caps → Room caps now n (stamps L))
    (hroom' : Room (accountCaps cfg) now' n' (stampsWith cfg path L db (path.accountId cfg))) :
    Fits cfg path (L ++ [m]) db := by
  have hnew : ∀ s ∈ m.recipients.map (·.createdAt), s = t := by
    intro s hs
    obtain ⟨r, hr, rfl⟩ := mem_map.mp hs
    exact hstamp r hr
  have hlen : (m.recipients.map (·.createdAt)).length ≤ n := by
    rw [length_map]
    exact hn
  have hlen' : (m.recipients.map (·.createdAt)).length ≤ n' := by
    rw [length_map]
    exact hn'
  refine ⟨fun caps hcaps => ?_, ?_, ?_⟩
  · obtain ⟨hhour, hday⟩ := h.own caps hcaps
    obtain ⟨hhour', hday'⟩ := hroom caps hcaps
    rw [stamps_append]
    exact ⟨hhour.append hhour' hlen hnew hclock (List.Perm.refl _),
      hday.append hday' hlen hnew hclock (List.Perm.refl _)⟩
  · obtain ⟨hhour, hday⟩ := h.account
    have hperm : (stampsWith cfg path (L ++ [m]) db (path.accountId cfg)).Perm
        (stampsWith cfg path L db (path.accountId cfg) ++ m.recipients.map (·.createdAt)) := by
      refine flatMap_update_perm ?_ (fun q hq => ?_) (mem_paths path) (nodup_paths _)
      · rw [if_pos rfl, if_pos rfl]
        exact stamps_append L m
      · rw [if_neg hq, if_neg hq]
    exact ⟨hhour.append hroom'.1 hlen' hnew hclock' hperm,
      hday.append hroom'.2 hlen' hnew hclock' hperm⟩
  · exact forall_mem_append.mpr ⟨h.complete, forall_mem_singleton.mpr hcomplete⟩

/-- The transaction writes the path's messages. -/
theorem StageAt.write (h : StageAt cfg settled base path done now n now' n' L ks ov db)
    (hlocks : guard cfg (.outbound path) ⊆ ks)
    {L' : List Message} {done' : List Copy} (hgrows : L <+: L') (hfits : Fits cfg path L' db)
    (hdone : ∀ copy ∈ done', Queued copy L') :
    StageAt cfg settled base path done' 0 0 0 0 L' ks
    ((single (.outbound path) (.outbound L')).over ov) db := by
  refine ⟨fun q hq => ?_, fun _ => hlocks, ?_, h.grows.trans hgrows, hfits, h.later, hdone,
    Nat.zero_le _, Nat.zero_le _,
    nofun, nofun⟩
  · rw [single_over, if_neg hq]
    exact h.only q hq
  · rw [over_assoc]
    unfold outboundOf
    rw [single_over, if_pos rfl]

/-- Between the message and its recipients: the message is there without any. -/
structure HalfQueued (cfg : Config) (settled : Prop) (base : Db) (path : Path) (done : List Copy)
    (now n now' n' : ℕ) (L : List Message)
    (m : Message) (ks : List Lock) (ov ov' db : Db) : Prop where
  before : StageAt cfg settled base path done now n now' n' L ks ov db
  locks : guard cfg (.outbound path) ⊆ ks
  own : ov' = (Table.single (.outbound path) (.outbound (L ++ [m]))).over ov
  fresh : ∀ m' ∈ L, m'.id ≠ m.id

variable {copy : Copy} {copies : List Copy} {c : Command}

/-- The recipients fill the room that the two checks have left. -/
theorem holds_createRecipients {recipients : List Recipient} {ov' : Db}
    (h : HalfQueued cfg settled base path done now n now' n' L
      ⟨copy.id, copy.recipients, t, []⟩ ks ov ov' db)
    (hfits : ∀ db', StageAt cfg settled base path done now n now' n' L ks ov db' →
      Fits cfg path (L ++ [⟨copy.id, copy.recipients, t, recipients⟩]) db') :
    Holds cfg settled me (sql (.createRecipients path copy.id recipients))
      (fun _ => Stage cfg settled base path (copy :: done) 0 0 0 0)
      (Err settled base path) ks ov' db := by
  refine Txn.holds_exec (fun _ => rfl) nofun ?_
  intro db' e ho _ he
  have hstage := h.before.keeps guard_account (h.locks guard_account) ho
  have hview : outboundOf (ov'.over db') path = L ++ [⟨copy.id, copy.recipients, t, []⟩] := by
    rw [h.own, over_assoc]
    unfold outboundOf
    rw [single_over, if_pos rfl]
  have hmap : (L ++ [(⟨copy.id, copy.recipients, t, []⟩ : Message)]).map (fun m : Message =>
      if m.id = copy.id then { m with recipients := m.recipients ++ recipients } else m)
        = L ++ [⟨copy.id, copy.recipients, t, recipients⟩] := by
    have hold : L.map (fun m : Message =>
        if m.id = copy.id then { m with recipients := m.recipients ++ recipients } else m) = L := by
      conv_rhs => rw [← map_id L]
      refine map_congr_left fun m hm => ?_
      rw [if_neg (h.fresh m hm)]
      rfl
    rw [map_append, hold]
    simp
  unfold exec at he
  dsimp only at he
  rw [hview, hmap] at he
  cases he
  rw [append_nil]
  refine ⟨covered_single h.locks, L ++ [⟨copy.id, copy.recipients, t, recipients⟩], ?_⟩
  rw [h.own, ← over_assoc, single_twice]
  refine hstage.write h.locks (prefix_append _ _) (hfits db' hstage) ?_
  intro c hc
  rcases mem_cons.mp hc with rfl | hc
  · exact ⟨_, mem_append_right _ mem_cons_self, rfl, rfl⟩
  · obtain ⟨m, hm, hid⟩ := hstage.queued c hc
    exact ⟨m, mem_append_left _ hm, hid⟩

/-- The message and its recipients, all or none. -/
theorem holds_enqueueOutbound
    (hstage : Stage cfg settled base path done now copy.capRecipients.length now'
      copy.recipients.length ks ov db) :
    Holds cfg settled me (enqueueOutbound cfg path copy.id copy.recipients)
      (fun _ => Stage cfg settled base path (copy :: done) 0 0 0 0)
      (Err settled base path) ks ov db := by
  unfold enqueueOutbound
  by_cases hnil : copy.recipients = []
  · rw [if_pos hnil]
    exact holds_fail fun _ _ => err_other
  rw [if_neg hnil]
  have hpos : 0 < copy.recipients.length := length_pos_of_ne_nil hnil
  refine holds_reading clockOf fun db1 ho1 _ => ?_
  obtain ⟨L₁, h1⟩ := hstage.others ho1
  rw [h1.clockOf_view]
  cases haddresses : queuedAddresses cfg copy.recipients with
  | none => exact holds_fail fun _ _ => err_other
  | some addresses =>
    have hlocks : guard cfg (.outbound path) ⊆ ks := by
      refine append_subset.mpr ⟨(h1.room (Nat.lt_of_lt_of_le hpos copy.covers)).1, ?_⟩
      exact cons_subset.mpr ⟨(h1.room' hpos).1, nil_subset _⟩
    refine Txn.holds_bind (Txn.holds_exec (fun _ => rfl) (fun _ _ _ => err_other) ?_)
    intro db2 e ho2 _ he
    have h2 := h1.keeps guard_account (hlocks guard_account) ho2
    unfold exec at he
    dsimp only at he
    rw [h2.view] at he
    split_ifs at he with hfresh
    cases he
    rw [append_nil]
    refine ⟨covered_single hlocks, holds_createRecipients ⟨h2, hlocks, rfl, ?_⟩ ?_⟩
    · intro m' hm' heq
      exact hfresh (mem_map.mpr ⟨m', hm', heq⟩)
    · intro db3 h3
      have hlen : (addresses.map fun address => (⟨address, clockOf db1⟩ : Recipient)).length
          ≤ copy.recipients.length := by
        rw [length_map]
        exact queuedAddresses_length haddresses
      refine h3.fits.append (t := clockOf db1) ?_ ?_
        (Nat.le_trans hlen copy.covers) hlen h1.clock h1.clock'
        (h3.room (Nat.lt_of_lt_of_le hpos copy.covers)).2 (h3.room' hpos).2
      · unfold Complete
        rw [haddresses, map_map]
        simp [Function.comp_def]
      · intro r hr
        obtain ⟨address, -, rfl⟩ := mem_map.mp hr
        rfl

/-- One copy: both checks, then its rows. -/
theorem holds_acceptCopy (hstage : Stage cfg settled base path done 0 0 0 0 ks ov db) :
    Holds cfg settled me (acceptCopy cfg path copy)
    (fun _ => Stage cfg settled base path (copy :: done) 0 0 0 0)
      (Err settled base path) ks ov db := by
  unfold acceptCopy
  by_cases hsuppressed : copy.suppressed = true
  · rw [if_pos hsuppressed]
    exact holds_fail fun _ _ => err_other
  rw [if_neg hsuppressed]
  refine holds_reading clockOf fun db1 ho1 _ => ?_
  obtain ⟨L₁, h1⟩ := hstage.others ho1
  rw [h1.clockOf_view]
  refine Txn.holds_bind (Txn.holds_mono (holds_pathEnforceCaps ⟨L₁, h1.clocked⟩) ?_)
  intro _ ks2 ov2 db2 hstage2
  refine holds_reading clockOf fun db3 ho3 _ => ?_
  obtain ⟨L₃, h3⟩ := hstage2.others ho3
  rw [h3.clockOf_view]
  have h3' : Stage cfg settled base path done (clockOf db1) copy.capRecipients.length
      (clockOf db3) 0 ks2 ov2 db3 :=
    ⟨L₃, { h3 with clock' := le_rfl, room' := nofun }⟩
  refine Txn.holds_bind (Txn.holds_mono (holds_enforceAccountCap h3') ?_)
  intro _ ks4 ov4 db4 hstage4
  refine Txn.holds_bind (Txn.holds_mono (holds_enqueueOutbound hstage4) ?_)
  intro _ ks5 ov5 db5 hstage5
  by_cases hfails : copy.fails = true
  · rw [if_pos hfails]
    exact holds_fail fun _ _ => err_other
  · rw [if_neg hfails]
    exact holds_pure hstage5

/-- What was accepted is there. -/
def Accepted (path : Path) (copies : List Copy) (db : Db) : Prop :=
  ∀ copy ∈ copies, Queued copy (outboundOf db path)

theorem Accepted.later (h : Accepted path copies db) (hlater : Later settled db db') :
    Accepted path copies db' := by
  intro copy hcopy
  obtain ⟨m, hm, hid⟩ := h copy hcopy
  exact ⟨m, (hlater.outbound path).subset hm, hid⟩

/-- What is committed is good again, with every copy in it. -/
theorem Stage.commits {a : Unit} (h : Stage cfg settled base path done 0 0 0 0 ks ov db)
    (hcopies : ∀ copy ∈ copies, copy ∈ done) :
    commits ((team cfg settled).rules me) (Asked settled) c
    (fun _ db => Accepted path copies db) a ks ov db := by
  intro db' ho _
  obtain ⟨L, hL⟩ := h.others ho
  have hgood : Good cfg settled db' := ho.good
  have hother : ∀ q, q ≠ path → outboundOf (ov.over db') q = outboundOf db' q := by
    intro q hq
    exact outboundOf_congr
      (over_of_none (hL.only (.outbound q) fun heq => hq (Place.outbound.inj heq)))
  refine ⟨⟨?_, ?_, ?_, ?_⟩, ⟨?_, ?_, ?_⟩, ?_⟩
  · intro q caps hcaps
    by_cases hq : q = path
    · rw [hq, hL.view]
      exact hL.fits.own caps (hq ▸ hcaps)
    · rw [hother q hq]
      exact hgood.path q caps hcaps
  · intro accountId
    by_cases haccount : accountId = path.accountId cfg
    · rw [haccount, hL.accountStamps_view]
      exact hL.fits.account
    · have hsame : accountStamps cfg (ov.over db') accountId = accountStamps cfg db' accountId := by
        refine flatMap_congr fun q hq => ?_
        rw [hother q]
        rintro rfl
        exact haccount (accountId_of_mem_paths hq).symm
      rw [hsame]
      exact hgood.account accountId
  · intro q
    by_cases hq : q = path
    · rw [hq, hL.view]
      exact hL.fits.complete
    · rw [hother q hq]
      exact hgood.complete q
  · intro hs id
    rw [hL.appPasswordOf_view]
    exact hgood.appPassword hs id
  · exact hL.clockOf_view.ge
  · intro q
    by_cases hq : q = path
    · rw [hq, hL.view]
      exact hL.grows
    · rw [hother q hq]
  · intro _ id
    rw [hL.appPasswordOf_view]
    exact .same
  · intro copy hcopy
    rw [hL.view]
    exact hL.queued copy (hcopies copy hcopy)

/-- The copies one after the other, by induction on those still to come. -/
theorem holds_acceptScript (hgood : Good cfg settled db) (hbase : Later settled base db) :
    Holds cfg settled me (acceptScript cfg path copies)
      (commits ((team cfg settled).rules me) (Asked settled) c fun _ db => Accepted path copies db)
      (Err settled base path)
      [] Table.empty db := by
  have hstart : Stage cfg settled base path [] 0 0 0 0 [] Table.empty db := by
    refine ⟨outboundOf db path, fun _ _ => rfl, fun h =>
      absurd rfl h, ?_, prefix_refl _, Good.fits hgood, hbase,
      nofun, Nat.zero_le _, Nat.zero_le _, nofun, nofun⟩
    rw [empty_over]
  -- by then every copy is still to come or has been queued
  refine Txn.holds_forEach (fun left _ ks ov db =>
    ∃ done, Stage cfg settled base path done 0 0 0 0 ks ov db
    ∧ ∀ copy ∈ copies, copy ∈ left ∨ copy ∈ done) ?_ ?_ copies ()
    ⟨[], hstart, fun copy hcopy => .inl hcopy⟩
  · rintro copy left _ ks ov db ⟨done, hstage, hleft⟩
    refine Txn.holds_mono (holds_acceptCopy hstage) fun _ ks ov db hstage' =>
      ⟨copy :: done, hstage', ?_⟩
    intro c hc
    rcases hleft c hc with hmem | hmem
    · rcases mem_cons.mp hmem with rfl | hmem
      · exact .inr mem_cons_self
      · exact .inl hmem
    · exact .inr (mem_cons_of_mem _ hmem)
  · rintro _ ks ov db ⟨done, hstage, hleft⟩
    exact hstage.commits fun copy hcopy => (hleft copy hcopy).resolve_left not_mem_nil

end queueing

/-! ## 5. The thaw -/

section thaw

variable {cfg : Config} {settled : Prop} {me id : ℕ} {ks : List Lock} {db db' : Db}
  {x : AppPassword}

/-- A transaction that has thawed the app password `x` and not recorded it yet. -/
structure Thawing (settled : Prop) (id : ℕ) (x : AppPassword) (ks : List Lock) (db : Db) :
    Prop where
  lock : Lock.appPassword id ∈ ks
  committed : appPasswordOf db id = x
  found : settled → x.owing = none ∧ x.frozenAt ≠ none

theorem Thawing.others (h : Thawing settled id x ks db) (ho : Others cfg settled me ks db db') :
    Thawing settled id x ks db' := by
  refine { h with committed := ?_ }
  rw [← h.committed]
  exact (appPasswordOf_congr (ho.agree (.appPassword id) _ mem_cons_self h.lock)).symm

/-- A statement of a transaction whose errors ask for nothing. -/
theorem holds_write {post : s.Result → List Lock → Db → Db → Prop} {ov : Db}
    (haside : ∀ v, aside v s = ⟨Table.empty, []⟩)
    (h : ∀ db' e, Others cfg settled me ks db db' → (settled → Settled (ov.over db') (.stmt s)) →
      exec cfg (ov.over db') s = some e →
      (∀ p, (e.writes p).isSome → guard cfg p ⊆ ks ++ e.locks) ∧ post e.result (ks ++ e.locks)
      (e.writes.over ov) db') :
    Holds cfg settled me (sql s) post (fun _ _ => True) ks ov db :=
  Txn.holds_exec haside (fun _ _ _ => trivial) h

/-- A thaw and its audit row are one transaction. -/
theorem holds_thawScript : Holds cfg settled me (thawScript id)
    (commits ((team cfg settled).rules me) (Asked settled) (.thaw id) fun _ _ => True)
    (fun _ _ => True) [] Table.empty db := by
  refine holds_reading (fun v => (appPasswordOf v id).frozenAt) fun db1 ho1 _ => ?_
  by_cases hfrozen : (appPasswordOf (Table.empty.over db1) id).frozenAt = none
  · rw [if_pos hfrozen]
    refine holds_pure fun db2 ho2 _ => ?_
    exact ⟨ho2.good, Step.refl me db2, trivial⟩
  rw [if_neg hfrozen]
  refine Txn.holds_bind (holds_write (fun _ => rfl) ?_)
  intro db2 e ho2 hok he
  rw [empty_over] at he hok
  cases he
  refine ⟨covered_single (List.Subset.refl _), ?_⟩
  have h2 : Thawing settled id (appPasswordOf db2 id) [.appPassword id] db2 :=
    ⟨mem_cons_self, rfl, hok⟩
  refine Txn.holds_bind (holds_write (fun _ => rfl) ?_)
  intro db3 e ho3 _ he
  have h3 := h2.others ho3
  cases he
  refine ⟨covered_single (subset_append_right _ _), holds_pure fun db4 ho4 _ => ?_⟩
  have hview : appPasswordOf
      (Table.over ((single (.appPassword id) (.appPassword { appPasswordOf db2 id with
      frozenAt := none })).over Table.empty) db3) id
      = { appPasswordOf db2 id with frozenAt := none } := by
    rw [over_assoc, appPasswordOf_single, if_pos rfl]
  have h4 := h3.others (ho4.mono fun k hk => mem_append_left _ hk)
  rw [hview, ← over_assoc, single_twice, over_assoc, empty_over]
  have hmoves : settled → Moves me (appPasswordOf db4 id) { appPasswordOf db2 id with
      frozenAt := none, rows := (appPasswordOf db2 id).rows ++ [.thaw] } := by
    intro hs
    rw [h4.committed]
    exact .thaw (h4.found hs).2 (h4.found hs).1
  obtain ⟨hgood, hstep⟩ := appPassword_step cfg ho4.good hmoves
  exact ⟨hgood, hstep, trivial⟩

end thaw

/-! ## 6. The calls -/

section calls

variable {α : Type} {cfg : Config} {settled : Prop} {me id : ℕ} {base db : Db} {Q : α → Db → Prop}

abbrev Safe (cfg : Config) (settled : Prop) (me : ℕ) (p : Prog α) (Q : α → Db → Prop) (db : Db) :
    Prop :=
  p.safe ((team cfg settled).rules me) (exec cfg) aside Failure.database (Asked settled)
    (script cfg) Q db

theorem safe_reading {f : s.Result → Prog α} (read : Db → s.Result)
    (h : ∀ db', Good cfg settled db' → Later settled db db' → (settled → Settled db' (.stmt s)) →
      Safe cfg settled me (f (read db')) Q db')
    (hread : ∀ v, exec cfg v s = reading (read v) := by intro; rfl) :
    Safe cfg settled me (ask s >>= f) Q db := by
  exact Proc.safe_looking read hread fun db' ho hok => h db' ho.good ho.rely.later hok

theorem safe_pure {a : α} (h : ∀ db', Good cfg settled db' → Later settled db db' → Q a db') :
    Safe cfg settled me (pure a) Q db :=
  fun db' ho => h db' ho.good ho.rely.later

/-- What a call returns with. -/
def Returned (settled : Prop) : Call → Db → Outcome → Db → Prop
  | .submit id copy, _, .accepted, db => Accepted (.submission id) [copy] db
  | .webmail accountId copies, _, .accepted, db => Accepted (.webmail accountId) copies db
  | .vacation accountId copy, _, .accepted, db => Accepted (.vacation accountId) [copy] db
  | .submit id _, born, .refused .frozen, db => settled → OnRecord born id db
  | .submit id _, born, .refused .capReached, db => settled → OnRecord born id db
  | .checkCaps id _, born, .reject _, db => settled → OnRecord born id db
  | _, _, _, _ => True

/-- Accepted with all copies queued, or refused with the freeze on record. -/
theorem safe_acceptSubmission {path : Path} {copies : List Copy} {Q : Outcome → Db → Prop}
    (haccepted : ∀ db', Good cfg settled db' → Accepted path copies db' → Q .accepted db')
    (hrefused : ∀ e refusal db', Good cfg settled db' → Err settled db path e db' →
      refusalFor e = pure (.refused refusal) →
      Q (.refused refusal) db') : Safe cfg settled me (acceptSubmission path copies) Q db := by
  refine Proc.safe_attempt_bind (fun _ db' => Accepted path copies db')
    (Err settled db path) ?_ ?_ ?_
  · exact fun db' ho => holds_acceptScript ho.good ho.rely.later
  · intro _ db' _ _ hdone
    exact safe_pure fun db'' hgood hlater => haccepted db'' hgood (hdone.later hlater)
  · intro e db' _ _ herr
    have hkeeps : ∀ db'', Later settled db' db'' → Err settled db path e db'' :=
      fun db'' hlater hs id' hid he => (herr hs id' hid he).later hlater hs
    cases e with
    | suppressed | frozen | capReached | accountCap =>
      exact safe_pure fun db'' hgood hlater => hrefused _ _ db'' hgood (hkeeps db'' hlater) rfl
    | recipients | caller | database => trivial

/-- The freeze of `checkCaps` and then its audit row: in between, the app password is in
the hands of this process. -/
theorem safe_freezeThenAudit {now : ℕ} {f : Unit → Prog α} (hgood : Good cfg settled db)
    (hbase : Later settled base db)
    (h : ∀ db', Good cfg settled db' → (settled → OnRecord base id db') →
      Safe cfg settled me (f ()) Q db') :
    Safe cfg settled me (freezeThenAudit me id now >>= f) Q db := by
  refine Proc.safe_bind hgood (Proc.safe_ask_bind ?_)
  intro db1 e ho1 hok he
  have hgood1 : Good cfg settled db1 := ho1.good
  have hlater1 : Later settled base db1 := hbase.trans ho1.rely.later
  have howing : settled → (appPasswordOf db1 id).owing = none := hok
  unfold exec at he
  dsimp only at he
  by_cases hfrozen : (appPasswordOf db1 id).frozenAt = none
  · -- the update owes its audit row, and nobody else takes that over
    rw [if_pos hfrozen] at he
    cases he
    obtain ⟨hgood2, hstep2⟩ := appPassword_step cfg hgood1 fun hs =>
      (.freeze now hfrozen (howing hs) : Moves me _ _)
    refine ⟨⟨covered_single (List.Subset.refl _), hgood2, hstep2⟩, ?_⟩
    refine Proc.safe_ask_bind ?_
    intro db3 e ho3 _ he
    have hmine : settled → (appPasswordOf db3 id).owing = some me := by
      intro hs
      rw [ho3.rely.mine hs id (by rw [appPasswordOf_single, if_pos rfl]), appPasswordOf_single,
        if_pos rfl]
    cases he
    obtain ⟨hgood4, hstep4⟩ := appPassword_step cfg ho3.good
      fun hs => (.record (hmine hs) : Moves me (appPasswordOf db3 id) _)
    refine ⟨⟨covered_single (List.Subset.refl _), hgood4, hstep4⟩, ?_⟩
    have hlater4 := hlater1.trans (hstep2.later.trans (ho3.rely.later.trans hstep4.later))
    refine safe_pure fun db5 hgood5 hlater5 => h db5 hgood5 fun hs => ?_
    refine (onRecord_of_last hlater4 hs ?_).later hlater5 hs
    rw [appPasswordOf_single, if_pos rfl]
    simp
  · -- frozen already: the row of that freeze is the last one
    rw [if_neg hfrozen] at he
    cases he
    refine ⟨⟨fun i hi => absurd hi Bool.false_ne_true, hgood1, Step.refl me db1⟩, ?_⟩
    refine safe_pure fun db2 hgood2 hlater2 => h db2 hgood2 fun hs => ?_
    have hlast := (hgood1.appPassword hs id).recorded hfrozen (howing hs)
    exact (onRecord_of_last hlater1 hs hlast).later hlater2 hs

/-- A rejection comes after the freeze, which is two statements here. -/
theorem safe_checkCaps :
    Safe cfg settled me (checkCaps cfg me id recipients)
    (Returned settled (.checkCaps id recipients) db) db := by
  unfold checkCaps
  split_ifs with hnil
  · exact safe_pure fun _ _ _ => trivial
  refine safe_reading (fun v => (appPasswordOf v id).frozenAt) fun db1 hgood1 hlater1 hok1 => ?_
  by_cases hfrozen : (appPasswordOf db1 id).frozenAt.isSome = true
  · rw [if_pos hfrozen]
    refine safe_pure fun db2 _ hlater2 hs => ?_
    have hlast := (hgood1.appPassword hs id).recorded (Option.isSome_iff_ne_none.mp hfrozen)
      (hok1 hs)
    exact (onRecord_of_last hlater1 hs hlast).later hlater2 hs
  rw [if_neg hfrozen]
  refine safe_reading clockOf fun db2 _ hlater2 _ => ?_
  refine safe_reading (fun v => recipientCount cfg v _ _) fun db3 _ hlater3 _ => ?_
  refine safe_reading (fun v => recipientCount cfg v _ _) fun db4 hgood4 hlater4 _ => ?_
  have hbase : Later settled db db4 := hlater1.trans (hlater2.trans (hlater3.trans hlater4))
  dsimp only
  split_ifs with hover
  · refine safe_freezeThenAudit hgood4 hbase fun db5 _ hrecorded => ?_
    exact safe_pure fun db6 _ hlater6 hs => (hrecorded hs).later hlater6 hs
  · exact safe_pure fun _ _ _ => trivial

end calls

/-- Every call and everything around them keeps the rules. -/
theorem system_follows (cfg : Config) (settled : Prop) :
    (system cfg).Follows (Asked settled) (Returned settled) (team cfg settled) where
  calls := by
    intro me call db hgood
    cases call with
    | submit id copy =>
      refine safe_acceptSubmission (fun _ _ hdone => hdone) ?_
      intro e refusal db' _ herr heq
      cases e with
      | frozen =>
        obtain rfl := Outcome.refused.inj (Txn.done.inj heq)
        exact fun hs => herr hs id rfl (.inl rfl)
      | capReached =>
        obtain rfl := Outcome.refused.inj (Txn.done.inj heq)
        exact fun hs => herr hs id rfl (.inr rfl)
      | suppressed | accountCap =>
        obtain rfl := Outcome.refused.inj (Txn.done.inj heq)
        trivial
      | recipients | caller | database => cases heq
    | webmail accountId copies =>
      exact safe_acceptSubmission (fun _ _ hdone => hdone) fun _ _ _ _ _ _ => trivial
    | vacation accountId copy =>
      exact safe_acceptSubmission (fun _ _ hdone => hdone) fun _ _ _ _ _ _ => trivial
    | checkCaps id recipients => exact safe_checkCaps
    | thaw id =>
      exact Proc.safe_transact_bind (fun _ _ => True) (fun _ _ => holds_thawScript)
        fun _ _ _ _ _ => safe_pure fun _ _ _ => trivial
  env := by
    intro x db db' hgood henv
    cases x with
    | tick ms =>
      cases henv
      exact surroundings cfg rfl hgood (Nat.le_add_right (clockOf db) ms)
    | seed accountId =>
      cases henv
      have hne : Place.clock ≠ .seeded accountId := nofun
      exact surroundings cfg rfl hgood (clockOf_congr (Table.single_over_other _ db hne)).ge

/-! ### A thaw between a freeze and its audit row -/

/-- One recipient an hour, and an app password for each account. -/
def oneAnHour : Config where
  hourlyDefault := 1
  dailyDefault := 1
  dailyRecipientCap := fun _ => none
  accountCap := ⟨200, 1000⟩
  accountOf := id
  appPasswords := fun accountId => [accountId]
  mem_appPasswords := fun accountId id => by simp
  nodup_appPasswords := fun accountId => nodup_singleton accountId
  trim := id
  toLowerCase := id

/-- Nothing has been sent yet. -/
def nothingSent : Db
  | .clock => some (.instant 0)
  | _ => none

/-- An empty database is where every history starts. -/
theorem nothingSent_good (cfg : Config) (settled : Prop) : Good cfg settled nothingSent := by
  have haccount : ∀ accountId, accountStamps cfg nothingSent accountId = [] :=
    fun accountId => flatMap_eq_nil_iff.mpr fun path _ => rfl
  refine ⟨fun path caps _ => ?_, fun accountId => ?_, fun path m hm => ?_, fun _ id => ?_⟩
  · exact ⟨bounded_nil, bounded_nil⟩
  · rw [haccount]
    exact ⟨bounded_nil, bounded_nil⟩
  · cases hm
  · exact ⟨isChain_nil, fun _ => ⟨rfl, nofun⟩, fun h => absurd rfl h, fun h => absurd rfl h⟩

def alice : Text := "alice@example.org".toList

def bob : Text := "bob@example.org".toList

/-- Two recipients are too many, so `checkCaps` freezes the app password; the operator
thaws it before the audit row is there. Then the same again, without the hurry. -/
def thawInBetween : List (Act Call Around) :=
  [.call (.checkCaps 0 [alice, bob])] ++ List.replicate 5 (.step 0) ++ [.call (.thaw 0)]
    ++ List.replicate 6 (.step 1)
    ++ List.replicate 2 (.step 0) ++ [.call (.checkCaps 0 [alice, bob])]
      ++ List.replicate 7 (.step 2)
    ++ [.call (.thaw 0)] ++ List.replicate 6 (.step 3)

theorem thawInBetween_runs :
    ((runAll (World.step (system oneAnHour)) (World.init nothingSent) thawInBetween).any
    fun w => (appPasswordOf w.db 0).rows = [.thaw, .freeze, .freeze, .thaw]) = true := by
  decide +kernel

/-- The thaw of a freeze comes between its update and its audit row, and another freeze
follows: two freezes stand on record with no thaw between them. -/
theorem two_freezes_between_thaws : ∃ w, Run (World.step (system oneAnHour)) anyStep
    (World.init nothingSent) w
    ∧ Good oneAnHour True nothingSent ∧ (appPasswordOf w.db 0).rows = [.thaw, .freeze, .freeze,
      .thaw] := by
  obtain ⟨w, hw, hrows⟩ := (Option.any_eq_true _ _).mp thawInBetween_runs
  exact ⟨w, Run.runAll thawInBetween Run.refl hw,
    nothingSent_good oneAnHour True, by simpa using hrows⟩

/-! ### Every interleaving -/

/-- What holds of a state however it was reached. -/
structure CapsKept (cfg : Config) (w : CapsWorld) : Prop where
  /-- An app password's recipients in any hour and in any day. -/
  submission : ∀ id t, within HOUR_MS t (stamps (outboundOf w.db (.submission id)))
        ≤ min cfg.hourlyDefault ((cfg.dailyRecipientCap id).getD cfg.dailyDefault)
      ∧ within DAY_MS t (stamps (outboundOf w.db (.submission id)))
        ≤ (cfg.dailyRecipientCap id).getD cfg.dailyDefault
  /-- Those of an account's webmail. -/
  webmail : ∀ accountId t,
    within HOUR_MS t (stamps (outboundOf w.db (.webmail accountId)))
      ≤ min cfg.hourlyDefault cfg.dailyDefault
      ∧ within DAY_MS t (stamps (outboundOf w.db (.webmail accountId))) ≤ cfg.dailyDefault
  /-- Those of all paths of an account together. -/
  account : ∀ accountId t,
    within HOUR_MS t (accountStamps cfg w.db accountId)
      ≤ min cfg.accountCap.hourly cfg.accountCap.daily
      ∧ within DAY_MS t (accountStamps cfg w.db accountId) ≤ cfg.accountCap.daily
  /-- A message is queued for all of its recipients. -/
  complete : ∀ path, ∀ m ∈ outboundOf w.db path, queuedAddresses cfg m.envelope
    = some (m.recipients.map (·.address))
  /-- A message that was accepted is queued. -/
  submitted : ∀ p ∈ w.procs, ∀ id copy, p.call = .submit id copy → p.slot = .over (some .accepted) →
    ∃ m ∈ outboundOf w.db (.submission id), m.id = copy.id ∧ m.envelope = copy.recipients
  sent : ∀ p ∈ w.procs, ∀ accountId copies, p.call = .webmail accountId copies →
    p.slot = .over (some .accepted) →
    ∀ copy ∈ copies, ∃ m ∈ outboundOf w.db (.webmail accountId), m.id = copy.id
      ∧ m.envelope = copy.recipients

/-- What holds of a state that was reached by `Settled` steps. -/
structure FreezesKept (w : CapsWorld) : Prop where
  /-- An app password is frozen exactly when the last row on record is a freeze, but for the
  freeze of a `checkCaps` that has still to record it. -/
  frozen : ∀ id, (appPasswordOf w.db id).owing = none →
    ((appPasswordOf w.db id).frozenAt ≠ none ↔ (appPasswordOf w.db id).rows.getLast? = some .freeze)
  owing : ∀ id, (appPasswordOf w.db id).owing ≠ none → (appPasswordOf w.db id).frozenAt ≠ none
  /-- A message that is refused because of the cap of an app password leaves it frozen. -/
  refused : ∀ p ∈ w.procs, ∀ id copy refusal, p.call = .submit id copy →
    p.slot = .over (some (.refused refusal)) →
    refusal = .frozen ∨ refusal = .capReached → LeftFrozen p.born id w.db
  rejected : ∀ p ∈ w.procs, ∀ id recipients refusal, p.call = .checkCaps id recipients →
    p.slot = .over (some (.reject refusal)) → LeftFrozen p.born id w.db
  /-- Between two thaws there is exactly one freeze on record. -/
  turns : ∀ id, (appPasswordOf w.db id).rows.IsChain (· ≠ ·)

/-- **Recipient caps hold under any concurrency**, in every run; and in every run whose
steps are all `Settled`, refusals and the record of freezes go together. -/
theorem recipient_caps_hold (cfg : Config) {db₀ : Db} (h₀ : Good cfg True db₀) {w : CapsWorld}
    (hrun : Run (World.step (system cfg)) anyStep (World.init db₀) w) :
    CapsKept cfg w
      ∧ (Run (World.step (system cfg)) (World.meets (onView Settled)) (World.init db₀) w →
        FreezesKept w) := by
  constructor
  · -- the invariant without its part about freezes holds in every run
    have hgood₀ : Good cfg False db₀ := ⟨h₀.path, h₀.account, h₀.complete, False.elim⟩
    obtain ⟨hsound, -⟩ := World.Sound.run (system_follows cfg False) (World.Sound.init hgood₀)
      (hrun.mono fun w a _ => World.meets_of_forall (fun _ _ _ hf => hf.elim) w a)
    have hgood : Good cfg False w.db := hsound.good
    refine ⟨fun id t => ?_, fun accountId t => ?_, fun accountId t => ?_, hgood.complete, ?_, ?_⟩
    · obtain ⟨hhour, hday⟩ := hgood.path (.submission id) _ rfl
      exact ⟨hhour t, hday t⟩
    · obtain ⟨hhour, hday⟩ := hgood.path (.webmail accountId) _ rfl
      exact ⟨hhour t, hday t⟩
    · obtain ⟨hhour, hday⟩ := hgood.account accountId
      exact ⟨hhour t, hday t⟩
    · intro p hp id copy hcall hslot
      obtain ⟨then', hlater, hret⟩ := hsound.returned hp hslot
      rw [hcall] at hret
      exact Accepted.later hret hlater copy mem_cons_self
    · intro p hp accountId copies hcall hslot
      obtain ⟨then', hlater, hret⟩ := hsound.returned hp hslot
      rw [hcall] at hret
      exact Accepted.later hret hlater
  · -- with it, in the runs that meet the condition
    intro hsettled
    obtain ⟨hsound, -⟩ := World.Sound.run (system_follows cfg True) (World.Sound.init h₀)
      (hsettled.mono (World.meets_imp fun _ _ _ h _ => h))
    have hgood : ∀ id, GoodAppPassword (appPasswordOf w.db id) :=
      Good.appPassword hsound.good trivial
    refine ⟨fun id howing => ⟨fun hfrozen => (hgood id).recorded hfrozen howing, ?_⟩, ?_, ?_, ?_,
      fun id => (hgood id).turns⟩
    · exact fun hlast hthawed => ((hgood id).thawed hthawed).2 hlast
    · exact fun id howing hthawed => howing ((hgood id).thawed hthawed).1
    · intro p hp id copy refusal hcall hslot hcap
      obtain ⟨then', hlater, hret⟩ := hsound.returned hp hslot
      rw [hcall] at hret
      rcases hcap with rfl | rfl
      · exact ((hret trivial).later hlater trivial).leftFrozen (hgood id)
      · exact ((hret trivial).later hlater trivial).leftFrozen (hgood id)
    · intro p hp id recipients refusal hcall hslot
      obtain ⟨then', hlater, hret⟩ := hsound.returned hp hslot
      rw [hcall] at hret
      exact ((hret trivial).later hlater trivial).leftFrozen (hgood id)

/-- A message to one recipient. -/
def toAlice (id : ℕ) : Copy := ⟨id, [alice], [alice], le_rfl, false, false⟩

/-- The second message is one too many, and the app password is thawed afterwards. -/
def oneTooMany : List (Act Call Around) :=
  [.call (.submit 0 (toAlice 1))] ++ List.replicate 15 (.step 0) ++ [.call (.submit 0 (toAlice 2))]
    ++ List.replicate 9 (.step 1) ++ [.call (.thaw 0)] ++ List.replicate 6 (.step 2)

/-- One message was accepted and one refused. -/
def oneAccepted (w : CapsWorld) : Bool :=
  (stamps (outboundOf w.db (.submission 0))).length = 1
    && (appPasswordOf w.db 0).rows = [.freeze, .thaw]
    && w.procs[1]?.any fun p =>
      match p.call, p.slot with
      | .submit 0 _, .over (some (.refused .capReached)) => true
      | _, _ => false

theorem oneTooMany_runs : ((runWhile (World.step (system oneAnHour)) (World.meets (onView Settled))
    (World.init nothingSent) oneTooMany).any oneAccepted) = true := by
  decide +kernel

theorem recipient_caps_hold_one_too_many : ∃ w : CapsWorld, oneAccepted w = true
    ∧ (∀ t, within HOUR_MS t (stamps (outboundOf w.db (.submission 0))) ≤ 1)
    ∧ (appPasswordOf w.db 0).rows.IsChain (· ≠ ·) := by
  obtain ⟨w, hw, haccepted⟩ := (Option.any_eq_true _ _).mp oneTooMany_runs
  have hsettled := Run.runWhile oneTooMany Run.refl hw
  obtain ⟨hcaps, hfreezes⟩ := recipient_caps_hold oneAnHour (nothingSent_good oneAnHour True)
    (hsettled.mono fun _ _ _ => trivial)
  exact ⟨w, haccepted, fun t => (hcaps.submission 0 t).1, (hfreezes hsettled).turns 0⟩

end Postroom.Submission
