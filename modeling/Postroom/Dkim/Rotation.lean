/-
Any number of `ensureDkimKeys`, `rotateDkimKeys` and `loadSigningKeys` calls, a
statement at a time.

`two_active_keys` is an interleaving that leaves a domain with two active keys of
one algorithm: a call of `ensureDkimKeys` that read the clock first creates its key
last, and its second look, under the lock, passes over the key that was made
meanwhile because that key is newer than its own `now`. `dkim_rotation_safe` says
what holds of every run, and what holds of those that are `Timely` for one aspect.
-/
import Postroom.Dkim.Writes

set_option autoImplicit false

namespace Postroom.Dkim

open Lib AuthChecks List

/-! ## 1. The calls are safe -/

variable {rt : Runtime} {q : Option Aspect} {α : Type}

/-- A process of the system, from a point on. -/
abbrev Safe (rt : Runtime) (q : Option Aspect) (p : Prog α) (Q : α → Db → Prop) (db : Db) : Prop :=
  p.safe (rules rt q) exec noAside Failure.database (Asked q) (script rt) Q db

section rules

variable {Q : α → Db → Prop} {db : Db}

/-- What is read holds of the database as the others have left it. -/
theorem safe_reading {s : Stmt} {f : s.Result → Prog α} (read : Db → s.Result)
    (hread : ∀ v, exec v s = reading (read v))
    (h : ∀ db', (rules rt q).good db' → Later rt q db db' → Asked q db' db' (.stmt s) →
      Safe rt q (f (read db')) Q db') :
    Safe rt q (ask s >>= f) Q db := by
  exact Proc.safe_looking read hread fun db' ho hok => h db' ho.good ho.rely hok

/-- A transaction is judged on its own (`held_…`), from any later database. -/
theorem safe_transact {c : Command} {f : c.Result → Prog α} (htxn : ∀ db', Later rt q db db' →
      Held rt q (script rt c) (commits (rules rt q) (Asked q) c fun _ _ => True) [] Table.empty db')
    (h : ∀ a db', (rules rt q).good db' → Later rt q db db' → Safe rt q (f a) Q db') :
    Safe rt q (transact c >>= f) Q db :=
  Proc.safe_transact_bind (fun _ _ => True) (fun db' ho => htxn db' ho.rely)
    fun a db' hgood hlater _ => h a db' hgood hlater

theorem safe_pure {a : α} (h : ∀ db', (rules rt q).good db' → Later rt q db db' → Q a db') :
    Safe rt q (pure a) Q db :=
  fun db' ho => h db' ho.good ho.rely

/-- An unknown domain ends the call; of a known one nothing is remembered. -/
theorem safe_findDomain {name : Text} {f : Unit → Prog α} (hgood : (rules rt q).good db)
    (h : ∀ db', (rules rt q).good db' → Later rt q db db' → Safe rt q (f ()) Q db') :
    Safe rt q (findDomain name >>= f) Q db := by
  refine Proc.safe_bind hgood ?_
  refine safe_reading (hasDomain · name) (fun v => rfl) ?_
  intro db1 _ hlater1 _
  by_cases hfound : hasDomain db1 name = true
  · rw [if_pos hfound]
    exact safe_pure fun db2 hgood2 hlater2 => h db2 hgood2 (hlater1.trans hlater2)
  · rw [if_neg hfound]
    trivial

end rules

/-- A clock that has come to `now` stays past it. -/
theorem clock_later {now : ℕ} {a b : Db} (h : (rules rt q).rely a b) (hnow : now ≤ clockOf a) :
    now ≤ clockOf b :=
  Nat.le_trans hnow (Later.clock h)

section calls

variable {name : Text} {pairs : Pairs} {algorithm : Algorithm} {now : ℕ} {db : Db}

variable {events : List RotationEvent} {p : Place} {force : Bool} {domainName : Text} {k : DkimKey}

/-- The row is retired under the lock, and only if it is due there. -/
theorem safe_retireOne {key : DkimKey} (hnow : now ≤ clockOf db) :
    Safe rt q (retireOne name algorithm now events key) (fun _ _ => True) db := by
  unfold retireOne
  split_ifs
  · exact safe_pure fun _ _ _ => trivial
  · refine safe_transact (fun db' hlater => held_retireScript (clock_later hlater hnow)) ?_
    intro retired db' _ _
    split_ifs
    · exact safe_pure fun _ _ _ => trivial
    · exact safe_pure fun _ _ _ => trivial

/-- An answer in which the key is visible publishes it. -/
theorem published_of_visible {answer : Answer} {heard : List (Text × Answer)}
    (h : Answer.visibility rt answer k.dnsRecord = .visible)
    (hheard : (dnsNameOf k.selector name, answer) ∈ heard) :
    Published rt heard name k := by
  unfold Answer.visibility at h
  rcases hrecords : answer.records with _ | records
  · rw [hrecords] at h
    cases h
  · rw [hrecords] at h
    dsimp only at h
    split_ifs at h with hlen hmatch
    rw [Bool.not_eq_true', Bool.not_eq_false] at hmatch
    unfold txtMatches at hmatch
    rcases hwant : keyTag rt k.dnsRecord with _ | want
    · rw [hwant] at hmatch
      cases hmatch
    · rw [hwant] at hmatch
      simp only [Bool.and_eq_true, decide_eq_true_eq, any_eq_true] at hmatch
      obtain ⟨hp, txt, htxt, hgot⟩ := hmatch
      exact ⟨answer, records, txt, want, hheard, hrecords, htxt, hgot, hwant, hp⟩

/-- A change of a row that is not a domain's keys. -/
theorem surroundings {db db' : Db} (hgood : (rules rt q).good db)
    (hkeys : ∀ name, keysOf db' name = keysOf db name)
    (hclock : clockOf db ≤ clockOf db') (hheard : ∀ x ∈ heardIn db, x ∈ heardIn db') :
    (rules rt q).good db' ∧ OneStep rt q db db' := by
  refine ⟨fun other => ?_, ⟨hclock, hheard, ?_, ?_⟩, ?_⟩
  · rw [hkeys]
    exact (hgood other).mono hclock
  · intro other i k hk
    rw [hkeys]
    exact ⟨k, hk, Moves.refl _ _ _ k⟩
  · intro other algorithm hs
    rw [hkeys]
    exact hs
  · intro other i k k' hk hk'
    rw [hkeys, hk] at hk'
    exact .inl (by rw [Option.some.inj hk'])

/-- The clock, and what DNS has answered, are no keys. -/
theorem keysOf_unlocked (hp : unlocked p) (r : Row) (db : Db) (name : Text) :
    keysOf ((Table.single p r).over db) name = keysOf db name := by
  refine keysOf_congr ?_
  rw [Table.single_over, if_neg]
  rintro rfl
  exact hp

theorem clockOf_other (hp : p ≠ .clock) (r : Row) (db : Db) :
    clockOf ((Table.single p r).over db) = clockOf db := by
  unfold clockOf
  rw [Table.single_over, if_neg (Ne.symm hp)]

theorem heardIn_other (hp : p ≠ .heard) (r : Row) (db : Db) :
    heardIn ((Table.single p r).over db) = heardIn db := by
  unfold heardIn
  rw [Table.single_over, if_neg (Ne.symm hp)]

theorem heardIn_single (answers : List (Text × Answer)) (db : Db) :
    heardIn ((Table.single .heard (.heard answers)).over db) = answers := by
  unfold heardIn
  rw [Table.single_over, if_pos rfl]

/-- The answer of DNS is on record before the switch asks for the lock. -/
theorem safe_switchTo {pending : DkimKey} (hpending : (keysOf db name)[pending.id]? = some pending)
    (halg : pending.algorithm = algorithm) :
    Safe rt q (switchTo rt name algorithm now pending events) (fun _ _ => True) db := by
  refine Proc.safe_ask_bind ?_
  intro db1 e ho _ he
  cases he
  dsimp only
  let entry := (dnsNameOf pending.selector name, answerIn db1 (dnsNameOf pending.selector name))
  let db2 := (Table.single Place.heard (Row.heard (heardIn db1 ++ [entry]))).over db1
  have hfree : unlocked .heard := trivial
  have hne : Place.heard ≠ .clock := nofun
  have hkeys2 : ∀ n, keysOf db2 n = keysOf db1 n := keysOf_unlocked hfree _ db1
  have hheard2 : heardIn db2 = heardIn db1 ++ [entry] := heardIn_single _ db1
  obtain ⟨hgood2, hstep2⟩ : (rules rt q).good db2 ∧ OneStep rt q db1 db2 := by
    refine surroundings ho.good hkeys2 (Nat.le_of_eq (clockOf_other hne _ db1).symm) ?_
    rw [hheard2]
    exact fun x hx => mem_append_left _ hx
  refine ⟨⟨covered_single (nil_subset _), hgood2, hstep2⟩, ?_⟩
  by_cases hseen : Answer.visibility rt (answerIn db1 (dnsNameOf pending.selector name))
    pending.dnsRecord = .visible
  · rw [if_neg (not_not.mpr hseen)]
    -- the row may have moved on meanwhile, but its selector and record are the same
    obtain ⟨k, hk, hmoves⟩ := ho.rely.keys name pending.id pending hpending
    have hpub : Published rt (heardIn db2) name pending := by
      refine published_of_visible hseen ?_
      rw [hheard2]
      exact mem_append_right _ mem_cons_self
    have hverified : Verified rt name algorithm pending.id db2 := by
      refine ⟨k, ?_, hmoves.algorithm.trans halg, hpub.mono
        (fun _ hx => hx) hmoves.selector hmoves.dnsRecord⟩
      rw [hkeys2]
      exact hk
    refine safe_transact (fun db' hlater => held_switchScript (hverified.later hlater)) ?_
    intro switched db' _ _
    cases switched with
    | none | some old => exact safe_pure fun _ _ _ => trivial
  · rw [if_pos hseen]
    exact safe_pure fun _ _ _ => trivial

/-- A successor is made by a transaction that looks for one again. -/
theorem safe_succeed {active : DkimKey} :
    Safe rt q (succeed rt name pairs force algorithm now active events) (fun _ _ => True) db := by
  unfold succeed
  split_ifs
  · exact safe_pure fun _ _ _ => trivial
  · refine safe_transact (fun db' _ => held_createPendingScript) ?_
    intro created db' _ _
    cases created with
    | none | some selector => exact safe_pure fun _ _ _ => trivial

/-- A row that was read is where its identifier says. -/
theorem GoodKeys.getElem {t : ℕ} {ks : List DkimKey} (h : GoodKeys q t ks) (hk : k ∈ ks) :
    ks[k.id]? = some k := by
  obtain ⟨i, hi⟩ := mem_iff_getElem?.mp hk
  rw [h.ids i k hi]
  exact hi

/-- What was read may be old; only that the row exists is used of it. -/
theorem safe_rotateRows {rows : List DkimKey} (hgood : (rules rt q).good db)
    (hrows : ∀ k ∈ rows, k ∈ keysOf db name ∧ k.algorithm = algorithm) :
    Safe rt q (rotateRows rt name pairs force now algorithm events rows) (fun _ _ => True) db := by
  unfold rotateRows
  split
  · rename_i pending hpending
    obtain ⟨hmem, halg⟩ := hrows pending (mem_of_find?_eq_some hpending)
    exact safe_switchTo ((hgood name).getElem hmem) halg
  · exact safe_pure fun _ _ _ => trivial
  · exact safe_succeed

/-- One algorithm: retirements first, then a switch or a successor. -/
theorem safe_rotateOne (hnow : now ≤ clockOf db) :
    Safe rt q (rotateOne rt name pairs force now events algorithm) (fun _ _ => True) db := by
  refine safe_reading _ (fun v => rfl) ?_
  intro db1 hgood1 hlater1 _
  refine Proc.safe_bind hgood1 ?_
  -- the loop over what was read keeps nothing in mind but the time
  refine Proc.safe_forEach (fun _ _ db => now ≤ clockOf db) ?_ ?_ _ events hgood1
    (clock_later hlater1 hnow)
  · intro key rest acc db _ hnow
    exact Proc.safe_imp clock_later (safe_retireOne hnow) hnow fun _ _ _ h _ => h
  · intro acc db db2 _ ho
    refine safe_reading _ (fun v => rfl) ?_
    intro db3 hgood3 _ _
    refine safe_rotateRows hgood3 ?_
    intro k hk
    rw [newestFirst, mem_insertionSort, mem_filter] at hk
    simp only [Bool.and_eq_true, decide_eq_true_eq] at hk
    exact ⟨hk.1, hk.2.1⟩

/-- The algorithms in turn; of the rounds before only the time is kept. -/
theorem safe_rotateDkimKeys : Safe rt q (rotateDkimKeys rt domainName pairs force)
    (fun _ _ => True) db := by
  refine safe_reading clockOf (fun v => rfl) ?_
  intro db1 hgood1 _ _
  cases normalizeDomain rt domainName with
  | error e => trivial
  | ok name =>
    refine safe_findDomain hgood1 ?_
    intro db2 hgood2 hlater2
    refine Proc.safe_forEach (fun _ _ db => clockOf db1 ≤ clockOf db) ?_
      (fun _ _ _ _ _ => trivial) _ [] hgood2 hlater2.clock
    intro algorithm rest acc db _ hnow
    exact Proc.safe_imp clock_later (safe_rotateOne hnow) hnow fun _ _ _ h _ => h

/-- The first look is without a lock, the transaction looks again. -/
theorem safe_ensureOne {out : List DkimKeyInfo} :
    Safe rt q (ensureOne name pairs now out algorithm) (fun _ _ => True) db := by
  refine safe_reading _ (fun v => rfl) ?_
  intro db1 _ _ _
  split
  · exact safe_pure fun _ _ _ => trivial
  · refine safe_transact (fun db' _ => held_createActiveScript) ?_
    exact fun _ _ _ _ => safe_pure fun _ _ _ => trivial

/-- `ensureDkimKeys` makes what is missing, one algorithm after the other. -/
theorem safe_ensureDkimKeys : Safe rt q (ensureDkimKeys rt domainName pairs)
    (fun _ _ => True) db := by
  refine safe_reading clockOf (fun v => rfl) ?_
  intro db1 hgood1 _ _
  cases normalizeDomain rt domainName with
  | error e => trivial
  | ok name =>
    refine safe_findDomain hgood1 ?_
    intro db2 hgood2 _
    refine Proc.safe_forEach (fun _ _ _ => True) ?_ (fun _ _ _ _ _ => trivial) _ [] hgood2 trivial
    exact fun algorithm rest acc db _ _ => safe_ensureOne

/-- What `loadSigningKeys` returns when both algorithms have a key that signs: one key
of the domain for each. -/
def BothKeys (db : Db) (name : Text) (keys : Option (List (Text × Algorithm))) : Prop :=
  ∃ ed ∈ keysOf db name, ∃ rsa ∈ keysOf db name, ed.algorithm = .ed25519 ∧ rsa.algorithm = .rsa
    ∧ keys = some [(ed.selector, .ed25519), (rsa.selector, .rsa)]

/-- No row goes away, so the keys found stay keys of the domain. -/
theorem BothKeys.later {keys : Option (List (Text × Algorithm))} {db' : Db}
    (h : BothKeys db name keys)
    (hlater : Later rt q db db') : BothKeys db' name keys := by
  obtain ⟨ed, hed, rsa, hrsa, halg, halg', rfl⟩ := h
  have hfind : ∀ k ∈ keysOf db name, ∃ k' ∈ keysOf db' name, k'.algorithm = k.algorithm
      ∧ k'.selector = k.selector := by
    intro k hk
    obtain ⟨i, hi⟩ := mem_iff_getElem?.mp hk
    obtain ⟨k', hk', hmoves⟩ := hlater.keys name i k hi
    exact ⟨k', mem_of_getElem? hk', hmoves.algorithm, hmoves.selector⟩
  obtain ⟨ed', hed', halged, hseled⟩ := hfind ed hed
  obtain ⟨rsa', hrsa', halgrsa, hselrsa⟩ := hfind rsa hrsa
  refine ⟨ed', hed', rsa', hrsa', halged.trans halg, halgrsa.trans halg', ?_⟩
  rw [hseled, hselrsa]

/-- A key that signs is found, if it began to sign before `now`. -/
theorem activeKeys_finds (hgood : (rules rt q).good db)
    (htimely : Timely .bothLoaded db (.stmt (.activeKeys name now)))
    (hsigns : Signs (keysOf db name) algorithm) : ∃ k ∈ keysOf db name, k.algorithm = algorithm
      ∧ (newestFirst ((keysOf db name).filter (·.signsAt now))).find?
      (·.algorithm = algorithm) = some k := by
  obtain ⟨k, hk, halg, hs⟩ := hsigns
  have hsignsAt : k.signsAt now = true := by
    simp [DkimKey.signsAt, hs, htimely k hk hs, (hgood name).unretired k hk (by rw [hs]; decide)]
  have hmem : k ∈ newestFirst ((keysOf db name).filter (·.signsAt now)) := by
    rw [newestFirst, mem_insertionSort, mem_filter]
    exact ⟨hk, hsignsAt⟩
  rcases hfound : (newestFirst ((keysOf db name).filter (·.signsAt now))).find?
    (·.algorithm = algorithm) with _ | k'
  · have := find?_eq_none.mp hfound k hmem
    simp [halg] at this
  · refine ⟨k', ?_, by simpa using find?_some hfound, hfound⟩
    have hmem' := mem_of_find?_eq_some hfound
    rw [newestFirst, mem_insertionSort, mem_filter] at hmem'
    exact hmem'.1

theorem signs_hasDomain (h : Signs (keysOf db name) algorithm) : hasDomain db name = true := by
  obtain ⟨k, hk, -⟩ := h
  unfold keysOf at hk
  unfold hasDomain
  split at hk
  · rfl
  · cases hk

/-- The one read of the keys finds one that signs for each algorithm. -/
theorem safe_loadSigningKeys : Safe rt q (loadSigningKeys rt domainName)
      (fun keys db' => q = some .bothLoaded → ∀ name, normalizeDomain rt domainName = .ok name →
        (∀ algorithm, Signs (keysOf db name) algorithm) → BothKeys db' name keys) db := by
  refine safe_reading clockOf (fun v => rfl) ?_
  intro db1 _ hlater1 _
  rcases hname : normalizeDomain rt domainName with e | name
  · trivial
  refine safe_reading (hasDomain · name) (fun v => rfl) ?_
  intro db2 _ hlater2 _
  by_cases hfound : hasDomain db2 name = true
  · rw [if_pos hfound]
    refine safe_reading (fun v algorithm =>
      (newestFirst ((keysOf v name).filter (·.signsAt (clockOf db1)))).find?
      (·.algorithm = algorithm)) (fun v => rfl) ?_
    intro db3 hgood3 hlater3 htimely
    refine safe_pure ?_
    intro db4 _ hlater4 hq name' hname' hsigns
    obtain rfl := Except.ok.inj hname'
    -- both algorithms still have an active key, and this read is not blind to it
    have hfinds := fun algorithm => activeKeys_finds hgood3 (htimely _ hq)
      (((hlater1.trans hlater2).trans hlater3).signs name algorithm (hsigns algorithm))
    obtain ⟨ed, hed, halg, hfound⟩ := hfinds .ed25519
    obtain ⟨rsa, hrsa, halg', hfound'⟩ := hfinds .rsa
    refine BothKeys.later ⟨ed, hed, rsa, hrsa, halg, halg', ?_⟩ hlater4
    simp only [signingKeys, DKIM_ALGORITHMS, hfound, hfound', Option.map_some]
  · rw [if_neg hfound]
    refine safe_pure ?_
    intro db3 _ _ _ name' hname' hsigns
    obtain rfl := Except.ok.inj hname'
    exact absurd (signs_hasDomain ((hlater1.trans hlater2).signs name .rsa (hsigns .rsa))) hfound

end calls

/-! ## 2. Every interleaving -/

/-- What is known of a call's outcome, from the table it was made on. -/
def Returned (rt : Runtime) (q : Option Aspect) : Call → Db → Outcome → Db → Prop
  | .load domainName, born, .loaded keys, db => q = some .bothLoaded →
    ∀ name, normalizeDomain rt domainName = .ok name →
      (∀ algorithm, Signs (keysOf born name) algorithm) → BothKeys db name keys
  | .load _, _, _, _ => False
  | _, _, _, _ => True

/-- Every call of the system is safe, from any good database. -/
theorem system_follows (rt : Runtime) (q : Option Aspect) :
    (system rt).Follows (Asked q) (Returned rt q) (team rt q) where
  calls := by
    intro _ call db hgood
    cases call with
    | ensure domainName pairs =>
      refine Proc.safe_bind hgood (Proc.safe_mono safe_ensureDkimKeys ?_)
      exact fun _ _ _ _ => safe_pure fun _ _ _ => trivial
    | rotate domainName pairs force =>
      refine Proc.safe_bind hgood (Proc.safe_mono safe_rotateDkimKeys ?_)
      exact fun _ _ _ _ => safe_pure fun _ _ _ => trivial
    | load domainName =>
      refine Proc.safe_bind hgood (Proc.safe_mono safe_loadSigningKeys ?_)
      intro keys db' _ hkeys
      refine safe_pure fun db'' _ hlater hq name hname hsigns => ?_
      exact (hkeys hq name hname hsigns).later hlater
  env := by
    intro x db db' hgood henv
    have hother : ∀ {p : Place} {r : Row}, unlocked p → ∀ i, guard i ≠ [] →
        db i = (Table.single p r).over db i := by
      intro p r hp i hi
      have hne : i ≠ p := by
        rintro rfl
        exact unlocked_of_guard hi hp
      rw [Table.single_over, if_neg hne]
    cases x with
    | tick ms =>
      cases henv
      have hfree : unlocked .clock := trivial
      have hne : Place.clock ≠ .heard := nofun
      obtain ⟨hgood', hstep⟩ := surroundings hgood
        (keysOf_unlocked hfree (.instant (clockOf db + ms)) db)
        (Nat.le_add_right (clockOf db) ms) (by rw [heardIn_other hne]; exact fun _ hx => hx)
      exact ⟨hgood', hstep, fun _ => hstep.later, hother hfree⟩
    | publish dnsName answer =>
      cases henv
      have hfree : unlocked (.txt dnsName) := trivial
      have hne : Place.txt dnsName ≠ .heard := nofun
      have hne' : Place.txt dnsName ≠ .clock := nofun
      obtain ⟨hgood', hstep⟩ := surroundings hgood (keysOf_unlocked hfree (.answer answer) db)
        (by rw [clockOf_other hne']) (by rw [heardIn_other hne]; exact fun _ hx => hx)
      exact ⟨hgood', hstep, fun _ => hstep.later, hother hfree⟩

/-! ### Two active keys -/

/-- A runtime for the runs below, in which every day is in September 2026. -/
def plainRuntime : Runtime where
  toLowerCase := id
  trim := id
  domainToASCII := id
  yearMonth := fun _ => "202609".toList
  addUtcMonths := fun t months => t + months * 30 * DAY_MS

def exampleOrg : Text := "example.org".toList

def somePairs : Pairs := fun
  | .ed25519 => "RWQ=".toList
  | .rsa => "UnNh".toList

/-- A domain without keys, at time 100. -/
def noKeys : Db
  | .clock => some (.instant 100)
  | .domain name => if name = exampleOrg then some (.keys []) else none
  | _ => none

/-- A domain without keys is where every history starts. -/
theorem noKeys_good : ∀ name, GoodKeys (some .oneActive) (clockOf noKeys) (keysOf noKeys name) := by
  intro name
  have hnil : keysOf noKeys name = [] := by
    have hrow : noKeys (.domain name) = if name = exampleOrg then some (.keys []) else none := rfl
    unfold keysOf
    rw [hrow]
    by_cases h : name = exampleOrg
    · rw [if_pos h]
    · rw [if_neg h]
  rw [hnil]
  exact ⟨nofun, nodup_nil, fun _ => nofun, nofun, nofun, nofun⟩

/-- The first call reads the clock; a millisecond later the second one does, and
creates its Ed25519 key; then the first creates one too. -/
def ensureTwice : List (Act Call Around) :=
  [.call (.ensure exampleOrg somePairs), .step 0, .env (.tick 1),
    .call (.ensure exampleOrg somePairs)]
    ++ List.replicate 9 (.step 1) ++ List.replicate 8 (.step 0)

/-- Two active keys of one algorithm. -/
def twoActive (w : DkimWorld) : Bool :=
  ((keysOf w.db exampleOrg).filter fun k => k.algorithm = .ed25519 && k.state = .active).length = 2

theorem ensureTwice_runs :
    ((runAll (World.step (system plainRuntime)) (World.init noKeys) ensureTwice).any twoActive)
      = true := by
  decide +kernel

/-- What is asked where nothing is assumed. -/
theorem asked_none (w : DkimWorld) (a : Act Call Around) : World.meets (Asked none) w a :=
  World.meets_of_forall (fun _ _ _ _ h => nomatch h) w a

/-- And where the steps are timely for one aspect. -/
theorem asked_some {aspect : Aspect} (w : DkimWorld) (a : Act Call Around)
    (h : World.meets (onView (Timely aspect)) w a) : World.meets (Asked (some aspect)) w a := by
  refine World.meets_imp (fun db v m hm aspect' heq => ?_) w a h
  rw [← Option.some.inj heq]
  exact hm

/-- Nothing but one aspect speaks of active keys. -/
theorem GoodKeys.assuming {t : ℕ} {ks : List DkimKey} (h : GoodKeys (some .oneActive) t ks)
    (q : Option Aspect) :
    GoodKeys q t ks := { h with active := fun _ => h.active rfl }

instance (aspect : Aspect) (db : Db) (m : Moment Stmt Command) :
    Decidable (Timely aspect db m) := by
  unfold Timely
  split
  · infer_instance
  · infer_instance
  · infer_instance
  · exact isTrue trivial

/-- Timely for all that is said, with a slack of three milliseconds. -/
def AllTimely (w : DkimWorld) (a : Act Call Around) : Prop :=
  ∀ aspect ∈ [Aspect.oneActive, .overlap 3, .bothLoaded], World.meets (onView (Timely aspect)) w a

instance (w : DkimWorld) (a : Act Call Around) : Decidable (AllTimely w a) :=
  inferInstanceAs (Decidable (∀ aspect ∈ _, _))

/-- DNS publishes the key that was generated. -/
def publishKey (dnsName : String) (algorithm : Algorithm) : Act Call Around :=
  .env (.publish dnsName.toList (.strings [dnsRecordFor algorithm (somePairs algorithm)]))

/-- Keys are made, and successors. -/
def successors : List (Act Call Around) :=
  [.call (.ensure exampleOrg somePairs)] ++ List.replicate 17 (.step 0)
    ++ [.env (.tick 5), .call (.rotate exampleOrg somePairs true)] ++ List.replicate 19 (.step 1)

/-- The successors are published and take over, three milliseconds after the call has
read the clock; a week later the old keys are retired, and the new ones loaded. -/
def takeOver : List (Act Call Around) :=
  [publishKey "pr202609e2._domainkey.example.org" .ed25519,
    publishKey "pr202609r2._domainkey.example.org" .rsa,
    .env (.tick 5), .call (.rotate exampleOrg somePairs false), .step 2, .env (.tick 3)]
    ++ List.replicate 20 (.step 2)
    ++ [.env (.tick (7 * DAY_MS)), .call (.rotate exampleOrg somePairs false)]
      ++ List.replicate 15 (.step 3)
    ++ [.call (.load exampleOrg)] ++ List.replicate 4 (.step 4)

/-- The states of the keys, in the order of their creation. -/
def statesIn (w : DkimWorld) : List KeyState := (keysOf w.db exampleOrg).map (·.state)

theorem takeOver_runs :
    ((runWhile (World.step (system plainRuntime)) AllTimely (World.init noKeys) successors).any
    fun w => statesIn w = [.active, .active, .pending, .pending]
      && (runWhile (World.step (system plainRuntime)) AllTimely w takeOver).any
        fun w' => statesIn w' = [.retired, .retired, .active, .active]) = true := by
  decide +kernel

end Postroom.Dkim
