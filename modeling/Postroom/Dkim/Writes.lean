/-
The four transactions on a domain's keys keep the discipline.

Each begins with the domain's lock, so the keys it reads and changes are those it
commits over. What a call has to know beforehand is a hypothesis: that its `now` has
come, and, before a switch, that the pending key was published.
-/
import Postroom.Dkim.Discipline

set_option autoImplicit false

namespace Postroom.Dkim

open Lib AuthChecks List

variable {rt : Runtime} {q : Option Aspect} {α : Type} {c : Command} {a : α}

/-! ## 1. Inside a transaction -/

/-- A script of the system, from a point on. An error rolls it back, which asks for
nothing. -/
abbrev Held (rt : Runtime) (q : Option Aspect) (p : Script α)
    (post : α → List Place → Db → Db → Prop) (ks : List Place) (ov db : Db) :
    Prop :=
  p.holds (rules rt q) exec noAside Failure.database (Asked q) post (fun _ _ => True) ks ov db

/-- A transaction that has the domain's lock: the committed keys are `K`, and its own
are `L`. -/
structure Inside (name : Text) (K L : List DkimKey) (ov db : Db) : Prop where
  committed : keysOf db name = K
  own : ov = Table.empty ∧ L = K ∨ ov = Table.single (.domain name) (.keys L)

section inside

variable {name : Text} {K L : List DkimKey} {ov db db' : Db}

theorem keysOf_congr {a b : Db} (h : a (.domain name) = b (.domain name)) :
    keysOf a name = keysOf b name := by
  unfold keysOf
  rw [h]

/-- Under the lock nobody else writes the keys of the domain. -/
theorem Inside.others (h : Inside name K L ov db) (ho : (rules rt q).Others [.domain name] db db') :
    Inside name K L ov db' :=
  ⟨(keysOf_congr (ho.agree (.domain name) _ mem_cons_self mem_cons_self)).symm.trans h.committed,
    h.own⟩

theorem Inside.view (h : Inside name K L ov db) : keysOf (ov.over db) name = L := by
  rcases h.own with ⟨rfl, rfl⟩ | rfl
  · exact h.committed
  · exact keysOf_setKeys db name L

theorem Inside.write (h : Inside name K L ov db) (L' : List DkimKey) :
    Inside name K L' ((Table.single (.domain name) (.keys L')).over ov) db := by
  refine ⟨h.committed, .inr ?_⟩
  funext p
  rw [Table.single_over]
  rcases h.own with ⟨rfl, -⟩ | rfl
  · rfl
  · unfold Table.single
    split_ifs
    · rfl
    · rfl

/-- What a transaction owes when it commits. -/
structure Owes (rt : Runtime) (q : Option Aspect) (name : Text) (K L : List DkimKey) (db : Db) :
    Prop where
  good : GoodKeys q (clockOf db) L
  keys : ∀ (i : ℕ) (k : DkimKey), K[i]? = some k → ∃ k', L[i]? = some k'
    ∧ Proceeds rt q (clockOf db) (heardIn db) name k k'
  signs : ∀ algorithm, Signs K algorithm → Signs L algorithm

theorem Owes.refl (h : GoodKeys q (clockOf db) K) : Owes rt q name K K db :=
  ⟨h, fun _ k hk => ⟨k, hk, Proceeds.refl _ _ _ k⟩, fun _ hs => hs⟩

/-- At its commit a transaction answers for what it has made of the keys. -/
theorem Inside.commits (h : Inside name K L ov db)
    (howes : ∀ db', (rules rt q).good db' → Later rt q db db' → keysOf db' name = K →
      Asked q db' db' (.commit c) →
      Owes rt q name K L db') :
    commits (rules rt q) (Asked q) c (fun _ _ => True) a [.domain name] ov db := by
  intro db' ho hok
  have hin := h.others ho
  have ho' := howes db' ho.good ho.rely hin.committed hok
  rcases hin.own with ⟨rfl, -⟩ | rfl
  · exact ⟨ho.good, OneStep.refl db', trivial⟩
  · have hcommitted := hin.committed
    obtain ⟨hgood, hstep⟩ := settles ho.good ho'.good (hcommitted.symm ▸ ho'.keys)
      (hcommitted.symm ▸ ho'.signs)
    exact ⟨hgood, hstep, trivial⟩

variable {post : α → List Place → Db → Db → Prop} {s : Stmt} {f : s.Result → Script α}

theorem held_lock {f : Unit → Script α}
    (h : ∀ db', (rules rt q).good db' → Later rt q db db' →
      Inside name (keysOf db' name) (keysOf db' name) Table.empty db' →
      Held rt q (f ()) post [.domain name] Table.empty db') :
    Held rt q (sql (.lockDomain name) >>= f) post [] Table.empty db := by
  refine Txn.holds_looking (fun _ => ()) (fun _ => rfl) (fun _ => rfl) fun db' ho _ => ?_
  exact h db' ho.good ho.rely ⟨rfl, .inl ⟨rfl, rfl⟩⟩

theorem held_reading (read : List DkimKey → s.Result)
    (hread : ∀ v, exec v s = reading (read (keysOf v name))) (hin : Inside name K L ov db)
    (h : ∀ db', (rules rt q).good db' → Later rt q db db' → Inside name K L ov db' →
      Asked q db' (ov.over db') (.stmt s) →
      Held rt q (f (read L)) post [.domain name] ov db') :
      Held rt q (sql s >>= f) post [.domain name] ov db := by
  refine Txn.holds_looking (fun v => read (keysOf v name)) (fun _ => rfl) hread fun db' ho hok => ?_
  have hin' := hin.others ho
  rw [append_nil, hin'.view]
  exact h db' ho.good ho.rely hin' hok

/-- A statement that writes the keys replaces the list in the view. -/
theorem held_writing (write : List DkimKey → List DkimKey)
    (res : List DkimKey → s.Result) (hexec : ∀ v e, exec v s = some e →
      e = ⟨res (keysOf v name), Table.single (.domain name) (.keys (write (keysOf v name))), []⟩)
    (hin : Inside name K L ov db)
    (h : ∀ db' ov', (rules rt q).good db' → Later rt q db db' → Inside name K (write L) ov' db' →
      Held rt q (f (res L)) post [.domain name] ov' db') :
      Held rt q (sql s >>= f) post [.domain name] ov db := by
  refine Txn.holds_bind (Txn.holds_exec (fun _ => rfl) (fun _ _ _ => trivial) ?_)
  intro db' e ho hok he
  have hin' := hin.others ho
  obtain rfl := hexec _ _ he
  rw [hin'.view]
  exact ⟨covered_single (List.Subset.refl _), h db' _ ho.good ho.rely (hin'.write _)⟩

end inside

/-! ## 2. Changes that keep the keys good -/

section changes

variable {name : Text} {K : List DkimKey} {t : ℕ} {k : DkimKey}

section

variable (h : GoodKeys q t K)
include h

/-- Time passes and the keys stay good. -/
theorem GoodKeys.mono {t' : ℕ} (ht : t ≤ t') : GoodKeys q t' K :=
  { h with retired := fun k hk hr =>
      let ⟨r, hra, hle⟩ := h.retired k hk hr
      ⟨r, hra, Nat.le_trans hle ht⟩ }

theorem GoodKeys.ids_nodup : (K.map (·.id)).Nodup := by
  have hrange : K.map (·.id) = List.range K.length := by
    refine ext_getElem? fun i => ?_
    rw [getElem?_map]
    rcases hk : K[i]? with _ | k
    · have hlen := List.getElem?_eq_none_iff.mp hk
      rw [Option.map_none, getElem?_eq_none (by rwa [length_range])]
    · rw [getElem?_range (List.getElem?_eq_some_iff.mp hk).1, Option.map_some, h.ids i k hk]
  rw [hrange]
  exact nodup_range

theorem GoodKeys.eq_of_id {a b : DkimKey} (ha : a ∈ K) (hb : b ∈ K) (hid : a.id = b.id) : a = b :=
  inj_on_of_nodup_map h.ids_nodup ha hb hid

/-- Keys that are changed one by one. -/
theorem GoodKeys.map {f : DkimKey → DkimKey} (hid : ∀ k, (f k).id = k.id)
    (hsel : ∀ k, (f k).selector = k.selector) (halg : ∀ k, (f k).algorithm = k.algorithm)
    (hactive : q = some .oneActive →
      ∀ a ∈ K, ∀ b ∈ K, a.algorithm = b.algorithm → (f a).state = .active → (f b).state = .active →
      a = b)
    (hpending : ∀ k ∈ K, (f k).state = .pending → k.state = .pending)
    (hretired : ∀ k ∈ K, (f k).state = .retired → ∃ r, (f k).retireAfter = some r ∧ r ≤ t)
    (hunretired : ∀ k ∈ K, (f k).state ≠ .retired → (f k).retiredAt = none) :
    GoodKeys q t (K.map f) where
  ids := by
    intro i k' hk'
    rw [getElem?_map] at hk'
    obtain ⟨k, hk, rfl⟩ := Option.map_eq_some_iff.mp hk'
    rw [hid]
    exact h.ids i k hk
  selectors := by
    have hsame : (K.map f).map (·.selector) = K.map (·.selector) := by
      rw [map_map]
      exact map_congr_left fun k _ => hsel k
    rw [hsame]
    exact h.selectors
  active := by
    intro hq a' ha' b' hb' hab hsa hsb
    obtain ⟨a, ha, rfl⟩ := mem_map.mp ha'
    obtain ⟨b, hb, rfl⟩ := mem_map.mp hb'
    rw [halg, halg] at hab
    rw [hactive hq a ha b hb hab hsa hsb]
  pending := by
    intro a' ha' b' hb' hab hsa hsb
    obtain ⟨a, ha, rfl⟩ := mem_map.mp ha'
    obtain ⟨b, hb, rfl⟩ := mem_map.mp hb'
    rw [halg, halg] at hab
    rw [h.pending a ha b hb hab (hpending a ha hsa) (hpending b hb hsb)]
  retired := by
    intro k' hk' hs
    obtain ⟨k, hk, rfl⟩ := mem_map.mp hk'
    exact hretired k hk hs
  unretired := by
    intro k' hk' hs
    obtain ⟨k, hk, rfl⟩ := mem_map.mp hk'
    exact hunretired k hk hs

/-- A new key: nothing else of its algorithm is in its state, unless it is active and
nothing is said of active keys. -/
theorem GoodKeys.append (hid : k.id = K.length) (hsel : k.selector ∉ K.map (·.selector))
    (hstate : k.state = .pending ∨ k.state = .active) (hretired : k.retiredAt = none)
    (hfree : (k.state = .active → q = some .oneActive) → ∀ k' ∈ K, k'.algorithm = k.algorithm →
      k'.state ≠ k.state) :
    GoodKeys q t (K ++ [k]) := by
  -- two keys that agree are both old, or the same
  have hone : ∀ a ∈ K ++ [k], ∀ b ∈ K ++ [k], a.algorithm = b.algorithm → a.state = b.state →
      (k.state = .active → q = some .oneActive) → (a ∈ K ∧ b ∈ K) ∨ a = b := by
    intro a ha b hb halg hst hq
    rcases mem_append.mp ha with hold | hnew
    · rcases mem_append.mp hb with hold' | hnew'
      · exact .inl ⟨hold, hold'⟩
      · rw [mem_singleton.mp hnew'] at halg hst
        exact absurd hst (hfree hq a hold halg)
    · rw [mem_singleton.mp hnew] at halg hst ⊢
      rcases mem_append.mp hb with hold' | hnew'
      · exact absurd hst.symm (hfree hq b hold' halg.symm)
      · exact .inr (mem_singleton.mp hnew').symm
  have hnot : k.state ≠ .retired := by
    rcases hstate with hs | hs
    · rw [hs]; decide
    · rw [hs]; decide
  refine ⟨?_, ?_, ?_, ?_, ?_, ?_⟩
  · intro i k' hk'
    rcases Nat.lt_or_ge i K.length with hi | hi
    · rw [getElem?_append_left hi] at hk'
      exact h.ids i k' hk'
    · rw [getElem?_append_right hi, getElem?_singleton] at hk'
      split_ifs at hk' with hzero
      rw [← Option.some.inj hk', hid]
      omega
  · rw [map_append, map_cons, map_nil]
    exact (nodup_append.mpr ⟨h.selectors, nodup_singleton _, fun a ha b hb hab =>
      hsel (mem_singleton.mp hb ▸ hab ▸ ha)⟩)
  · intro hq a ha b hb halg hsa hsb
    rcases hone a ha b hb halg (hsa.trans hsb.symm) fun _ => hq with ⟨ha, hb⟩ | heq
    · exact h.active hq a ha b hb halg hsa hsb
    · exact heq
  · intro a ha b hb halg hsa hsb
    by_cases hnew : k.state = .active
    · -- the new key is not pending
      have hold : ∀ c ∈ K ++ [k], c.state = .pending → c ∈ K := by
        intro c hc hs
        refine (mem_append.mp hc).resolve_right fun hck => ?_
        rw [mem_singleton.mp hck, hnew] at hs
        cases hs
      exact h.pending a (hold a ha hsa) b (hold b hb hsb) halg hsa hsb
    · rcases hone a ha b hb halg (hsa.trans hsb.symm) fun hs => absurd hs hnew with ⟨ha, hb⟩ | heq
      · exact h.pending a ha b hb halg hsa hsb
      · exact heq
  · intro a ha hs
    rcases mem_append.mp ha with ha | ha
    · exact h.retired a ha hs
    · exact absurd (mem_singleton.mp ha ▸ hs) hnot
  · intro a ha hs
    rcases mem_append.mp ha with ha | ha
    · exact h.unretired a ha hs
    · rw [mem_singleton.mp ha]
      exact hretired

end

variable {db : Db}

theorem Owes.map {f : DkimKey → DkimKey} (hgood : GoodKeys q (clockOf db) (K.map f))
    (hkeys : ∀ k ∈ K, Proceeds rt q (clockOf db) (heardIn db) name k (f k))
    (hsigns : ∀ algorithm, Signs K algorithm → Signs (K.map f) algorithm) :
    Owes rt q name K (K.map f) db := by
  refine ⟨hgood, ?_, hsigns⟩
  intro i k hk
  refine ⟨f k, ?_, hkeys k (mem_of_getElem? hk)⟩
  rw [getElem?_map, hk]
  rfl

theorem Owes.append (hgood : GoodKeys q (clockOf db) (K ++ [k])) :
    Owes rt q name K (K ++ [k]) db := by
  refine ⟨hgood, ?_, ?_⟩
  · intro i k' hk'
    refine ⟨k', ?_, Proceeds.refl _ _ _ k'⟩
    rw [getElem?_append_left (List.getElem?_eq_some_iff.mp hk').1]
    exact hk'
  · rintro algorithm ⟨k', hk', hs⟩
    exact ⟨k', mem_append_left _ hk', hs⟩

variable {heard : List (Text × Answer)} {k : DkimKey}

/-- A key that is retiring may be retired. -/
theorem Proceeds.retire (now : ℕ) (h : k.state = .retiring) :
    Proceeds rt q t heard name k (k.retire now) := by
  refine ⟨⟨rfl, rfl, rfl, rfl, ?_, ?_, ?_, fun _ => rfl⟩, .inr ?_⟩
  · rw [h]; exact Nat.le_succ _
  · intro hp; rw [h] at hp; cases hp
  · intro _ _ ha; rw [h] at ha; cases ha
  · rw [h]; rfl

theorem Proceeds.activate (now : ℕ) (h : k.state = .pending) (hpub : Published rt heard name k) :
    Proceeds rt q t heard name k (k.activate now) := by
  refine ⟨⟨rfl, rfl, rfl, rfl, ?_, fun _ _ => hpub, ?_, fun _ => rfl⟩, .inr ?_⟩
  · rw [h]; exact Nat.le_succ _
  · intro _ _ ha; rw [h] at ha; cases ha
  · rw [h]; rfl

theorem Proceeds.supersede {retireAfter : ℕ} (h : k.state = .active)
    (ht : ∀ slack, q = some (.overlap slack) → retireAfterFor t ≤ retireAfter + slack) :
    Proceeds rt q t heard name k (k.supersede retireAfter) := by
  refine ⟨⟨rfl, rfl, rfl, rfl, ?_, ?_, fun slack hq _ _ => ⟨retireAfter, rfl, ht slack hq⟩, ?_⟩,
    .inr ?_⟩
  · rw [h]; exact Nat.le_succ _
  · intro hp; rw [h] at hp; cases hp
  · intro hr; rw [h] at hr; exact absurd hr (by decide)
  · rw [h]; rfl

end changes

/-! ## 3. The transactions -/

section scripts

variable {name : Text} {db : Db} {id now : ℕ} {algorithm : Algorithm}

/-- What a statement that changes keys writes and answers. -/
theorem exec_writing {L : List DkimKey} {e : Effect Place Row Place α}
    (h : writing name L a = some e) :
    e = ⟨a, Table.single (.domain name) (.keys L), []⟩ := (Option.some.inj h).symm

/-- The row is looked at again under the lock. -/
theorem held_retireScript (hnow : now ≤ clockOf db) :
    Held rt q (retireScript name id now)
    (commits (rules rt q) (Asked q) (.retire name id now) fun _ _ => True) [] Table.empty
      db := by
  refine held_lock ?_
  intro db1 _ hlater1 hin
  refine held_writing (updateWhere (·.retirable id now) (·.retire now))
    (fun ks => List.countP (DkimKey.retirable id now) ks)
    (fun v e he => exec_writing he) hin ?_
  intro db2 ov _ hlater2 hin
  refine hin.commits ?_
  intro db3 hgood hlater3 hK _
  have hclock : now ≤ clockOf db3 :=
    Nat.le_trans hnow (Nat.le_trans hlater1.clock (Nat.le_trans hlater2.clock hlater3.clock))
  rw [← hK]
  have hgoodK := hgood name
  -- a key that is retired was retiring, and its seven days are up
  have hspec : ∀ k : DkimKey, k.retirable id now = true →
      k.state = .retiring ∧ ∃ r, k.retireAfter = some r ∧ r ≤ now := by
    intro k hk
    simp only [DkimKey.retirable, Bool.and_eq_true, decide_eq_true_eq] at hk
    obtain ⟨r, hr, hle⟩ := (Option.any_eq_true _ _).mp hk.2
    exact ⟨hk.1.2, r, hr, by simpa using hle⟩
  have hactive : ∀ k : DkimKey, (if k.retirable id now then k.retire now else k).state ≠ .retired →
      (if k.retirable id now then k.retire now else k) = k := by
    intro k hk
    split_ifs at hk ⊢
    · exact absurd rfl hk
    · rfl
  refine Owes.map (hgoodK.map ?_ ?_ ?_ ?_ ?_ ?_ ?_) ?_ ?_
  · intro k; split_ifs <;> rfl
  · intro k; split_ifs <;> rfl
  · intro k; split_ifs <;> rfl
  · intro hq a ha b hb halg hsa hsb
    rw [hactive a (by rw [hsa]; decide)] at hsa
    rw [hactive b (by rw [hsb]; decide)] at hsb
    exact hgoodK.active hq a ha b hb halg hsa hsb
  · intro k _ hs
    rwa [hactive k (by rw [hs]; decide)] at hs
  · intro k hk hs
    split_ifs at hs ⊢ with hr
    · obtain ⟨-, r, hra, hle⟩ := hspec k hr
      exact ⟨r, hra, Nat.le_trans hle hclock⟩
    · exact hgoodK.retired k hk hs
  · intro k hk hs
    have hsame := hactive k hs
    rw [hsame] at hs ⊢
    exact hgoodK.unretired k hk hs
  · intro k _
    dsimp only
    split_ifs with hr
    · exact Proceeds.retire now (hspec k hr).1
    · exact Proceeds.refl _ _ _ k
  · rintro algorithm ⟨k, hk, halg, hs⟩
    refine ⟨k, mem_map.mpr ⟨k, hk, if_neg ?_⟩, halg, hs⟩
    intro hr
    rw [(hspec k hr).1] at hs
    cases hs

/-- A key that was pending is published: what is known before a switch. -/
def Verified (rt : Runtime) (name : Text) (algorithm : Algorithm) (id : ℕ) (db : Db) : Prop :=
  ∃ k, (keysOf db name)[id]? = some k ∧ k.algorithm = algorithm ∧ Published rt (heardIn db) name k

theorem Verified.later {db' : Db} (h : Verified rt name algorithm id db)
    (hlater : Later rt q db db') : Verified rt name algorithm id db' := by
  obtain ⟨k, hk, halg, hpub⟩ := h
  obtain ⟨k', hk', hmoves⟩ := hlater.keys name id k hk
  exact ⟨k', hk', hmoves.algorithm.trans halg,
    hpub.mono hlater.heard hmoves.selector hmoves.dnsRecord⟩

/-- What a switch makes of a key; the active keys with identifiers in `left` are
still to be superseded. -/
def switchKey (algorithm : Algorithm) (id now : ℕ) (left : List ℕ) (k : DkimKey) : DkimKey :=
  if k.awaits id then k.activate now
  else if k.algorithm = algorithm ∧ k.state = .active
    ∧ k.id ∉ left then k.supersede (retireAfterFor now)
  else k

section switch

variable {algorithm : Algorithm} {id now : ℕ} {K : List DkimKey} {t : ℕ}

theorem switchKey_same (left : List ℕ) (k : DkimKey) : (switchKey algorithm id now left k).id = k.id
    ∧ (switchKey algorithm id now left k).selector = k.selector
    ∧ (switchKey algorithm id now left k).algorithm = k.algorithm := by
  unfold switchKey
  split_ifs
  · exact ⟨rfl, rfl, rfl⟩
  · exact ⟨rfl, rfl, rfl⟩
  · exact ⟨rfl, rfl, rfl⟩

def otherActive (algorithm : Algorithm) (id : ℕ) (ks : List DkimKey) : List DkimKey :=
  ks.filter fun k => k.algorithm = algorithm && k.state = .active && k.id ≠ id

/-- What is to be superseded: active keys of the algorithm, each once. -/
theorem otherActive_spec (hK : GoodKeys q t K) {previous : List DkimKey}
    (h : otherActive algorithm id (updateWhere (·.awaits id) (·.activate now) K) = previous) :
    (∀ old ∈ previous, ∃ k ∈ K, k.id = old.id ∧ k.algorithm = algorithm ∧ k.state = .active)
      ∧ (previous.map (·.id)).Nodup := by
  subst h
  refine ⟨fun old hold => ?_, ?_⟩
  · obtain ⟨hmem, hcond⟩ := mem_filter.mp hold
    simp only [Bool.and_eq_true, decide_eq_true_eq] at hcond
    obtain ⟨k, hk, rfl⟩ := mem_map.mp hmem
    by_cases hw : k.awaits id = true
    · simp only [DkimKey.awaits, Bool.and_eq_true, decide_eq_true_eq] at hw
      rw [if_pos (by simpa [DkimKey.awaits] using hw)] at hcond
      exact absurd hw.1 hcond.2
    · rw [if_neg hw] at hcond ⊢
      exact ⟨k, hk, rfl, hcond.1.1, hcond.1.2⟩
  · have hids : (updateWhere (·.awaits id) (·.activate now) K).map (·.id) = K.map (·.id) := by
      unfold updateWhere
      rw [map_map]
      refine map_congr_left fun k _ => ?_
      rw [Function.comp_apply]
      split_ifs
      · rfl
      · rfl
    exact ((filter_sublist).map _).nodup (hids.symm ▸ hK.ids_nodup)

/-- The activated key is the one that waited; every other key of the algorithm that
was active is to be superseded. -/
theorem activated_eq_map (hK : GoodKeys q t K) (hcount : K.countP (·.awaits id) ≠ 0) :
    updateWhere (·.awaits id) (·.activate now) K = K.map (switchKey algorithm id now
      ((otherActive algorithm id (updateWhere (·.awaits id) (·.activate now) K)).map (·.id))) := by
  refine map_congr_left fun k hk => ?_
  unfold switchKey
  by_cases hwait : k.awaits id = true
  · rw [if_pos hwait, if_pos hwait]
  rw [if_neg hwait, if_neg hwait, if_neg ?_]
  rintro ⟨halg, hs, hnot⟩
  refine hnot (mem_map.mpr ⟨k, mem_filter.mpr ⟨mem_map.mpr ⟨k, hk, if_neg hwait⟩, ?_⟩, rfl⟩)
  -- the identifier belongs to the key that waited, so not to one that is active
  obtain ⟨k0, hk0, hwait₀⟩ : ∃ k0 ∈ K, k0.awaits id = true := by
    rw [Ne, countP_eq_zero] at hcount
    simpa using hcount
  have hid : k.id ≠ id := by
    intro hid
    simp only [DkimKey.awaits, Bool.and_eq_true, decide_eq_true_eq] at hwait₀
    rw [hK.eq_of_id hk hk0 (hid.trans hwait₀.1.symm), hwait₀.2] at hs
    cases hs
  simp [halg, hs, hid]

/-- One key less is left to be superseded. -/
theorem supersede_switchKey (hK : GoodKeys q t K) {old : DkimKey} {left : List ℕ}
    (hnodup : old.id ∉ left)
    (hold : ∃ k ∈ K, k.id = old.id ∧ k.algorithm = algorithm ∧ k.state = .active) :
    updateWhere (·.id = old.id) (·.supersede (retireAfterFor now))
    (K.map (switchKey algorithm id now (old.id :: left)))
      = K.map (switchKey algorithm id now left) := by
  unfold updateWhere
  rw [map_map]
  refine map_congr_left fun k hk => ?_
  rw [Function.comp_apply]
  have hid : (switchKey algorithm id now (old.id :: left) k).id = k.id := (switchKey_same _ k).1
  obtain ⟨k0, hk0, hid0, halg0, hs0⟩ := hold
  by_cases heq : k.id = old.id
  · -- this is the key: it is active, and was left as it is so far
    obtain rfl := hK.eq_of_id hk hk0 (heq.trans hid0.symm)
    have hwait : ¬ k.awaits id = true := by
      intro hwait
      simp only [DkimKey.awaits, Bool.and_eq_true, decide_eq_true_eq] at hwait
      rw [hs0] at hwait
      cases hwait.2
    have hbefore : switchKey algorithm id now (old.id :: left) k = k := by
      unfold switchKey
      rw [if_neg hwait, if_neg fun h => h.2.2 (heq ▸ mem_cons_self)]
    have hafter : switchKey algorithm id now left k = k.supersede (retireAfterFor now) := by
      unfold switchKey
      rw [if_neg hwait, if_pos ⟨halg0, hs0, heq ▸ hnodup⟩]
    rw [hbefore, hafter, if_pos (decide_eq_true heq)]
  · have hsame : switchKey algorithm id now (old.id :: left) k
        = switchKey algorithm id now left k := by
      unfold switchKey
      simp only [mem_cons, heq, false_or]
    have hne : ¬ decide ((switchKey algorithm id now (old.id :: left) k).id = old.id) = true := by
      rw [hid]
      simpa using heq
    rw [if_neg hne, hsame]

/-- What a completed switch owes. -/
theorem owes_switch {db : Db} (hK : GoodKeys q (clockOf db) K) (hkeys : keysOf db name = K)
    (hverified : Verified rt name algorithm id db) (hwait : ∃ k ∈ K, k.awaits id = true)
    (hnow : ∀ slack, q = some (.overlap slack) → clockOf db ≤ now + slack) :
    Owes rt q name K (K.map (switchKey algorithm id now [])) db := by
  obtain ⟨k0, hk0, halg0, hpub⟩ := hverified
  rw [hkeys] at hk0
  -- a key that waits under this identifier is the published one
  have hspec : ∀ k ∈ K, k.awaits id = true → k = k0 ∧ k.state = .pending := by
    intro k hk hw
    simp only [DkimKey.awaits, Bool.and_eq_true, decide_eq_true_eq] at hw
    exact ⟨hK.eq_of_id hk (mem_of_getElem? hk0) (hw.1.trans (hK.ids id k0 hk0).symm), hw.2⟩
  have hstays : ∀ k : DkimKey, ¬ k.awaits id = true →
      (switchKey algorithm id now [] k).state ≠ .retiring →
      switchKey algorithm id now [] k = k ∧ (k.algorithm = algorithm → k.state ≠ .active) := by
    intro k hw hs
    unfold switchKey at hs ⊢
    rw [if_neg hw] at hs ⊢
    split_ifs at hs ⊢ with hold
    · exact absurd rfl hs
    · exact ⟨rfl, fun halg hactive => hold ⟨halg, hactive, not_mem_nil⟩⟩
  have hactivated : ∀ k : DkimKey, k.awaits id = true →
      switchKey algorithm id now [] k = k.activate now :=
    fun k hw => if_pos hw
  refine Owes.map (hK.map (fun k => (switchKey_same [] k).1) (fun k => (switchKey_same [] k).2.1)
    (fun k => (switchKey_same [] k).2.2) ?_ ?_ ?_ ?_) ?_ ?_
  · intro hq a ha b hb hab hsa hsb
    by_cases hwa : a.awaits id = true
    · by_cases hwb : b.awaits id = true
      · exact (hspec a ha hwa).1.trans (hspec b hb hwb).1.symm
      · obtain ⟨hsame, hother⟩ := hstays b hwb (by rw [hsb]; decide)
        rw [hsame] at hsb
        rw [(hspec a ha hwa).1, halg0] at hab
        exact absurd hsb (hother hab.symm)
    · obtain ⟨hsame, hother⟩ := hstays a hwa (by rw [hsa]; decide)
      rw [hsame] at hsa
      by_cases hwb : b.awaits id = true
      · rw [(hspec b hb hwb).1, halg0] at hab
        exact absurd hsa (hother hab)
      · rw [(hstays b hwb (by rw [hsb]; decide)).1] at hsb
        exact hK.active hq a ha b hb hab hsa hsb
  · intro k hk hs
    by_cases hw : k.awaits id = true
    · exact (hspec k hk hw).2
    · rwa [(hstays k hw (by rw [hs]; decide)).1] at hs
  · intro k hk hs
    by_cases hw : k.awaits id = true
    · rw [hactivated k hw] at hs
      cases hs
    · have hsame := (hstays k hw (by rw [hs]; decide)).1
      rw [hsame] at hs ⊢
      exact hK.retired k hk hs
  · intro k hk hs
    unfold switchKey at hs ⊢
    split_ifs at hs ⊢ with hw hold
    · exact hK.unretired k hk (by rw [(hspec k hk hw).2]; decide)
    · exact hK.unretired k hk (by rw [hold.2.1]; decide)
    · exact hK.unretired k hk hs
  · intro k hk
    unfold switchKey
    split_ifs with hw hold
    · obtain ⟨rfl, hs⟩ := hspec k hk hw
      exact Proceeds.activate now hs hpub
    · refine Proceeds.supersede hold.2.1 fun slack hq => ?_
      have hsoon := hnow slack hq
      unfold retireAfterFor
      omega
    · exact Proceeds.refl _ _ _ k
  · rintro algorithm' ⟨k, hk, halg, hs⟩
    have hw : ¬ k.awaits id = true := by
      intro hw
      rw [(hspec k hk hw).2] at hs
      cases hs
    by_cases heq : algorithm' = algorithm
    · -- the key that waited signs instead
      obtain ⟨k', hk', hw'⟩ := hwait
      refine ⟨switchKey algorithm id now [] k', mem_map_of_mem hk', ?_, ?_⟩
      · rw [(switchKey_same [] k').2.2, (hspec k' hk' hw').1, halg0, heq]
      · rw [hactivated k' hw']
        rfl
    · have hsame : switchKey algorithm id now [] k = k := by
        unfold switchKey
        rw [if_neg hw, if_neg fun h => heq (halg.symm.trans h.1)]
      exact ⟨k, mem_map.mpr ⟨k, hk, hsame⟩, halg, hs⟩

end switch

/-- The pending key signs, and those it replaces stay published for the overlap. -/
theorem held_switchScript (hverified : Verified rt name algorithm id db) :
    Held rt q (switchScript name algorithm id now)
      (commits (rules rt q) (Asked q) (.switch name algorithm id now) fun _ _ => True)
      [] Table.empty db := by
  refine held_lock ?_
  intro db1 hgood1 hlater1 hin
  have hK := hgood1 name
  have hverified1 := hverified.later hlater1
  generalize keysOf db1 name = K at hin hK
  refine held_writing (updateWhere (·.awaits id) (·.activate now))
    (fun ks => List.countP (DkimKey.awaits id) ks)
    (fun v e he => exec_writing he) hin ?_
  intro db2 ov2 _ hlater2 hin
  by_cases hcount : List.countP (DkimKey.awaits id) K = 0
  · -- another call was first: nothing is written that was not there
    have hsame : updateWhere (·.awaits id) (·.activate now) K = K := by
      rw [countP_eq_zero] at hcount
      conv_rhs => rw [← map_id K]
      exact map_congr_left fun k hk => if_neg (hcount k hk)
    rw [hsame] at hin
    rw [if_pos hcount]
    refine hin.commits ?_
    intro db3 hgood hlater3 hkeys _
    exact Owes.refl (hkeys ▸ hgood name)
  rw [if_neg hcount]
  refine held_reading (otherActive algorithm id) (fun v => rfl) hin ?_
  intro db3 _ hlater3 hin _
  have hmap : _ = K.map (switchKey algorithm id now _) := activated_eq_map hK hcount
  generalize hothers : otherActive algorithm id (updateWhere (·.awaits id) (·.activate now) K)
    = previous at hmap ⊢
  obtain ⟨hprevious, hnodup⟩ := otherActive_spec hK hothers
  rw [hmap] at hin
  apply Txn.holds_bind
  -- the loop over the old active keys: those still to come are as they were
  refine Txn.holds_forEach (fun left _ ks ov db => ks = [Place.domain name]
      ∧ Inside name K (K.map (switchKey algorithm id now (left.map (·.id)))) ov db
      ∧ Verified rt name algorithm id db
      ∧ (∀ old ∈ left, ∃ k ∈ K, k.id = old.id ∧ k.algorithm = algorithm ∧ k.state = .active)
      ∧ (left.map (·.id)).Nodup) ?_ ?_ previous ()
    ⟨rfl, hin, (hverified1.later hlater2).later hlater3, hprevious, hnodup⟩
  · rintro old left - ks ov db ⟨rfl, hin, hverified, hprevious, hnodup⟩
    show Held rt q (sql (.supersede name old.id (retireAfterFor now)) >>= Txn.done) _ _ _ _
    rw [map_cons, nodup_cons] at hnodup
    refine held_writing (updateWhere (·.id = old.id) (·.supersede (retireAfterFor now)))
      (fun _ => ()) ?_ hin ?_
    · intro v e he
      unfold exec at he
      dsimp only at he
      split_ifs at he
      exact exec_writing he
    · intro db' ov' _ hlater hin'
      rw [map_cons, supersede_switchKey hK hnodup.1 (hprevious old mem_cons_self)] at hin'
      exact ⟨rfl, hin', hverified.later hlater, fun o ho =>
        hprevious o (mem_cons_of_mem _ ho), hnodup.2⟩
  · rintro - ks ov db ⟨rfl, hin, hverified, -⟩
    refine hin.commits ?_
    intro db₄ hgood hlater₄ hkeys hnow
    have hwait : ∃ k ∈ K, k.awaits id = true := by
      rw [countP_eq_zero] at hcount
      simpa using hcount
    exact owes_switch (hkeys ▸ hgood name) hkeys (hverified.later hlater₄) hwait fun slack hq =>
      hnow _ hq

/-- The row that is created. -/
def newKey (selector : Text) (algorithm : Algorithm) (dnsRecord : Text) (activeFrom : ℕ)
    (state : KeyState)
    (ks : List DkimKey) : DkimKey :=
  ⟨ks.length, selector, algorithm, dnsRecord, activeFrom, none, state, none, none⟩

variable {dnsRecord : Text} {state : KeyState}

theorem exec_create {v : Db} {selector : Text} {activeFrom : ℕ} {e : Effect Place Row Place DkimKey}
    (h : exec v (.create name selector algorithm dnsRecord activeFrom state) = some e) :
    e = ⟨newKey selector algorithm dnsRecord activeFrom state (keysOf v name),
      Table.single (.domain name)
      (.keys (keysOf v name ++ [newKey selector algorithm dnsRecord activeFrom state
        (keysOf v name)])), []⟩ := by
  unfold exec at h
  dsimp only at h
  split_ifs at h
  exact exec_writing h

/-- The common end of the two creating transactions. -/
theorem held_create {f : Text → DkimKey → α} {K : List DkimKey}
    (hstate : state = .pending ∨ state = .active)
    (hin : Inside name K K Table.empty db)
    (hfree : (state = .active → q = some .oneActive) → ∀ k ∈ K, k.algorithm = algorithm →
      k.state ≠ state) :
    Held rt q (sql (.takenSelectors name) >>= fun taken : List Text =>
        sql (.create name (datedSelector rt now algorithm taken) algorithm dnsRecord now state)
          >>= fun row =>
          Txn.done (f (datedSelector rt now algorithm taken) row))
      (commits (rules rt q) (Asked q) c fun _ _ => True) [.domain name] Table.empty db := by
  refine held_reading (fun ks => ks.map (·.selector)) (fun v => rfl) hin ?_
  intro db1 _ _ hin _
  let key := newKey (datedSelector rt now algorithm (K.map (·.selector))) algorithm dnsRecord now
    state
  refine held_writing (fun ks => ks ++ [key ks]) key (fun v e he => exec_create he) hin ?_
  intro db2 ov _ _ hin
  refine hin.commits ?_
  intro db3 hgood _ hkeys _
  have hK : GoodKeys q (clockOf db3) K := hkeys ▸ hgood name
  exact Owes.append (hK.append rfl (datedSelector_not_mem rt now algorithm _) hstate rfl hfree)

/-- A second pending key is not made. -/
theorem held_createPendingScript : Held rt q (createPendingScript rt name algorithm now dnsRecord)
      (commits (rules rt q) (Asked q) (.createPending name algorithm now dnsRecord) fun _ _ => True)
      [] Table.empty db := by
  refine held_lock ?_
  intro db1 hgood1 _ hin
  refine held_reading
    (fun ks => (ks.find? fun k => k.algorithm = algorithm && k.state = .pending).map (·.selector))
      (fun v => rfl) hin ?_
  intro db2 _ _ hin _
  rcases hfound : (keysOf db1 name).find? fun k => k.algorithm = algorithm
    && k.state = .pending with _ | k
  · rw [hfound]
    refine held_create (f := fun selector _ => some selector) (.inl rfl) hin ?_
    intro _ k hk halg hs
    have := find?_eq_none.mp hfound k hk
    simp [halg, hs] at this
  · rw [hfound]
    refine hin.commits ?_
    intro db3 hgood _ hkeys _
    exact Owes.refl (hkeys ▸ hgood name)

/-- The first key of an algorithm; whether there is one is asked for the call's own time.
-/
theorem held_createActiveScript : Held rt q (createActiveScript rt name algorithm now dnsRecord)
      (commits (rules rt q) (Asked q) (.createActive name algorithm now dnsRecord) fun _ _ => True)
      [] Table.empty db := by
  refine held_lock ?_
  intro db1 hgood1 _ hin
  refine held_reading
    (fun ks => (newestFirst (ks.filter fun k => k.algorithm = algorithm && k.signsAt now)).head?)
      (fun v => rfl) hin ?_
  intro db2 _ _ hin htimely
  rcases hfound :
    (newestFirst ((keysOf db1 name).filter fun k => k.algorithm = algorithm && k.signsAt now)).head?
    with _ | k
  · refine held_create (f := fun _ row => (row, true)) (.inr rfl) hin ?_
    intro hq k hk halg hs
    -- an active key began to sign before `now`, so it was found
    have hbefore : k.activeFrom ≤ now := by
      rw [Table.empty_over] at htimely
      exact htimely _ (hq rfl) k (hin.committed.symm ▸ hk) halg hs
    have hsigns : k.signsAt now = true := by
      simp [DkimKey.signsAt, hs, hbefore, (hgood1 name).unretired k hk (by rw [hs]; decide)]
    have hnil : newestFirst ((keysOf db1 name).filter fun k =>
        k.algorithm = algorithm && k.signsAt now) = [] :=
      head?_eq_none_iff.mp hfound
    have hmem : k ∈ newestFirst ((keysOf db1 name).filter fun k =>
        k.algorithm = algorithm && k.signsAt now) := by
      rw [newestFirst, mem_insertionSort, mem_filter]
      exact ⟨hk, by simp [halg, hsigns]⟩
    rw [hnil] at hmem
    cases hmem
  · refine hin.commits ?_
    intro db3 hgood _ hkeys _
    exact Owes.refl (hkeys ▸ hgood name)

end scripts

end Postroom.Dkim
