/-
How much a source can guess.

An attempt is let through when its count of failures is below the ceiling, and other
attempts that were let through before may fail after that count. They are in flight:
their failures are not on record yet. The count says nothing about them, so many
attempts side by side can all be let through. `apart` is what is missing: that the
count and the attempts in flight together are below the ceiling.

Under it, the failures on record and the attempts in flight of a source are never more
than the ceiling (`Inv.room`), and every window of failed checks that reaches up to now
is among them. A window that lies in the past does not change any more.

The delay needs nothing: what an attempt finds when it counts is at least what was there
when it was made.
-/
import Postroom.AuthThrottle.Throttle

set_option autoImplicit false

namespace Postroom.AuthThrottle

open Lib List

/-! ## 1. Counting -/

variable {α : Type}

theorem countP_set_add {p : α → Bool} {l : List α} {i : ℕ} {a b : α} (h : l[i]? = some a) :
    (l.set i b).countP p + (if p a then 1 else 0) = l.countP p + if p b then 1 else 0 := by
  obtain ⟨hi, rfl⟩ := List.getElem?_eq_some_iff.mp h
  rw [countP_set hi]
  by_cases hp : p l[i] = true
  · have hpos : 0 < l.countP p := countP_pos_iff.mpr ⟨l[i], getElem_mem hi, hp⟩
    rw [if_pos hp]
    omega
  · rw [if_neg hp]
    omega

theorem countP_or_le (p q : α → Bool) (l : List α) :
    l.countP (fun a => p a || q a) ≤ l.countP p + l.countP q := by
  induction l with
  | nil => simp
  | cons a l ih =>
    simp only [countP_cons, Bool.or_eq_true]
    by_cases hp : p a = true
    · simp only [hp, true_or, if_true]
      omega
    · by_cases hq : q a = true
      · simp only [hp, hq, or_true, if_true]
        omega
      · simp only [hp, hq, or_self]
        omega

/-! ## 2. Keys -/

theorem mem_of_mem_splitOn {x c : Char} {text part : Mime.Text} (hpart : part ∈ text.splitOn x)
    (hc : c ∈ part) :
    c ∈ text := by
  induction text generalizing part with
  | nil => simp_all
  | cons d text ih =>
    rw [splitOn_cons_eq_if_modifyHead] at hpart
    cases hparts : text.splitOn x with
    | nil => simp at hparts
    | cons first rest => grind [modifyHead_cons]

section keys

variable {js : Platform} {ip : Mime.Text}

theorem mem_of_mem_trim {c : Char} {text : Mime.Text} (h : c ∈ Mime.trim text) : c ∈ text := by
  unfold Mime.trim Mime.stripBoth at h
  rw [mem_reverse] at h
  have hinner := (dropWhile_sublist _).subset h
  rw [mem_reverse] at hinner
  exact (dropWhile_sublist _).subset hinner

theorem normalizeIp_nul (h : '\x00' ∉ ip) : '\x00' ∉ normalizeIp js ip := by
  have hbare : '\x00' ∉ (js.toLowerCase (Mime.trim ip)).takeWhile (· ≠ '%') :=
    fun hmem => js.lower_nul _ (fun htrim => h (mem_of_mem_trim htrim)) (takeWhile_subset _ hmem)
  unfold normalizeIp
  dsimp only
  split_ifs
  · exact fun hmem => hbare (mem_of_mem_drop hmem)
  · exact hbare

theorem hexText_nul (n : ℕ) : '\x00' ∉ hexText n := by
  unfold hexText
  split_ifs
  · simp
  · intro hmem
    obtain ⟨d, hd, heq⟩ := mem_map.mp hmem
    have hlt : d < 16 := Nat.digits_lt_base (by decide) (mem_reverse.mp hd)
    have hall : ∀ d < 16, "0123456789abcdef".toList.getD d '0' ≠ '\x00' := by decide
    exact hall d hlt heq

theorem join_nul {separator : Char} (hsep : separator ≠ '\x00') {parts : List Mime.Text}
    (h : ∀ part ∈ parts, '\x00' ∉ part) : '\x00' ∉ join separator parts := by
  induction parts with
  | nil => simp [join]
  | cons part rest ih =>
    have hrest := ih fun p hp => h p (mem_cons_of_mem _ hp)
    have hpart := h part mem_cons_self
    cases rest with
    | nil => exact hpart
    | cons q rest =>
      rw [join]
      · simp only [mem_append, mem_cons, not_or]
        exact ⟨hpart, Ne.symm hsep, hrest⟩
      · simp

/-- The network of an address has no NUL, so the key of a streak can be read back. -/
theorem networkOf_nul (h : '\x00' ∉ ip) : '\x00' ∉ networkOf js ip := by
  have haddr : '\x00' ∉ normalizeIp js ip := normalizeIp_nul h
  unfold networkOf
  dsimp only
  split_ifs
  · have hparts : '\x00' ∉ join '.' (((normalizeIp js ip).splitOn '.').take 3) :=
      join_nul (by decide) fun part hpart hmem =>
        haddr (mem_of_mem_splitOn (mem_of_mem_take hpart) hmem)
    rw [mem_append, not_or]
    exact ⟨hparts, by decide⟩
  · split
    · exact haddr
    · rename_i groups _
      have hgroups : '\x00' ∉ join ':' ((groups.take 4).map hexText) := by
        refine join_nul (by decide) fun part hpart => ?_
        obtain ⟨n, -, rfl⟩ := mem_map.mp hpart
        exact hexText_nul n
      rw [mem_append, not_or]
      exact ⟨hgroups, by decide⟩

theorem keys_network_nul (a : AuthAttempt) : '\x00' ∉ (keys js a).network :=
  networkOf_nul (normalizeIp_nul a.ip_nul)

theorem append_nul_inj {u u' n n' : Mime.Text} (hn : '\x00' ∉ n) (hn' : '\x00' ∉ n')
    (h : u ++ '\x00' :: n = u' ++ '\x00' :: n') : u = u' ∧ n = n' := by
  rcases append_eq_append_iff.mp h with ⟨d, rfl, hd⟩ | ⟨d, rfl, hd⟩
  · cases d with
    | nil => simpa using hd
    | cons c d =>
      -- a longer name would leave a NUL in the network
      injection hd with _ hd
      simp [hd] at hn
  · cases d with
    | nil => simpa using hd.symm
    | cons c d =>
      injection hd with _ hd
      simp [hd] at hn'

end keys

/-! ## 3. Attempts by where they are -/

def Phase.inFlight (options : Options) : Phase → Bool
  | .waiting counts _ => counts.source < options.sourceCeiling
  | .checking _ => true
  | .failed .. => true
  | _ => false

/-- When the check ended in failure. -/
def Phase.failedAt : Phase → Option ℕ
  | .failed _ ended => some ended
  | .failureRecorded _ ended _ => some ended
  | _ => none

def Phase.recordedAt : Phase → Option ℕ
  | .failureRecorded _ _ recorded => some recorded
  | _ => none

/-- Since when the credentials are, or were, checked. -/
def Phase.checkedFrom : Phase → Option ℕ
  | .checking start => some start
  | .failed start _ => some start
  | .passed start _ => some start
  | .failureRecorded start _ _ => some start
  | .successRecorded start _ => some start
  | _ => none

/-- The check ended in failure in the window of length `windowMs` that ends at `T`. -/
def Phase.failedIn (options : Options) (T : ℕ) (ph : Phase) : Bool :=
  ph.failedAt.any fun ended => T < ended + options.windowMs && ended ≤ T

/-- The failure was put on record at such a time. -/
def Phase.recordedIn (p : ℕ → Bool) (ph : Phase) : Bool := ph.recordedAt.any p

def Try.source (js : Platform) (t : Try) : Mime.Text := (keys js t.attempt).source

/-- How many attempts from the source are in such a phase. -/
def World.countTries (js : Platform) (w : World) (source : Mime.Text) (p : Phase → Bool) : ℕ :=
  w.tries.countP fun t => decide (t.source js = source) && p t.phase

def World.inFlight (js : Platform) (options : Options) (w : World) (source : Mime.Text) : ℕ :=
  w.countTries js source (Phase.inFlight options)

/-- How many checks of attempts from the source ended in failure in the window of
length `windowMs` that ends at `T`. -/
def World.failedWithin (js : Platform) (options : Options) (w : World) (source : Mime.Text)
    (T : ℕ) : ℕ :=
  w.countTries js source (Phase.failedIn options T)

/-- An attempt that counts fewer failures than the ceiling finds, together with the
attempts of its source that are in flight, still fewer than the ceiling. -/
def apart (js : Platform) (options : Options) (w : World) : Act → Bool
  | .count i =>
    match w.tries[i]? with
    | some t =>
      match t.phase with
      | .began query =>
        let counts := countFailures w.ledger query
        options.sourceCeiling ≤ counts.source
          || counts.source + w.inFlight js options (t.source js) < options.sourceCeiling
      | _ => true
    | none => true
  | _ => true

section worlds

variable {js : Platform} {options : Options} {w w' : World} {i : ℕ} {t : Try} {phase : Phase}

variable (js) in
theorem countTries_put (h : w.tries[i]? = some t) (phase : Phase) (source : Mime.Text)
    (p : Phase → Bool) :
    (w.put i t phase).countTries js source p + (if t.source js = source ∧ p t.phase = true then 1
      else 0)
      = w.countTries js source p + if t.source js = source ∧ p phase = true then 1 else 0 := by
  have hset := countP_set_add (p := fun t => decide (t.source js = source) && p t.phase)
    (b := { t with phase := phase }) h
  have hsame : ({ t with phase := phase } : Try).source js = t.source js := rfl
  simp only [Bool.and_eq_true, decide_eq_true_eq, hsame] at hset
  exact hset

variable {p : Phase → Bool} {asked : Prop}

theorem countTries_put_le (htries : w'.tries = (w.put i t phase).tries) (h : w.tries[i]? = some t)
    {source : Mime.Text} (hp : p phase = true → p t.phase = true) :
    w'.countTries js source p ≤ w.countTries js source p := by
  have hput := countTries_put js h phase source p
  rw [World.countTries, htries]
  rw [World.countTries] at hput
  by_cases hnew : t.source js = source ∧ p phase = true
  · rw [if_pos hnew, if_pos ⟨hnew.1, hp hnew.2⟩] at hput
    omega
  · rw [if_neg hnew] at hput
    omega

theorem countTries_mono {source : Mime.Text} {q : Phase → Bool}
    (h : ∀ t ∈ w.tries, p t.phase = true → q t.phase = true) :
    w.countTries js source p ≤ w.countTries js source q := by
  refine countP_mono_left fun t ht hp => ?_
  simp only [Bool.and_eq_true] at hp ⊢
  exact ⟨hp.1, h t ht hp.2⟩

variable (js w) in
theorem countTries_or_le (source : Mime.Text) (p q : Phase → Bool) :
    w.countTries js source (fun ph => p ph || q ph) ≤ w.countTries js source p
      + w.countTries js source q := by
  refine Nat.le_trans (countP_mono_left fun t _ h => ?_) (countP_or_le _ _ _)
  simp only [Bool.and_eq_true, Bool.or_eq_true] at h ⊢
  tauto

theorem mem_put {t' : Try} (h : t' ∈ (w.put i t phase).tries) :
    t' ∈ w.tries ∨ t' = { t with phase := phase } :=
  mem_or_eq_of_mem_set h

/-! ## 4. What a step does -/

/-- How an attempt goes on without changing anything else. -/
inductive Next (options : Options) (w : World) : Phase → Phase → Prop
  | count (query : FailureQuery) : Next options w (.began query)
    (.waiting (countFailures w.ledger query) w.clock)
  | abort (counts : FailureCounts) (since : ℕ) : Next options w (.waiting counts since) .aborted
  | refuse (counts : FailureCounts) (since : ℕ) : Next options w (.waiting counts since) .refused
  | proceed (counts : FailureCounts) (since : ℕ)
    (hslept : since + delayFor options counts.streak counts.source ≤ w.clock)
      (hunder : counts.source < options.sourceCeiling) :
        Next options w (.waiting counts since) (.checking w.clock)
  | fail (start : ℕ) : Next options w (.checking start) (.failed start w.clock)
  | pass (start : ℕ) : Next options w (.checking start) (.passed start w.clock)

/-- A step: an attempt is made, goes on, or is put on record, or time passes. It meets
`apart` where that is asked. -/
inductive Moved (js : Platform) (options : Options) (asked : Prop) (w : World) : World → Prop
  | made (daemon : ℕ) (attempt : AuthAttempt) (query : FailureQuery)
      (hquery : query = queryFor options (keys js attempt) w.clock
        ((w.lastSuccess daemon).get (keys js attempt).streakKey)) :
      Moved js options asked w
        { w with tries := w.tries ++ [⟨daemon, attempt, w.clock, .began query,
        w.streak options (keys js attempt), w.sourceFailures options (keys js attempt).source⟩] }
  | goesOn (i : ℕ) (t : Try) (phase : Phase) (ht : w.tries[i]? = some t)
    (hnext : Next options w t.phase phase)
      (hapart : asked → ∀ query, t.phase = .began query →
        (countFailures w.ledger query).source < options.sourceCeiling →
        (countFailures w.ledger query).source + w.inFlight js options (t.source js)
        < options.sourceCeiling) :
      Moved js options asked w (w.put i t phase)
  | failure (i : ℕ) (t : Try) (reason : Mime.Text) (start ended : ℕ) (ht : w.tries[i]? = some t)
      (hphase : t.phase = .failed start ended) :
      Moved js options asked w { w.put i t (.failureRecorded start ended w.clock) with
        ledger := w.ledger ++ [entryOf js t reason w.clock] }
  | success (i : ℕ) (t : Try) (start ended : ℕ) (ht : w.tries[i]? = some t)
    (hphase : t.phase = .passed start ended) :
      Moved js options asked w { w.put i t (.successRecorded start ended) with
        lastSuccess := fun d => if d = t.daemon then
        (w.lastSuccess d).remember options (keys js t.attempt).streakKey w.clock
          else w.lastSuccess d
        successes := w.successes
        ++ [⟨(keys js t.attempt).username, (keys js t.attempt).network, w.clock⟩] }
  | tick (ms : ℕ) : Moved js options asked w { w with clock := w.clock + ms }

theorem moved_of_step {a : Act} (hok : asked → apart js options w a = true)
    (h : w.step js options a = some w') : Moved js options asked w w' := by
  cases a with
  | begin_ daemon attempt =>
    cases h
    exact .made daemon attempt _ rfl
  | tick ms =>
    cases h
    exact .tick ms
  | count i =>
    obtain ⟨t, ht, hrest⟩ := Option.bind_eq_some_iff.mp h
    split at hrest
    · rename_i query hphase
      cases hrest
      refine .goesOn i t _ ht (hphase ▸ .count query) ?_
      intro hasked query' hphase' hunder
      obtain rfl : query = query' := Phase.began.inj (hphase.symm.trans hphase')
      have happ := hok hasked
      unfold apart at happ
      simp only [ht, hphase, Bool.or_eq_true, decide_eq_true_eq] at happ
      omega
    · cases hrest
  | abort i =>
    obtain ⟨t, ht, hrest⟩ := Option.bind_eq_some_iff.mp h
    split at hrest
    · rename_i counts since hphase
      cases hrest
      exact .goesOn i t _ ht (hphase ▸ .abort counts since) fun _ query hq =>
        absurd (hphase.symm.trans hq) nofun
    · cases hrest
  | wake i =>
    obtain ⟨t, ht, hrest⟩ := Option.bind_eq_some_iff.mp h
    split at hrest
    · rename_i counts since hphase
      have hwaits : ∀ query, t.phase ≠ .began query := fun query hq =>
        absurd (hphase.symm.trans hq) nofun
      split_ifs at hrest with hearly hover
      · cases hrest
        exact .goesOn i t _ ht (hphase ▸ .refuse counts since) fun _ query hq =>
          absurd hq (hwaits query)
      · cases hrest
        exact .goesOn i t _ ht (hphase ▸ .proceed counts since (by omega) (by omega))
          fun _ query hq => absurd hq (hwaits query)
    · cases hrest
  | check i ok =>
    obtain ⟨t, ht, hrest⟩ := Option.bind_eq_some_iff.mp h
    split at hrest
    · rename_i start hphase
      cases hrest
      refine .goesOn i t _ ht ?_ fun _ query hq => absurd (hphase.symm.trans hq) nofun
      cases ok with
      | true => exact hphase ▸ .pass start
      | false => exact hphase ▸ .fail start
    · cases hrest
  | record i reason =>
    obtain ⟨t, ht, hrest⟩ := Option.bind_eq_some_iff.mp h
    split at hrest
    · rename_i start ended hphase
      cases hrest
      exact .failure i t reason start ended ht hphase
    · rename_i start ended hphase
      cases hrest
      exact .success i t start ended ht hphase
    · cases hrest

/-! ## 5. Delays -/

theorem delayFor_le_max (options : Options) (streak source : ℕ) :
    delayFor options streak source ≤ options.maxDelayMs := by
  unfold delayFor
  split_ifs
  · exact le_rfl
  · exact Nat.zero_le _
  · exact Nat.min_le_left _ _

/-- More failures do not make the delay shorter. -/
theorem delayFor_mono (options : Options) {streak streak' source source' : ℕ}
    (hstreak : streak ≤ streak')
    (hsource : source ≤ source') : delayFor options streak source
      ≤ delayFor options streak' source' := by
  by_cases hover' : options.sourceCeiling ≤ source'
  · rw [delayFor.eq_1 options streak' source', if_pos hover']
    exact delayFor_le_max options streak source
  · have hover : ¬ options.sourceCeiling ≤ source := by omega
    unfold delayFor
    rw [if_neg hover, if_neg hover']
    by_cases hfree : streak < options.freeFailures
    · rw [if_pos hfree]
      exact Nat.zero_le _
    · rw [if_neg hfree, if_neg (by omega)]
      have hpow : 2 ^ (streak - options.freeFailures) ≤ 2 ^ (streak' - options.freeFailures) :=
        Nat.pow_le_pow_right (by decide) (by omega)
      exact Nat.le_min.mpr ⟨Nat.min_le_left _ _, Nat.le_trans (Nat.min_le_right _ _)
        (Nat.mul_le_mul_left _ hpow)⟩

/-- What an attempt has found so far. -/
structure TryOk (js : Platform) (options : Options) (w : World) (t : Try) : Prop where
  made : t.madeAt ≤ w.clock
  began : ∀ query, t.phase = .began query → query.now = t.madeAt ∧ query.windowMs = options.windowMs
    ∧ query.source = t.source js ∧ t.streakThen ≤ (countFailures w.ledger query).streak
    ∧ t.sourceThen ≤ (countFailures w.ledger query).source
  waiting : ∀ counts since, t.phase = .waiting counts since →
    t.madeAt ≤ since ∧ t.streakThen ≤ counts.streak ∧ t.sourceThen ≤ counts.source
  checked : ∀ start, t.phase.checkedFrom = some start →
    t.madeAt + delayFor options t.streakThen t.sourceThen ≤ start
  ended : ∀ ended, t.phase.failedAt = some ended → ended ≤ w.clock
  recorded : ∀ ended recorded, t.phase.failedAt = some ended → t.phase.recordedAt = some recorded →
    ended ≤ recorded

/-- What each daemon remembers has happened. -/
def Remembered (w : World) : Prop :=
  ∀ d, ∀ entry ∈ w.lastSuccess d, ∃ s ∈ w.successes,
    entry.1 = s.username ++ '\x00' :: s.network ∧ '\x00' ∉ s.network ∧ entry.2 = s.at_

/-- The table has grown and time has passed. -/
theorem TryOk.later (h : TryOk js options w t) (hclock : w.clock ≤ w'.clock)
    (hledger : w.ledger <+: w'.ledger) :
    TryOk js options w' t := by
  refine { h with
    made := Nat.le_trans h.made hclock, began := fun query hq => ?_
    ended := fun e he => Nat.le_trans (h.ended e he) hclock }
  obtain ⟨hnow, hwindow, hsource, hstreak, hcount⟩ := h.began query hq
  exact ⟨hnow, hwindow, hsource, Nat.le_trans hstreak (hledger.sublist.countP_le),
    Nat.le_trans hcount (hledger.sublist.countP_le)⟩

theorem TryOk.next (h : TryOk js options w t) (hnext : Next options w t.phase phase) :
    TryOk js options w { t with phase := phase } := by
  generalize hold : t.phase = old at hnext
  cases hnext with
  | count query =>
    obtain ⟨-, -, -, hstreak, hsource⟩ := h.began query hold
    refine ⟨h.made, nofun, ?_, nofun, nofun, nofun⟩
    rintro counts since ⟨⟩
    exact ⟨h.made, hstreak, hsource⟩
  | abort counts since | refuse counts since => exact ⟨h.made, nofun, nofun, nofun, nofun, nofun⟩
  | proceed counts since hslept hunder =>
    obtain ⟨hsince, hstreak, hsource⟩ := h.waiting counts since hold
    refine ⟨h.made, nofun, nofun, ?_, nofun, nofun⟩
    rintro start ⟨⟩
    -- it has slept for what it found, which is at least what was there
    have hdelay := delayFor_mono options hstreak hsource
    show t.madeAt + delayFor options t.streakThen t.sourceThen ≤ w.clock
    omega
  | fail start =>
    refine ⟨h.made, nofun, nofun, ?_, ?_, nofun⟩
    · rintro start' ⟨⟩
      exact h.checked start (by rw [hold]; rfl)
    · rintro ended ⟨⟩
      exact le_rfl
  | pass start =>
    refine ⟨h.made, nofun, nofun, ?_, nofun, nofun⟩
    rintro start' ⟨⟩
    exact h.checked start (by rw [hold]; rfl)

/-- An attempt that is made now: its query finds at least what is there. -/
theorem TryOk.made_now (hmem : Remembered w) (daemon : ℕ) (attempt : AuthAttempt)
    {query : FailureQuery}
    (hquery : query = queryFor options (keys js attempt) w.clock
      ((w.lastSuccess daemon).get (keys js attempt).streakKey)) :
    TryOk js options w ⟨daemon, attempt, w.clock, .began query, w.streak options (keys js attempt),
      w.sourceFailures options (keys js attempt).source⟩ := by
  refine ⟨le_rfl, ?_, nofun, nofun, nofun, nofun⟩
  rintro query' ⟨⟩
  subst hquery
  refine ⟨rfl, rfl, rfl, ?_, le_rfl⟩
  refine countP_mono_left fun e _ he => ?_
  simp only [Bool.and_eq_true, decide_eq_true_eq, all_eq_true, Bool.or_eq_true, ne_eq] at he
  obtain ⟨⟨⟨hcovers, huser⟩, hnet⟩, hafter⟩ := he
  simp only [FailureQuery.ofStreak, FailureQuery.covers, queryFor, Bool.and_eq_true]
  refine ⟨⟨⟨decide_eq_true hcovers, decide_eq_true huser⟩, decide_eq_true hnet⟩, ?_⟩
  -- the success it counts from is one of this username and network
  rw [Option.all_eq_true]
  intro at_ hat
  obtain ⟨hget, -⟩ := Option.filter_eq_some_iff.mp hat
  obtain ⟨entry, hfind, rfl⟩ := Option.map_eq_some_iff.mp hget
  have hkey := find?_some hfind
  simp only [decide_eq_true_eq] at hkey
  obtain ⟨s, hs, hname, hnul, hs_at⟩ := hmem daemon entry (mem_of_find?_eq_some hfind)
  have hwhose : s.username = (keys js attempt).username ∧ s.network = (keys js attempt).network :=
    append_nul_inj hnul (keys_network_nul attempt) (hname.symm.trans hkey)
  rw [hs_at]
  rcases hafter s hs with (hne | hne) | hle
  · exact absurd hwhose.1 hne
  · exact absurd hwhose.2 hne
  · exact decide_eq_true hle

theorem Remembered.moved (h : Remembered w) (hmoved : Moved js options asked w w') :
    Remembered w' := by
  cases hmoved with
  | made daemon attempt query hquery => exact h
  | goesOn i t phase ht hnext hapart => exact h
  | failure i t reason start ended ht hphase => exact h
  | tick ms => exact h
  | success i t start ended ht hphase =>
    have hgrown : ∀ d, ∀ entry ∈ w.lastSuccess d, ∃ s ∈ w.successes
        ++ [⟨(keys js t.attempt).username, (keys js t.attempt).network, w.clock⟩],
        entry.1 = s.username ++ '\x00' :: s.network ∧ '\x00' ∉ s.network ∧ entry.2 = s.at_ := by
      intro d entry hentry
      obtain ⟨s, hs, hrest⟩ := h d entry hentry
      exact ⟨s, mem_append_left _ hs, hrest⟩
    intro d entry hentry
    dsimp only at hentry ⊢
    by_cases hd : d = t.daemon
    · rw [if_pos hd] at hentry
      rcases mem_append.mp hentry with hold | hnew
      · have hother : entry ∈ (w.lastSuccess d).filter fun entry =>
            entry.1 ≠ (keys js t.attempt).streakKey := by
          split_ifs at hold
          · exact mem_of_mem_drop hold
          · exact hold
        exact hgrown d entry (mem_of_mem_filter hother)
      · rw [mem_singleton.mp hnew]
        exact ⟨_, mem_append_right _ mem_cons_self, rfl, keys_network_nul t.attempt, rfl⟩
    · rw [if_neg hd] at hentry
      exact hgrown d entry hentry

theorem tryOk_moved (hmem : Remembered w) (h : ∀ t ∈ w.tries, TryOk js options w t)
    (hmoved : Moved js options asked w w') : ∀ t ∈ w'.tries, TryOk js options w' t := by
  cases hmoved with
  | made daemon attempt query hquery =>
    have hthen : ∀ t ∈ w.tries ++ [_], TryOk js options w t :=
      forall_mem_append.mpr ⟨h, forall_mem_singleton.mpr (.made_now hmem daemon attempt hquery)⟩
    exact fun t ht => (hthen t ht).later le_rfl (List.prefix_refl _)
  | goesOn i t phase ht hnext hapart =>
    intro t' ht'
    rcases mem_put ht' with ht' | rfl
    · exact (h t' ht').later le_rfl (List.prefix_refl _)
    · exact ((h t (mem_of_getElem? ht)).next hnext).later le_rfl (List.prefix_refl _)
  | failure i t reason start ended ht hphase =>
    intro t' ht'
    rcases mem_put ht' with ht' | rfl
    · exact (h t' ht').later le_rfl (List.prefix_append _ _)
    · have htry := h t (mem_of_getElem? ht)
      have hended : ended ≤ w.clock := htry.ended ended (by rw [hphase]; rfl)
      refine ⟨htry.made, nofun, nofun, ?_, ?_, ?_⟩
      · rintro start' ⟨⟩
        exact htry.checked start (by rw [hphase]; rfl)
      · rintro ended' ⟨⟩
        exact hended
      · rintro ended' recorded ⟨⟩ ⟨⟩
        exact hended
  | success i t start ended ht hphase =>
    intro t' ht'
    rcases mem_put ht' with ht' | rfl
    · exact (h t' ht').later le_rfl (List.prefix_refl _)
    · have htry := h t (mem_of_getElem? ht)
      refine ⟨htry.made, nofun, nofun, ?_, nofun, nofun⟩
      rintro start' ⟨⟩
      exact htry.checked start (by rw [hphase]; rfl)
  | tick ms =>
    intro t ht
    exact (h t ht).later (Nat.le_add_right _ _) (List.prefix_refl _)

/-! ## 6. Failures -/

/-- What holds of the failures when every step is `apart`. -/
structure Inv (js : Platform) (options : Options) (w : World) : Prop where
  tries : ∀ t ∈ w.tries, TryOk js options w t
  /-- The failures on record and the attempts in flight are within the ceiling. -/
  room : ∀ source, w.sourceFailures options source + w.inFlight js options source
    ≤ options.sourceCeiling
  /-- What is said to be on record is. -/
  onRecord : ∀ source (p : ℕ → Bool), w.countTries js source (Phase.recordedIn p)
    ≤ w.ledger.countP fun e => decide (e.source = source) && p e.at_
  bounded : ∀ source T, w.failedWithin js options source T ≤ options.sourceCeiling

/-- A window that reaches up to now holds only failures that are still counted, and
attempts in flight. -/
theorem failedWithin_le (htries : ∀ t ∈ w.tries, TryOk js options w t)
    (hrecord : ∀ source (p : ℕ → Bool), w.countTries js source (Phase.recordedIn p)
      ≤ w.ledger.countP fun e => decide (e.source = source) && p e.at_)
    (source : Mime.Text) {T : ℕ} (hT : w.clock ≤ T) :
    w.failedWithin js options source T ≤ w.sourceFailures options source
      + w.inFlight js options source := by
  have hsplit : w.failedWithin js options source T
      ≤ w.countTries js source fun ph => ph.recordedIn (w.clock < · + options.windowMs)
        || ph.inFlight options := by
    refine countTries_mono fun t ht hfailed => ?_
    obtain ⟨ended, hended, hin⟩ := (Option.any_eq_true _ _).mp hfailed
    simp only [Bool.and_eq_true, decide_eq_true_eq] at hin
    have hok := htries t ht
    generalize hphase : t.phase = ph at hended ⊢
    cases ph with
    | failed start ended' => rfl
    | failureRecorded start ended' recorded =>
      have hle := hok.recorded ended' recorded (by rw [hphase]; rfl) (by rw [hphase]; rfl)
      obtain rfl : ended' = ended := Option.some.inj hended
      have hcovered : w.clock < recorded + options.windowMs := by omega
      simp [Phase.recordedIn, Phase.recordedAt, hcovered]
    | _ => cases hended
  have hrows : w.countTries js source (Phase.recordedIn (w.clock < · + options.windowMs))
      ≤ w.sourceFailures options source := by
    refine Nat.le_trans (hrecord source (w.clock < · + options.windowMs))
      (countP_mono_left fun e _ he => ?_)
    simp only [Bool.and_eq_true] at he ⊢
    exact ⟨he.2, he.1⟩
  have hor := countTries_or_le js w source (Phase.recordedIn (w.clock < · + options.windowMs))
    (Phase.inFlight options)
  exact Nat.le_trans hsplit (Nat.le_trans hor (Nat.add_le_add_right hrows _))

theorem countTries_made (t : Try) (source : Mime.Text) (hp : p t.phase = false) :
    ({ w with tries := w.tries ++ [t] } : World).countTries js source p
      = w.countTries js source p := by
  unfold World.countTries
  rw [countP_append, countP_singleton, hp, Bool.and_false, if_neg Bool.false_ne_true, Nat.add_zero]

/-- What `before` counts is at least what is on record of the window that ends now. -/
theorem sourceFailures_le_counts (htry : TryOk js options w t) {query : FailureQuery}
    (hphase : t.phase = .began query) :
    w.sourceFailures options (t.source js) ≤ (countFailures w.ledger query).source := by
  obtain ⟨hnow, hwindow, hsource, -, -⟩ := htry.began query hphase
  have hmade := htry.made
  refine countP_mono_left fun e _ he => ?_
  simp only [Bool.and_eq_true, decide_eq_true_eq] at he
  simp only [FailureQuery.ofSource, FailureQuery.covers, Bool.and_eq_true, decide_eq_true_eq]
  rw [hsource, hwindow]
  exact ⟨by omega, he.2⟩

theorem room_goesOn (h : Inv js options w) (ht : w.tries[i]? = some t)
    (hnext : Next options w t.phase phase)
    (hapart : ∀ query, t.phase = .began query → (countFailures w.ledger query).source
      < options.sourceCeiling →
      (countFailures w.ledger query).source + w.inFlight js options
      (t.source js) < options.sourceCeiling)
    (source : Mime.Text) :
    w.sourceFailures options source + (w.put i t phase).inFlight js options source
      ≤ options.sourceCeiling := by
  have hroom := h.room source
  by_cases hkeeps : phase.inFlight options = true → t.phase.inFlight options = true
  · have hle : (w.put i t phase).inFlight js options source ≤ w.inFlight js options source :=
      countTries_put_le rfl ht hkeeps
    omega
  -- only a count brings an attempt into flight
  generalize hold : t.phase = old at hnext hkeeps
  cases hnext with
  | count query =>
    have hunder : (countFailures w.ledger query).source < options.sourceCeiling := by
      by_contra hover
      exact hkeeps fun hin => absurd (of_decide_eq_true hin) hover
    have hroom' := hapart query hold hunder
    have hcount := sourceFailures_le_counts (h.tries t (mem_of_getElem? ht)) hold
    have hput := countTries_put js ht (.waiting (countFailures w.ledger query) w.clock) source
      (Phase.inFlight options)
    by_cases hsource : t.source js = source
    · subst hsource
      have hone : (if t.source js = t.source js ∧ Phase.inFlight options
          (.waiting (countFailures w.ledger query) w.clock) = true then 1 else 0) ≤ 1 := by
        split_ifs
        · exact le_rfl
        · exact Nat.zero_le _
      unfold World.inFlight at hroom' ⊢
      omega
    · rw [if_neg fun hand => hsource hand.1, if_neg fun hand => hsource hand.1] at hput
      unfold World.inFlight at hroom ⊢
      omega
  | abort counts since | refuse counts since | pass start => exact absurd nofun hkeeps
  | proceed counts since hslept hunder => exact absurd (fun _ => decide_eq_true hunder) hkeeps
  | fail start => exact absurd (fun _ => rfl) hkeeps

theorem Next.recordedAt {old : Phase} (h : Next options w old phase) : phase.recordedAt = none := by
  cases h with
  | _ => rfl

theorem Next.failedAt {old : Phase} (h : Next options w old phase) :
    phase.failedAt = none ∨ phase.failedAt = some w.clock := by
  cases h with
  | fail start => exact .inr rfl
  | _ => exact .inl rfl

/-- A window that lies in the past keeps what it has. -/
theorem failedWithin_past (hmoved : Moved js options asked w w') (source : Mime.Text) {T : ℕ}
    (hT : T < w'.clock) : w'.failedWithin js options source T
      ≤ w.failedWithin js options source T := by
  cases hmoved with
  | made daemon attempt query hquery => exact (countTries_made _ source rfl).le
  | tick ms => exact le_rfl
  | goesOn i t phase ht hnext hapart =>
    refine countTries_put_le rfl ht fun hin => ?_
    rcases hnext.failedAt with hnone | hnow
    · rw [Phase.failedIn, hnone] at hin
      cases hin
    · rw [Phase.failedIn, hnow] at hin
      simp only [Option.any_some, Bool.and_eq_true, decide_eq_true_eq] at hin
      have : T < w.clock := hT
      omega
  | failure i t reason start ended ht hphase =>
    refine countTries_put_le rfl ht fun hin => ?_
    rw [hphase]
    exact hin
  | success i t start ended ht hphase =>
    exact countTries_put_le rfl ht nofun

theorem onRecord_moved (h : Inv js options w) (hmoved : Moved js options asked w w')
    (source : Mime.Text) (p : ℕ → Bool) : w'.countTries js source (Phase.recordedIn p)
      ≤ w'.ledger.countP fun e => decide (e.source = source) && p e.at_ := by
  have hold := h.onRecord source p
  cases hmoved with
  | made daemon attempt query hquery =>
    rw [countTries_made _ source rfl]
    exact hold
  | tick ms => exact hold
  | goesOn i t phase ht hnext hapart =>
    refine Nat.le_trans (countTries_put_le rfl ht fun hin => ?_) hold
    rw [Phase.recordedIn, hnext.recordedAt] at hin
    cases hin
  | success i t start ended ht hphase =>
    exact Nat.le_trans (countTries_put_le rfl ht nofun) hold
  | failure i t reason start ended ht hphase =>
    have hput := countTries_put js ht (.failureRecorded start ended w.clock) source
      (Phase.recordedIn p)
    have hrow : (w.ledger ++ [entryOf js t reason w.clock]).countP
        (fun e => decide (e.source = source) && p e.at_)
        = w.ledger.countP (fun e => decide (e.source = source) && p e.at_)
          + if t.source js = source ∧ p w.clock = true then 1 else 0 := by
      rw [countP_append, countP_singleton]
      simp only [Bool.and_eq_true, decide_eq_true_eq]
      rfl
    show (w.put i t (.failureRecorded start ended w.clock)).countTries js source
      (Phase.recordedIn p)
      ≤ (w.ledger ++ [entryOf js t reason w.clock]).countP fun e =>
        decide (e.source = source) && p e.at_
    have hnew : Phase.recordedIn p (.failureRecorded start ended w.clock) = p w.clock := rfl
    rw [hnew] at hput
    omega

theorem room_moved (h : Inv js options w) (hmoved : Moved js options True w w')
    (source : Mime.Text) :
    w'.sourceFailures options source + w'.inFlight js options source ≤ options.sourceCeiling := by
  have hold := h.room source
  cases hmoved with
  | made daemon attempt query hquery =>
    rw [World.inFlight, countTries_made _ source rfl]
    exact hold
  | goesOn i t phase ht hnext hapart => exact room_goesOn h ht hnext (hapart trivial) source
  | success i t start ended ht hphase =>
    refine Nat.le_trans (Nat.add_le_add_left ?_ _) hold
    exact countTries_put_le rfl ht nofun
  | tick ms =>
    have hle : World.sourceFailures options { w with clock := w.clock + ms } source
      ≤ w.sourceFailures options source := by
      refine countP_mono_left fun e _ he => ?_
      simp only [Bool.and_eq_true, decide_eq_true_eq] at he ⊢
      exact ⟨by omega, he.2⟩
    exact Nat.le_trans (Nat.add_le_add_right hle _) hold
  | failure i t reason start ended ht hphase =>
    -- one more on record, one less in flight
    have hput := countTries_put js ht (.failureRecorded start ended w.clock) source
      (Phase.inFlight options)
    rw [hphase] at hput
    have hrow : World.sourceFailures options { w.put i t (.failureRecorded start ended w.clock) with
        ledger := w.ledger ++ [entryOf js t reason w.clock] } source
        ≤ w.sourceFailures options source + if t.source js = source then 1 else 0 := by
      unfold World.sourceFailures
      rw [countP_append, countP_singleton]
      refine Nat.add_le_add_left ?_ _
      by_cases hsource : t.source js = source
      · rw [if_pos hsource]
        split_ifs
        · exact le_rfl
        · exact Nat.zero_le _
      · rw [if_neg hsource, if_neg]
        · simp only [Bool.and_eq_true, decide_eq_true_eq, not_and]
          exact fun _ => hsource
    have hflight : (w.put i t (.failureRecorded start ended w.clock)).inFlight js options source
        + (if t.source js = source then 1 else 0) = w.inFlight js options source := by
      unfold World.inFlight
      simpa [Phase.inFlight] using hput
    show World.sourceFailures options { w.put i t (.failureRecorded start ended w.clock) with
        ledger := w.ledger ++ [entryOf js t reason w.clock] } source
      + (w.put i t (.failureRecorded start ended w.clock)).inFlight js options source
        ≤ options.sourceCeiling
    omega

theorem Inv.moved (hmem : Remembered w) (h : Inv js options w)
    (hmoved : Moved js options True w w') :
    Inv js options w' := by
  have htries := tryOk_moved hmem h.tries hmoved
  have hrecord := onRecord_moved h hmoved
  have hroom := room_moved h hmoved
  refine ⟨htries, hroom, hrecord, fun source T => ?_⟩
  by_cases hT : w'.clock ≤ T
  · exact Nat.le_trans (failedWithin_le htries hrecord source hT) (hroom source)
  · exact Nat.le_trans (failedWithin_past hmoved source (by omega)) (h.bounded source T)

end worlds

/-! ## 7. Every interleaving -/

theorem start_remembered : Remembered World.start := nofun

/-- In any run at all, no credentials are checked before the delay that the failures
at the time of the attempt ask for. -/
theorem delay_is_waited_out (js : Platform) (options : Options) {w : World}
    (hrun : Run (World.step js options) anyStep World.start w) :
    ∀ t ∈ w.tries, ∀ start, t.phase.checkedFrom = some start →
      t.madeAt + delayFor options t.streakThen t.sourceThen ≤ start := by
  have hinv := hrun.invariant (fun w => Remembered w ∧ ∀ t ∈ w.tries, TryOk js options w t)
    ⟨start_remembered, nofun⟩
    fun w a w' ih _ hstep =>
      have hmoved : Moved js options False w w' := moved_of_step nofun hstep
      ⟨ih.1.moved hmoved, tryOk_moved ih.1 ih.2 hmoved⟩
  exact fun t ht => (hinv.2 t ht).checked

/-- **Guessing from one source is bounded** in every run whose steps are all `apart`,
and delayed in every run. -/
theorem password_guessing_bounded (js : Platform) (options : Options) {w : World}
    (hrun : Run (World.step js options) (fun w a => apart js options w a = true) World.start w) :
    (∀ source T, w.failedWithin js options source T ≤ options.sourceCeiling)
      ∧ ∀ t ∈ w.tries, ∀ start, t.phase.checkedFrom = some start →
        t.madeAt + delayFor options t.streakThen t.sourceThen ≤ start := by
  have hstart : Inv js options World.start := by
    refine ⟨nofun, fun source => ?_, fun source p => le_rfl, fun source T => Nat.zero_le _⟩
    exact Nat.zero_le _
  have hinv := hrun.invariant (fun w => Remembered w ∧ Inv js options w) ⟨start_remembered, hstart⟩
    fun w a w' ih hok hstep =>
      have hmoved : Moved js options True w w' := moved_of_step (fun _ => hok) hstep
      ⟨ih.1.moved hmoved, ih.2.moved ih.1 hmoved⟩
  exact ⟨hinv.2.bounded, fun t ht => (hinv.2.tries t ht).checked⟩

/-! ### Twenty-one connections at once -/

/-- Dotted quads are the only addresses, and nothing has an upper case. -/
def dottedOnly : Platform where
  isIPv4 := isDotted
  isIPv6 := fun _ => false
  toLowerCase := id
  lower_nul := fun _ h => h

/-- A guess for one account from one address. -/
def guess : AuthAttempt := ⟨"imap".toList, "alice".toList, "192.0.2.1".toList, by decide⟩

/-- All of them count before the first check ends. -/
def atOnce (n : ℕ) : List Act :=
  (List.replicate n (.begin_ 0 guess)) ++ (List.range n).map .count ++ (List.range n).map .wake
    ++ (List.range n).map fun i => .check i false

theorem atOnce_runs : ((runAll (World.step dottedOnly {}) World.start (atOnce 21)).any
    fun w => w.failedWithin dottedOnly {} "192.0.2.1".toList 0 = 21) = true := by
  decide +kernel

/-- The ceiling is 20, and 21 checks fail at the same moment. -/
theorem ceiling_passed_at_once : ∃ w, Run (World.step dottedOnly {}) anyStep World.start w
    ∧ ({} : Options).sourceCeiling < w.failedWithin dottedOnly {} "192.0.2.1".toList 0 := by
  obtain ⟨w, hw, hcount⟩ := (Option.any_eq_true _ _).mp atOnce_runs
  refine ⟨w, Run.runAll (atOnce 21) Run.refl hw, ?_⟩
  rw [of_decide_eq_true hcount]
  decide

theorem atOnce_apart_runs :
    ((runWhile (World.step dottedOnly {}) (fun w a => apart dottedOnly {} w a = true) World.start
    (atOnce 20)).any fun w => w.failedWithin dottedOnly {} "192.0.2.1".toList 0 = 20) = true := by
  decide +kernel

/-- Twenty at once reach the ceiling, and no later window holds more. -/
theorem password_guessing_bounded_twenty : ∃ w : World,
    w.failedWithin dottedOnly {} "192.0.2.1".toList 0 = 20
    ∧ ∀ T, w.failedWithin dottedOnly {} "192.0.2.1".toList T ≤ 20 := by
  obtain ⟨w, hw, hcount⟩ := (Option.any_eq_true _ _).mp atOnce_apart_runs
  have hrun := Run.runWhile (atOnce 20) Run.refl hw
  exact ⟨w, of_decide_eq_true hcount, (password_guessing_bounded dottedOnly {} hrun).1 _⟩

/-- Three wrong guesses one after the other, and a fourth that sleeps for a second. -/
def inTurn : List Act :=
  ((List.range 3).flatMap fun i =>
    [.begin_ 0 guess, .count i, .wake i, .check i false, .record i "bad password".toList])
    ++ [.begin_ 0 guess, .count 3, .tick 1000, .wake 3, .check 3 false]

theorem inTurn_runs : ((runAll (World.step dottedOnly {}) World.start inTurn).any fun w =>
    w.tries.map (fun t => (delayFor {} t.streakThen t.sourceThen, t.phase.checkedFrom))
      = [(0, some 0), (0, some 0), (0, some 0), (1000, some 1000)]) = true := by
  decide +kernel

/-- The fourth guess in turn is checked a second after it was made, and no earlier. -/
theorem delay_is_waited_out_in_turn : ∃ w : World,
    w.tries.map (fun t => (delayFor {} t.streakThen t.sourceThen, t.phase.checkedFrom))
      = [(0, some 0), (0, some 0), (0, some 0), (1000, some 1000)]
    ∧ ∀ t ∈ w.tries, ∀ start, t.phase.checkedFrom = some start →
      t.madeAt + delayFor {} t.streakThen t.sourceThen ≤ start := by
  obtain ⟨w, hw, htries⟩ := (Option.any_eq_true _ _).mp inTurn_runs
  exact ⟨w, of_decide_eq_true htries, delay_is_waited_out dottedOnly {}
    (Run.runAll inTurn Run.refl hw)⟩

end Postroom.AuthThrottle
