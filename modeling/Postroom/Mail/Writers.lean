/-
Every writer keeps the mailboxes well formed.

Each script of Store.lean, replayed alone on a good database, ends in one that
`Commit` relates to it. The proofs go through the scripts in their own order, with
the rules of Statements.lean; what a script has done to a mailbox between its lock
and its counters is a `Draft`, and `Draft.close` ends every one of them.
-/
import Postroom.Mail.Statements

set_option autoImplicit false

namespace Postroom.Mail

open Lib List
open Db (set_same set_other)

variable {recorded : Bool} {α : Type} {ks : List Key} {cur cur₀ : Db}

/-- What a writer is held to from a view `cur₀` on. -/
abbrev Keeps (recorded : Bool) (cur₀ : Db) (p : Script α) (ks : List Key) (cur : Db) : Prop :=
  Holds recorded (fun _ _ cur' => Commit recorded cur₀ cur') p ks cur

/-- Each of `uids` has an expunged row in the mailbox. -/
def OnRecord (id : ℕ) (uids : List ℕ) (db : Db) : Prop :=
  ∀ m, db id = some m → ∀ u ∈ uids, ∃ e ∈ m.expunged, e.uid = u

variable {id N s t now : ℕ} {uids : List ℕ} {m target : Mailbox}
  {Q : MailboxInfo → List Key → Db → Prop} {d rows : List Message}
variable {a : α} {e : StoreError} {m' : Mailbox} {f : Message → Message} {p : Message → Bool}
  {accountId : ℕ} {name : String} {trashedAt : Option ℕ} {src : MailboxInfo}

theorem onRecord_set (rows : List Expunged) (h : m.expunged = recordExpunged rows uids N) :
    OnRecord id uids (cur.set id m) := by
  intro m' hm' u hu
  rw [set_same] at hm'
  injection hm' with hm'
  rw [← hm', h]
  exact recordExpunged_mem hu

theorem onRecord_nil (id : ℕ) (db : Db) : OnRecord id [] db := by
  intro _ _ u hu
  cases hu

theorem holds_pure {Q : α → List Key → Db → Prop} (h : Q a ks cur) :
    Holds recorded Q (pure a : Script α) ks cur :=
  h

theorem keeps_quiet {p : Script α} (h : Keeps recorded cur₀ p ks cur) :
    Keeps recorded cur₀ (quiet p) ks cur :=
  Holds.bind (h.mono fun _ _ _ hc => hc)

/-- A script goes on only with the row it asked for. -/
theorem holds_orFail {r : Option MailboxInfo}
    (h : ∀ row, r = some row → Q row ks cur) : Holds recorded Q (orFail e r) ks cur := by
  cases r with
  | none => trivial
  | some row => exact h row rfl

theorem holds_lock (h : ∀ m, cur id = some m → Q (m.info id) (ks ++ [.row id]) cur) :
    Holds recorded Q (sql (.lockMailbox id) >>= orFail e) ks cur := by
  apply Holds.bind
  apply holds_lockMailbox
  · trivial
  · intro m hm
    exact h m hm

/-- No expunged row is written. -/
def Unrecorded (cur cur' : Db) : Prop :=
  ∀ i, (cur' i).map Mailbox.expunged = (cur i).map Mailbox.expunged

theorem Unrecorded.set (hm : cur id = some m) (h : m'.expunged = m.expunged) :
    Unrecorded cur (cur.set id m') := by
  intro i
  by_cases hi : i = id
  · rw [hi, set_same, hm, Option.map_some, Option.map_some, h]
  · rw [set_other m' hi]

/-! ## 1. storeFlags and expunge -/

/-- A statement that rewrites message rows, under the next modseq. -/
theorem holds_rewrite {st : Stmt} {absent : st.Result} {r : Mailbox → st.Result}
    (hg : Good cur) (hk : Key.row id ∈ ks) (hm : cur id = some m) (hs : ∀ ids v new,
      exec ids v st new = updateMessages v id absent fun m => (r m, m.messages.map f))
    (hf : ∀ x, SameMessage (m.highestModseq + 1) x (f x)) :
    Holds recorded (fun _ _ cur' => Commit recorded cur cur' ∧ Unrecorded cur cur')
      (sql st >>= fun _ => sql (.setCounters id none (m.highestModseq + 1)) >>= fun _ =>
        pure a) ks cur := by
  apply Holds.bind
  refine holds_updateMessages hs hk hm ?_
  apply Holds.bind
  refine holds_setCounters hk (set_same ..) ?_
  intro ks' _
  apply holds_pure
  rw [Db.set_set]
  have hwf := hg id m hm
  have hdraft : Draft (m.highestModseq + 1) m.uidnext m [] (m.messages.map f) :=
    (hwf.draft _).rewrite f hf
  exact ⟨Commit.set hg hm (hdraft.close recorded hwf (Nat.lt_succ_self _) rfl rfl rfl (.inl rfl)),
    Unrecorded.set hm rfl⟩

theorem keeps_writeFlags (hg : Good cur) (hk : Key.row id ∈ ks) (hm : cur id = some m)
    (current : List Message) (updates : List (ℕ × List String)) (unchangedSince : Option ℕ) :
    Keeps recorded cur (writeFlags id m.highestModseq current updates unchangedSince) ks cur := by
  unfold writeFlags
  split
  · exact Commit.refl hg
  refine (holds_rewrite hg hk hm (fun _ _ _ => rfl) ?_).mono fun _ _ _ h => h.1
  intro x
  split
  · exact ⟨rfl, rfl, .inr rfl⟩
  · exact ⟨rfl, rfl, .inl ⟨rfl, rfl⟩⟩

theorem keeps_storeFlags (hg : Good cur) (id : ℕ) (uids : List ℕ) (op : StoreOperation)
    (flags : List String) (unchangedSince : Option ℕ) :
    Keeps recorded cur (storeFlags id uids op flags unchangedSince) ks cur := by
  unfold storeFlags
  split
  · exact Commit.refl hg
  apply Holds.bind
  apply holds_lock
  intro m hm
  have hk : Key.row id ∈ ks ++ [.row id] := by simp
  apply Holds.bind
  apply holds_messagesByUid hk hm
  exact keeps_writeFlags hg hk hm _ _ _

/-- The rows of `rows` have been deleted from `m`. -/
theorem holds_finishExpunge (hg : Good cur₀) (hk : Key.row id ∈ ks) (hm : cur₀ id = some m)
    (hnone : rows = [] → Commit recorded cur₀ (cur₀.set id { m with messages := d }))
    (hd : Draft (m.highestModseq + 1) m.uidnext m (rows.map Message.uid) d) :
    Holds recorded
      (fun removed _ cur' => Commit recorded cur₀ cur' ∧ OnRecord id removed cur'
        ∧ removed.Perm (rows.map Message.uid))
      (finishExpunge id m.highestModseq rows) ks (cur₀.set id { m with messages := d }) := by
  unfold finishExpunge
  split
  · rename_i hempty
    rw [List.isEmpty_iff] at hempty
    exact ⟨hnone hempty, onRecord_nil id _, by rw [hempty]; rfl⟩
  apply Holds.bind
  refine holds_setCounters hk (set_same ..) ?_
  intro ks' hks'
  apply Holds.bind
  refine holds_recordExpunged (hks' _ hk) (set_same ..) ?_
  apply holds_pure
  rw [Db.set_set, Db.set_set]
  have hsorted : Draft (m.highestModseq + 1) m.uidnext m
      ((rows.map Message.uid).insertionSort (· ≤ ·)) d :=
    hd.congr_gone fun g => mem_insertionSort _
  exact ⟨Commit.set hg hm (hsorted.close recorded (hg id m hm) (Nat.lt_succ_self _) rfl rfl rfl
    (.inl rfl)), onRecord_set m.expunged rfl, perm_insertionSort _ _⟩

/-- Deleting `rows`, which are the rows that fail `p`. -/
theorem Draft.delete (hd : Draft N m.uidnext m [] d) (hrows : ∀ x, x ∈ rows ↔ x ∈ d ∧ p x = false) :
    Draft N m.uidnext m (rows.map Message.uid) (d.filter p) := by
  have hremoved := hd.remove p (rows.map Message.uid) ?_ ?_
  · exact hremoved
  · intro x hx hp
    exact mem_map_of_mem ((hrows x).mpr ⟨hx, hp⟩)
  · intro g hgone
    obtain ⟨x, hx, rfl⟩ := mem_map.mp hgone
    obtain ⟨hxd, hpx⟩ := (hrows x).mp hx
    refine ⟨⟨x, hxd, hpx, rfl⟩, ?_⟩
    rcases hd.origin x hxd with ⟨-, y, hy, hyu, -⟩ | ⟨-, hge, hlt⟩
    · exact ⟨y, hy, hyu⟩
    · omega

/-- EXPUNGE answers with the UIDs it removed, each once. -/
theorem holds_expunge (hg : Good cur) (id : ℕ) (uids : Option (List ℕ)) : Holds recorded
      (fun removed _ cur' => Commit recorded cur cur' ∧ OnRecord id removed cur' ∧ removed.Nodup)
      (expunge id uids) ks cur := by
  unfold expunge
  split
  · exact ⟨Commit.refl hg, onRecord_nil _ _, nodup_nil⟩
  apply Holds.bind
  apply holds_lock
  intro m hm
  have hk : Key.row id ∈ ks ++ [.row id] := by simp
  have hwf := hg id m hm
  apply Holds.bind
  refine holds_updateMessages (fun _ _ _ => rfl) hk hm ?_
  refine (holds_finishExpunge hg hk hm ?_ ?_).mono ?_
  · intro hnone
    -- nothing was deleted: the mailbox is as it was
    refine Commit.set hg hm (hwf.touch (fun x => x)
      (fun x => ⟨rfl, rfl, rfl, rfl⟩) rfl rfl rfl ?_ rfl)
    rw [map_id', filter_eq_self]
    intro x hx
    simpa using filter_eq_nil_iff.mp hnone x hx
  · apply (hwf.draft _).delete
    intro x
    simp [mem_filter]
  · rintro removed ks' cur' ⟨hc, hrecord, hperm⟩
    refine ⟨hc, hrecord, hperm.nodup_iff.mpr ?_⟩
    exact hwf.nodup.sublist (filter_sublist.map _)

theorem keeps_expunge (hg : Good cur) (id : ℕ) (uids : Option (List ℕ)) :
    Keeps recorded cur (expunge id uids) ks cur :=
  (holds_expunge hg id uids).mono fun _ _ _ h => h.1

/-! ## 2. fileLocalMessage, append and copy -/

/-- A mailbox that is created is empty, whatever its counters. -/
theorem commit_insert (hg : Good cur) {i : ℕ} (hi : cur i = none)
    {specialUse : Option SpecialUse} {uidvalidity uidnext highestModseq : ℕ} : Commit recorded cur
      (cur.set i ⟨accountId, name, specialUse, uidvalidity, uidnext, highestModseq, [], []⟩) :=
  Commit.insert hg hi (Mailbox.wf_of_empty rfl rfl)

theorem holds_lockOrCreateMailbox (hg : Good cur) {uidvalidity : ℕ}
    (h : ∀ cur' ks' i m, Commit recorded cur cur' → Key.row i ∈ ks' → cur' i = some m →
      Q (m.info i) ks' cur') :
    Holds recorded Q (lockOrCreateMailbox accountId name uidvalidity) ks cur := by
  have hfind : ∀ cur' ks', Commit recorded cur cur' →
      Holds recorded Q (sql (.lockMailboxNamed accountId name) >>= orFail (.notFiled name))
        ks' cur' := by
    intro cur' ks' hc
    apply Holds.bind
    apply holds_lockMailboxNamed
    · trivial
    · intro i m hm
      exact h cur' _ i m hc (by simp) hm
  apply Holds.bind
  apply holds_insertMailbox
  · exact hfind cur ks (Commit.refl hg)
  · intro i ks' hi _ _
    exact hfind _ ks' (commit_insert hg hi)

theorem keeps_fileLocalMessage (hg : Good cur) (input : FileLocalMessageInput)
    (uidvalidity now : ℕ) :
    Keeps recorded cur (fileLocalMessage input uidvalidity now) ks cur := by
  apply Holds.bind
  apply holds_lockOrCreateMailbox hg
  intro cur' ks' i m hc hk hm
  have hwf := hc.good i m hm
  apply Holds.bind
  refine holds_insertMessage hk hm ?_
  intro x huid hmod _
  apply Holds.bind
  refine holds_setCounters hk (set_same ..) ?_
  intro ks'' _
  apply holds_pure
  rw [Db.set_set]
  have hdraft : Draft (m.highestModseq + 1) (m.uidnext + 1) m [] (m.messages ++ [x]) :=
    (hwf.draft _).add hwf huid hmod
  exact hc.trans (Commit.set hc.good hm
    (hdraft.close recorded hwf (Nat.lt_succ_self _) rfl rfl rfl (.inl rfl)))

theorem keeps_append (hg : Good cur) (accountId mailboxId : ℕ) (input : AppendInput)
    (draw : String → ℕ) (now : ℕ) :
    Keeps recorded cur (append accountId mailboxId input draw now) ks cur := by
  apply Holds.bind
  apply Holds.bind
  apply holds_lockMailboxOf
  · trivial
  · intro i m hm
    apply Holds.bind
    exact (keeps_fileLocalMessage hg _ _ _).mono fun _ _ _ hc => hc

theorem keeps_copy (hg : Good cur) (sourceId : ℕ) (uids : List ℕ) (targetId : ℕ) (draw : String → ℕ)
    (now : ℕ) :
    Keeps recorded cur (copy sourceId uids targetId draw now) ks cur := by
  apply Holds.bind
  apply holds_lockMailboxes
  intro locked ks1 _
  apply Holds.bind
  apply holds_orFail
  intro target _
  apply Holds.bind
  -- which rows of the source are copied plays no part
  refine holds_read (fun ids v new => ⟨_, rfl⟩) ?_
  intro rows
  apply Holds.bind
  refine Txn.wp_forEach (fun _ _ _ cur' => Commit recorded cur cur') ?_ (fun _ _ _ hc => hc) rows _
    (Commit.refl hg)
  intro r rest pairs ks' cur' hc
  apply Holds.bind
  exact (keeps_fileLocalMessage hc.good _ _ _).mono fun _ _ _ hc' => hc.trans hc'

/-! ## 3. move

The rows leave the source one at a time and enter the target under its next UIDs.
Source and target may be one mailbox, so each case has its own loop. -/

/-- The rows still to be moved are rows of the source, each once. -/
structure ToMove (m : Mailbox) (d rest : List Message) : Prop where
  mem : ∀ r ∈ rest, r ∈ d ∧ r ∈ m.messages
  nodup : (rest.map Message.uid).Nodup

/-- The next row is taken out of the source. -/
theorem Draft.take {u : ℕ} {gone : List ℕ} {rest : List Message} {r : Message}
    (hd : Draft N u m gone d) (h : ToMove m d (r :: rest)) :
    Draft N u m (gone ++ [r.uid]) (d.filter fun y => !r.sameRow y)
      ∧ ToMove m (d.filter fun y => !r.sameRow y) rest := by
  obtain ⟨hrd, hrm⟩ := h.mem r mem_cons_self
  have hnodup := h.nodup
  rw [map_cons, nodup_cons] at hnodup
  refine ⟨hd.remove _ _ ?_ ?_, ?_, hnodup.2⟩
  · intro x _ hx
    have hsame : r.sameRow x = true := by simpa using hx
    rw [← uid_of_sameRow hsame]
    exact mem_singleton_self _
  · intro g hg
    rw [mem_singleton.mp hg]
    exact ⟨⟨r, hrd, by simp [sameRow_self], rfl⟩, r, hrm, rfl⟩
  · intro r' hr'
    obtain ⟨hr'd, hr'm⟩ := h.mem r' (mem_cons_of_mem _ hr')
    refine ⟨mem_filter.mpr ⟨hr'd, ?_⟩, hr'm⟩
    have hne : r.uid ≠ r'.uid := fun heq => hnodup.1 (heq ▸ mem_map_of_mem hr')
    have hnot : r.sameRow r' = false := by
      by_contra hsame
      exact hne (uid_of_sameRow (by simpa using hsame))
    simp [hnot]

/-- Where the loop over two mailboxes has come to. -/
def MovingTo (cur₀ : Db) (N s t : ℕ) (m target : Mailbox) (rows rest : List Message)
    (acc : ℕ × List (ℕ × ℕ)) (cur : Db) : Prop :=
  acc.2.map Prod.fst ++ rest.map Message.uid = rows.map Message.uid
    ∧ ∃ d d', Draft N m.uidnext m (acc.2.map Prod.fst) d ∧ Draft N acc.1 target [] d'
      ∧ ToMove m d rest
      ∧ cur = (cur₀.set s { m with messages := d }).set t { target with messages := d' }

theorem holds_rehomeEach (hg : Good cur₀) (hne : s ≠ t)
    (hks : Key.row s ∈ ks) (hkt : Key.row t ∈ ks) (hm : cur₀ s = some m) (ht : cur₀ t = some target)
    (hrows : ToMove m m.messages rows) : Holds recorded
      (fun acc ks' cur' => ks' = ks ∧ MovingTo cur₀ N s t m target rows [] acc cur')
      (rehomeEach s t N trashedAt now target.uidnext rows) ks cur₀ := by
  refine Txn.wp_forEach
    (fun rest acc ks' cur' => ks' = ks ∧ MovingTo cur₀ N s t m target rows rest acc cur')
    ?_ (fun acc ks' cur' h => h) rows _ ?_
  · rintro r rest ⟨next, pairs⟩ ks' cur' ⟨rfl, hlist, d, d', hd, hd', hto, rfl⟩
    have hcurs : ((cur₀.set s { m with messages := d }).set t { target with messages := d' }) s
        = some { m with messages := d } := by
      rw [set_other _ hne, set_same]
    apply Holds.bind
    refine holds_rehomeMessage hne hks hkt hcurs (set_same ..) hd.nodup
      (hto.mem r mem_cons_self).1 ?_
    intro x huid hmod
    apply holds_pure
    obtain ⟨hd1, hto1⟩ := hd.take hto
    refine ⟨rfl, ?_, d.filter fun y => !r.sameRow y, d' ++ [x], ?_,
      hd'.add (hg t target ht) huid hmod, hto1, ?_⟩
    · rw [map_cons] at hlist
      simpa using hlist
    · rw [map_append]
      exact hd1
    · rw [Db.set_comm _ hne.symm, Db.set_set, Db.set_set]
  · refine ⟨rfl, rfl, m.messages, target.messages, (hg s m hm).draft N, (hg t target ht).draft N,
      hrows, ?_⟩
    rw [Db.set_self hm, Db.set_self ht]

/-- The end of a move between two mailboxes. -/
theorem holds_finishMove (hg : Good cur₀) {acc : ℕ × List (ℕ × ℕ)} (hne : s ≠ t)
    (hks : Key.row s ∈ ks) (hkt : Key.row t ∈ ks) (hm : cur₀ s = some m) (ht : cur₀ t = some target)
    (hN : max target.highestModseq m.highestModseq < N) (huids : uids = rows.map Message.uid)
    (h : MovingTo cur₀ N s t m target rows [] acc cur) :
    Holds recorded (fun b _ cur' => Commit recorded cur₀ cur' ∧ OnRecord s uids cur' ∧ b = a)
      (sql (.setCounters t (some acc.1) N) >>= fun _ =>
        sql (.setCounters s none N) >>= fun _ =>
          sql (.recordExpunged s uids N) >>= fun _ => pure a) ks cur := by
  obtain ⟨hlist, d, d', hd, hd', -, rfl⟩ := h
  have hgone : acc.2.map Prod.fst = uids := by
    rw [huids, ← hlist]
    simp
  rw [hgone] at hd
  apply Holds.bind
  refine holds_setCounters hkt (set_same ..) ?_
  intro ks1 hks1
  rw [Db.set_set]
  apply Holds.bind
  refine holds_setCounters (m := { m with messages := d }) (hks1 _ hks) ?_ ?_
  · rw [set_other _ hne, set_same]
  intro ks2 hks2
  apply Holds.bind
  refine holds_recordExpunged (hks2 _ (hks1 _ hks)) (set_same ..) ?_
  apply holds_pure
  rw [Db.set_set, Db.set_comm _ hne.symm, Db.set_set, Db.set_comm _ hne]
  refine ⟨Commit.set_two hg hne.symm ht hm ?_ ?_, onRecord_set m.expunged rfl, rfl⟩
  · exact hd'.close recorded (hg t target ht) (lt_of_le_of_lt (le_max_left _ _) hN) rfl rfl rfl
      (.inl rfl)
  · exact hd.close recorded (hg s m hm) (lt_of_le_of_lt (le_max_right _ _) hN) rfl rfl rfl
      (.inl rfl)

/-- Where the loop inside one mailbox has come to. -/
def MovingIn (cur₀ : Db) (N s : ℕ) (m : Mailbox) (rows rest : List Message)
    (acc : ℕ × List (ℕ × ℕ)) (cur : Db) : Prop :=
  acc.2.map Prod.fst ++ rest.map Message.uid = rows.map Message.uid
    ∧ ∃ d, Draft N acc.1 m (acc.2.map Prod.fst) d ∧ ToMove m d rest
      ∧ cur = cur₀.set s { m with messages := d }

theorem holds_rehomeEach_self (hg : Good cur₀) (hks : Key.row s ∈ ks)
    (hm : cur₀ s = some m) (hrows : ToMove m m.messages rows) :
    Holds recorded (fun acc ks' cur' => ks' = ks ∧ MovingIn cur₀ N s m rows [] acc cur')
      (rehomeEach s s N trashedAt now m.uidnext rows) ks cur₀ := by
  refine Txn.wp_forEach
    (fun rest acc ks' cur' => ks' = ks ∧ MovingIn cur₀ N s m rows rest acc cur')
    ?_ (fun acc ks' cur' h => h) rows _ ?_
  · rintro r rest ⟨next, pairs⟩ ks' cur' ⟨rfl, hlist, d, hd, hto, rfl⟩
    apply Holds.bind
    refine holds_rehomeMessage_self hks (set_same ..) hd.nodup
      (hto.mem r mem_cons_self).1 ?_
    intro x huid hmod
    apply holds_pure
    obtain ⟨hd1, hto1⟩ := hd.take hto
    refine ⟨rfl, ?_, (d.filter fun y => !r.sameRow y) ++ [x], ?_, ?_, ?_⟩
    · rw [map_cons] at hlist
      simpa using hlist
    · rw [map_append]
      exact hd1.add (hg s m hm) huid hmod
    · exact ⟨fun r' hr' => ⟨mem_append_left _ (hto1.mem r' hr').1, (hto1.mem r' hr').2⟩, hto1.nodup⟩
    · rw [Db.set_set]
  · exact ⟨rfl, rfl, m.messages, (hg s m hm).draft N, hrows, (Db.set_self hm).symm⟩

/-- A query by UID order returns each row once. -/
theorem toMove_of_sublist (h : m.Wf)
    (hrows : rows.Sublist (orderByUid (m.messages.filter p))) : ToMove m m.messages rows := by
  have hmem : ∀ r ∈ rows, r ∈ m.messages := by
    intro r hr
    have hfilter : r ∈ m.messages.filter p := (mem_insertionSort _).mp (hrows.subset hr)
    exact (mem_filter.mp hfilter).1
  refine ⟨fun r hr => ⟨hmem r hr, hmem r hr⟩, ?_⟩
  have hperm : (orderByUid (m.messages.filter p)).Perm (m.messages.filter p) :=
    perm_insertionSort _ _
  have hnodup : ((orderByUid (m.messages.filter p)).map Message.uid).Nodup := by
    rw [(hperm.map Message.uid).nodup_iff]
    exact h.nodup.sublist (filter_sublist.map _)
  exact hnodup.sublist (hrows.map _)

/-- MOVE answers with the UIDs it took out of the source, each once. -/
theorem holds_moveRows (hg : Good cur) (hks : Key.row s ∈ ks) (hkt : Key.row t ∈ ks)
    (hm : cur s = some m) (ht : cur t = some target) (hrows : ToMove m m.messages rows) :
    Holds recorded
      (fun r _ cur' => Commit recorded cur cur' ∧ OnRecord s (r.pairs.map Prod.fst) cur'
        ∧ (r.pairs.map Prod.fst).Nodup) (moveRows (m.info s) (target.info t) rows now) ks cur := by
  unfold moveRows
  simp only [Mailbox.info_id]
  apply Holds.bind
  by_cases hst : s = t
  · subst hst
    obtain rfl : m = target := Option.some.inj (hm.symm.trans ht)
    refine (holds_rehomeEach_self hg hks hm hrows).mono ?_
    rintro ⟨next, pairs⟩ ks' cur' ⟨rfl, hlist, d, hd, -, rfl⟩
    apply Holds.bind
    refine holds_setCounters hks (set_same ..) ?_
    intro ks1 hks1
    rw [Db.set_set]
    apply Holds.bind
    rw [bumpSource, if_pos rfl]
    apply holds_pure
    apply Holds.bind
    refine holds_recordExpunged (hks1 _ hks) (set_same ..) ?_
    apply holds_pure
    rw [Db.set_set]
    have hN : m.highestModseq < max m.highestModseq m.highestModseq + 1 := by omega
    refine ⟨Commit.set hg hm (hd.close recorded (hg s m hm) hN rfl rfl rfl (.inl rfl)),
      onRecord_set m.expunged rfl, ?_⟩
    rw [show pairs.map Prod.fst = rows.map Message.uid by simpa using hlist]
    exact hrows.nodup
  · refine (holds_rehomeEach hg hst hks hkt hm ht hrows).mono ?_
    rintro acc ks' cur' ⟨rfl, hmoving⟩
    have hlist : acc.2.map Prod.fst = rows.map Message.uid := by
      rw [← hmoving.1]
      simp
    rw [bumpSource, if_neg hst]
    refine (holds_finishMove hg hst hks hkt hm ht (Nat.lt_succ_self _) hlist hmoving).mono ?_
    rintro r ks1 cur1 ⟨hc, hrecord, rfl⟩
    refine ⟨hc, hrecord, ?_⟩
    rw [hlist]
    exact hrows.nodup

/-- `locked.get(id)` is the row of that mailbox. -/
theorem locked_get {rows : List MailboxInfo} {ks' : List Key}
    (hrows : LockedRows cur ks' rows) {row : MailboxInfo}
    (h : (rows.find? fun r => r.id = id) = some row) :
    Key.row id ∈ ks' ∧ ∃ m, cur id = some m ∧ row = m.info id := by
  have hid : row.id = id := by simpa using find?_some h
  have := hrows row (mem_of_find?_eq_some h)
  rwa [hid] at this

theorem holds_move (hg : Good cur) (sourceId : ℕ) (uids : List ℕ) (targetId now : ℕ) :
    Holds recorded
      (fun r _ cur' => Commit recorded cur cur' ∧ OnRecord sourceId (r.pairs.map Prod.fst) cur'
        ∧ (r.pairs.map Prod.fst).Nodup) (move sourceId uids targetId now) ks cur := by
  apply Holds.bind
  apply holds_lockMailboxes
  intro locked ks' hlocked
  apply Holds.bind
  apply holds_orFail
  intro target htarget
  obtain ⟨hkt, t, ht, rfl⟩ := locked_get hlocked htarget
  apply Holds.bind
  apply holds_orFail
  intro source hsource
  obtain ⟨hks, m, hm, rfl⟩ := locked_get hlocked hsource
  apply Holds.bind
  apply holds_messagesByUid hks hm
  split
  · exact ⟨Commit.refl hg, onRecord_nil _ _, nodup_nil⟩
  · exact holds_moveRows hg hks hkt hm ht
      (toMove_of_sublist (hg sourceId m hm) (List.Sublist.refl _))

theorem keeps_move (hg : Good cur) (sourceId : ℕ) (uids : List ℕ) (targetId now : ℕ) :
    Keeps recorded cur (move sourceId uids targetId now) ks cur :=
  (holds_move hg sourceId uids targetId now).mono fun _ _ _ h => h.1

/-! ## 4. The retention sweep -/

theorem keeps_moveBatch (hg : Good cur) (id : ℕ) (action : RetentionAction)
    (trashId now batch : ℕ) :
    Keeps recorded cur (moveBatch id action trashId now batch) ks cur := by
  apply Holds.bind
  apply holds_lockMailboxes
  intro locked ks' hlocked
  split
  case h_2 => exact Commit.refl hg
  case h_1 source target hsource htarget =>
    obtain ⟨hkt, t, ht, rfl⟩ := locked_get hlocked htarget
    obtain ⟨hks, m, hm, rfl⟩ := locked_get hlocked hsource
    split
    · exact Commit.refl hg
    rename_i huse
    -- Trash is never its own source, so the two mailboxes differ
    have hne : id ≠ trashId := by
      rintro rfl
      obtain rfl : m = t := Option.some.inj (hm.symm.trans ht)
      by_cases htrash : m.specialUse = some .trash
      · exact huse (.inr htrash)
      · exact huse (.inl htrash)
    apply Holds.bind
    apply holds_messagesReceivedBefore hks hm
    split
    · exact Commit.refl hg
    apply Holds.bind
    refine (holds_rehomeEach hg hne hks hkt hm ht
      (toMove_of_sublist (hg id m hm) (take_sublist _ _))).mono ?_
    rintro acc ks'' cur' ⟨rfl, hmoving⟩
    exact (holds_finishMove hg hne hks hkt hm ht (Nat.lt_succ_self _) rfl hmoving).mono
      fun _ _ _ h => h.1

theorem keeps_expireRows (hg : Good cur) (kind : ExpireKind) (cutoff batch : ℕ)
    (hk : Key.row id ∈ ks) (hm : cur id = some m)
    (hd : Draft (m.highestModseq + 1) m.uidnext m [] d)
    (hsame : Commit recorded cur (cur.set id { m with messages := d })) :
    Keeps recorded cur
      (sql (.deleteDue id kind cutoff batch) >>= fun rows =>
        finishExpunge id m.highestModseq rows >>= fun removed => pure removed.length)
      ks (cur.set id { m with messages := d }) := by
  apply Holds.bind
  refine holds_updateMessages (fun _ _ _ => rfl) hk (set_same ..) ?_
  apply Holds.bind
  rw [Db.set_set]
  refine (holds_finishExpunge hg hk hm ?_ ?_).mono fun _ _ _ h => h.1
  · intro hnone
    have hall : (d.filter fun x => x ∉ kind.dueRows cutoff batch d) = d := by
      rw [filter_eq_self, show kind.dueRows cutoff batch d = [] from hnone]
      intro x _
      simp
    dsimp only
    rw [hall]
    exact hsame
  · apply hd.delete
    intro x
    simp only [decide_eq_false_iff_not, not_not]
    constructor
    · intro hx
      have hmem : x ∈ d.filter fun x => kind.due cutoff x :=
        (mem_insertionSort _).mp (mem_of_mem_take hx)
      exact ⟨(mem_filter.mp hmem).1, hx⟩
    · intro hx
      exact hx.2

theorem keeps_expireBatch (hg : Good cur) (id : ℕ) (action : RetentionAction) (now batch : ℕ) :
    Keeps recorded cur (expireBatch id action now batch) ks cur := by
  apply Holds.bind
  apply holds_lockMailboxes
  intro locked ks' hlocked
  split
  case h_1 => exact Commit.refl hg
  case h_2 box hbox =>
    obtain ⟨hk, m, hm, rfl⟩ := locked_get hlocked hbox
    have hwf := hg id m hm
    split
    · exact Commit.refl hg
    rename_i kind _
    apply Holds.bind
    cases kind with
    | expireTrash =>
      refine holds_updateMessages (fun _ _ _ => rfl) hk hm ?_
      apply keeps_expireRows hg _ _ _ hk hm
      · exact (hwf.draft _).rewrite _ fun x => ⟨rfl, rfl, .inl ⟨rfl, rfl⟩⟩
      · exact Commit.set hg hm
          (hwf.touch (fun x => { x with trashedAt := x.trashedAt.or (some now) })
            (fun x => ⟨rfl, rfl, rfl, rfl⟩) rfl rfl rfl rfl rfl)
    | expireRejects =>
      apply holds_pure
      have hself : cur.set id { m with messages := m.messages } = cur := Db.set_self hm
      have hrefl : Commit recorded cur (cur.set id { m with messages := m.messages }) := by
        rw [hself]
        exact Commit.refl hg
      have hrows : Keeps recorded cur _ ks' _ :=
        keeps_expireRows hg .expireRejects (now - action.days * DAY_MS) batch hk hm
          (hwf.draft _) hrefl
      rwa [hself] at hrows

/-! ## 5. createMailbox and renameMailbox -/

/-- A script that only creates mailboxes leaves those there were, and its locks. -/
def Creates (ks : List Key) (cur : Db) (ks' : List Key) (cur' : Db) : Prop :=
  (∀ k ∈ ks, k ∈ ks') ∧ ∀ i m, cur i = some m → cur' i = some m

theorem holds_createParents (hg : Good cur) (accountId : ℕ) (name : String) (skip : List String)
    (draw : String → ℕ) : Holds recorded (fun _ ks' cur' =>
      Commit recorded cur cur' ∧ Creates ks cur ks' cur')
      (createParents accountId name skip draw) ks cur := by
  refine Txn.wp_forEach
    (fun _ _ ks' cur' => Commit recorded cur cur' ∧ Creates ks cur ks' cur') ?_
    (fun _ _ _ h => h) _ _ ⟨Commit.refl hg, fun k hk => hk, fun i m hm => hm⟩
  rintro p rest - ks' cur' ⟨hc, hks, hrows⟩
  split
  · exact ⟨hc, hks, hrows⟩
  apply Holds.bind
  apply holds_insertMailbox
  · exact ⟨hc, hks, hrows⟩
  · intro i ks'' hi hsub _
    refine ⟨hc.trans (commit_insert hc.good hi), fun k hk => hsub k (hks k hk), ?_⟩
    intro j m hm
    have hj := hrows j m hm
    rw [set_other _ fun hji => by rw [hji, hi] at hj; cases hj]
    exact hj

theorem keeps_createMailbox (hg : Good cur) (accountId : ℕ) (name : String)
    (specialUse : Option SpecialUse) (draw : String → ℕ) :
    Keeps recorded cur (createMailbox accountId name specialUse draw) ks cur := by
  refine Txn.wp_forEach (fun _ _ _ cur' => Commit recorded cur cur') ?_ (fun _ _ _ hc => hc) _ _
    (Commit.refl hg)
  intro n rest _ ks' cur' hc
  apply Holds.bind
  apply holds_insertMailbox
  · split
    · trivial
    · exact hc
  · intro i ks'' hi _ _
    show Holds _ _ (if _ then _ else _) ks'' _
    split
    · trivial
    · exact hc.trans (commit_insert hc.good hi)

/-- INBOX's messages under the counters `src` had, when these cover them. -/
theorem Mailbox.Wf.moved (h : m.Wf) (hcov : Covers src m)
    (hf : ∀ x, (f x).uid = x.uid ∧ (f x).modseq = x.modseq)
    (hu : m'.uidnext = src.uidnext) (hh : m'.highestModseq = src.highestModseq)
    (hm : m'.messages = m.messages.map f) (he : m'.expunged = []) : m'.Wf := by
  refine ⟨?_, ?_, ?_, ?_, ?_, ?_⟩
  · intro x' hx'
    rw [hm] at hx'
    obtain ⟨x, hx, rfl⟩ := mem_map.mp hx'
    rw [(hf x).1, hu]
    exact (hcov x hx).1
  · intro x' hx'
    rw [hm] at hx'
    obtain ⟨x, hx, rfl⟩ := mem_map.mp hx'
    rw [(hf x).2, hh]
    exact (hcov x hx).2
  · have hmap : (m.messages.map f).map Message.uid = m.messages.map Message.uid := by
      rw [map_map]
      exact map_congr_left fun x _ => (hf x).1
    rw [hm, hmap]
    exact h.nodup
  · simp [he]
  · simp [he]
  · simp [he]

/-- INBOX without its messages. -/
theorem Mailbox.Wf.emptied (h : m.Wf)
    (huids : ∀ g, g ∈ uids ↔ g ∈ m.messages.map Message.uid) (hv : m'.uidvalidity = m.uidvalidity)
    (hu : m'.uidnext = m.uidnext) (hh : m'.highestModseq = m.highestModseq + 1)
    (hm : m'.messages = [])
    (he : m'.expunged = recordExpunged m.expunged uids (m.highestModseq + 1)) :
    m'.Wf ∧ Evolves recorded m m' := by
  have hdraft : Draft (m.highestModseq + 1) m.uidnext m (m.messages.map Message.uid)
      (m.messages.filter fun _ => false) := by
    apply (h.draft _).delete
    intro x
    simp
  have hall : m'.messages = m.messages.filter fun _ => false := by
    rw [hm, filter_false]
  have hgone : Draft (m.highestModseq + 1) m.uidnext m uids m'.messages := by
    rw [hall]
    exact hdraft.congr_gone huids
  exact hgone.close recorded h (Nat.lt_succ_self _) hv hu hh (.inl he)

theorem keeps_renameInbox (hg : Good cur) (hk : Key.row src.id ∈ ks)
    (hm : cur src.id = some m) (accountId : ℕ) (to_ : String) (draw : String → ℕ) (now : ℕ) :
    Keeps recorded cur (renameInbox accountId src (m.info src.id) to_ draw now) ks cur := by
  apply Holds.bind
  refine (holds_createParents hg accountId to_ [] draw).mono ?_
  rintro - ks1 cur1 ⟨hc, hsub, hrows⟩
  have hm1 := hrows src.id m hm
  have hwf := hc.good src.id m hm1
  apply Holds.bind
  apply holds_insertMailbox
  · trivial
  intro target ks2 htarget hsub2 hkt
  -- the new mailbox has no row yet, so it is not INBOX
  have hne : src.id ≠ target := by
    intro heq
    rw [← heq, hm1] at htarget
    cases htarget
  have hks : Key.row src.id ∈ ks2 := hsub2 _ (hsub _ hk)
  apply Holds.bind
  refine holds_rehomeAll (m := m) hne hks hkt ?_ (set_same ..) ?_
  · rw [set_other _ hne]
    exact hm1
  intro f hf hcov
  apply Holds.bind
  refine holds_bumpModseq (m := { m with messages := [] }) hks ?_ ?_
  · rw [set_other _ hne, set_same]
  intro ks₃ hsub₃
  refine holds_recordExpunged (hsub₃ _ hks) (set_same ..) ?_
  rw [Db.set_set, Db.set_comm _ hne, Db.set_set, Db.set_comm _ hne.symm, Db.set_comm _ hne.symm,
    Db.set_set]
  have hinbox : Commit recorded cur1 (cur1.set src.id
      { m with
        messages := []
        highestModseq := m.highestModseq + 1
        expunged := recordExpunged m.expunged ((m.messages.map Message.uid).insertionSort (· ≤ ·))
          (m.highestModseq + 1) }) :=
    Commit.set hc.good hm1 (hwf.emptied (fun g => mem_insertionSort _) rfl rfl rfl rfl rfl)
  refine hc.trans (hinbox.trans (Commit.insert hinbox.good ?_ ?_))
  · rw [set_other _ hne.symm]
    exact htarget
  · exact hwf.moved hcov hf rfl rfl rfl rfl

theorem keeps_renameTree (hg : Good cur) (accountId : ℕ) (from_ to_ : String) (draw : String → ℕ) :
    Keeps recorded cur (renameTree accountId from_ to_ draw) ks cur := by
  apply Holds.bind
  apply holds_lockSubtree
  intro moving ks1 hmoving
  apply Holds.bind
  refine holds_read (fun ids v new => ⟨_, rfl⟩) ?_
  intro clash
  show Holds _ _ (if _ then _ else _) ks1 cur
  split
  · trivial
  apply Holds.bind
  -- each mailbox still to be renamed is locked and there
  refine Txn.wp_forEach
    (fun rest _ ks' cur' => Commit recorded cur cur'
      ∧ ∀ row ∈ rest, Key.row row.id ∈ ks' ∧ ∃ m, cur' row.id = some m) ?_ ?_ moving _ ?_
  · rintro row rest - ks' cur' ⟨hc, hrest⟩
    obtain ⟨hk, m, hm⟩ := hrest row mem_cons_self
    refine holds_setName hk hm ?_
    intro ks'' hsub
    refine ⟨hc.trans (Commit.set hc.good hm ((hc.good row.id m hm).touch (fun x => x)
      (fun x => ⟨rfl, rfl, rfl, rfl⟩) rfl rfl rfl (map_id' _).symm rfl)), ?_⟩
    intro row' hrow'
    obtain ⟨hk', m', hm'⟩ := hrest row' (mem_cons_of_mem _ hrow')
    refine ⟨hsub _ hk', ?_⟩
    rw [Db.set_apply]
    split
    · exact ⟨_, rfl⟩
    · exact ⟨m', hm'⟩
  · rintro - ks' cur' ⟨hc, -⟩
    exact (holds_createParents hc.good accountId to_ _ draw).mono fun _ _ _ h => hc.trans h.1
  · refine ⟨Commit.refl hg, ?_⟩
    intro row hrow
    obtain ⟨hk, m, hm, -⟩ := hmoving row hrow
    exact ⟨hk, m, hm⟩

theorem keeps_renameMailbox (hg : Good cur) (accountId : ℕ) (from_ to_ : String) (draw : String → ℕ)
    (now : ℕ) :
    Keeps recorded cur (renameMailbox accountId from_ to_ draw now) ks cur := by
  unfold renameMailbox
  split
  · exact Commit.refl hg
  split
  · exact Commit.refl hg
  apply Holds.bind
  -- the row found here may be out of date by the time it is locked
  refine holds_read (fun ids v new => ⟨_, rfl⟩) ?_
  intro src
  cases src with
  | none => exact Commit.refl hg
  | some src =>
    apply Holds.bind
    apply Holds.bind
    apply holds_lock
    intro m hm
    have hk : Key.row src.id ∈ ks ++ [.row src.id] := by simp
    show Holds _ _ (if _ then _ else _) _ cur
    split
    · exact keeps_renameInbox hg hk hm accountId to_ draw now
    · exact keeps_renameTree hg accountId from_ to_ draw

/-! ## 6. updateMessage -/

/-- Rows locked one after another: each is locked and there, and every id asked for
has one. -/
def LockedIn (cur : Db) (done rest : List ℕ) (ids : List ℕ) (rows : List MailboxInfo)
    (ks : List Key) : Prop :=
  ids = done ++ rest ∧ (∀ id ∈ done, Key.row id ∈ ks ∧ ∃ m, cur id = some m)
    ∧ ∀ row ∈ rows, Key.row row.id ∈ ks ∧ ∃ m, cur row.id = some m ∧ row = m.info row.id

theorem holds_lockInOrder (ids : List ℕ) : Holds recorded
      (fun rows ks' cur' => cur' = cur ∧ (∀ id ∈ ids, Key.row id ∈ ks' ∧ ∃ m, cur id = some m)
        ∧ LockedRows cur ks' rows) (lockInOrder ids) ks cur := by
  refine Txn.wp_forEach
    (fun rest rows ks' cur' => cur' = cur ∧ ∃ done, LockedIn cur done rest ids rows ks') ?_ ?_ ids _
    ⟨rfl, [], rfl, by simp, by simp⟩
  · rintro id rest rows ks' cur' ⟨rfl, done, hids, hdone, hrows⟩
    apply Holds.bind
    apply holds_lock
    intro m hm
    have hk : Key.row id ∈ ks' ++ [.row id] := by simp
    refine ⟨rfl, done ++ [id], by simp [hids], ?_, ?_⟩
    · rw [forall_mem_append, forall_mem_singleton]
      exact ⟨fun id' hid' => ⟨mem_append_left _ (hdone id' hid').1, (hdone id' hid').2⟩, hk, m, hm⟩
    · rw [forall_mem_append, forall_mem_singleton]
      exact ⟨fun row hrow => ⟨mem_append_left _ (hrows row hrow).1, (hrows row hrow).2⟩, hk, m,
        hm, rfl⟩
  · rintro rows ks' cur' ⟨rfl, done, hids, hdone, hrows⟩
    rw [append_nil] at hids
    rw [hids]
    exact ⟨rfl, hdone, hrows⟩

theorem holds_updateInPlace (hg : Good cur) (hk : Key.row id ∈ ks) (hm : cur id = some m)
    (message : Message) (flags : List String) :
    Holds recorded (fun _ _ cur' => Commit recorded cur cur' ∧ Unrecorded cur cur')
      (updateInPlace (m.info id) message flags) ks cur := by
  unfold updateInPlace
  split
  · exact ⟨Commit.refl hg, fun _ => rfl⟩
  refine holds_rewrite hg hk hm (fun _ _ _ => rfl) ?_
  intro x
  split
  · exact ⟨rfl, rfl, .inr rfl⟩
  · exact ⟨rfl, rfl, .inl ⟨rfl, rfl⟩⟩

theorem holds_updateAndMove (hg : Good cur) (hne : s ≠ t) (hks : Key.row s ∈ ks)
    (hkt : Key.row t ∈ ks) (hm : cur s = some m) (ht : cur t = some target) {message : Message}
    (hmessage : message ∈ m.messages) (flags : List String) (now : ℕ) :
    Holds recorded (fun _ _ cur' => Commit recorded cur cur' ∧ Unrecorded cur cur')
      (updateAndMove (m.info s) (target.info t) message flags now) ks cur := by
  have hwf := hg s m hm
  have hwft := hg t target ht
  apply Holds.bind
  refine holds_insertMessage hkt ht ?_
  intro x huid hmod _
  apply Holds.bind
  refine holds_setCounters hkt (set_same ..) ?_
  intro ks1 hsub1
  apply Holds.bind
  rw [Mailbox.info_id, Db.set_set]
  refine holds_deleteMessage (m := m) (hsub1 _ hks) ?_ ?_
  · rw [set_other _ hne]
    exact hm
  -- this delete leaves no expunged row, so the removal is not recorded
  intro hrecorded
  apply Holds.bind
  refine holds_setCounters (hsub1 _ hks) (set_same ..) ?_
  intro ks2 _
  apply holds_pure
  rw [Db.set_set]
  have hadded : Draft (target.highestModseq + 1) (target.uidnext + 1) target []
      (target.messages ++ [x]) :=
    (hwft.draft _).add hwft huid hmod
  have honly : ToMove m m.messages [message] := ⟨by simpa using hmessage, by simp⟩
  have hgone : Draft (m.highestModseq + 1) m.uidnext m [message.uid]
      (m.messages.filter fun y => !message.sameRow y) :=
    ((hwf.draft _).take honly).1
  constructor
  · exact Commit.set_two hg hne.symm ht hm
      (hadded.close recorded hwft (Nat.lt_succ_self _) rfl rfl rfl (.inl rfl))
      (hgone.close recorded hwf (Nat.lt_succ_self _) rfl rfl rfl (.inr ⟨hrecorded, rfl⟩))
  · intro i
    refine (Unrecorded.set ((set_other _ hne).trans hm) ?_ i).trans (Unrecorded.set ht ?_ i) <;> rfl

theorem holds_updateMessage (hg : Good cur) (input : UpdateInput) (now : ℕ) :
    Holds recorded (fun _ _ cur' => Commit recorded cur cur' ∧ Unrecorded cur cur')
      (updateMessage input now) ks cur := by
  apply Holds.bind
  refine holds_read (fun ids v new => ⟨_, rfl⟩) ?_
  intro found
  cases found with
  | none => exact ⟨Commit.refl hg, fun _ => rfl⟩
  | some id =>
    apply Holds.bind
    refine (holds_lockInOrder _).mono ?_
    rintro locked ks1 cur' ⟨rfl, hids, hlocked⟩
    obtain ⟨hk, m, hm⟩ := hids id ((mem_insertionSort _).mpr mem_cons_self)
    apply Holds.bind
    refine holds_messageIn hk hm ?_
    cases hfind : m.messages.find? fun x => x.id = input.messageId with
    | none => exact ⟨Commit.refl hg, fun _ => rfl⟩
    | some message =>
      have hmessage := mem_of_find?_eq_some hfind
      show Holds _ _ (if _ then _ else _) ks1 cur'
      split
      · trivial
      apply Holds.bind
      apply holds_orFail
      intro source hsource
      obtain ⟨hks, m', hm', rfl⟩ := locked_get hlocked hsource
      obtain rfl : m = m' := Option.some.inj (hm.symm.trans hm')
      cases hmoving : input.moving id with
      | none =>
        apply Holds.bind
        exact (holds_updateInPlace hg hks hm message _).mono fun _ _ _ hc => hc
      | some targetId =>
        apply Holds.bind
        apply holds_orFail
        intro target htarget
        obtain ⟨hkt, t, ht, rfl⟩ := locked_get hlocked htarget
        have hne : id ≠ targetId := by
          have := (Option.filter_eq_some_iff.mp hmoving).2
          intro heq
          simp [heq] at this
        apply Holds.bind
        exact (holds_updateAndMove hg hne hks hkt hm ht hmessage _ now).mono
          fun _ _ _ hc => hc

/-! ## 7. All of them -/

/-- **Every writer, replayed alone, commits.** -/
theorem keeps_script (hg : Good cur) (c : Command) :
    Holds recorded (fun _ _ cur' => Commit recorded cur cur') c.script ks cur := by
  cases c with
  | storeFlags => exact keeps_quiet (keeps_storeFlags hg _ _ _ _ _)
  | expunge => exact keeps_quiet (keeps_expunge hg _ _)
  | copy => exact keeps_quiet (keeps_copy hg _ _ _ _ _)
  | move => exact keeps_quiet (keeps_move hg _ _ _ _)
  | append => exact keeps_quiet (keeps_append hg _ _ _ _ _)
  | fileLocalMessage => exact keeps_quiet (keeps_fileLocalMessage hg _ _ _)
  | createMailbox => exact keeps_createMailbox hg _ _ _ _
  | renameMailbox => exact keeps_quiet (keeps_renameMailbox hg _ _ _ _ _)
  | updateMessage => exact keeps_quiet ((holds_updateMessage hg _ _).mono fun _ _ _ h => h.1)
  | moveBatch => exact keeps_quiet (keeps_moveBatch hg _ _ _ _ _)
  | expireBatch => exact keeps_quiet (keeps_expireBatch hg _ _ _ _)

end Postroom.Mail
