/-
Flag changes of others, and the silent STORE that hides them.

STORE with .SILENT tells the client nothing, and notes the modseq of the rows it left
as one that the client has heard about. If another session changed one of them before,
and no sync has come between, that change goes under the noted number: the next sync
passes the message over, and the client keeps flags that the message does not have.
`Attentive` is the condition under which this does not happen, nor a wake-up throws, and
with it the flags that a client believes are the message's after every sync in a mailbox
at rest.
-/
import Postroom.Imap.Heard

set_option autoImplicit false

namespace Postroom.Imap

open Lib Mail List

/-! ## 1. STORE -/

variable {s : Settings} {cmd : StoreCommand} {pairs : List (ℕ × ℕ)} {u : ℕ} {r : FlagRow}

theorem storeOne_spec (flags : FlagCache) (hr : r.uid ∈ pairs.map Prod.snd)
    (acc : MailboxView × List Response) (hu : (acc.1.known u).isSome) :
    (storeOne s cmd pairs acc r).1.known u = (if u = r.uid then some r.modseq else acc.1.known u)
      ∧ flags.hearAll (storeOne s cmd pairs acc r).2 u = if cmd.silent then flags.hearAll acc.2 u
          else if u = r.uid then some r.flags else flags.hearAll acc.2 u := by
  unfold storeOne
  by_cases hsilent : cmd.silent = true
  · rw [if_pos hsilent, if_pos hsilent]
    exact ⟨MailboxView.noteModseq_known hu, rfl⟩
  · rw [if_neg hsilent, if_neg hsilent]
    obtain ⟨p, hp, hpr⟩ := mem_map.mp hr
    rcases hfind : pairs.reverse.find? fun p => p.2 = r.uid with _ | q
    · have hnone := find?_eq_none.mp hfind p (mem_reverse.mpr hp)
      simp [hpr] at hnone
    · rw [hfind]
      refine ⟨MailboxView.noteModseq_known hu, ?_⟩
      rw [FlagCache.hearAll_append]
      show (flags.hearAll acc.2).hear (.fetch q.1 r.uid _) u = _
      have hitems : flagsItem ((if cmd.uid then [.uid r.uid] else []) ++ [.flags r.flags]
          ++ if cmd.unchangedSince.isSome ∨ s.condstore then [.modseq r.modseq] else [])
          = some r.flags := by
        cases cmd.uid <;> rfl
      rw [FlagCache.hear, hitems]

/-- The rows that storeFlags answered, one after the other. -/
theorem foldl_storeOne (flags : FlagCache) {rows : List FlagRow}
    (hrows : ∀ r ∈ rows, r.uid ∈ pairs.map Prod.snd) (acc : MailboxView × List Response)
    (hu : (acc.1.known u).isSome) : let acc' := rows.foldl (storeOne s cmd pairs) acc
    (u ∉ rows.map FlagRow.uid ∧ acc'.1.known u = acc.1.known u
      ∧ flags.hearAll acc'.2 u = flags.hearAll acc.2 u)
      ∨ ∃ r ∈ rows, r.uid = u ∧ acc'.1.known u = some r.modseq
          ∧ flags.hearAll acc'.2 u = if cmd.silent then flags.hearAll acc.2 u
            else some r.flags := by
  induction rows generalizing acc with
  | nil => exact .inl ⟨not_mem_nil, rfl, rfl⟩
  | cons r rows ih =>
    obtain ⟨hknown, hheard⟩ := storeOne_spec flags (hrows r mem_cons_self) acc hu
    have hu' : ((storeOne s cmd pairs acc r).1.known u).isSome := by
      rw [hknown]
      split
      · rfl
      · exact hu
    rw [foldl_cons, map_cons, mem_cons, not_or]
    rcases ih (fun r' hr' => hrows r' (mem_cons_of_mem _ hr')) _ hu' with
      ⟨hnot, hk, hh⟩ | ⟨r', hr', huid, hk, hh⟩
    · dsimp only
      rw [hk, hh, hknown, hheard]
      by_cases hur : u = r.uid
      · refine .inr ⟨r, mem_cons_self, hur.symm, if_pos hur, ?_⟩
        rw [if_pos hur]
      · refine .inl ⟨⟨hur, hnot⟩, if_neg hur, ?_⟩
        rw [if_neg hur, ite_self]
    · refine .inr ⟨r', mem_cons_of_mem _ hr', huid, hk, ?_⟩
      rw [hh, hheard]
      split <;> rfl

/-- The condition on a silent STORE, for one row that it covers: unless it sets the
flags outright, the client has heard the last of the row; and unless it removes flags,
the row does not have one flag in two spellings. -/
def Heeded (known : Option ℕ) (op : StoreOperation) (x : Message) : Prop :=
  (op ≠ .set → ∀ k, known = some k → x.modseq ≤ k)
    ∧ (op ≠ .remove → (x.flags.map flagKey).Nodup)

variable {op : StoreOperation} {flags : List String} {σ : Selected} {db' : Db}
variable {m : Mailbox} {known unchangedSince : Option ℕ} {x : Message} {uids : List ℕ}
  {rs : List Response} {σ' σ₀ : Selected} {a : Act} {db : Db} {ok : CallCondition}

/-- What a client believes after a silent STORE, of a row that it had heard the last
of. -/
theorem Heeded.believes {since : ℕ} {belief : Option (List String)} {told : List String}
    (h : Heeded known op x)
    (htold : Told since m x.uid known belief) (hx : x ∈ m.messages)
    (hbelief : believe op flags belief = some told) :
    SameFlagSet told (applyFlags x.flags op flags) := by
  by_cases hop : op = .set
  · -- the flags before the STORE do not matter, on either side
    subst hop
    cases belief with
    | none | some current =>
      injection hbelief with hbelief
      rw [← hbelief]
      exact SameFlagSet.refl _
  · obtain ⟨k, hk, hle, -, hsame⟩ := htold x hx rfl
    have hle' := h.1 hop k hk
    cases belief with
    | none =>
      rw [believe, if_neg hop] at hbelief
      cases hbelief
    | some current =>
      injection hbelief with hbelief
      rw [← hbelief]
      exact applyFlags_congr (hsame (by omega) current rfl) op flags

/-- The row as the STORE leaves it has these flags. -/
theorem Heeded.stored (h : Heeded known op x) (hin : x.uid ∈ uids)
    (hmod : isModified unchangedSince x = false) :
    SameFlagSet (applyFlags x.flags op flags)
    (storedAs m uids op flags unchangedSince x).flags := by
  unfold storedAs
  by_cases hsame : sameFlags (applyFlags x.flags op flags) x.flags = true
  · rw [if_neg fun hcond => by rw [hsame] at hcond; cases hcond.2.2]
    exact applyFlags_of_sameFlags hsame h.2
  · rw [if_pos ⟨hin, hmod, by simpa using hsame⟩]
    exact SameFlagSet.refl _

/-- The flags believed after a STORE and before its answers. -/
theorem Client.stored_flags (c : Client) (s : Settings) (view : MailboxView) (cmd : StoreCommand)
    (modified : List ℕ) (u : ℕ) :
    (c.stored s view (.store cmd) ⟨true, modified⟩).flags u
      = if u ∈ (view.resolve cmd.uid cmd.set s.saved).map Prod.snd ∧ u ∉ modified then
          believe cmd.operation cmd.flags (c.flags u)
        else c.flags u := rfl

/-- The rows that a STORE covers, and those that it answers. -/
theorem storesFlags_covered {m' : Mailbox}
    {res : StoreFlagsResult} (h : StoresFlags m uids op flags unchangedSince m' res) :
    r ∈ res.rows ↔ ∃ x ∈ m.messages, x.uid ∈ uids ∧ isModified unchangedSince x = false
      ∧ (storedAs m uids op flags unchangedSince x).flagRow = r := by
  rw [h.rows]
  simp only [mem_map, mem_filter, mem_orderByUid, decide_eq_true_eq, Bool.not_eq_true']
  constructor
  · rintro ⟨x, ⟨⟨hx, hin⟩, hmod⟩, hr⟩
    exact ⟨x, hx, hin, hmod, hr⟩
  · rintro ⟨x, hx, hin, hmod, hr⟩
    exact ⟨x, ⟨⟨hx, hin⟩, hmod⟩, hr⟩

section store

variable {view : MailboxView} {c : Client} {m m' : Mailbox} {s : Settings} {cmd : StoreCommand}
  {res : StoreFlagsResult}

/-- A live message that the client names is one that the STORE covers. -/
theorem covered_of_named (hcons : Consistent view m) (hx : x ∈ m.messages)
    (hin : x.uid ∈ (view.resolve cmd.uid cmd.set s.saved).map Prod.snd) :
    x.uid ∈ (cmd.pairs s view).map Prod.snd := by
  obtain ⟨p, hp, hpu⟩ := mem_map.mp hin
  refine mem_map.mpr ⟨p, mem_filter.mpr ⟨hp, ?_⟩, hpu⟩
  rw [hpu, Bool.not_eq_true', MailboxView.isExpunged, decide_eq_false_iff_not]
  exact fun hpending => hcons.dead _ hpending ⟨x, hx, rfl⟩

variable (hstores : StoresFlags m ((cmd.pairs s view).map Prod.snd) cmd.operation cmd.flags
  cmd.unchangedSince m' res)

include hstores

/-- Every row that a STORE leaves is one that it found. -/
theorem storesFlags_origin {x' : Message} (hx' : x' ∈ m'.messages) :
    ∃ x ∈ m.messages, x.uid = x'.uid
      ∧ x' = storedAs m ((cmd.pairs s view).map Prod.snd) cmd.operation cmd.flags cmd.unchangedSince
      x := by
  rw [hstores.messages] at hx'
  obtain ⟨x, hx, rfl⟩ := mem_map.mp hx'
  exact ⟨x, hx, (storedAs_uid _ _ _ _ x).symm, rfl⟩

/-- A message without an answer is not covered, or is in the [MODIFIED] code: neither
the row nor the belief has changed. -/
theorem Heard.told_of_unanswered (h : Heard view c.flags m) (hcons : Consistent view m)
    (hu : u ∈ view.uids) (hnot : u ∉ res.rows.map FlagRow.uid) :
    Told view.highestModseq m' u (view.known u)
      ((c.stored s view (.store cmd) ⟨true, res.modified⟩).flags u) := by
  intro x' hx' huid
  obtain ⟨x, hx, hxu, rfl⟩ := storesFlags_origin hstores hx'
  rw [← hxu] at huid
  have huncovered : ¬(x.uid ∈ (cmd.pairs s view).map Prod.snd
      ∧ isModified cmd.unchangedSince x = false) := by
    rintro ⟨hin, hmod⟩
    refine hnot (mem_map.mpr ⟨_, (storesFlags_covered hstores).mpr
      ⟨x, hx, hin, hmod, rfl⟩, ?_⟩)
    exact (storedAs_uid _ _ _ _ x).trans huid
  rw [storedAs, if_neg fun hcond => huncovered ⟨hcond.1, hcond.2.1⟩, Client.stored_flags, if_neg]
  · exact h.told u hu x hx huid
  · rintro ⟨hin, hunmodified⟩
    rw [← huid] at hin hunmodified
    have hin := covered_of_named hcons hx hin
    refine hunmodified ((hstores.modified _).mpr ⟨x, hx, rfl, hin, ?_⟩)
    by_contra hmod
    exact huncovered ⟨hin, by simpa using hmod⟩

/-- A message that a silent STORE covers: the client goes by its own arithmetic. -/
theorem Heard.told_of_silent (h : Heard view c.flags m) (hwf : m.Wf)
    (hx : x ∈ m.messages) (hin : x.uid ∈ (cmd.pairs s view).map Prod.snd)
    (hmod : isModified cmd.unchangedSince x = false) (hu : x.uid ∈ view.uids)
    (hheeded : Heeded (view.known x.uid) cmd.operation x) (since : ℕ) :
    Told since m' x.uid (some (storedAs m ((cmd.pairs s view).map Prod.snd) cmd.operation cmd.flags
        cmd.unchangedSince x).modseq)
        ((c.stored s view (.store cmd) ⟨true, res.modified⟩).flags x.uid) := by
  rw [Client.stored_flags, if_pos]
  · intro x' hx' huid
    obtain ⟨y, hy, hyu, rfl⟩ := storesFlags_origin hstores hx'
    rw [hwf.eq_of_uid hy hx (hyu.trans huid)]
    refine ⟨_, rfl, le_rfl, .inl rfl, ?_⟩
    intro _ told htold
    exact (hheeded.believes (h.told _ hu) hx htold).trans (hheeded.stored hin hmod)
  · obtain ⟨p, hp, hpu⟩ := mem_map.mp hin
    refine ⟨mem_map.mpr ⟨p, (mem_filter.mp hp).1, hpu⟩, ?_⟩
    intro hmodified
    obtain ⟨y, hy, hyu, -, hymod⟩ := (hstores.modified _).mp hmodified
    rw [hwf.eq_of_uid hy hx hyu, hmod] at hymod
    cases hymod

/-- **STORE.** `m` is the mailbox that it found and `m'` the one that it left. -/
theorem Heard.store (h : Heard view c.flags m) (hcons : Consistent view m) (hwf : m.Wf)
    (hwf' : m'.Wf) (hev : Evolves false m m')
    (hheeded : cmd.silent = true → ∀ x ∈ m.messages, x.uid ∈ (cmd.pairs s view).map Prod.snd →
      isModified cmd.unchangedSince x = false → Heeded (view.known x.uid) cmd.operation x)
    {acc : MailboxView × List Response}
    (hacc : acc = res.rows.foldl (storeOne s cmd (cmd.pairs s view)) (view, []))
    (hanswered : Answered (view, []) acc) :
    Heard acc.1 ((c.stored s view (.store cmd) ⟨true, res.modified⟩).flags.hearAll acc.2) m' := by
  set flags' := (c.stored s view (.store cmd) ⟨true, res.modified⟩).flags with hflags'
  have hrows : ∀ r ∈ res.rows, r.uid ∈ (cmd.pairs s view).map Prod.snd := by
    intro r hr
    obtain ⟨x, -, hin, -, rfl⟩ := (storesFlags_covered hstores).mp hr
    show (storedAs _ _ _ _ _ x).uid ∈ _
    rw [storedAs_uid]
    exact hin
  -- a row not stored is as before; a stored one is noted, and told unless silent
  have hloop : ∀ u, (view.known u).isSome →
      (u ∉ res.rows.map FlagRow.uid ∧ acc.1.known u = view.known u
        ∧ flags'.hearAll acc.2 u = flags' u)
      ∨ ∃ r ∈ res.rows, r.uid = u ∧ acc.1.known u = some r.modseq
          ∧ flags'.hearAll acc.2 u = if cmd.silent then flags' u else some r.flags := by
    intro u hu
    rw [hacc]
    exact foldl_storeOne flags' hrows (view, []) hu
  refine ⟨?_, ?_, ?_⟩
  · intro u hu
    rw [hanswered.map.uids] at hu
    rcases hloop u (h.known u hu) with ⟨-, hknown, -⟩ | ⟨r, -, -, hknown, -⟩
    · rw [hknown]
      exact h.known u hu
    · rw [hknown]
      rfl
  · intro u hu
    rw [hanswered.map.uids] at hu
    rw [hanswered.map.highestModseq]
    rcases hloop u (h.known u hu) with ⟨hnot, hknown, hheard⟩ | ⟨r, hr, rfl, hknown, hheard⟩
    · rw [hknown, hheard]
      exact h.told_of_unanswered hstores hcons hu hnot
    · rw [hknown, hheard]
      by_cases hsilent : cmd.silent = true
      · obtain ⟨x, hx, hin, hmod, rfl⟩ := (storesFlags_covered hstores).mp hr
        have hxr : (storedAs m ((cmd.pairs s view).map Prod.snd) cmd.operation cmd.flags
            cmd.unchangedSince x).flagRow.uid = x.uid := storedAs_uid _ _ _ _ x
        rw [if_pos hsilent, hxr]
        exact h.told_of_silent hstores hwf hx hin hmod (hxr ▸ hu)
          (hheeded hsilent x hx hin hmod) _
      · rw [if_neg hsilent]
        have hle := hcons.modseq_le.trans hev.highestModseq
        exact (fresh_of_storesFlags hstores hwf' hle _ hr).told
  · intro u told htold
    rw [hanswered.map.uids]
    by_cases hu : u ∈ view.uids
    · exact .inl hu
    · have hunnamed : u ∉ (view.resolve cmd.uid cmd.set s.saved).map Prod.snd := by
        intro hin
        obtain ⟨p, hp, rfl⟩ := mem_map.mp hin
        exact hu (mem_of_getElem? (MailboxView.has_of_resolve hp).2)
      rw [hanswered.unspoken hu] at htold
      have hold : c.flags u = some told := by
        rw [← htold]
        exact (if_neg fun hin => hunnamed hin.1).symm
      have hnext := hev.uidnext
      obtain ⟨hlt, hdead⟩ := (h.beliefs u told hold).resolve_left hu
      exact .inr ⟨by omega, dead_of_evolves hev hlt hdead⟩

end store

/-! ## 2. Commands -/

/-- When a silent STORE commits, each row that it covers is `Heeded`. -/
def StoresHeed : CallCondition := fun σ a db c =>
  match a, c with
  | .command _ (.store cmd), .storeFlags mailboxId uids op _ unchangedSince =>
    cmd.silent = true → ∀ x ∈ messagesOf db mailboxId, x.uid ∈ uids →
      isModified unchangedSince x = false → Heeded (σ.view.known x.uid) op x
  | _, _ => True

/-- **The condition.** Silent STOREs heed what they cover, and no wake-up throws. -/
def Attentive : CallCondition := fun σ a db c => StoresHeed σ a db c ∧ WakesTell σ a db c

/-- What a command leaves the client with, its STOREs counted. -/
def LearnsBy (σ : Selected) (s : Settings) (cmd : SessionCommand)
    (out : Except StoreError (MailboxView × List Response × Stored)) (db' : Db) : Prop :=
  ∀ p, out = .ok p →
    Learns (σ.client.stored s σ.view cmd p.2.2).flags (.ok (p.1, p.2.1)) db'

theorem store_learns (h : Knows σ.view σ.client.flags σ.db) (s : Settings) (cmd : StoreCommand) :
    (store s σ.view cmd).ensures (shared (Attentive σ (.command s (.store cmd))))
      (LearnsBy σ s (.store cmd)) σ.db := by
  unfold store
  split
  · rintro p ⟨⟩
    exact (Did.nothing : Did _ _ false _).learns h
  apply Txn.ensures_bind
  refine ensures_call_knows h ?_ fun e db1 _ => nofun
  intro db1 res db2 h1 hattentive hanswer h2
  rintro p ⟨⟩ q ⟨⟩
  obtain ⟨hg1, m1, hm1, -, hcons1, hheard1⟩ := h1
  obtain ⟨_, hstores⟩ := Txn.CommitsTo.wp hanswer (holds_storeFlags hg1 _ _ _ _ _)
  obtain ⟨m2, hm2, hstores⟩ := hstores m1 hm1
  obtain ⟨hwf2, hev⟩ := (answers_commit hg1 hanswer).evolves_to hm1 hm2
  have hanswered := store_answered s σ.view cmd res.rows
  refine ⟨m2, hanswered.map.mailboxId ▸ hm2, ?_⟩
  exact hheard1.store hstores hcons1 (hg1 _ m1 hm1) hwf2 hev
    (fun hsilent x hx hin hmod => hattentive.1 hsilent x
      (by simpa [messagesOf, hm1] using hx) hin hmod)
    rfl hanswered

/-- **Every command.** -/
theorem dispatch_learns (h : Knows σ.view σ.client.flags σ.db) (s : Settings)
    (cmd : SessionCommand) :
    (dispatch s σ.view cmd).ensures (shared (Attentive σ (.command s cmd)))
    (LearnsBy σ s cmd) σ.db := by
  by_cases hstore : ∃ c, cmd = .store c
  · obtain ⟨c, rfl⟩ := hstore
    exact store_learns h s c
  · refine Txn.ensures_mono (Txn.ensures_and (dispatch_did h.sees s fun c hc => hstore ⟨c, hc⟩)
      (ensures_commit _ h.1)) ?_
    rintro (e | p) db' ⟨hdid, hc⟩
    · exact nofun
    · rintro q ⟨⟩
      have hclient : σ.client.stored s σ.view cmd p.2.2 = σ.client := by
        unfold Client.stored
        split
        · exact absurd ⟨_, rfl⟩ hstore
        · rfl
      rw [hclient]
      exact hdid.learns (h.commit hc)

/-! ## 3. Runs -/

/-- The client has the view's list, and what it believes is right. -/
structure Hears (σ : Selected) : Prop extends InStep σ where
  heard : ∃ m, σ.db σ.view.mailboxId = some m ∧ Heard σ.view σ.client.flags m

theorem Hears.knows (h : Hears σ) : Knows σ.view σ.client.flags σ.db := by
  obtain ⟨hg, m, hm, hone, hcons⟩ := h.sees
  obtain ⟨n, hn, hheard⟩ := h.heard
  obtain rfl : m = n := Option.some.inj (hm.symm.trans hn)
  exact ⟨hg, m, hm, hone, hcons, hheard⟩

/-- An act that leaves the view and the client. -/
theorem Hears.silent (h : Hears σ) (due : Option MailboxView.SyncOptions)
    (hc : Commit false σ.db db') : Hears ⟨db', σ.view, σ.client, due⟩ := by
  have hknows := h.knows.commit hc
  refine ⟨⟨hknows.sees, h.list⟩, ?_⟩
  obtain ⟨-, m, hm, -, -, hheard⟩ := hknows
  exact ⟨m, hm, hheard⟩

/-- A client that follows is left with what it has been told. -/
theorem Learns.received {c : Client} {uidAt : ℕ → Option ℕ} {view' : MailboxView}
    {list' : List ℕ} (h : Learns c.flags (.ok (view', rs)) db')
    (hfollows : Follows uidAt c.list rs list') :
    ∃ m, db' view'.mailboxId = some m ∧ Heard view' (c.receiveAll uidAt rs).flags m := by
  rw [Client.receiveAll_flags hfollows]
  exact h _ rfl

/-- **One act.** -/
theorem Step.hears (hstep : Step Attentive σ a rs σ') (h : Hears σ) : Hears σ' := by
  have hkeeps := hstep.keeps h.toInStep
  have hfollows := hkeeps.follows
  refine ⟨hkeeps.inStep fun _ _ hok => hok.2, ?_⟩
  have hgood := h.sees.1
  cases hstep with
  | others hserved => exact (h.silent σ.due (hserved.commit hgood)).heard
  | @command s cmd db' view' rs stored _ hruns =>
    rw [← Client.stored_list σ.client s σ.view cmd stored] at hfollows
    exact (hruns.ensures (dispatch_learns h.knows s cmd) _ rfl).received hfollows
  | @failed s cmd db' e _ hruns =>
    exact (h.silent none (hruns.ensures (ensures_commit _ hgood))).heard
  | @finish opts db' p _ hruns =>
    exact (Learns.of_sync h.knows hruns).received hfollows
  | @wake s db' p _ hruns =>
    exact (Learns.of_sync h.knows hruns).received hfollows
  | @wakeThrew s db' view' _ hruns =>
    exact (h.toInStep.wake_not_threw (fun _ _ hok => hok.2) hruns).elim
  | @wakeFailed s db' e _ hruns =>
    exact (h.silent σ.due (hruns.ensures (ensures_commit _ hgood))).heard

theorem Selects.hears (h : Selects σ rs) : Hears σ := by
  obtain ⟨hinStep, hfollows⟩ := h.inStep
  refine ⟨hinStep, ?_⟩
  obtain ⟨⟨db, i, m, readOnly, qresync, hg, hm, hone, hruns⟩, hclient, -⟩ := h
  rw [hclient] at hfollows ⊢
  have hlearns := hruns.ensures (selectFound_learns hg hm hone readOnly qresync)
  exact Learns.received hlearns hfollows

/-- **A run.** -/
theorem Reaches.hears (h : Reaches Attentive σ₀ σ) (h0 : Hears σ₀) : Hears σ := by
  induction h with
  | refl => exact h0
  | step _ hstep ih => exact hstep.hears ih

/-! ## 4. No flag change is hidden -/

/-- A sync with `opts` now, in a mailbox that is not changing, comes to an end, without
throwing if it can flush and tell; and the flags that the client then believes a live
message of the view to have are the message's. -/
def FlagsAgree (σ : Selected) (opts : MailboxView.SyncOptions) : Prop :=
  ∃ m out, σ.db σ.view.mailboxId = some m
    ∧ (σ.view.sync opts).answered (readAt σ.db) = some out
    ∧ (σ.view.CanFlush opts → σ.view.CanTell σ.db → ∃ p, out = .synced p)
    ∧ ∀ p, out = .synced p → ∀ x ∈ m.messages, x.uid ∈ p.1.uids →
        ∀ flags, (σ.client.receiveAll p.1.uidAt p.2).flags x.uid = some flags →
          SameFlagSet flags x.flags

/-- So it is in every state that a session comes to whose calls are all `ok`. -/
def FlagsKnown (ok : CallCondition) : Prop :=
  ∀ σ₀ rs₀, Selects σ₀ rs₀ → ∀ σ, Reaches ok σ₀ σ → ∀ opts, FlagsAgree σ opts

/-- **No flag change is hidden** in a session that is `Attentive`. -/
theorem flag_changes_reach_client (σ₀ : Selected) (rs₀ : List Response)
    (hselects : Selects σ₀ rs₀) (σ : Selected) (hreaches : Reaches Attentive σ₀ σ)
    (opts : MailboxView.SyncOptions) : FlagsAgree σ opts := by
  have h := hreaches.hears hselects.hears
  obtain ⟨hg, m, hm, -, hcons⟩ := h.sees
  obtain ⟨out, hout, hmodseq⟩ := sync_answered hm hcons.toPlaceholders opts
  refine ⟨m, out, hm, hout, h.toInStep.synced hout, ?_⟩
  rintro p rfl
  have hmodseq := hmodseq p rfl
  have hruns := runs_of_answered (fun _ _ => True) (fun _ => trivial) hout
  have hsynced := Synced.of_runs h.sees hruns
  obtain ⟨n, hn, hheard⟩ := Learns.of_sync h.knows hruns p rfl
  rw [hsynced.mailboxId, hm] at hn
  injection hn with hn
  subst hn
  have hfollows : Follows p.1.uidAt σ.client.list p.2 p.1.uids := by
    rw [h.list]
    exact hsynced.follows
  intro x hx hin flags hflags
  rw [Client.receiveAll_flags hfollows] at hflags
  obtain ⟨k, -, -, hcase, hbelief⟩ := hheard.told x.uid hin x hx rfl
  have := (hg _ m hm).modseq_le x hx
  exact hbelief (hcase.resolve_right (by omega)) flags hflags

/-! ### A change that is told, and one that is hidden -/

instance (known : Option ℕ) (op : StoreOperation) (x : Message) : Decidable (Heeded known op x) :=
  inferInstanceAs (Decidable ((op ≠ .set → ∀ k ∈ known, x.modseq ≤ k) ∧ (_ → _)))

instance (σ : Selected) (a : Act) (db : Db) (c : StoreCall) : Decidable (StoresHeed σ a db c) := by
  unfold StoresHeed
  split
  · infer_instance
  · exact isTrue trivial

instance (σ : Selected) (a : Act) (db : Db) (c : StoreCall) : Decidable (Attentive σ a db c) :=
  inferInstanceAs (Decidable (_ ∧ _))

/-- FETCH 1 (FLAGS). -/
def fetchFlags : SessionCommand :=
  .fetch ⟨false, .set [⟨.number 1, .number 1⟩], [.flags], none, false⟩

/-- STORE 1 +FLAGS.SILENT (\\Seen). -/
def storeSeenSilently : SessionCommand :=
  .store ⟨false, .set [⟨.number 1, .number 1⟩], .add, [SEEN], true, none⟩

/-- The client has fetched the flags, and another session has set \\Flagged since. -/
def flaggedSinceFetch : List Happening :=
  [.act .finish, .act (.command plainSettings fetchFlags), .act .finish,
    .other [] 0 (.storeFlags 1 [1] .add ["\\Flagged"] none)]

/-- A NOOP tells the client before its own silent STORE. -/
theorem flag_changes_reach_client_noop : ∃ σ,
    Selects oneSelected [.exists_ 1, .uidValidity 7, .uidNext 2, .highestModseq 1]
      ∧ Reaches Attentive oneSelected σ ∧ σ.client.flags 1 = some ["\\Flagged", SEEN]
      ∧ FlagsAgree σ ⟨true, false, false, 1000⟩ := by
  have hrun : ((oneSelected.performAll Attentive (flaggedSinceFetch
      ++ [.act (.command plainSettings .other), .act .finish,
        .act (.command plainSettings storeSeenSilently)])).map fun σ => σ.client.flags 1)
      = some (some ["\\Flagged", SEEN]) := by
    decide +kernel
  obtain ⟨σ, hσ, hbelief⟩ := Option.map_eq_some_iff.mp hrun
  have hreaches := Reaches.refl.performAll hσ
  exact ⟨σ, oneSelected_selects, hreaches, hbelief,
    flag_changes_reach_client _ _ oneSelected_selects σ hreaches _⟩

/-- The client has fetched the flags, another session sets \\Flagged, and the client's
own +FLAGS.SILENT (\\Seen) comes before any sync: it goes on believing that the message
is not flagged. -/
theorem silent_store_hides_flag : ¬FlagsKnown anyCall := by
  intro h
  have hrun : ((oneSelected.performAll anyCall (flaggedSinceFetch
      ++ [.act (.command plainSettings storeSeenSilently)])).bind fun σ =>
      (σ.db σ.view.mailboxId).bind fun m => (nextSync σ ⟨false, false, false, 1000⟩).map fun p =>
        (m.messages.map Message.flagRow, p.1.uids, (σ.client.receiveAll p.1.uidAt p.2).flags 1))
      = some ([⟨1, ["\\Flagged", SEEN], 3⟩], [1], some [SEEN]) := by
    decide +kernel
  obtain ⟨σ, hσ, hrun⟩ := Option.bind_eq_some_iff.mp hrun
  obtain ⟨m, hm, hrun⟩ := Option.bind_eq_some_iff.mp hrun
  obtain ⟨m', out, hm', hout, -, hknown⟩ :=
    h _ _ oneSelected_selects σ (Reaches.refl.performAll hσ) ⟨false, false, false, 1000⟩
  obtain rfl : m = m' := Option.some.inj (hm.symm.trans hm')
  rw [nextSync, hout] at hrun
  cases out with
  | gone | threw view' => cases hrun
  | synced p =>
    simp only [Option.map_some, Option.some.injEq, Prod.mk.injEq] at hrun
    obtain ⟨hrows, huids, hbelief⟩ := hrun
    obtain ⟨x, hx, hxrow⟩ := mem_map.mp (hrows ▸ mem_singleton_self _)
    have huid : x.uid = 1 := congrArg FlagRow.uid hxrow
    have hflags : x.flags = ["\\Flagged", SEEN] := congrArg FlagRow.flags hxrow
    have hsame := hknown p rfl x hx (by rw [huid, huids]; exact mem_singleton_self _) [SEEN]
      (by rw [huid]; exact hbelief)
    rw [hflags] at hsame
    have hmem := (hsame (flagKey "\\Flagged")).mpr (by simp)
    revert hmem
    decide +kernel

end Postroom.Imap
