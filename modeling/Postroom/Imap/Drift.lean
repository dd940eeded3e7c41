/-
Sequence numbers never drift.

Sync.lean and Handlers.lean say what one script of calls does with the view and with
the client's list. Here this becomes an invariant of a session's runs, and with it
the claim on sequence numbers: in every state that a session can come to the client's
list is the view's.
-/
import Postroom.Imap.Run

set_option autoImplicit false

namespace Postroom.Imap

open Lib Mail

/-! ## 1. The client follows -/

theorem Client.receiveAll_list (uidAt : ℕ → Option ℕ) (c : Client) (rs : List Response) :
    (c.receiveAll uidAt rs).list = rs.foldl (Imap.receive uidAt) c.list := by
  induction rs generalizing c with
  | nil => rfl
  | cons r rs ih => exact ih (c.receive uidAt r)

variable {rs : List Response} {σ : Selected} {db : Db}
variable {uidAt : ℕ → Option ℕ} {list' : List ℕ} {c : Client} {db' : Db}
  {due : Option MailboxView.SyncOptions} {a : Act} {ok : CallCondition}

theorem Follows.foldl {list : List ℕ} (h : Follows uidAt list rs list') :
    rs.foldl (Imap.receive uidAt) list = list' := by
  induction rs generalizing list with
  | nil => exact Eq.symm h
  | cons r rs ih => exact ih h.2

/-- A STORE's outcome concerns the flags only. -/
theorem Client.stored_list (c : Client) (s : Settings) (view : MailboxView) (cmd : SessionCommand)
    (stored : Stored) : (c.stored s view cmd stored).list = c.list := by
  unfold Client.stored
  split
  · split <;> rfl
  · rfl

theorem Client.list_of_follows (h : Follows uidAt c.list rs list') :
    (c.receiveAll uidAt rs).list = list' := by
  rw [Client.receiveAll_list]
  exact h.foldl

/-- A client that follows takes every answer for the message it is about. -/
theorem Client.receiveAll_flags
    (h : Follows uidAt c.list rs list') : (c.receiveAll uidAt rs).flags = c.flags.hearAll rs := by
  induction rs generalizing c with
  | nil => rfl
  | cons r rs ih =>
    obtain ⟨hnames, hrest⟩ := h
    have hstep : (c.receive uidAt r).flags = c.flags.hear r := by
      cases r with
      | fetch seq message items =>
        unfold Client.receive
        dsimp only
        rw [hnames.2, FlagCache.hear]
        cases flagsItem items <;> rfl
      | _ => rfl
    show ((c.receive uidAt r).receiveAll uidAt rs).flags = (c.flags.hear r).hearAll rs
    rw [← hstep]
    exact ih hrest

/-! ## 2. The invariant -/

/-- The view is right, and the client has its list. -/
structure InStep (σ : Selected) : Prop where
  sees : Sees σ.view σ.db
  list : σ.client.list = σ.view.uids

/-- May an act speak of expunges: a sync with allowExpunge, and the session's own
EXPUNGE and MOVE. -/
def Act.mayExpunge (σ : Selected) : Act → Bool
  | .others => false
  | .command _ cmd => cmd.removes
  | .finish => σ.due.any MailboxView.SyncOptions.allowExpunge
  | .wake _ => true

/-- What an act does: the client follows, and hears of expunges only when it may. The
two stay in step where a wake-up cannot throw. -/
structure Keeps (ok : CallCondition) (σ : Selected) (a : Act) (rs : List Response) (σ' : Selected) :
    Prop where
  inStep : (∀ db c, ok σ a db c → WakesTell σ a db c) → InStep σ'
  follows : Follows σ'.view.uidAt σ.client.list rs σ'.client.list
  quiet : a.mayExpunge σ = false → ∀ r ∈ rs, r.isExpunge = false

/-- An act that says nothing and leaves the view. -/
theorem Keeps.silent (h : InStep σ) (a : Act)
    (hsees : Sees σ.view db') : Keeps ok σ a [] ⟨db', σ.view, σ.client, due⟩ where
  inStep _ := ⟨hsees, h.list⟩
  follows := rfl
  quiet := nofun

/-- An act that moves the view. -/
theorem Keeps.moved (h : InStep σ) {view' : MailboxView} (hmoved : Moved σ.view view' rs db')
    (hc : c.list = σ.client.list)
    (hquiet : a.mayExpunge σ = false → ∀ r ∈ rs, r.isExpunge = false) :
    Keeps ok σ a rs ⟨db', view', c.receiveAll view'.uidAt rs, due⟩ := by
  have hfollows : Follows view'.uidAt c.list rs view'.uids := by
    rw [hc, h.list]
    exact hmoved.follows
  have hlist := Client.list_of_follows hfollows
  refine ⟨fun _ => ⟨hmoved.sees, hlist⟩, ?_, hquiet⟩
  show Follows view'.uidAt σ.client.list rs (c.receiveAll view'.uidAt rs).list
  rw [hlist, ← hc]
  exact hfollows

/-- A wake-up at which the sync can flush and tell does not throw. -/
theorem InStep.wake_not_threw (h : InStep σ) {s : Settings} {view' : MailboxView}
    (hok : ∀ db c, ok σ (.wake s) db c → WakesTell σ (.wake s) db c)
    (hruns : Runs (shared (ok σ (.wake s))) σ.db (σ.view.sync (syncOptions s true)) db'
      (.ok (.threw view'))) : False := by
  have hsync : SyncsTo _ _ _ _ _ _ := hruns.ensures (sync_syncsTo h.sees (syncOptions s true))
  obtain ⟨-, m, -, -, hcons⟩ := h.sees
  obtain ⟨p, hp⟩ := hsync.not_threw hcons.toPlaceholders (fun db => hok db _) (fun db => hok db _)
  cases hp

/-- **One act.** -/
theorem Step.keeps {σ' : Selected} (hstep : Step ok σ a rs σ') (h : InStep σ) :
    Keeps ok σ a rs σ' := by
  cases hstep with
  | others hserved => exact Keeps.silent h _ (h.sees.served hserved)
  | @command s cmd db' view' rs stored _ hruns =>
    obtain ⟨-, hout⟩ := hruns.ensures (dispatch_ensures h.sees s cmd)
    obtain ⟨-, hhandles⟩ := hout _ rfl
    obtain ⟨hmoved, hquiet⟩ := hhandles _ rfl
    exact Keeps.moved h hmoved (Client.stored_list _ _ _ _ _) hquiet
  | @failed s cmd db' e _ hruns =>
    have hout := hruns.ensures (dispatch_ensures h.sees s cmd)
    exact Keeps.silent h _ hout.1
  | @finish opts db' p hdue hruns =>
    have hsynced := Synced.of_runs h.sees hruns
    refine Keeps.moved h hsynced.toMoved rfl ?_
    intro hno
    rw [Act.mayExpunge, hdue] at hno
    exact hsynced.quiet hno
  | @wake s db' p _ hruns =>
    exact Keeps.moved h (Synced.of_runs h.sees hruns).toMoved rfl nofun
  | @wakeThrew s db' view' _ hruns =>
    -- nothing is said, and nothing is right any more
    exact ⟨fun hok => (h.wake_not_threw hok hruns).elim, rfl, nofun⟩
  | @wakeFailed s db' e _ hruns =>
    exact Keeps.silent h _ (h.sees.commit (hruns.ensures (ensures_commit _ h.sees.1)))

/-- SELECT leaves the two in step, its client having followed. -/
theorem Selects.inStep (h : Selects σ rs) :
    InStep σ ∧ Follows σ.view.uidAt [] rs σ.client.list := by
  obtain ⟨⟨db, i, m, readOnly, qresync, hg, hm, hone, hruns⟩, hclient, -⟩ := h
  obtain ⟨hsees, hfollows⟩ := hruns.ensures (selectFound_ensures hg hm hone readOnly qresync)
  have hlist : σ.client.list = σ.view.uids := by
    rw [hclient]
    exact Client.list_of_follows hfollows
  refine ⟨⟨hsees, hlist⟩, ?_⟩
  rw [hlist]
  exact hfollows

/-- **A run.** -/
theorem Reaches.inStep {σ₀ : Selected} (h : Reaches ok σ₀ σ)
    (hok : ∀ σ a db c, ok σ a db c → WakesTell σ a db c) (h₀ : InStep σ₀) : InStep σ := by
  induction h with
  | refl => exact h₀
  | step _ hstep ih => exact (hstep.keeps ih).inStep (hok _ _)

/-! ## 3. A mailbox that is not changing -/

theorem answers_of_readAt {c : StoreCall} {r : c.Result} (h : readAt db c = some r) :
    answers db c r db := by
  cases c <;> first | exact ⟨rfl, h⟩ | cases h

/-- Others may happen to do nothing: every call then finds the one state. -/
theorem runs_of_answered {α : Type} {p : Calls α} {a : α} (ok : Db → StoreCall → Prop)
    (hok : ∀ c, ok db c) (h : p.answered (readAt db) = some a) :
    Runs (shared ok) db p db (.ok a) := by
  apply Runs.of_answered _ _ h
  · exact Relation.ReflTransGen.refl
  · intro c r hr
    exact ⟨hok c, answers_of_readAt hr⟩

/-- A sync that nothing disturbs comes to an end, at the mailbox's modseq unless it
throws. -/
theorem sync_answered {view : MailboxView} {m : Mailbox} (hm : db view.mailboxId = some m)
    (h : Placeholders view) (opts : MailboxView.SyncOptions) :
    ∃ out, (view.sync opts).answered (readAt db) = some out
      ∧ ∀ p, out = .synced p → p.1.highestModseq = m.highestModseq := by
  unfold MailboxView.sync
  rw [Txn.answered_bind]
  simp only [show (call (.probe view.mailboxId)).answered (readAt db)
    = some (some ⟨m.uidnext, m.highestModseq⟩) by
    simp [call, Txn.exec, Txn.answered, readAt, hm], Option.bind_some]
  split
  · -- up to date: the flush leaves the modseq
    rename_i heq
    refine ⟨_, rfl, ?_⟩
    intro p hp
    rw [flushOnly_synced hp, heq]
    exact (flushIfAllowed_spec h opts view.uidAt).1.highestModseq
  · rw [Txn.answered_bind]
    have hmarked : ∃ marked, view.markExpunged.answered (readAt db) = some marked := by
      unfold MailboxView.markExpunged
      dsimp only
      split
      · exact ⟨_, rfl⟩
      · rw [Txn.answered_bind]
        simp only [show (call (.countUpTo view.mailboxId view.maxUid)).answered (readAt db)
          = some ((messagesOf db view.mailboxId).filter fun x =>
          x.uid ≤ view.maxUid).length from rfl,
          Option.bind_some]
        split
        · exact ⟨_, rfl⟩
        · exact ⟨_, rfl⟩
    obtain ⟨marked, hmarked⟩ := hmarked
    set changed := (orderByUid ((messagesOf db view.mailboxId).filter fun x =>
      view.highestModseq < x.modseq)).map Message.flagRow
    refine ⟨marked.applyChanges opts m.highestModseq changed, ?_, ?_⟩
    · show ((view.markExpunged >>= fun marked => pure (marked.applyChanges opts m.highestModseq
        changed)).answered (readAt db)) = _
      rw [Txn.answered_bind, hmarked]
      rfl
    · intro p hp
      rw [applyChanges_synced hp]
      rfl

/-- It throws only on what cannot be flushed or told. -/
theorem InStep.synced (h : InStep σ) {opts : MailboxView.SyncOptions}
    {out : MailboxView.SyncOutcome}
    (hout : (σ.view.sync opts).answered (readAt σ.db) = some out) (hflush : σ.view.CanFlush opts)
    (htell : σ.view.CanTell σ.db) : ∃ p, out = .synced p := by
  have hruns := runs_of_answered (fun db' _ => db' = σ.db) (fun _ => rfl) hout
  have hsync : SyncsTo _ _ _ _ _ _ := hruns.ensures (sync_syncsTo h.sees opts)
  obtain ⟨-, m, -, -, hcons⟩ := h.sees
  exact hsync.not_threw hcons.toPlaceholders (fun _ _ => hflush) fun _ hdb => hdb ▸ htell

/-- After it the client's list is the mailbox's. -/
theorem InStep.caught_up (h : InStep σ) {opts : MailboxView.SyncOptions}
    (hallow : opts.allowExpunge = true) : ∃ m out, σ.db σ.view.mailboxId = some m
      ∧ (σ.view.sync opts).answered (readAt σ.db) = some out
      ∧ (∀ p, out = .synced p →
          (σ.client.receiveAll p.1.uidAt p.2).list = (orderByUid m.messages).map Message.uid)
      ∧ (σ.view.CanFlush opts → σ.view.CanTell σ.db → ∃ p, out = .synced p) := by
  obtain ⟨hg, m, hm, hone, hcons⟩ := h.sees
  obtain ⟨out, hout, hmodseq⟩ := sync_answered hm hcons.toPlaceholders opts
  refine ⟨m, out, hm, hout, ?_, h.synced hout⟩
  rintro p rfl
  have hsynced := Synced.of_runs h.sees (runs_of_answered (fun _ _ => True) (fun _ => trivial) hout)
  obtain ⟨-, m', hm', -, hcons'⟩ := hsynced.sees
  rw [hsynced.mailboxId, hm] at hm'
  injection hm' with hm'
  subst hm'
  rw [← hcons'.uids_eq (hg _ m hm) (hsynced.flushed hallow) (hmodseq p rfl)]
  apply Client.list_of_follows
  rw [h.list]
  exact hsynced.follows

/-! ## 4. A session run by itself -/

section alone

variable (ok : CallCondition) [∀ σ a db c, Decidable (ok σ a db c)]

/-- A call made with nobody else about: the reads, and STORE. -/
def answerAlone (σ : Selected) (a : Act) (db : Db) (c : StoreCall) : Option (c.Result × Db) :=
  if ok σ a db c then
    match c with
    | .storeFlags mailboxId uids op flags unchangedSince =>
      ((Mail.storeFlags mailboxId uids op flags unchangedSince).alone exec (Careful false) [] 0 db
        Table.empty).map fun p => (p.1, p.2.over db)
    | c => (readAt db c).map fun r => (r, db)
  else none

/-- An act of the session, or a request that another carries out. -/
inductive Happening
  | act (a : Act)
  | other (ids : List ℕ) (new : ℕ) (cmd : Command)

/-- One after the other, with nothing in between. -/
def Selected.perform (σ : Selected) : Happening → Option Selected
  | .other ids new cmd =>
    (cmd.script.alone exec (Careful false) ids new σ.db Table.empty).map fun q =>
      { σ with db := q.2.over σ.db }
  | .act (.command s cmd) =>
    if σ.due = none then
      ((dispatch s σ.view cmd).executed (answerAlone ok σ (.command s cmd)) σ.db).map fun q =>
        ⟨q.2, q.1.1, (σ.client.stored s σ.view cmd q.1.2.2).receiveAll q.1.1.uidAt q.1.2.1,
          some (syncOptions s (numbered cmd))⟩
    else none
  | .act .finish =>
    σ.due.bind fun opts => ((σ.view.sync opts).executed (answerAlone ok σ .finish) σ.db).bind
      fun q =>
      match q.1 with
      | .synced p => some ⟨q.2, p.1, σ.client.receiveAll p.1.uidAt p.2, none⟩
      | _ => none
  | .act (.wake s) =>
    if σ.due = none then
      ((σ.view.sync (syncOptions s true)).executed (answerAlone ok σ (.wake s)) σ.db).bind fun q =>
        match q.1 with
        | .synced p => some ⟨q.2, p.1, σ.client.receiveAll p.1.uidAt p.2, none⟩
        | .threw view' => some { σ with db := q.2, view := view' }
        | .gone => none
    else none
  | .act .others => none

def Selected.performAll (σ : Selected) (xs : List Happening) : Option Selected :=
  xs.foldlM (Selected.perform ok) σ

variable {ok} {σ₀ σ' : Selected}

theorem answers_of_alone {c : StoreCall} {r : c.Result}
    (h : answerAlone ok σ a db c = some (r, db')) : ok σ a db c ∧ answers db c r db' := by
  unfold answerAlone at h
  split at h
  · rename_i hok
    refine ⟨hok, ?_⟩
    cases c with
    | storeFlags =>
      obtain ⟨⟨a, ov⟩, halone, heq⟩ := Option.map_eq_some_iff.mp h
      injection heq with hr hdb
      rw [← hr, ← hdb]
      exact Txn.CommitsTo.of_alone halone
    | _ =>
      have h : (readAt db _).map (fun a => (a, db)) = some (r, db') := h
      obtain ⟨a, hread, heq⟩ := Option.map_eq_some_iff.mp h
      injection heq with hr hdb
      rw [← hr, ← hdb]
      exact answers_of_readAt hread
  · cases h

theorem runs_of_executed {α : Type} {p : Calls α} {x : α}
    (h : p.executed (answerAlone ok σ a) db = some (x, db')) :
    Runs (shared (ok σ a)) db p db' (.ok x) :=
  Runs.of_executed (fun _ => Relation.ReflTransGen.refl) (fun _ _ _ _ hr => answers_of_alone hr) h

theorem Reaches.perform {x : Happening} (h : Reaches ok σ₀ σ) (hx : σ.perform ok x = some σ') :
    Reaches ok σ₀ σ' := by
  unfold Selected.perform at hx
  split at hx
  · obtain ⟨q, hq, rfl⟩ := Option.map_eq_some_iff.mp hx
    exact h.step (.others (.single ⟨_, Txn.CommitsTo.of_alone hq⟩))
  · split at hx
    · rename_i hdue
      obtain ⟨⟨⟨view', rs, stored⟩, db'⟩, hq, rfl⟩ := Option.map_eq_some_iff.mp hx
      exact h.step (.command hdue (runs_of_executed hq))
    · cases hx
  · obtain ⟨opts, hdue, hx⟩ := Option.bind_eq_some_iff.mp hx
    obtain ⟨⟨out, db'⟩, hq, hx⟩ := Option.bind_eq_some_iff.mp hx
    dsimp only at hx
    split at hx
    · cases hx
      exact h.step (.finish hdue (runs_of_executed hq))
    · cases hx
  · split at hx
    · rename_i hdue
      obtain ⟨⟨out, db'⟩, hq, hx⟩ := Option.bind_eq_some_iff.mp hx
      dsimp only at hx
      split at hx
      · cases hx
        exact h.step (.wake hdue (runs_of_executed hq))
      · cases hx
        exact h.step (.wakeThrew hdue (runs_of_executed hq))
      · cases hx
    · cases hx
  · cases hx

theorem Reaches.performAll {xs : List Happening} (h : Reaches ok σ₀ σ)
    (hxs : σ.performAll ok xs = some σ') : Reaches ok σ₀ σ' := by
  induction xs generalizing σ with
  | nil =>
    cases hxs
    exact h
  | cons x xs ih =>
    obtain ⟨σ₁, hx, hxs⟩ := Option.bind_eq_some_iff.mp hxs
    exact ih (h.perform hx) hxs

end alone

/-! ## 5. Sequence numbers -/

/-- **Sequence numbers never drift.** A client that takes SELECT's responses and then
those of every command, sync and wake-up has the view's list, in every state that the
session can come to and whatever others commit between any two calls to the store, as
long as no wake-up has a change to tell that cannot be written. What an act writes is
followed response by response, a FETCH answer naming on the client's side the message it
is about; only a sync with allowExpunge and the session's own EXPUNGE and MOVE speak of
expunges. A sync with allowExpunge in a mailbox that is not changing comes to an end,
and leaves the client with the mailbox's live UIDs in ascending order. -/
theorem sequence_numbers_never_drift (σ₀ : Selected) (rs₀ : List Response)
    (hselects : Selects σ₀ rs₀) (σ : Selected) (hreaches : Reaches WakesTell σ₀ σ) :
    Follows σ₀.view.uidAt [] rs₀ σ₀.client.list ∧ σ.client.list = σ.view.uids
      ∧ (∀ a rs σ', Step anyCall σ a rs σ' → Follows σ'.view.uidAt σ.client.list rs σ'.client.list
            ∧ ((∃ r ∈ rs, r.isExpunge = true) → a.mayExpunge σ = true))
      ∧ ∀ opts : MailboxView.SyncOptions, opts.allowExpunge = true →
          ∃ m out, σ.db σ.view.mailboxId = some m
            ∧ (σ.view.sync opts).answered (readAt σ.db) = some out
            ∧ (∀ p, out = .synced p →
                (σ.client.receiveAll p.1.uidAt p.2).list = (orderByUid m.messages).map Message.uid)
            ∧ (σ.view.CanFlush opts → σ.view.CanTell σ.db → ∃ p, out = .synced p) := by
  obtain ⟨h₀, hfollows₀⟩ := hselects.inStep
  have h := hreaches.inStep (fun _ _ _ _ hok => hok) h₀
  refine ⟨hfollows₀, h.list, ?_, fun opts hallow => h.caught_up hallow⟩
  intro a rs σ' hstep
  have hkeeps := hstep.keeps h
  refine ⟨hkeeps.follows, ?_⟩
  rintro ⟨r, hr, hexpunge⟩
  by_contra hno
  rw [Bool.not_eq_true] at hno
  rw [hkeeps.quiet hno r hr] at hexpunge
  cases hexpunge

instance (σ : Selected) (a : Act) (db : Db) (c : StoreCall) : Decidable (WakesTell σ a db c) := by
  unfold WakesTell
  split
  · infer_instance
  · infer_instance
  · exact isTrue trivial

instance (σ : Selected) (a : Act) (db : Db) (c : StoreCall) : Decidable (anyCall σ a db c) :=
  isTrue trivial

/-- INBOX with one message, without flags, and Archive. -/
def inboxWithOne : Db
  | 1 => some ⟨1, "INBOX", some .inbox, 7, 2, 1, [⟨4, 1, 1, [], "aa", 3, 0, 0, none, none⟩], []⟩
  | 2 => some ⟨1, "Archive", some .archive, 7, 1, 0, [], []⟩
  | _ => none

/-- The session that has selected INBOX. -/
def oneSelected : Selected where
  db := inboxWithOne
  view := .load ⟨1, 1, "INBOX", some .inbox, 7, 2, 1⟩ false (some ⟨2, 1⟩) [⟨1, 1, false⟩]
  client := Client.new.receiveAll (fun _ => some 1) [.exists_ 1]
  due := some ⟨true, false, false, 1000⟩

def plainSettings : Settings := ⟨1, false, false, none, fun _ => false, 1000⟩

theorem oneSelected_selects :
    Selects oneSelected [.exists_ 1, .uidValidity 7, .uidNext 2, .highestModseq 1] := by
  refine ⟨⟨inboxWithOne, 1, _, false, none, ?_, rfl, ?_, runs_of_answered _ (fun _ => trivial) rfl⟩,
    rfl,
    plainSettings, rfl⟩
  · intro i m hm
    unfold inboxWithOne at hm
    split at hm
    · cases hm
      refine ⟨?_, ?_, ?_, ?_, ?_, ?_⟩ <;> simp
    · cases hm
      refine ⟨?_, ?_, ?_, ?_, ?_, ?_⟩ <;> simp
    · cases hm
  · exact ⟨by simp, by simp⟩

/-- The client idles. A message is filed with this flag, and it is told. Then the first
message is moved away in the webmail, the second is seen there, and a third arrives,
all before the next sync. -/
def idling (flag : String) : List Happening :=
  [.act .finish, .other [1, 2] 5 (.fileLocalMessage ⟨1, "INBOX", "bb", 3, 0, [flag]⟩ 7 0),
    .act (.wake plainSettings), .other [1, 2] 6 (.updateMessage ⟨1, 4, none, [], [], some 2⟩ 0),
    .other [1, 2] 7 (.updateMessage ⟨1, 5, none, [SEEN], [], none⟩ 0),
    .other [1, 2] 8 (.fileLocalMessage ⟨1, "INBOX", "cc", 3, 0, []⟩ 7 0),
    .act (.wake plainSettings)]

/-- What the next sync comes to, if it returns. -/
def nextSync (σ : Selected) (opts : MailboxView.SyncOptions) :
    Option (MailboxView × List Response) :=
  match (σ.view.sync opts).answered (readAt σ.db) with
  | some (.synced p) => some p
  | _ => none

/-- What it says to the client. -/
def nextWords (σ : Selected) : Option (List Response) :=
  (nextSync σ (syncOptions plainSettings true)).map Prod.snd

/-- An expunge, an arrival and a change of flags reach the client together. -/
theorem sequence_numbers_never_drift_idling : ∃ σ,
    Selects oneSelected [.exists_ 1, .uidValidity 7, .uidNext 2, .highestModseq 1]
      ∧ Reaches WakesTell oneSelected σ ∧ σ.client.list = [2, 3] ∧ σ.view.uids = [2, 3] := by
  have hrun : ((oneSelected.performAll WakesTell (idling "$Important")).map fun σ => σ.client.list)
      = some [2, 3] := by decide +kernel
  obtain ⟨σ, hσ, hlist⟩ := Option.map_eq_some_iff.mp hrun
  have hreaches := Reaches.refl.performAll hσ
  obtain ⟨-, hsame, -⟩ := sequence_numbers_never_drift _ _ oneSelected_selects σ hreaches
  exact ⟨σ, oneSelected_selects, hreaches, hlist, hsame ▸ hlist⟩

/-- A Sieve script may file a message under a flag that no response can carry. When it
is seen in the webmail, the sync of the idling session throws with the expunge of
another message and an arrival in hand: number 1 is UID 2 for the session and UID 1 for
the client, and the next sync has nothing to say. -/
theorem unwritable_flag_drifts : ∃ σ,
    Selects oneSelected [.exists_ 1, .uidValidity 7, .uidNext 2, .highestModseq 1]
      ∧ Reaches anyCall oneSelected σ ∧ σ.view.uids = [2, 3] ∧ σ.client.list = [1, 2]
      ∧ nextWords σ = some [] := by
  have hrun : ((oneSelected.performAll anyCall (idling "Größe")).map fun σ =>
      (σ.view.uids, σ.client.list, nextWords σ)) = some
      ([2, 3], [1, 2], some []) := by decide +kernel
  obtain ⟨σ, hσ, hend⟩ := Option.map_eq_some_iff.mp hrun
  simp only [Prod.mk.injEq] at hend
  obtain ⟨huids, hlist, hwords⟩ := hend
  exact ⟨σ, oneSelected_selects, Reaches.refl.performAll hσ, huids, hlist, hwords⟩

end Postroom.Imap
