/-
Runs of a session, with its client.

From SELECT on, a session takes commands; each ends with a sync (`finish` of
session.ts), and IDLE syncs whenever it is woken. Others commit whenever they like.
The client keeps two things: the list of UIDs of Client.lean, and the flags that it
believes each message to have, which are the flags last sent to it with its own
STOREs applied to them.
-/
import Postroom.Imap.Handlers

set_option autoImplicit false

namespace Postroom.Imap

open Lib Mail

/-! ## 1. The client -/

structure Client where
  list : List ℕ
  flags : FlagCache

/-- A client that has been told nothing. -/
def Client.new : Client := ⟨[], fun _ => none⟩

/-- One response. A FETCH is for the message at its number in the client's own list. -/
def Client.receive (uidAt : ℕ → Option ℕ) (c : Client) (r : Response) : Client where
  list := Imap.receive uidAt c.list r
  flags :=
    match r with
    | .fetch seq _ items =>
      match c.list[seq - 1]?, flagsItem items with
      | some u, some flags => fun uid => if uid = u then some flags else c.flags uid
      | _, _ => c.flags
    | _ => c.flags

def Client.receiveAll (uidAt : ℕ → Option ℕ) (c : Client) (rs : List Response) : Client :=
  rs.foldl (Client.receive uidAt) c

/-- The flags believed after a STORE; a client that knows none knows the flags it has
set, and no others. -/
def believe (op : StoreOperation) (flags : List String) : Option (List String) →
    Option (List String)
  | some current => some (applyFlags current op flags)
  | none => if op = .set then some (applyFlags [] .set flags) else none

/-- A STORE that was carried out changes what the client believes of the messages it
names, except those in the [MODIFIED] code. `view` has the client's list. -/
def Client.stored (c : Client) (s : Settings) (view : MailboxView) (cmd : SessionCommand)
    (stored : Stored) : Client :=
  match cmd with
  | .store cmd =>
    if stored.carriedOut then
      { c with flags := fun uid =>
          if uid ∈ (view.resolve cmd.uid cmd.set s.saved).map Prod.snd ∧ uid ∉ stored.modified then
            believe cmd.operation cmd.flags (c.flags uid)
          else c.flags uid }
    else c
  | _ => c

/-! ## 2. The session -/

structure Selected where
  db : Db
  view : MailboxView
  client : Client
  /-- The sync that the command in hand still has to end with. -/
  due : Option MailboxView.SyncOptions

inductive Act
  /-- Other sessions commit. -/
  | others
  | command (s : Settings) (cmd : SessionCommand)
  /-- The sync that ends a command. -/
  | finish
  /-- A notification while the client idles. -/
  | wake (s : Settings)

/-- A condition on the calls that an act makes, in the state that they find. -/
abbrev CallCondition := Selected → Act → Db → StoreCall → Prop

def anyCall : CallCondition := fun _ _ _ _ => True

/-- At a wake-up, whose errors nobody hears of, the sync cannot throw. -/
def WakesTell : CallCondition := fun σ a db c =>
  match a, c with
  | .wake s, .probe _ => σ.view.CanFlush (syncOptions s true)
  | .wake _, .changedSince .. => σ.view.CanTell db
  | _, _ => True

/-- One act of the session, with what it writes to the client. A command that fails
leaves the view as it was; so does a sync of which a call fails while the client idles.
A sync that throws while the client idles is taken for one of those (idle.ts), though it
has changed the view by then. A sync that fails or throws at the end of a command, or
finds the mailbox gone, ends the session (`onCommand`, `finish`). A handler that throws
on a flag that cannot be written is answered NO after part of its responses, which is
not modelled: no such responses move a client's list. -/
inductive Step (ok : CallCondition) : Selected → Act → List Response → Selected → Prop
  | others {σ : Selected} {db' : Db} : Served false σ.db db' →
      Step ok σ .others [] { σ with db := db' }
  | command {σ : Selected} {s : Settings} {cmd : SessionCommand} {db' : Db} {view' : MailboxView}
      {rs : List Response} {stored : Stored} : σ.due = none →
      Runs (shared (ok σ (.command s cmd))) σ.db (dispatch s σ.view cmd) db'
        (.ok (view', rs, stored)) →
      Step ok σ (.command s cmd) rs
        ⟨db', view', (σ.client.stored s σ.view cmd stored).receiveAll view'.uidAt rs,
          some (syncOptions s (numbered cmd))⟩
  | failed {σ : Selected} {s : Settings} {cmd : SessionCommand} {db' : Db} {e : StoreError} :
      σ.due = none →
      Runs (shared (ok σ (.command s cmd))) σ.db (dispatch s σ.view cmd) db' (.error e) →
      Step ok σ (.command s cmd) []
        ⟨db', σ.view, σ.client, some (syncOptions s (numbered cmd))⟩
  | finish {σ : Selected} {opts : MailboxView.SyncOptions} {db' : Db}
      {p : MailboxView × List Response} : σ.due = some opts →
      Runs (shared (ok σ .finish)) σ.db (σ.view.sync opts) db' (.ok (.synced p)) →
      Step ok σ .finish p.2 ⟨db', p.1, σ.client.receiveAll p.1.uidAt p.2, none⟩
  | wake {σ : Selected} {s : Settings} {db' : Db} {p : MailboxView × List Response} :
      σ.due = none →
      Runs (shared (ok σ (.wake s))) σ.db (σ.view.sync (syncOptions s true)) db' (.ok (.synced p)) →
      Step ok σ (.wake s) p.2 ⟨db', p.1, σ.client.receiveAll p.1.uidAt p.2, none⟩
  | wakeThrew {σ : Selected} {s : Settings} {db' : Db} {view' : MailboxView} : σ.due = none →
      Runs (shared (ok σ (.wake s))) σ.db (σ.view.sync (syncOptions s true)) db'
        (.ok (.threw view')) →
      Step ok σ (.wake s) [] { σ with db := db', view := view' }
  | wakeFailed {σ : Selected} {s : Settings} {db' : Db} {e : StoreError} : σ.due = none →
      Runs (shared (ok σ (.wake s))) σ.db (σ.view.sync (syncOptions s true)) db' (.error e) →
      Step ok σ (.wake s) [] { σ with db := db' }

/-- The session as SELECT leaves it, with the sync that ends SELECT still to come. The
mailbox that was found is a good one of a good database: its UIDs and modseqs are below
its counters, as every writer leaves them except a RENAME of INBOX that has read its
counters too early (Mail/Discipline.lean). -/
structure Selects (σ : Selected) (rs : List Response) : Prop where
  found : ∃ db i m readOnly qresync, Good db ∧ db i = some m ∧ FromOne m
    ∧ Runs (shared fun _ _ => True) db (selectFound (m.info i) readOnly qresync) σ.db
        (.ok (σ.view, rs))
  client : σ.client = Client.new.receiveAll σ.view.uidAt rs
  due : ∃ s : Settings, σ.due = some (syncOptions s true)

/-- What a session that has selected a mailbox can come to. -/
inductive Reaches (ok : CallCondition) (σ₀ : Selected) : Selected → Prop
  | refl : Reaches ok σ₀ σ₀
  | step {σ σ' : Selected} {a : Act} {rs : List Response} : Reaches ok σ₀ σ → Step ok σ a rs σ' →
      Reaches ok σ₀ σ'

/-! ## 3. SELECT opens a right view -/

/-- A view that has just been loaded, from a snapshot of `m` and a modseq read before
it. -/
theorem Consistent.load {m : Mailbox} (hm : m.Wf) (mb : MailboxInfo) (readOnly : Bool)
    (probe : Probe) (hle : probe.highestModseq ≤ m.highestModseq) :
    Consistent (MailboxView.load mb readOnly (some probe)
      ((orderByUid m.messages).map fun x => ⟨x.uid, x.modseq, SEEN ∈ x.flags⟩)) m := by
  set view := MailboxView.load mb readOnly (some probe)
    ((orderByUid m.messages).map fun x => ⟨x.uid, x.modseq, SEEN ∈ x.flags⟩)
  have huids : view.uids = (orderByUid m.messages).map Message.uid := load_uids m _ _ _
  have hmem : ∀ u, u ∈ view.uids ↔ Live m u := by
    intro u
    rw [huids, List.mem_map]
    constructor
    · rintro ⟨x, hx, hxu⟩
      exact ⟨x, mem_orderByUid.mp hx, hxu⟩
    · rintro ⟨x, hx, hxu⟩
      exact ⟨x, mem_orderByUid.mpr hx, hxu⟩
  refine ⟨⟨?_, nofun, List.nodup_nil⟩, nofun, ?_, hle, ?_, ?_⟩
  · rw [huids]
    exact orderByUid_ascending hm.nodup
  · intro u hu
    obtain ⟨x, hx, rfl⟩ := (hmem u).mp hu
    exact hm.uid_lt x hx
  · intro x hx hnot
    exact absurd ((hmem _).mpr ⟨x, hx, rfl⟩) hnot
  · intro u hu _ hdead
    exact absurd ((hmem u).mp hu) hdead

/-- EXISTS gives a new client the whole list. -/
theorem receive_exists (view : MailboxView) :
    Imap.receive view.uidAt [] (.exists_ view.uids.length) = view.uids := by
  exact filterMap_uidAt_append (l := []) rfl

variable {ok : Db → StoreCall → Prop} {db : Db} {i : ℕ} {m : Mailbox}

theorem resyncIfAsked_did {view : MailboxView} (h : Sees view db) (qresync : Option QresyncParams)
    (uidnext : ℕ) : (resyncIfAsked qresync view uidnext).ensures (shared ok)
      (Ends fun p db' => Did view db' false p) db := by
  unfold resyncIfAsked
  split
  · exact .nothing
  rename_i params
  unfold qresyncSelectResponses
  split
  · exact .nothing
  apply Txn.ensures_bind
  apply Txn.ensures_bind
  refine ensures_call h ?_ fun _ _ _ => trivial
  intro _ uids db1 _ _ _ h1
  apply Txn.ensures_bind
  refine ensures_call h1 ?_ fun _ _ _ => trivial
  intro db2 changed db2' _ _ hanswer h2
  obtain ⟨rfl, hchanged⟩ := hanswer
  obtain ⟨hg, m, hm, -, hcons⟩ := h2
  have hrows : changedRows m params.modseq = changed := by
    simpa [readAt, messagesOf, hm, changedRows] using hchanged
  subst hrows
  refine .answered hm (silent_earlier _)
    ⟨Answered.foldl _ fun acc r _ _ => resyncOne_answered _ _ acc r, fun flags =>
      Tells.foldl _ ?_ _⟩
  intro acc r hr
  obtain ⟨x, hx, -, rfl⟩ := mem_changedRows.mp hr
  exact resyncOne_tells (Fresh.of_mem (hg _ m hm) hcons.modseq_le hx) _ _ acc

/-- SELECT loads a view of the mailbox as it is by then, `m₂`, and resynchronises it. -/
theorem ensures_selectFound {Q : MailboxView × List Response → Db → Prop} (hg : Good db)
    (hm : db i = some m) (hone : FromOne m) (readOnly : Bool) (qresync : Option QresyncParams)
    (hQ : ∀ db2 m2 probe view, db2 i = some m2 → m2.Wf →
      view = MailboxView.load (m.info i) readOnly (some probe)
        ((orderByUid m2.messages).map fun x => ⟨x.uid, x.modseq, SEEN ∈ x.flags⟩) →
      Sees view db2 → ∀ p db', Commit false db2 db' → Did view db' false p → ∀ a b c,
        Q (p.1, [.exists_ view.uids.length, .uidValidity a, .uidNext b, .highestModseq c] ++ p.2)
        db') :
    (selectFound (m.info i) readOnly qresync).ensures (shared ok) (Ends Q) db := by
  apply Txn.ensures_bind
  apply Txn.ensures_bind
  refine ensures_read (fun _ _ _ ha => ha) ?_ fun _ _ _ => trivial
  intro db1 probe hserved1 _ hprobe
  have hc1 := hserved1.commit hg
  obtain ⟨m1, hm1, -, hev1⟩ := hc1.evolves hm
  simp only [readAt, Mailbox.info_id, hm1, Option.map_some, Option.some.injEq] at hprobe
  subst hprobe
  apply Txn.ensures_bind
  refine ensures_read (fun _ _ _ ha => ha) ?_ fun _ _ _ => trivial
  intro db2 rows hserved2 _ hrows
  have hc2 := hserved2.commit hc1.good
  obtain ⟨m2, hm2, hwf2, hev2⟩ := hc2.evolves hm1
  simp only [readAt, messagesOf, Mailbox.info_id, hm2, Option.map_some, Option.getD_some,
    Option.some.injEq] at hrows
  subst hrows
  have hcons := Consistent.load hwf2 (m.info i) readOnly ⟨m1.uidnext, m1.highestModseq⟩
    hev2.highestModseq
  set view := MailboxView.load (m.info i) readOnly (some ⟨m1.uidnext, m1.highestModseq⟩)
    ((orderByUid m2.messages).map fun x => ⟨x.uid, x.modseq, SEEN ∈ x.flags⟩) with hview
  have hsees : Sees view db2 := ⟨hc2.good, m2, hm2, (hone.evolves hev1).evolves hev2, hcons⟩
  apply Txn.ensures_bind
  refine Txn.ensures_mono (Txn.ensures_and (resyncIfAsked_did hsees qresync _)
    (ensures_commit _ hsees.1)) ?_
  rintro (e | p) db3 ⟨hdid, hc⟩
  · trivial
  · exact hQ db2 m2 _ view hm2 hwf2 hview hsees p db3 hc hdid _ _ _

/-- **SELECT** opens a view that is right, and gives the client its list. -/
theorem selectFound_ensures (hg : Good db) (hm : db i = some m) (hone : FromOne m) (readOnly : Bool)
    (qresync : Option QresyncParams) : (selectFound (m.info i) readOnly qresync).ensures (shared ok)
      (Ends fun p db' => Sees p.1 db' ∧ Follows p.1.uidAt [] p.2 p.1.uids) db := by
  refine ensures_selectFound hg hm hone readOnly qresync ?_
  intro db2 m2 probe view _ _ _ hsees p db' hc hdid a b c
  obtain ⟨hmoved, -⟩ := (hdid.handles (hsees.commit hc)).2 p rfl
  refine ⟨hmoved.sees, trivial, trivial, trivial, trivial, ?_⟩
  show Follows p.1.uidAt (Imap.receive p.1.uidAt [] (.exists_ view.uids.length)) p.2 p.1.uids
  have hfollows := hmoved.follows
  rw [← hdid.uids] at hfollows ⊢
  rw [receive_exists]
  exact hfollows

end Postroom.Imap
