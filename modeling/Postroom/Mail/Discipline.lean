/-
UIDs and modseqs over every interleaving of the writers.

The server of Store.lean runs any number of requests, a statement at a time, in any
order, with the row locks held to the commit and every other read as stale as it
may be. Writers.lean goes through each writer alone; Lib/Transactions.lean makes
that a statement about all of them together. What is left is to read the discipline
that apps/imap/src/store.ts states in its header off `Commit`.

RENAME of INBOX breaks it when a message reached INBOX between its findMailbox and
its lock: the last theorem is such a run.
-/
import Postroom.Mail.Writers

set_option autoImplicit false

namespace Postroom.Mail

open Lib

/-! ## 1. Runs of the server -/

/-- Between two statements: every session is where a replay on the committed
mailboxes would be. -/
abbrev MailServer.Serial (recorded : Bool) (w : MailServer) : Prop :=
  Lib.Serial exec Key.row (Careful recorded) Command.script Good w

/-- The committed mailboxes go through the commits of requests. -/
abbrev Served (recorded : Bool) : Db → Db → Prop :=
  Relation.ReflTransGen fun db db' =>
    ∃ c : Command, c.script.CommitsTo exec Key.row (Careful recorded) db () db'

variable {recorded : Bool} {db db' : Db}

theorem MailServer.serial_init (h : Good db) (ids : List ℕ) :
    MailServer.Serial recorded (Server.init db ids) :=
  Serial.init ids h

/-- **Every interleaving is a sequence of commits**, each of a request that is
replayed alone. -/
theorem MailServer.serial_run {w w' : MailServer} (h : MailServer.Serial recorded w)
    (hrun : Run MailServer.step (onStatements (Careful recorded)) w w') :
    MailServer.Serial recorded w' ∧ Served recorded w.db w'.db :=
  Serial.run (fun c _ hg => (keeps_script hg c).mono fun _ _ _ hc => hc.good) h hrun

/-- What requests commit, one after the other, is a commit. -/
theorem Served.commit (h : Served recorded db db') (hg : Good db) : Commit recorded db db' := by
  induction h with
  | refl => exact Commit.refl hg
  | tail _ hstep ih =>
    obtain ⟨c, hc⟩ := hstep
    obtain ⟨_, hcommit⟩ := hc.wp (keeps_script ih.good c)
    exact ih.trans hcommit

/-- A mailbox that is there stays, and evolves. -/
theorem Commit.evolves (h : Commit recorded db db') {i : ℕ} {m : Mailbox} (hm : db i = some m) :
    ∃ m', db' i = some m' ∧ m'.Wf ∧ Evolves recorded m m' := by
  have hi := h i
  rw [hm] at hi
  cases hm' : db' i with
  | none =>
    rw [hm'] at hi
    exact hi.elim
  | some m' =>
    rw [hm'] at hi
    exact ⟨m', rfl, hi⟩

/-- What it has become is what is found there. -/
theorem Commit.evolves_to (h : Commit recorded db db') {i : ℕ} {m m' : Mailbox}
    (hm : db i = some m) (hm' : db' i = some m') : m'.Wf ∧ Evolves recorded m m' := by
  obtain ⟨n, hn, hevolved⟩ := h.evolves hm
  rwa [Option.some.inj (hm'.symm.trans hn)]

/-! ## 2. The discipline -/

/-- In one committed state: UIDs are below uidnext and distinct, modseqs are at most
highest_modseq. -/
def Numbered (db : Db) : Prop :=
  ∀ i m, db i = some m →
    (∀ x ∈ m.messages, x.uid < m.uidnext ∧ x.modseq ≤ m.highestModseq)
      ∧ (m.messages.map Message.uid).Nodup

/-- Between two: the counters have not gone back, and a UID handed out under the
mailbox's UIDVALIDITY names the same message or none. -/
def NeverReused (db db' : Db) : Prop :=
  ∀ i m, db i = some m → ∃ m', db' i = some m' ∧ m'.uidvalidity = m.uidvalidity
    ∧ m.uidnext ≤ m'.uidnext ∧ m.highestModseq ≤ m'.highestModseq
    ∧ (∀ x ∈ m.messages, ∀ x' ∈ m'.messages, x'.uid = x.uid → x'.id = x.id)
    ∧ ∀ x' ∈ m'.messages, x'.uid < m.uidnext →
        ∃ x ∈ m.messages, x.uid = x'.uid ∧ x.id = x'.id

/-- UID and MODSEQ discipline of the runs from `db₀` whose steps all meet `ok`: it
holds in every committed state, and between every two of them. -/
def Disciplined (ok : MailServer → Action ℕ Command → Prop) (db₀ : Db) (ids : List ℕ) : Prop :=
  ∀ w w', Run MailServer.step ok (Server.init db₀ ids) w → Run MailServer.step ok w w' →
    Numbered w.db ∧ Numbered w'.db ∧ NeverReused w.db w'.db

theorem Good.numbered (h : Good db) : Numbered db := by
  intro i m hm
  have hwf := h i m hm
  exact ⟨fun x hx => ⟨hwf.uid_lt x hx, hwf.modseq_le x hx⟩, hwf.nodup⟩

theorem Commit.neverReused (h : Commit recorded db db') (hg : Good db) : NeverReused db db' := by
  intro i m hm
  obtain ⟨m', hm', -, hev⟩ := h.evolves hm
  refine ⟨m', hm', hev.uidvalidity, hev.uidnext, hev.highestModseq, ?_, ?_⟩
  · intro x hx x' hx' huid
    have hwf := hg i m hm
    have hlt : x'.uid < m.uidnext := by
      rw [huid]
      exact hwf.uid_lt x hx
    obtain ⟨y, hy, hyu, hyid⟩ := hev.of_uid_lt hx' hlt
    -- the message that had this UID is `x`, since UIDs were distinct then
    rw [← hyid, hwf.eq_of_uid hy hx (hyu.trans huid)]
  · intro x' hx' hlt
    exact hev.of_uid_lt hx' hlt

/-- **UID and MODSEQ discipline**, in every run in which RENAME moves INBOX's
messages only under counters that cover them. -/
theorem uid_modseq_discipline (db₀ : Db) (ids : List ℕ) (h₀ : Good db₀) :
    Disciplined (onStatements (Careful false)) db₀ ids := by
  intro w w' hw hw'
  have hserial := (MailServer.serial_run (MailServer.serial_init h₀ ids) hw).1
  obtain ⟨hserial', hserved⟩ := MailServer.serial_run hserial hw'
  have hcommit := hserved.commit hserial.good
  exact ⟨hserial.good.numbered, hserial'.good.numbered, hcommit.neverReused hserial.good⟩

/-! ## 3. Two runs -/

/-- An account with an empty INBOX. -/
def inboxOnly : Db := Table.single 1 ⟨1, "INBOX", some .inbox, 7, 1, 0, [], []⟩

theorem inboxOnly_good : Good inboxOnly := by
  intro i m hm
  unfold inboxOnly Table.single at hm
  split at hm
  · injection hm with hm
    subst hm
    exact Mailbox.wf_of_empty rfl rfl
  · cases hm

instance (src : MailboxInfo) (m : Mailbox) : Decidable (Covers src m) :=
  inferInstanceAs (Decidable (∀ x ∈ m.messages, x.uid < src.uidnext ∧ x.modseq ≤ src.highestModseq))

instance (recorded : Bool) (v : Db) : (s : Stmt) → Decidable (Careful recorded v s)
  | .rehomeAll src _ _ =>
    decidable_of_iff ((v src.id).all fun m => decide (Covers src m)) (by
      cases h : v src.id <;> simp [Careful, h])
  | .deleteMessage _ _ => inferInstanceAs (Decidable (recorded = false))
  | .findMailbox .. | .lockMailbox .. | .lockMailboxOf .. | .lockMailboxes ..
  | .lockMailboxNamed .. | .lockSubtree .. | .countNames .. | .insertMailbox .. | .setName ..
  | .setCounters .. | .bumpModseq .. | .findMessage .. | .messageIn .. | .messagesByUid ..
  | .messagesReceivedBefore .. | .insertMessage .. | .updateFlags .. | .updateMessage ..
  | .rehomeMessage .. | .deleteFlagged .. | .deleteDue .. | .stampTrashed ..
  | .recordExpunged .. => isTrue trivial

/-- A message is appended to INBOX, then INBOX is renamed to Old. -/
def appendThenRename : List (Action ℕ Command) :=
  [.start (.append 1 1 ⟨"aa", 3, [], 0⟩ (fun _ => 9) 0),
    .advance 0 2, .advance 0 3, .advance 0 4, .advance 0 5, .advance 0 6, .advance 0 7,
    .start (.renameMailbox 1 "INBOX" "Old" (fun _ => 9) 0),
    .advance 1 7, .advance 1 8, .advance 1 9, .advance 1 10, .advance 1 11, .advance 1 12,
    .advance 1 13]

/-- Such a run meets the condition, and the message keeps its UID in Old. -/
theorem uid_modseq_discipline_append_then_rename : ∃ w : MailServer,
      Run MailServer.step (onStatements (Careful false)) (Server.init inboxOnly [1]) w
        ∧ (w.db 9).map (fun m => (m.name, m.uidnext, m.messages.map Message.uid)) = some
        ("Old", 2, [1])
        ∧ Numbered w.db := by
  obtain ⟨w, hw⟩ := Option.isSome_iff_exists.mp
    (show (runWhile MailServer.step (onStatements (Careful false)) (Server.init inboxOnly [1])
      appendThenRename).isSome = true by decide +kernel)
  have hrun := Run.runWhile appendThenRename .refl hw
  refine ⟨w, hrun, ?_, (uid_modseq_discipline inboxOnly [1] inboxOnly_good w w hrun .refl).1⟩
  have hold : ((runWhile MailServer.step (onStatements (Careful false)) (Server.init inboxOnly [1])
      appendThenRename).map fun w => (w.db 9).map fun m =>
        (m.name, m.uidnext, m.messages.map Message.uid)) = some (some ("Old", 2, [1])) := by
    decide +kernel
  rw [hw] at hold
  exact Option.some.inj hold

/-- The same requests, interleaved: RENAME has read INBOX's counters, the message is
appended, RENAME locks INBOX and goes on. -/
def renameAcrossAppend : List (Action ℕ Command) :=
  [.start (.renameMailbox 1 "INBOX" "Old" (fun _ => 9) 0), .advance 0 2,
    .start (.append 1 1 ⟨"aa", 3, [], 0⟩ (fun _ => 9) 0),
    .advance 1 3, .advance 1 4, .advance 1 5, .advance 1 6, .advance 1 7, .advance 1 8,
    .advance 0 9, .advance 0 10, .advance 0 11, .advance 0 12, .advance 0 13, .advance 0 14]

/-- Old then holds UID 1 with uidnext 1, at modseq 1 with highest_modseq 0. -/
theorem rename_inbox_under_stale_counters : ¬Disciplined anyStep inboxOnly [1] := by
  intro h
  obtain ⟨w, hw⟩ := Option.isSome_iff_exists.mp
    (show (runAll MailServer.step (Server.init inboxOnly [1]) renameAcrossAppend).isSome = true by
      decide +kernel)
  have hold : ((runAll MailServer.step (Server.init inboxOnly [1]) renameAcrossAppend).any fun w =>
      (w.db 10).any fun m => m.messages.any fun x => m.uidnext ≤ x.uid) = true := by
    decide +kernel
  rw [hw, Option.any_some] at hold
  cases hm : w.db 10 with
  | none =>
    rw [hm] at hold
    cases hold
  | some m =>
    rw [hm, Option.any_some] at hold
    obtain ⟨x, hx, hle⟩ := List.any_eq_true.mp hold
    have hlt := ((h w w (Run.runAll renameAcrossAppend .refl hw) .refl).1 10 m hm).1 x hx
    simp only [decide_eq_true_eq] at hle
    omega

end Postroom.Mail
