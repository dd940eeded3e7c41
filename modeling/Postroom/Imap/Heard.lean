/-
What a session tells about flags, command by command.

`Heard` is `Told` for every message of the view, with what it takes to keep it: the
view has a modseq for each of its messages, and the client believes something only of
messages that the view has or that are gone. Here it goes through SELECT, every
command and the sync. Every one of them keeps it, except a silent STORE, which may put
the number of a change that the client has not heard about under its own.
-/
import Postroom.Imap.Drift

set_option autoImplicit false

namespace Postroom.Imap

open Lib Mail List
open MailboxView (SyncOptions arrive announce)

/-! ## 1. The whole view -/

structure Heard (view : MailboxView) (flags : FlagCache) (m : Mailbox) : Prop where
  known : ∀ u ∈ view.uids, (view.known u).isSome
  told : ∀ u ∈ view.uids, Told view.highestModseq m u (view.known u) (flags u)
  beliefs : ∀ u told, flags u = some told → u ∈ view.uids ∨ (u < m.uidnext ∧ ¬Live m u)

variable {view : MailboxView} {flags : FlagCache} {m m' : Mailbox} {db : Db}
  {acc : MailboxView × List Response} {r : FlagRow} {since : ℕ}
variable {db' : Db}

theorem Heard.evolves (h : Heard view flags m) (hcons : Consistent view m) (hm : m.Wf)
    (hev : Evolves false m m') : Heard view flags m' := by
  refine ⟨h.known, ?_, ?_⟩
  · intro u hu
    exact (h.told u hu).evolves hm (hcons.uid_lt u hu) hcons.modseq_le hev
  · intro u told htold
    rcases h.beliefs u told htold with hu | ⟨hlt, hdead⟩
    · exact .inl hu
    · have := hev.uidnext
      exact .inr ⟨by omega, dead_of_evolves hev hlt hdead⟩

/-- The view is right of the database, and so is what the client has been told. -/
def Knows (view : MailboxView) (flags : FlagCache) (db : Db) : Prop :=
  Good db ∧ ∃ m, db view.mailboxId = some m ∧ FromOne m ∧ Consistent view m ∧ Heard view flags m

theorem Knows.sees (h : Knows view flags db) : Sees view db := by
  obtain ⟨hg, m, hm, hone, hcons, -⟩ := h
  exact ⟨hg, m, hm, hone, hcons⟩

theorem Knows.commit (h : Knows view flags db) (hc : Commit false db db') :
    Knows view flags db' := by
  obtain ⟨hg, m, hm, hone, hcons, hheard⟩ := h
  obtain ⟨m', hm', -, hev⟩ := hc.evolves hm
  exact ⟨hc.good, m', hm', hone.evolves hev, hcons.evolves hev,
    hheard.evolves hcons (hg _ m hm) hev⟩

variable {ok : Db → StoreCall → Prop}
variable {before : List Response} {maxUid : ℕ} {opts : SyncOptions} {marked : MailboxView}
  {m₂ : Mailbox} {p : MailboxView × List Response}

theorem ensures_call_knows {c : StoreCall} {Q : Except StoreError c.Result → Db → Prop}
    (h : Knows view flags db)
    (hok : ∀ db1 r db2, Knows view flags db1 → ok db1 c → answers db1 c r db2 →
      Knows view flags db2 → Q (.ok r) db2)
    (herr : ∀ e db1, Knows view flags db1 → Q (.error e) db1) : (call c).ensures (shared ok) Q db :=
  ensures_call_of (fun _ h => h.1) (fun _ _ h hc => h.commit hc) h hok herr

/-- What a script leaves the client with: a right view, of which it has been told. -/
def Learns (flags : FlagCache) (out : Except StoreError (MailboxView × List Response)) (db' : Db) :
    Prop :=
  ∀ p, out = .ok p → ∃ m, db' p.1.mailboxId = some m ∧ Heard p.1 (flags.hearAll p.2) m

/-- Answers say nothing of a message that the view does not have. -/
theorem Answered.unspoken (h : Answered (view, before) acc) {u : ℕ}
    (hu : u ∉ view.uids) (flags : FlagCache) : flags.hearAll acc.2 u = flags.hearAll before u := by
  obtain ⟨rs, hrs, hnames⟩ := h.answers
  rw [hrs, FlagCache.hearAll_append, FlagCache.hearAll_of_not_mem]
  intro r hr
  obtain ⟨seq, message, items, rfl, hhas⟩ := hnames r hr
  refine ⟨seq, message, items, rfl, ?_⟩
  rintro rfl
  exact hu (mem_of_getElem? hhas.2)

/-- A loop that answers with rows of the mailbox, after responses that tell nothing. -/
theorem Heard.tells (h : Heard view flags m) (hbefore : flags.hearAll before = flags)
    (htells : Tells view.highestModseq m flags (view, before) acc)
    (hanswered : Answered (view, before) acc) : Heard acc.1 (flags.hearAll acc.2) m := by
  refine ⟨?_, ?_, ?_⟩
  · intro u hu
    rw [hanswered.map.uids] at hu
    exact htells.isSome (h.known u hu)
  · intro u hu
    rw [hanswered.map.uids] at hu
    rw [hanswered.map.highestModseq]
    apply htells.told (h.known u hu)
    rw [hbefore]
    exact h.told u hu
  · intro u told htold
    rw [hanswered.map.uids]
    by_cases hu : u ∈ view.uids
    · exact .inl hu
    · rw [hanswered.unspoken hu, hbefore] at htold
      exact h.beliefs u told htold

/-- Dead messages are forgotten. -/
theorem Heard.forget {view' : MailboxView} {gone : List ℕ} (h : Heard view flags m)
    (hcons : Consistent view m) (hforgotten : Forgotten view gone view')
    (hdead : ∀ u ∈ gone, ¬Live m u) : Heard view' flags m := by
  have hmem : ∀ u ∈ view'.uids, u ∈ view.uids ∧ u ∉ gone := by
    intro u hu
    rw [hforgotten.uids, mem_filter] at hu
    exact ⟨hu.1, by simpa using hu.2⟩
  refine ⟨?_, ?_, ?_⟩
  · intro u hu
    rw [hforgotten.known, if_neg (hmem u hu).2]
    exact h.known u (hmem u hu).1
  · intro u hu
    rw [hforgotten.known, if_neg (hmem u hu).2, hforgotten.highestModseq]
    exact h.told u (hmem u hu).1
  · intro u told htold
    rcases h.beliefs u told htold with hu | hgone
    · by_cases hg : u ∈ gone
      · exact .inr ⟨hcons.uid_lt u hu, hdead u hg⟩
      · refine .inl ?_
        rw [hforgotten.uids, mem_filter]
        exact ⟨hu, by simpa using hg⟩
    · exact .inr hgone

/-- Expunges tell no flags. -/
theorem expungeNow_silent (view : MailboxView) (uids : List ℕ) (vanished : Bool)
    (flags : FlagCache) : flags.hearAll (view.expungeNow uids vanished).2 = flags := by
  apply FlagCache.hearAll_of_silent
  intro r hr seq message items heq
  unfold MailboxView.expungeNow at hr
  split at hr
  · dsimp only at hr
    split at hr
    · cases hr
    · rw [mem_singleton.mp hr] at heq
      cases heq
  · obtain ⟨s, -, rfl⟩ := mem_map.mp hr
    cases heq

theorem flushIfAllowed_silent (view : MailboxView) (opts : SyncOptions)
    (flags : FlagCache) : flags.hearAll (view.flushIfAllowed opts).2 = flags := by
  unfold MailboxView.flushIfAllowed MailboxView.flushPending
  split
  · split
    · rfl
    · exact expungeNow_silent view _ _ flags
  · rfl

theorem Silent.hearAll (h : Silent before) (flags : FlagCache) : flags.hearAll before = flags := by
  rcases h with rfl | ⟨gone, rfl⟩ <;> rfl

/-! ## 2. sync -/

theorem foldl_arrive_known (view : MailboxView) (new : List FlagRow) (u : ℕ) :
    (u ∉ new.map FlagRow.uid → (new.foldl arrive view).known u = view.known u)
      ∧ (u ∈ new.map FlagRow.uid → ∃ r ∈ new, r.uid = u
          ∧ (new.foldl arrive view).known u = some r.modseq) := by
  induction new generalizing view with
  | nil => exact ⟨fun _ => rfl, nofun⟩
  | cons r new ih =>
    obtain ⟨hother, hnew⟩ := ih (view.arrive r)
    rw [foldl_cons, map_cons, mem_cons, not_or]
    refine ⟨?_, ?_⟩
    · rintro ⟨hne, hnot⟩
      rw [hother hnot]
      exact if_neg hne
    · intro hu
      by_cases hin : u ∈ new.map FlagRow.uid
      · obtain ⟨r', hr', huid, hknown⟩ := hnew hin
        exact ⟨r', mem_cons_of_mem _ hr', huid, hknown⟩
      · have hur : u = r.uid := hu.resolve_right hin
        refine ⟨r, mem_cons_self, hur.symm, ?_⟩
        rw [hother hin]
        exact if_pos hur

/-- The client has heard about this change, or a later one. -/
def Caught (r : FlagRow) (acc : MailboxView × List Response) : Prop :=
  ∃ k, acc.1.known r.uid = some k ∧ r.modseq ≤ k

theorem announce_caught (h : Caught r acc) (opts : SyncOptions) (maxUid : ℕ)
    (r' : FlagRow) : Caught r (announce opts maxUid acc r') := by
  unfold announce
  split
  · exact h
  · -- a number is only ever replaced by a larger one
    rename_i seq hdue
    obtain ⟨-, hseen, -⟩ := MailboxView.dueAt_some hdue
    obtain ⟨k, hk, hle⟩ := h
    by_cases heq : r.uid = r'.uid
    · rw [← heq, hk] at hseen
      simp only [Option.any_some, decide_eq_true_eq] at hseen
      refine ⟨r'.modseq, ?_, by omega⟩
      exact if_pos heq
    · exact ⟨k, (if_neg heq).trans hk, hle⟩

theorem announce_self (hin : r.uid ∈ acc.1.uids) (hasc : Ascending acc.1.uids)
    (hle : r.uid ≤ maxUid) (hpending : r.uid ∉ acc.1.pending) (opts : SyncOptions) :
    Caught r (announce opts maxUid acc r) := by
  obtain ⟨seq, hseq, -⟩ := MailboxView.seqOf_of_mem hasc hin
  unfold announce
  split
  · rename_i hdue
    unfold MailboxView.dueAt at hdue
    rw [if_neg] at hdue
    · split at hdue
      · rename_i hseen
        rcases hk : acc.1.known r.uid with _ | k
        · rw [hk] at hseen
          cases hseen
        · rw [hk, Option.any_some, decide_eq_true_eq] at hseen
          exact ⟨k, hk, hseen⟩
      · rw [hseq] at hdue
        cases hdue
    · rintro (hlt | hexp)
      · omega
      · exact hpending (by simpa [MailboxView.isExpunged] using hexp)
  · exact ⟨r.modseq, if_pos rfl, le_rfl⟩

theorem Caught.foldl (h : Caught r acc) (opts : SyncOptions) (maxUid : ℕ)
    (changed : List FlagRow) : Caught r (changed.foldl (announce opts maxUid) acc) :=
  foldlRecOn changed _ h fun _ h r' _ => announce_caught h opts maxUid r'

/-- After the flag loop the client has heard of every change in it. -/
theorem foldl_announce_caught {changed : List FlagRow}
    (acc : MailboxView × List Response) (hasc : Ascending acc.1.uids) (hin : r.uid ∈ acc.1.uids)
    (hle : r.uid ≤ maxUid) (hpending : r.uid ∉ acc.1.pending) (hr : r ∈ changed) :
    Caught r (changed.foldl (announce opts maxUid) acc) := by
  induction changed generalizing acc with
  | nil => cases hr
  | cons r' changed ih =>
    have hmap := (announce_answered opts maxUid acc r').map
    rcases mem_cons.mp hr with rfl | hr
    · exact (announce_self hin hasc hle hpending opts).foldl opts maxUid changed
    · exact ih _ (hmap.uids ▸ hasc) (hmap.uids ▸ hin) (hmap.pending ▸ hpending) hr

/-- Of a message that the client has heard the last of, all is known. -/
theorem Told.caught {since' u : ℕ} {known : Option ℕ} {belief : Option (List String)}
    (h : Told since m u known belief)
    (hcaught : ∀ x ∈ m.messages, x.uid = u → ∃ k, known = some k ∧ x.modseq ≤ k) :
    Told since' m u known belief := by
  intro x hx huid
  obtain ⟨k, hk, hle, -, hbelief⟩ := h x hx huid
  obtain ⟨k', hk', hle'⟩ := hcaught x hx huid
  obtain rfl : k = k' := Option.some.inj (hk.symm.trans hk')
  exact ⟨k, hk, hle, .inl (by omega), hbelief⟩

theorem applyChanges_hearAll (view : MailboxView) (opts : SyncOptions)
    (highestModseq : ℕ) (changed : List FlagRow) (flags : FlagCache) :
    flags.hearAll (view.caughtUp opts highestModseq changed).2
      = flags.hearAll (changed.foldl (announce opts view.maxUid)
        (((view.flushIfAllowed opts).1.arrivals
            (changed.filter fun r => view.maxUid < r.uid)).1, [])).2 := by
  set new := changed.filter fun r => view.maxUid < r.uid
  have hexists : ∀ flags : FlagCache, flags.hearAll ((view.flushIfAllowed opts).1.arrivals new).2
      = flags := by
    intro flags
    apply FlagCache.hearAll_of_silent
    intro r hr seq message items heq
    unfold MailboxView.arrivals at hr
    dsimp only at hr
    split at hr
    · cases hr
    · rw [mem_singleton.mp hr] at heq
      cases heq
  show flags.hearAll ((view.flushIfAllowed opts).2 ++ ((view.flushIfAllowed opts).1.arrivals new).2
    ++ (changed.foldl (announce opts view.maxUid)
      (((view.flushIfAllowed opts).1.arrivals new).1, [])).2) = _
  rw [FlagCache.hearAll_append, FlagCache.hearAll_append, flushIfAllowed_silent, hexists]

/-- A view that has been flushed and has taken in the arrivals, before it announces
anything: it knows what it knew of the messages it had, and the modseq of those that
have come, of which the client believes nothing yet. -/
structure Grown (view marked grown : MailboxView) (opts : MailboxView.SyncOptions)
    (flags : FlagCache) (m₂ : Mailbox) : Prop where
  mem : ∀ u ∈ grown.uids, (u ∈ view.uids ∧ u ∉ marked.flushed opts)
    ∨ ∃ x ∈ m₂.messages, x.uid = u ∧ u ∉ view.uids
  old : ∀ u ∈ view.uids, u ∉ marked.flushed opts → u ∈ grown.uids ∧ grown.known u = view.known u
  new : ∀ x ∈ m₂.messages, x.uid ∈ grown.uids → x.uid ∉ view.uids →
    grown.known x.uid = some x.modseq ∧ flags x.uid = none
  pending : ∀ u ∈ grown.pending, u ∈ marked.pending
  ascending : Ascending grown.uids

theorem Heard.grown (h : Heard view flags m₂) (hwf : m₂.Wf)
    (hmark : Marked view marked m') (opts : SyncOptions) :
    Grown view marked ((marked.flushIfAllowed opts).1.arrivals
      ((changedRows m₂ view.highestModseq).filter fun r => marked.maxUid < r.uid)).1 opts flags
      m₂ := by
  set new := (changedRows m₂ view.highestModseq).filter fun r => marked.maxUid < r.uid with hnew
  obtain ⟨hflush, -, -⟩ := flushIfAllowed_spec hmark.toPlaceholders opts fun _ => none
  obtain ⟨huids, hpending, -⟩ := foldl_arrive (marked.flushIfAllowed opts).1 new
  have hrow : ∀ r ∈ new, ∃ x ∈ m₂.messages, x.flagRow = r ∧ marked.maxUid < r.uid := by
    intro r hr
    obtain ⟨hr, hlt⟩ := mem_filter.mp hr
    obtain ⟨x, hx, -, hxr⟩ := mem_changedRows.mp hr
    exact ⟨x, hx, hxr, by simpa using hlt⟩
  -- what arrives is above everything the view has, so it is new to the client
  have hold : ∀ u ∈ view.uids, u ∉ new.map FlagRow.uid := by
    intro u hu hmem
    obtain ⟨r, hr, rfl⟩ := mem_map.mp hmem
    obtain ⟨-, -, -, hlt⟩ := hrow r hr
    have := hmark.ascending.le_maxUid (hmark.uids ▸ hu)
    omega
  have hmem : ∀ u, u ∈ ((marked.flushIfAllowed opts).1.arrivals new).1.uids
      ↔ (u ∈ view.uids ∧ u ∉ marked.flushed opts) ∨ u ∈ new.map FlagRow.uid := by
    intro u
    show u ∈ (new.foldl arrive (marked.flushIfAllowed opts).1).uids ↔ _
    rw [huids, mem_append, hflush.uids, mem_filter, hmark.uids]
    simp
  refine ⟨?_, ?_, ?_, ?_, ?_⟩
  · intro u hu
    rcases (hmem u).mp hu with hu | hu
    · exact .inl hu
    · obtain ⟨r, hr, rfl⟩ := mem_map.mp hu
      obtain ⟨x, hx, hxr, -⟩ := hrow r hr
      exact .inr ⟨x, hx, by rw [← hxr]; rfl, fun hin => hold _ hin hu⟩
  · intro u hu hnot
    refine ⟨(hmem u).mpr (.inl ⟨hu, hnot⟩), ?_⟩
    show (new.foldl arrive (marked.flushIfAllowed opts).1).known u = _
    rw [(foldl_arrive_known _ new u).1 (hold u hu), hflush.known, if_neg hnot, hmark.known]
  · intro x hx hin hnot
    have harrived : x.uid ∈ new.map FlagRow.uid :=
      ((hmem x.uid).mp hin).resolve_left fun hin => hnot hin.1
    obtain ⟨r, hr, huid, hknown⟩ := (foldl_arrive_known (marked.flushIfAllowed opts).1 new x.uid).2
      harrived
    obtain ⟨y, hy, hyr, -⟩ := hrow r hr
    have hyx : y.uid = x.uid := by
      rw [← huid, ← hyr]
      rfl
    rw [hwf.eq_of_uid hy hx hyx] at hyr
    refine ⟨?_, ?_⟩
    · rw [← hyr] at hknown
      exact hknown
    · -- a belief would be about a message that the view has or that is gone
      rcases hbelief : flags x.uid with _ | told
      · rfl
      · rcases h.beliefs _ told hbelief with hin | ⟨-, hdead⟩
        · exact absurd hin hnot
        · exact absurd ⟨x, hx, rfl⟩ hdead
  · intro u hu
    have hu : u ∈ (new.foldl arrive (marked.flushIfAllowed opts).1).pending := hu
    rw [hpending, hflush.pending] at hu
    exact (mem_filter.mp hu).1
  · show Ascending (new.foldl arrive (marked.flushIfAllowed opts).1).uids
    rw [huids]
    refine pairwise_append.mpr ⟨?_, ?_, ?_⟩
    · exact hflush.ascending hmark.ascending
    · exact (changedRows_ascending hwf _).sublist (filter_sublist.map _)
    · intro u hu v hv
      rw [hflush.uids] at hu
      have := hmark.ascending.le_maxUid (mem_filter.mp hu).1
      obtain ⟨r, hr, rfl⟩ := mem_map.mp hv
      obtain ⟨-, -, -, hlt⟩ := hrow r hr
      omega

/-- **The flag changes of a sync reach the client.** `m₂` is the mailbox as changedSince
found it, `m'` as the marking did. -/
theorem Heard.applyChanges (h : Heard view flags m₂)
    (hcons : Consistent view m₂) (hwf : m₂.Wf) (hev : Evolves false m₂ m')
    (hmark : Marked view marked m') {highestModseq : ℕ} (hle : highestModseq ≤ m₂.highestModseq)
    (opts : SyncOptions) :
    Heard (marked.caughtUp opts highestModseq (changedRows m₂ view.highestModseq)).1
      (flags.hearAll (marked.caughtUp opts highestModseq (changedRows m₂ view.highestModseq)).2)
      m' := by
  have hgrown := h.grown hwf hmark opts
  rw [applyChanges_hearAll]
  set changed := changedRows m₂ view.highestModseq
  set grown := ((marked.flushIfAllowed opts).1.arrivals
    (changed.filter fun r => marked.maxUid < r.uid)).1
  set acc := changed.foldl (announce opts marked.maxUid) (grown, []) with hacc
  have htells : Tells view.highestModseq m₂ flags (grown, []) acc := by
    refine Tells.foldl changed (fun acc r hr => announce_tells ?_ opts _ acc) _
    obtain ⟨x, hx, -, rfl⟩ := mem_changedRows.mp hr
    exact Fresh.of_mem hwf hcons.modseq_le hx
  have hanswered : Answered (grown, []) acc :=
    Answered.foldl changed fun acc r _ _ => announce_answered opts _ acc r
  have hknown : ∀ u ∈ grown.uids, (grown.known u).isSome := by
    intro u hu
    rcases hgrown.mem u hu with ⟨hin, hnot⟩ | ⟨x, hx, rfl, hnot⟩
    · rw [(hgrown.old u hin hnot).2]
      exact h.known u hin
    · rw [(hgrown.new x hx hu hnot).1]
      rfl
  have htold : ∀ u ∈ grown.uids, Told view.highestModseq m₂ u (grown.known u) (flags u) := by
    intro u hu
    rcases hgrown.mem u hu with ⟨hin, hnot⟩ | ⟨x, hx, rfl, hnot⟩
    · rw [(hgrown.old u hin hnot).2]
      exact h.told u hin
    · obtain ⟨hmodseq, hnone⟩ := hgrown.new x hx hu hnot
      intro y hy hyx
      rw [hwf.eq_of_uid hy hx hyx, hmodseq, hnone]
      exact ⟨x.modseq, rfl, le_rfl, .inl rfl, nofun⟩
  -- of every message the client has heard the last, or it is about to be gone
  have hcaught : ∀ u ∈ grown.uids, u ∉ marked.pending → ∀ x ∈ m₂.messages, x.uid = u →
      ∃ k, acc.1.known u = some k ∧ x.modseq ≤ k := by
    rintro u hu hpending x hx rfl
    rcases hgrown.mem x.uid hu with ⟨hin, hnot⟩ | ⟨y, hy, hyx, hnot⟩
    · obtain ⟨k, hk, -, hcase, -⟩ := h.told x.uid hin x hx rfl
      rcases hcase with hk' | hlt
      · -- told before, and not changed since
        have hstart : Caught x.flagRow (grown, []) :=
          ⟨k, (hgrown.old x.uid hin hnot).2.trans hk, Nat.le_of_eq hk'.symm⟩
        exact hstart.foldl opts _ changed
      · have hmax := hmark.ascending.le_maxUid (hmark.uids ▸ hin)
        exact foldl_announce_caught (r := x.flagRow) (grown, []) hgrown.ascending hu hmax
          (fun hp => hpending (hgrown.pending _ hp)) (mem_changedRows.mpr ⟨x, hx, hlt, rfl⟩)
    · have hstart : Caught x.flagRow (grown, []) :=
        ⟨x.modseq, (hgrown.new x hx hu hnot).1, le_rfl⟩
      exact hstart.foldl opts _ changed
  refine ⟨?_, ?_, ?_⟩
  · intro u hu
    have hu : u ∈ grown.uids := hanswered.map.uids ▸ hu
    exact htells.isSome (hknown u hu)
  · intro u hu
    have hu : u ∈ grown.uids := hanswered.map.uids ▸ hu
    show Told highestModseq m' u (acc.1.known u) (flags.hearAll acc.2 u)
    by_cases hpending : u ∈ marked.pending
    · exact Told.of_dead ((hmark.pending_iff u (hmark.uids ▸ hmark.mem u hpending)).mp hpending)
    · have hlt : u < m₂.uidnext := by
        rcases hgrown.mem u hu with ⟨hin, -⟩ | ⟨x, hx, rfl, -⟩
        · exact hcons.uid_lt u hin
        · exact hwf.uid_lt x hx
      have hend : Told highestModseq m₂ u (acc.1.known u) (flags.hearAll acc.2 u) :=
        (htells.told (hknown u hu) (htold u hu)).caught (hcaught u hu hpending)
      exact hend.evolves hwf hlt hle hev
  · intro u told hbelief
    have huids : (marked.caughtUp opts highestModseq changed).1.uids = grown.uids :=
      hanswered.map.uids
    rw [huids]
    by_cases hu : u ∈ grown.uids
    · exact .inl hu
    · rw [hanswered.unspoken hu] at hbelief
      have hnext := hev.uidnext
      rcases h.beliefs u told hbelief with hin | ⟨hlt, hdead⟩
      · -- the view had it, so it has been flushed
        have hfl : u ∈ marked.flushed opts := by
          by_contra hnot
          exact hu (hgrown.old u hin hnot).1
        have hlt := hcons.uid_lt u hin
        exact .inr ⟨by omega, (hmark.pending_iff u hin).mp (marked.mem_of_flushed hfl)⟩
      · exact .inr ⟨by omega, dead_of_evolves hev hlt hdead⟩

/-- **A sync** tells what has changed, whatever is committed between its reads. -/
theorem Learns.of_sync (h : Knows view flags db)
    (hruns : Runs (shared ok) db (view.sync opts) db' (.ok (.synced p))) :
    Learns flags (.ok p) db' := by
  have hc : Commit false db db' := hruns.ensures (ensures_commit _ h.1)
  have hsync : SyncsTo ok opts view db db' (.synced p) := hruns.ensures (sync_syncsTo h.sees opts)
  rintro q ⟨⟩
  cases hsync with
  | current _ hout =>
    obtain rfl := flushOnly_synced hout.symm
    obtain ⟨-, m, hm, -, hcons, hheard⟩ := h.commit hc
    obtain ⟨hforgotten, -, -⟩ := flushIfAllowed_spec hcons.toPlaceholders opts fun _ => none
    refine ⟨m, hforgotten.mailboxId ▸ hm, ?_⟩
    rw [flushIfAllowed_silent]
    exact hheard.forget hcons hforgotten fun u hu => hcons.dead u (view.mem_of_flushed hu)
  | @changed _ db2 m₂ m3 marked highestModseq _ _ hc2 hc3 hm2 hm3 hmark hle hout =>
    obtain rfl := applyChanges_synced hout.symm
    obtain ⟨hg2, n, hn, -, hcons2, hheard2⟩ := h.commit hc2
    obtain rfl : m₂ = n := Option.some.inj (hm2.symm.trans hn)
    obtain ⟨-, hev⟩ := hc3.evolves_to hm2 hm3
    refine ⟨m3, ?_, hheard2.applyChanges hcons2 (hg2 _ m₂ hm2) hev hmark hle opts⟩
    obtain ⟨-, -, -, hid, -⟩ := applyChanges_spec hmark.toPlaceholders opts highestModseq
      (changedRows m₂ view.highestModseq)
    rw [hid, hmark.mailboxId]
    exact hm3

/-! ## 3. The handlers -/

/-- A view that has just been loaded, and a client that has been told nothing. -/
theorem Heard.load (hm : m.Wf) (mb : MailboxInfo) (readOnly : Bool) (probe : Probe) :
    Heard (MailboxView.load mb readOnly (some probe)
      ((orderByUid m.messages).map fun x => ⟨x.uid, x.modseq, SEEN ∈ x.flags⟩))
      (fun _ => none) m := by
  set rows : List SnapshotRow :=
    (orderByUid m.messages).map fun x => ⟨x.uid, x.modseq, SEEN ∈ x.flags⟩
  have hfind : ∀ x ∈ m.messages, ((rows.find? fun r => r.uid = x.uid).map SnapshotRow.modseq)
      = some x.modseq := by
    intro x hx
    have hmem : (⟨x.uid, x.modseq, SEEN ∈ x.flags⟩ : SnapshotRow) ∈ rows :=
      mem_map.mpr ⟨x, mem_orderByUid.mpr hx, rfl⟩
    rcases hf : rows.find? fun r => r.uid = x.uid with _ | r
    · have := find?_eq_none.mp hf _ hmem
      simp at this
    · have huid : r.uid = x.uid := by simpa using find?_some hf
      obtain ⟨y, hy, rfl⟩ := mem_map.mp (mem_of_find?_eq_some hf)
      rw [hf, Option.map_some, hm.eq_of_uid (mem_orderByUid.mp hy) hx huid]
  refine ⟨?_, ?_, nofun⟩
  · intro u hu
    have hu : u ∈ (orderByUid m.messages).map Message.uid := by
      rw [← load_uids m mb readOnly (some probe)]
      exact hu
    obtain ⟨x, hx, rfl⟩ := mem_map.mp hu
    show ((rows.find? fun r => r.uid = x.uid).map SnapshotRow.modseq).isSome
    rw [hfind x (mem_orderByUid.mp hx)]
    rfl
  · rintro u - x hx rfl
    exact ⟨x.modseq, hfind x hx, le_rfl, .inl rfl, nofun⟩

/-- **The handlers**, but for STORE. -/
theorem Did.learns {talks : Bool} (hdid : Did view db talks p)
    (h : Knows view flags db) : Learns flags (.ok p) db := by
  rintro q ⟨⟩
  obtain ⟨hg, m, hm, -, hcons, hheard⟩ := h
  cases hdid with
  | nothing => exact ⟨m, hm, hheard⟩
  | answered hn hbefore hspeaks =>
    obtain rfl := Option.some.inj (hm.symm.trans hn)
    exact ⟨m, hspeaks.answered.map.mailboxId ▸ hm,
      hheard.tells (hbefore.hearAll flags) (hspeaks.tells flags) hspeaks.answered⟩
  | removed hrecord hnodup vanished =>
    obtain ⟨gone, hmem, hforgotten, -⟩ := expungeNow_spec hcons.ascending hnodup vanished fun _ =>
      none
    refine ⟨m, hforgotten.mailboxId ▸ hm, ?_⟩
    rw [expungeNow_silent]
    apply hheard.forget hcons hforgotten
    intro u hu
    exact dead_of_onRecord hg hm hrecord u ((hmem u).mp hu).1

/-- **SELECT.** -/
theorem selectFound_learns {i : ℕ} (hg : Good db) (hm : db i = some m) (hone : FromOne m)
    (readOnly : Bool) (qresync : Option QresyncParams) :
    (selectFound (m.info i) readOnly qresync).ensures (shared ok)
      (Ends fun p db' => Learns (fun _ => none) (.ok p) db') db := by
  refine ensures_selectFound hg hm hone readOnly qresync ?_
  rintro db2 m₂ probe view hm2 hwf2 rfl ⟨hg2, n, hn, hone2, hcons⟩ p db' hc hdid a b c q ⟨⟩
  obtain rfl : m₂ = n := Option.some.inj (hm2.symm.trans hn)
  have hknows : Knows _ (fun _ => none) db2 :=
    ⟨hg2, m₂, hn, hone2, hcons, Heard.load hwf2 _ readOnly probe⟩
  exact hdid.learns (hknows.commit hc) p rfl

end Postroom.Imap
