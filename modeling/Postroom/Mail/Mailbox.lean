/-
A mailbox and how it may change.

A mailbox is its row together with its message rows and its expunged_message rows
(packages/db/prisma/schema.prisma). `Wf` is what apps/imap/src/store.ts promises of
each one at every commit; `Evolves` is what it promises of two of them, one later
than the other. Both are the specification that the writers are held to in the
files above this one: nothing in a mailbox's type forces them.

`Draft` is the state in between. Every writer locks the mailbox, draws one new
modseq `N`, changes message rows, and writes the counters and the expunged rows
last; `Draft.close` is the one argument that all of them share.
-/
import Postroom.Mail.Flags
import Mathlib.Data.List.Sort

set_option autoImplicit false

namespace Postroom.Mail

open List

inductive SpecialUse
  | inbox
  | sent
  | drafts
  | trash
  | junk
  | archive
  | rejects
  deriving DecidableEq, Repr

/-- A row of `message`, without the columns copied from the headers. Instants are
in milliseconds. -/
structure Message where
  id : ℕ
  uid : ℕ
  modseq : ℕ
  flags : List String
  blobSha256 : String
  size : ℕ
  internalDate : ℕ
  receivedAt : ℕ
  trashedAt : Option ℕ
  inboundMessageId : Option ℕ
  deriving DecidableEq, Repr

/-- A row of `expunged_message`. -/
structure Expunged where
  uid : ℕ
  modseq : ℕ
  deriving DecidableEq, Repr

/-- A row of `mailbox` with the message and expunged_message rows that name it. -/
structure Mailbox where
  accountId : ℕ
  name : String
  specialUse : Option SpecialUse
  uidvalidity : ℕ
  uidnext : ℕ
  highestModseq : ℕ
  messages : List Message
  expunged : List Expunged
  deriving DecidableEq, Repr

/-- `recordExpunged`: `createMany` with `skipDuplicates` on the primary key
(mailbox_id, uid). -/
def recordExpunged (rows : List Expunged) (uids : List ℕ) (modseq : ℕ) : List Expunged :=
  uids.foldl
    (fun acc uid => if acc.any (·.uid = uid) then acc else acc ++ [⟨uid, modseq⟩]) rows

/-! ## 1. What holds of a mailbox -/

/-- What a committed mailbox keeps to. -/
structure Mailbox.Wf (m : Mailbox) : Prop where
  uid_lt : ∀ x ∈ m.messages, x.uid < m.uidnext
  modseq_le : ∀ x ∈ m.messages, x.modseq ≤ m.highestModseq
  nodup : (m.messages.map Message.uid).Nodup
  expunged_lt : ∀ e ∈ m.expunged, e.uid < m.uidnext
  expunged_le : ∀ e ∈ m.expunged, e.modseq ≤ m.highestModseq
  expunged_dead : ∀ e ∈ m.expunged, ∀ x ∈ m.messages, x.uid ≠ e.uid

variable {m m' : Mailbox} {x : Message} {recorded : Bool} {N u : ℕ} {gone uids : List ℕ}
  {d : List Message} {rows : List Expunged}
variable {e : Expunged} {uid : ℕ}

/-- A mailbox that has just been created. -/
theorem Mailbox.wf_of_empty (hm : m.messages = []) (he : m.expunged = []) : m.Wf := by
  refine ⟨?_, ?_, ?_, ?_, ?_, ?_⟩ <;> simp [hm, he]

/-- Two messages with one UID are one row. -/
theorem Mailbox.Wf.eq_of_uid (h : m.Wf) {y : Message} (hx : x ∈ m.messages) (hy : y ∈ m.messages)
    (huid : x.uid = y.uid) : x = y :=
  inj_on_of_nodup_map h.nodup hx hy huid

/-! ## 2. What holds of two -/

/-- `m'` is `m` at a later commit. A message of `m'` is one of `m` as it was, or one
of `m` with a modseq that `m` had not reached, or a new one. What is gone has moved
highest_modseq, and where removals are `recorded` it has an expunged row above the
old highest_modseq. -/
structure Evolves (recorded : Bool) (m m' : Mailbox) : Prop where
  uidvalidity : m'.uidvalidity = m.uidvalidity
  uidnext : m.uidnext ≤ m'.uidnext
  highestModseq : m.highestModseq ≤ m'.highestModseq
  messages : ∀ x' ∈ m'.messages,
    (∃ x ∈ m.messages, x.uid = x'.uid ∧ x.id = x'.id
        ∧ (x.flags = x'.flags ∧ x.modseq = x'.modseq ∨ m.highestModseq < x'.modseq))
      ∨ (m.uidnext ≤ x'.uid ∧ m.highestModseq < x'.modseq)
  gone : ∀ x ∈ m.messages, (∀ x' ∈ m'.messages, x'.uid ≠ x.uid) →
    m.highestModseq < m'.highestModseq
      ∧ (recorded = true → ∃ e ∈ m'.expunged, e.uid = x.uid ∧ m.highestModseq < e.modseq)
  expunged : ∀ e ∈ m.expunged, e ∈ m'.expunged

/-- A change of columns that no client of the mailbox sees is no change. -/
theorem Mailbox.Wf.touch (h : m.Wf) (f : Message → Message)
    (hf : ∀ x, (f x).uid = x.uid ∧ (f x).id = x.id ∧ (f x).flags = x.flags
      ∧ (f x).modseq = x.modseq)
    (hv : m'.uidvalidity = m.uidvalidity) (hu : m'.uidnext = m.uidnext)
    (hh : m'.highestModseq = m.highestModseq) (hm : m'.messages = m.messages.map f)
    (he : m'.expunged = m.expunged) : m'.Wf ∧ Evolves recorded m m' := by
  have hback : ∀ x' ∈ m'.messages, ∃ x ∈ m.messages,
      x.uid = x'.uid ∧ x.id = x'.id ∧ x.flags = x'.flags ∧ x.modseq = x'.modseq := by
    intro x' hx'
    rw [hm] at hx'
    obtain ⟨x, hx, rfl⟩ := mem_map.mp hx'
    obtain ⟨h1, h2, h3, h4⟩ := hf x
    exact ⟨x, hx, h1.symm, h2.symm, h3.symm, h4.symm⟩
  refine ⟨⟨?_, ?_, ?_, ?_, ?_, ?_⟩, hv, hu.ge, hh.ge, ?_, ?_, ?_⟩
  · intro x' hx'
    obtain ⟨x, hx, hxu, -⟩ := hback x' hx'
    rw [hu, ← hxu]
    exact h.uid_lt x hx
  · intro x' hx'
    obtain ⟨x, hx, -, -, -, hmod⟩ := hback x' hx'
    rw [hh, ← hmod]
    exact h.modseq_le x hx
  · have hmap : (m.messages.map f).map Message.uid = m.messages.map Message.uid := by
      rw [map_map]
      exact map_congr_left fun x _ => (hf x).1
    rw [hm, hmap]
    exact h.nodup
  · rw [he, hu]
    exact h.expunged_lt
  · rw [he, hh]
    exact h.expunged_le
  · intro e hmem x' hx'
    rw [he] at hmem
    obtain ⟨x, hx, hxu, -⟩ := hback x' hx'
    rw [← hxu]
    exact h.expunged_dead e hmem x hx
  · intro x' hx'
    obtain ⟨x, hx, hxu, hxid, hfl, hmod⟩ := hback x' hx'
    exact .inl ⟨x, hx, hxu, hxid, .inl ⟨hfl, hmod⟩⟩
  · intro x hx hgone
    exact absurd (hf x).1 (hgone (f x) (hm ▸ mem_map_of_mem hx))
  · intro e hmem
    rwa [he]

theorem Evolves.refl (m : Mailbox) : Evolves recorded m m := by
  refine ⟨rfl, le_rfl, le_rfl, ?_, ?_, fun e he => he⟩
  · intro x hx
    exact .inl ⟨x, hx, rfl, rfl, .inl ⟨rfl, rfl⟩⟩
  · intro x hx hgone
    exact absurd rfl (hgone x hx)

theorem Evolves.trans {m'' : Mailbox} (h : Evolves recorded m m') (h' : Evolves recorded m' m'') :
    Evolves recorded m m'' := by
  refine ⟨h'.uidvalidity.trans h.uidvalidity, h.uidnext.trans h'.uidnext,
    h.highestModseq.trans h'.highestModseq, ?_, ?_, ?_⟩
  · intro x'' hx''
    have hle := h.highestModseq
    rcases h'.messages x'' hx'' with ⟨x', hx', huid', hid', hsame⟩ | ⟨huid, hmod⟩
    · -- the message was there at `m'`: ask where `m'` has it from
      rcases h.messages x' hx' with ⟨x, hx, huid, hid, hsame'⟩ | ⟨huid, hmod⟩
      · refine .inl ⟨x, hx, huid.trans huid', hid.trans hid', ?_⟩
        rcases hsame with ⟨hf, hq⟩ | hq
        · rcases hsame' with ⟨hf', hq'⟩ | hq'
          · exact .inl ⟨hf'.trans hf, hq'.trans hq⟩
          · exact .inr (hq ▸ hq')
        · exact .inr (by omega)
      · refine .inr ⟨huid' ▸ huid, ?_⟩
        rcases hsame with ⟨-, hq⟩ | hq
        · exact hq ▸ hmod
        · omega
    · have := h.uidnext
      exact .inr ⟨by omega, by omega⟩
  · intro x hx hgone
    have hle := h.highestModseq
    have hle' := h'.highestModseq
    by_cases hmid : ∀ x' ∈ m'.messages, x'.uid ≠ x.uid
    · obtain ⟨hlt, hrec⟩ := h.gone x hx hmid
      refine ⟨by omega, ?_⟩
      intro hr
      obtain ⟨e, he, huid, hmod⟩ := hrec hr
      exact ⟨e, h'.expunged e he, huid, hmod⟩
    · push Not at hmid
      obtain ⟨x', hx', huid'⟩ := hmid
      obtain ⟨hlt, hrec⟩ := h'.gone x' hx' fun y hy => huid' ▸ hgone y hy
      refine ⟨by omega, ?_⟩
      intro hr
      obtain ⟨e, he, huid, hmod⟩ := hrec hr
      exact ⟨e, he, huid.trans huid', by omega⟩
  · intro e he
    exact h'.expunged e (h.expunged e he)

/-- A UID below an old uidnext still names the message it named then. -/
theorem Evolves.of_uid_lt (h : Evolves recorded m m') {x' : Message} (hx' : x' ∈ m'.messages)
    (hlt : x'.uid < m.uidnext) : ∃ x ∈ m.messages, x.uid = x'.uid ∧ x.id = x'.id := by
  rcases h.messages x' hx' with ⟨x, hx, huid, hid, -⟩ | ⟨huid, -⟩
  · exact ⟨x, hx, huid, hid⟩
  · omega

/-! ## 3. Between the lock and the counters -/

/-- `x` is the row `y`, perhaps with new flags at `N`. -/
def SameMessage (N : ℕ) (y x : Message) : Prop :=
  y.uid = x.uid ∧ y.id = x.id ∧ (y.flags = x.flags ∧ y.modseq = x.modseq ∨ x.modseq = N)

/-- `d` are the message rows of `m` in a transaction that gives every change the
modseq `N`, has handed out the UIDs below `u` and has removed those in `gone`. -/
structure Draft (N u : ℕ) (m : Mailbox) (gone : List ℕ) (d : List Message) : Prop where
  origin : ∀ x ∈ d,
    (x.uid ∉ gone ∧ ∃ y ∈ m.messages, SameMessage N y x)
      ∨ (x.modseq = N ∧ m.uidnext ≤ x.uid ∧ x.uid < u)
  kept : ∀ x ∈ m.messages, x.uid ∉ gone → ∃ x' ∈ d, x'.uid = x.uid
  nodup : (d.map Message.uid).Nodup
  next : m.uidnext ≤ u
  gone_mem : ∀ g ∈ gone, ∃ x ∈ m.messages, x.uid = g

theorem Mailbox.Wf.draft (h : m.Wf) (N : ℕ) : Draft N m.uidnext m [] m.messages := by
  refine ⟨?_, ?_, h.nodup, le_rfl, ?_⟩
  · intro x hx
    exact .inl ⟨not_mem_nil, x, hx, rfl, rfl, .inl ⟨rfl, rfl⟩⟩
  · intro x hx _
    exact ⟨x, hx, rfl⟩
  · intro g hg
    cases hg

section

variable (h : Draft N u m gone d)
include h

/-- Only which UIDs are gone matters, not how they are listed. -/
theorem Draft.congr_gone {gone' : List ℕ} (hg : ∀ g, g ∈ gone' ↔ g ∈ gone) :
    Draft N u m gone' d := by
  refine ⟨?_, ?_, h.nodup, h.next, fun g hmem => h.gone_mem g ((hg g).mp hmem)⟩
  · intro x hx
    rw [hg]
    exact h.origin x hx
  · intro x hx hnot
    rw [hg] at hnot
    exact h.kept x hx hnot

/-- Every row of a draft has a UID below the next one to hand out. -/
theorem Draft.uid_lt (hm : m.Wf) (hx : x ∈ d) : x.uid < u := by
  have hnext := h.next
  rcases h.origin x hx with ⟨-, y, hy, huid, -⟩ | ⟨-, -, hlt⟩
  · have := hm.uid_lt y hy
    omega
  · exact hlt

/-- Rows rewritten in place: the same flags and modseq, or new ones at `N`. -/
theorem Draft.rewrite (f : Message → Message)
    (hf : ∀ x, SameMessage N x (f x)) : Draft N u m gone (d.map f) := by
  refine ⟨?_, ?_, ?_, h.next, h.gone_mem⟩
  · intro x' hx'
    obtain ⟨x, hx, rfl⟩ := mem_map.mp hx'
    obtain ⟨huid, hid, hsame⟩ := hf x
    rw [← huid]
    rcases h.origin x hx with ⟨hg, y, hy, hyu, hyid, hsame'⟩ | ⟨hN, hlt⟩
    · refine .inl ⟨hg, y, hy, hyu.trans huid, hyid.trans hid, ?_⟩
      rcases hsame with ⟨hfl, hmod⟩ | hmod
      · rw [← hfl, ← hmod]
        exact hsame'
      · exact .inr hmod
    · refine .inr ⟨?_, hlt⟩
      rcases hsame with ⟨-, hmod⟩ | hmod
      · exact hmod ▸ hN
      · exact hmod
  · intro x hx hg
    obtain ⟨x', hx', hu⟩ := h.kept x hx hg
    exact ⟨f x', mem_map_of_mem hx', (hf x').1 ▸ hu⟩
  · have hmap : (d.map f).map Message.uid = d.map Message.uid := by
      rw [map_map]
      exact map_congr_left fun x _ => (hf x).1.symm
    rw [hmap]
    exact h.nodup

/-- Removing the rows that fail `p`; each of them was there at the lock. -/
theorem Draft.remove (p : Message → Bool) (uids : List ℕ)
    (hout : ∀ x ∈ d, p x = false → x.uid ∈ uids)
    (hin : ∀ g ∈ uids, (∃ x ∈ d, p x = false ∧ x.uid = g) ∧ ∃ y ∈ m.messages, y.uid = g) :
    Draft N u m (gone ++ uids) (d.filter p) := by
  have hlive : ∀ x ∈ d.filter p, x.uid ∉ uids := by
    intro x hx huid
    obtain ⟨hxd, hpx⟩ := mem_filter.mp hx
    obtain ⟨y, hy, hpy, hyu⟩ := (hin x.uid huid).1
    -- the row removed under this UID is this one
    rw [inj_on_of_nodup_map h.nodup hy hxd hyu, hpx] at hpy
    cases hpy
  refine ⟨?_, ?_, ?_, h.next, ?_⟩
  · intro x hx
    rcases h.origin x (mem_filter.mp hx).1 with ⟨hg, hy⟩ | hnew
    · refine .inl ⟨?_, hy⟩
      intro hmem
      rcases mem_append.mp hmem with hmem | hmem
      · exact hg hmem
      · exact hlive x hx hmem
    · exact .inr hnew
  · intro x hx hg
    obtain ⟨x', hx', hu⟩ := h.kept x hx fun hmem => hg (mem_append_left _ hmem)
    refine ⟨x', mem_filter.mpr ⟨hx', ?_⟩, hu⟩
    by_contra hp
    have := hout x' hx' (by simpa using hp)
    exact hg (mem_append_right _ (hu ▸ this))
  · exact h.nodup.sublist ((filter_sublist).map _)
  · exact forall_mem_append.mpr ⟨h.gone_mem, fun g hg => (hin g hg).2⟩

/-- A new row takes the next UID. -/
theorem Draft.add (hm : m.Wf) (hu : x.uid = u) (hN : x.modseq = N) :
    Draft N (u + 1) m gone (d ++ [x]) := by
  have hnext := h.next
  refine ⟨?_, ?_, ?_, by omega, h.gone_mem⟩
  · intro y hy
    rcases mem_append.mp hy with hy | hy
    · rcases h.origin y hy with hy | ⟨hy, hge, hlt⟩
      · exact .inl hy
      · exact .inr ⟨hy, hge, by omega⟩
    · rw [mem_singleton.mp hy]
      exact .inr ⟨hN, by omega, by omega⟩
  · intro y hy hg
    obtain ⟨y', hy', hyu⟩ := h.kept y hy hg
    exact ⟨y', mem_append_left _ hy', hyu⟩
  · rw [map_append, nodup_append']
    refine ⟨h.nodup, by simp, ?_⟩
    intro v hv hv'
    obtain ⟨y, hy, rfl⟩ := mem_map.mp hv
    have hlt := h.uid_lt hm hy
    rw [map_singleton, mem_singleton] at hv'
    omega

end

/-! ## 4. The end of a transaction -/

theorem recordExpunged_mem_old (h : e ∈ rows) : e ∈ recordExpunged rows uids N := by
  unfold recordExpunged
  induction uids generalizing rows with
  | nil => exact h
  | cons uid uids ih =>
    rw [foldl_cons]
    apply ih
    split
    · exact h
    · exact mem_append_left _ h

theorem recordExpunged_cases (h : e ∈ recordExpunged rows uids N) :
    e ∈ rows ∨ e.uid ∈ uids ∧ e.modseq = N := by
  unfold recordExpunged at h
  induction uids generalizing rows with
  | nil => exact .inl h
  | cons uid uids ih =>
    rw [foldl_cons] at h
    rcases ih h with hmem | ⟨hmem, hN⟩
    · split at hmem
      · exact .inl hmem
      · rcases mem_append.mp hmem with hmem | hmem
        · exact .inl hmem
        · rw [mem_singleton.mp hmem]
          exact .inr ⟨mem_cons_self, rfl⟩
    · exact .inr ⟨mem_cons_of_mem _ hmem, hN⟩

/-- A UID without an expunged row gets one. -/
theorem recordExpunged_new (huid : uid ∈ uids) (hnone : ∀ e ∈ rows, e.uid = uid → e.modseq = N) :
    ∃ e ∈ recordExpunged rows uids N, e.uid = uid ∧ e.modseq = N := by
  unfold recordExpunged
  induction uids generalizing rows with
  | nil => cases huid
  | cons v uids ih =>
    rw [foldl_cons]
    by_cases hv : v = uid
    · -- this step writes the row, or finds the one a duplicate wrote
      subst hv
      by_cases hany : rows.any (·.uid = v) = true
      · rw [if_pos hany]
        obtain ⟨e, he, heu⟩ := any_eq_true.mp hany
        have heu : e.uid = v := by simpa using heu
        exact ⟨e, recordExpunged_mem_old he, heu, hnone e he heu⟩
      · rw [if_neg hany]
        exact ⟨⟨v, N⟩, recordExpunged_mem_old (mem_append_right _ (by simp)), rfl, rfl⟩
    · have hrest : uid ∈ uids := by
        rcases mem_cons.mp huid with huid | huid
        · exact absurd huid.symm hv
        · exact huid
      apply ih hrest
      intro e he heu
      split at he
      · exact hnone e he heu
      · rcases mem_append.mp he with he | he
        · exact hnone e he heu
        · rw [mem_singleton.mp he]

/-- Whatever else is on record, each of `uids` is. -/
theorem recordExpunged_mem (h : uid ∈ uids) : ∃ e ∈ recordExpunged rows uids N, e.uid = uid := by
  by_cases hold : ∃ e ∈ rows, e.uid = uid
  · obtain ⟨e, he, heu⟩ := hold
    exact ⟨e, recordExpunged_mem_old he, heu⟩
  · obtain ⟨e, he, heu, -⟩ := recordExpunged_new (N := N) h
      fun e he heu => absurd ⟨e, he, heu⟩ hold
    exact ⟨e, he, heu⟩

/-- **The end of every writer.** Writing the counters and the expunged rows of a
draft gives a well-formed mailbox that the old one evolves to. Without the expunged
rows the removals are not recorded. -/
theorem Draft.close (recorded : Bool) (h : Draft N u m gone m'.messages) (hm : m.Wf)
    (hN : m.highestModseq < N) (hv : m'.uidvalidity = m.uidvalidity) (hu : m'.uidnext = u)
    (hh : m'.highestModseq = N)
    (he : m'.expunged = recordExpunged m.expunged gone N ∨ recorded = false
      ∧ m'.expunged = m.expunged) :
    m'.Wf ∧ Evolves recorded m m' := by
  have hnext := h.next
  -- whichever way the expunged rows were left, each is an old one or one for a UID of `gone`
  have hcases : ∀ e ∈ m'.expunged, e ∈ m.expunged ∨ e.uid ∈ gone ∧ e.modseq = N := by
    intro e hmem
    rcases he with he | ⟨-, he⟩
    · rw [he] at hmem
      exact recordExpunged_cases hmem
    · rw [he] at hmem
      exact .inl hmem
  have hgone_lt : ∀ g ∈ gone, g < m.uidnext := by
    intro g hg
    obtain ⟨x, hx, rfl⟩ := h.gone_mem g hg
    exact hm.uid_lt x hx
  refine ⟨⟨?_, ?_, h.nodup, ?_, ?_, ?_⟩, hv, by omega, by omega, ?_, ?_, ?_⟩
  · intro x hx
    rw [hu]
    exact h.uid_lt hm hx
  · intro x hx
    rcases h.origin x hx with ⟨-, y, hy, -, -, ⟨-, hmod⟩ | hmod⟩ | ⟨hmod, -⟩
    · have := hm.modseq_le y hy
      omega
    · omega
    · omega
  · intro e hmem
    rcases hcases e hmem with hmem | ⟨hmem, -⟩
    · have := hm.expunged_lt e hmem
      omega
    · have := hgone_lt _ hmem
      omega
  · intro e hmem
    rcases hcases e hmem with hmem | ⟨-, hmem⟩
    · have := hm.expunged_le e hmem
      omega
    · omega
  · intro e hmem x hx huid
    rcases h.origin x hx with ⟨hg, y, hy, hyu, -⟩ | ⟨-, hge, -⟩
    · rcases hcases e hmem with hmem | ⟨hmem, -⟩
      · exact hm.expunged_dead e hmem y hy (hyu.trans huid)
      · exact hg (huid ▸ hmem)
    · rcases hcases e hmem with hmem | ⟨hmem, -⟩
      · have := hm.expunged_lt e hmem
        omega
      · have := hgone_lt _ hmem
        omega
  · intro x' hx'
    rcases h.origin x' hx' with ⟨-, y, hy, hyu, hyid, hsame⟩ | ⟨hmod, hge, -⟩
    · refine .inl ⟨y, hy, hyu, hyid, ?_⟩
      rcases hsame with hsame | hmod
      · exact .inl hsame
      · exact .inr (by omega)
    · exact .inr ⟨hge, by omega⟩
  · intro x hx hdead
    refine ⟨by omega, ?_⟩
    intro hrec
    have hg : x.uid ∈ gone := by
      by_contra hg
      obtain ⟨x', hx', hxu⟩ := h.kept x hx hg
      exact hdead x' hx' hxu
    rcases he with he | ⟨hfalse, -⟩
    · obtain ⟨e, hmem, heu, hemod⟩ := recordExpunged_new (N := N) hg
        (fun e hmem heu => absurd heu.symm (hm.expunged_dead e hmem x hx))
      exact ⟨e, he ▸ hmem, heu, by omega⟩
    · rw [hrec] at hfalse
      cases hfalse
  · intro e hmem
    rcases he with he | ⟨-, he⟩
    · rw [he]
      exact recordExpunged_mem_old hmem
    · rwa [he]

end Postroom.Mail
