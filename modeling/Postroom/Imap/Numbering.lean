/-
Sequence numbers on an ascending list of UIDs.

Everything the view does with numbers rests on its list of UIDs being strictly
ascending. This file says what follows from that alone: the two binary searches
find what they look for, a sequence set resolves to pairs that the list contains,
and removing messages, in either form of the response, takes exactly their UIDs out.
-/
import Postroom.Imap.Session

set_option autoImplicit false

namespace Postroom.Imap

open Lib Mail List

/-- Strictly ascending. -/
abbrev Ascending (uids : List ℕ) : Prop := uids.Pairwise (· < ·)

/-! ## 1. Finding a UID -/

variable {uids : List ℕ} {i u : ℕ} {uid : ℕ} {rows : List Message} {m : Mailbox}

theorem Ascending.lt_of_lt (h : Ascending uids) {j v : ℕ} (hi : uids[i]? = some u)
    (hj : uids[j]? = some v) (hij : i < j) : u < v := by
  obtain ⟨hi', rfl⟩ := List.getElem?_eq_some_iff.mp hi
  obtain ⟨hj', rfl⟩ := List.getElem?_eq_some_iff.mp hj
  exact pairwise_iff_getElem.mp h i j hi' hj' hij

/-- A UID is at one place only. -/
theorem Ascending.index_unique (h : Ascending uids) {j : ℕ} (hi : uids[i]? = some u)
    (hj : uids[j]? = some u) : i = j := by
  rcases Nat.lt_trichotomy i j with hij | hij | hij
  · have := h.lt_of_lt hi hj hij
    omega
  · exact hij
  · have := h.lt_of_lt hj hi hij
    omega

/-- Reading within the list. -/
theorem getElem?_eq_getD (h : i < uids.length) : uids[i]? = some (uids.getD i 0) := by
  simp [getElem?_eq_getElem h]

/-- What the search finds is there, on any list. -/
theorem seqOf_go_sound (fuel lo hi s : ℕ) (hhi : hi ≤ uids.length)
    (h : MailboxView.seqOf.go uids uid fuel lo hi = some s) : 0 < s ∧ uids[s - 1]? = some uid := by
  induction fuel generalizing lo hi with
  | zero => cases h
  | succ fuel ih =>
    rw [MailboxView.seqOf.go] at h
    by_cases hlt : lo < hi
    · rw [if_pos hlt] at h
      dsimp only at h
      have hmid : (lo + (hi - 1)) / 2 < uids.length := by omega
      by_cases hv : uids.getD ((lo + (hi - 1)) / 2) 0 = uid
      · rw [if_pos hv] at h
        injection h with h
        subst h
        refine ⟨by omega, ?_⟩
        rw [Nat.add_sub_cancel, getElem?_eq_getD hmid, hv]
      · rw [if_neg hv] at h
        split at h
        · exact ih _ _ hhi h
        · exact ih _ _ (by omega) h
    · rw [if_neg hlt] at h
      cases h

/-- On an ascending list the search finds every UID of its interval. -/
theorem seqOf_go_complete (hs : Ascending uids) (hat : uids[i]? = some uid)
    (fuel lo hi : ℕ) (hhi : hi ≤ uids.length) (hlo : lo ≤ i) (hlt : i < hi)
    (hfuel : hi - lo < fuel) :
    MailboxView.seqOf.go uids uid fuel lo hi = some (i + 1) := by
  induction fuel generalizing lo hi with
  | zero => omega
  | succ fuel ih =>
    rw [MailboxView.seqOf.go, if_pos (by omega)]
    dsimp only
    have hmid : uids[(lo + (hi - 1)) / 2]? = some (uids.getD ((lo + (hi - 1)) / 2) 0) :=
      getElem?_eq_getD (by omega)
    by_cases hv : uids.getD ((lo + (hi - 1)) / 2) 0 = uid
    · rw [if_pos hv]
      rw [hv] at hmid
      rw [hs.index_unique hmid hat]
    · rw [if_neg hv]
      have hne : i ≠ (lo + (hi - 1)) / 2 := by
        intro heq
        rw [← heq, hat] at hmid
        injection hmid with hmid
        rw [← heq] at hv
        exact hv hmid.symm
      -- the middle is not the place, so the place is on the side that its UID says
      by_cases hless : uids.getD ((lo + (hi - 1)) / 2) 0 < uid
      · rw [if_pos hless]
        have hright : (lo + (hi - 1)) / 2 < i := by
          by_contra hle
          have := hs.lt_of_lt hat hmid (by omega)
          omega
        exact ih _ _ hhi hright hlt (by omega)
      · rw [if_neg hless]
        have hleft : i < (lo + (hi - 1)) / 2 := by
          by_contra hge
          have := hs.lt_of_lt hmid hat (by omega)
          omega
        exact ih _ _ (by omega) hlo hleft (by omega)

namespace MailboxView

variable {view : MailboxView} {uid : ℕ}

theorem seqOf_sound {s : ℕ} (h : view.seqOf uid = some s) : 0 < s ∧ view.uids[s - 1]? = some uid :=
  seqOf_go_sound _ _ _ _ le_rfl h

theorem seqOf_of_getElem (hs : Ascending view.uids) {i : ℕ} (hi : view.uids[i]? = some uid) :
    view.seqOf uid = some (i + 1) := by
  have hlt : i < view.uids.length := (List.getElem?_eq_some_iff.mp hi).1
  exact seqOf_go_complete hs hi _ _ _ le_rfl (Nat.zero_le _) hlt (by omega)

theorem seqOf_of_mem (hs : Ascending view.uids) (h : uid ∈ view.uids) :
    ∃ s, view.seqOf uid = some s ∧ view.uids[s - 1]? = some uid := by
  obtain ⟨i, hi⟩ := mem_iff_getElem?.mp h
  refine ⟨i + 1, seqOf_of_getElem hs hi, ?_⟩
  rw [Nat.add_sub_cancel, hi]

theorem seqOf_eq_none (h : uid ∉ view.uids) : view.seqOf uid = none := by
  cases hs : view.seqOf uid with
  | none => rfl
  | some s => exact absurd (mem_of_getElem? (seqOf_sound hs).2) h

@[simp] theorem noteModseq_uids (view : MailboxView) (uid modseq : ℕ) :
    (view.noteModseq uid modseq).uids = view.uids := by
  unfold noteModseq
  split <;> rfl

end MailboxView

/-! ## 2. Sequence sets

A pair `[seq, uid]` is right when the view has `uid` at `seq`. -/

namespace MailboxView

/-- The view has `p.2` at `p.1`. -/
def Has (view : MailboxView) (p : ℕ × ℕ) : Prop := 0 < p.1 ∧ view.uids[p.1 - 1]? = some p.2

variable {view : MailboxView} {p : ℕ × ℕ} {set : SequenceSet} {saved : Option (List ℕ)}
  {uids : List ℕ}

theorem has_of_pairsForUids (h : p ∈ view.pairsForUids uids) : view.Has p := by
  obtain ⟨u, -, hu⟩ := mem_filterMap.mp h
  obtain ⟨s, hs, rfl⟩ := Option.map_eq_some_iff.mp hu
  exact seqOf_sound hs

theorem has_of_resolveSeqs (h : p ∈ view.resolveSeqs set saved) : view.Has p := by
  cases set with
  | saved => exact has_of_pairsForUids h
  | set ranges =>
    obtain ⟨r, -, hr⟩ := mem_flatMap.mp h
    obtain ⟨s, -, hs⟩ := mem_filterMap.mp hr
    obtain ⟨uid, huid, rfl⟩ := Option.map_eq_some_iff.mp hs
    unfold uidAt at huid
    split at huid
    · cases huid
    · exact ⟨by omega, huid⟩

/-- The loop over UIDs numbers them from where it starts. -/
theorem mem_pairsUpTo {hi i : ℕ} (h : p ∈ pairsUpTo hi i uids) :
    i < p.1 ∧ uids[p.1 - 1 - i]? = some p.2 := by
  induction uids generalizing i with
  | nil => cases h
  | cons uid rest ih =>
    rw [pairsUpTo] at h
    split at h
    · cases h
    rcases mem_cons.mp h with rfl | h
    · refine ⟨Nat.lt_succ_self i, ?_⟩
      rw [show i + 1 - 1 - i = 0 by omega]
      rfl
    · obtain ⟨hlt, hat⟩ := ih h
      refine ⟨by omega, ?_⟩
      rw [show p.1 - 1 - i = p.1 - 1 - (i + 1) + 1 by omega, getElem?_cons_succ]
      exact hat

theorem has_of_resolveUids (h : p ∈ view.resolveUids set saved) : view.Has p := by
  cases set with
  | saved => exact has_of_pairsForUids h
  | set ranges =>
    rw [resolveUids] at h
    split at h
    · cases h
    obtain ⟨r, -, hr⟩ := mem_flatMap.mp h
    obtain ⟨hlt, hat⟩ := mem_pairsUpTo hr
    rw [getElem?_drop] at hat
    refine ⟨by omega, ?_⟩
    rwa [show view.lowerBound r.1 + (p.1 - 1 - view.lowerBound r.1) = p.1 - 1 by omega] at hat

/-- **Every pair a sequence set resolves to is right.** -/
theorem has_of_resolve {uid : Bool} (h : p ∈ view.resolve uid set saved) : view.Has p := by
  cases uid with
  | false => exact has_of_resolveSeqs h
  | true => exact has_of_resolveUids h

end MailboxView

/-! ## 3. What the database returns is ascending -/

theorem orderByUid_perm (rows : List Message) : (orderByUid rows).Perm rows :=
  perm_insertionSort _ rows

theorem mem_orderByUid {x : Message} : x ∈ orderByUid rows ↔ x ∈ rows :=
  (orderByUid_perm rows).mem_iff

theorem orderByUid_ascending (h : (rows.map Message.uid).Nodup) :
    Ascending ((orderByUid rows).map Message.uid) := by
  have hsorted : (orderByUid rows).Pairwise fun a b => a.uid ≤ b.uid :=
    pairwise_insertionSort _ rows
  have hnodup : ((orderByUid rows).map Message.uid).Nodup :=
    ((orderByUid_perm rows).map Message.uid).nodup_iff.mpr h
  have hle : ((orderByUid rows).map Message.uid).Pairwise (· ≤ ·) := pairwise_map.mpr hsorted
  exact (hle.and hnodup).imp fun hab => Nat.lt_of_le_of_ne hab.1 hab.2

/-- The rows that changedSince answers. -/
def changedRows (m : Mailbox) (modseq : ℕ) : List FlagRow :=
  (orderByUid (m.messages.filter fun x => modseq < x.modseq)).map Message.flagRow

theorem mem_changedRows {modseq : ℕ} {r : FlagRow} :
    r ∈ changedRows m modseq ↔ ∃ x ∈ m.messages, modseq < x.modseq ∧ x.flagRow = r := by
  unfold changedRows
  rw [mem_map]
  constructor
  · rintro ⟨x, hx, rfl⟩
    rw [mem_orderByUid, mem_filter] at hx
    exact ⟨x, hx.1, by simpa using hx.2, rfl⟩
  · rintro ⟨x, hx, hlt, rfl⟩
    refine ⟨x, ?_, rfl⟩
    rw [mem_orderByUid, mem_filter]
    exact ⟨hx, by simpa using hlt⟩

theorem changedRows_ascending (h : m.Wf) (modseq : ℕ) :
    Ascending ((changedRows m modseq).map FlagRow.uid) := by
  have huid : (changedRows m modseq).map FlagRow.uid
      = (orderByUid (m.messages.filter fun x => modseq < x.modseq)).map Message.uid := by
    unfold changedRows
    rw [map_map]
    rfl
  rw [huid]
  exact orderByUid_ascending (h.nodup.sublist ((filter_sublist).map _))

/-! ## 4. Taking UIDs out of the list -/

theorem Ascending.nodup (h : Ascending uids) : uids.Nodup := h.imp Nat.ne_of_lt

theorem Ascending.filter (h : Ascending uids) (p : ℕ → Bool) : Ascending (uids.filter p) :=
  List.Pairwise.filter p h

/-- Taking out a place takes out the UID that is there. -/
theorem Ascending.eraseIdx (h : Ascending uids) (hi : uids[i]? = some u) :
    uids.eraseIdx i = uids.filter fun v => v ≠ u := by
  obtain ⟨hlt, rfl⟩ := List.getElem?_eq_some_iff.mp hi
  rw [← List.Nodup.erase_getElem h.nodup i hlt, h.nodup.erase_eq_filter]
  apply filter_congr
  intro v _
  by_cases hv : v = uids[i] <;> simp [hv]

/-- `view'` is `view` without the UIDs of `gone`. -/
structure Forgotten (view : MailboxView) (gone : List ℕ) (view' : MailboxView) : Prop where
  mailboxId : view'.mailboxId = view.mailboxId
  readOnly : view'.readOnly = view.readOnly
  highestModseq : view'.highestModseq = view.highestModseq
  uids : view'.uids = view.uids.filter fun u => u ∉ gone
  pending : view'.pending = view.pending.filter fun u => u ∉ gone
  known : ∀ u, view'.known u = if u ∈ gone then none else view.known u

theorem Forgotten.refl (view : MailboxView) : Forgotten view [] view := by
  refine ⟨rfl, rfl, rfl, ?_, ?_, ?_⟩
  · rw [filter_eq_self.mpr]
    intro u _
    simp
  · rw [filter_eq_self.mpr]
    intro u _
    simp
  · intro u
    rw [if_neg not_mem_nil]

theorem Forgotten.ascending {view view' : MailboxView} {gone : List ℕ}
    (h : Forgotten view gone view') (hs : Ascending view.uids) : Ascending view'.uids := by
  rw [h.uids]
  exact hs.filter _

theorem Forgotten.trans {view view' view'' : MailboxView} {gone gone' : List ℕ}
    (h : Forgotten view gone view') (h' : Forgotten view' gone' view'') :
    Forgotten view (gone ++ gone') view'' := by
  have hfilter : ∀ l : List ℕ, ((l.filter fun u => u ∉ gone).filter fun u => u ∉ gone')
      = l.filter fun u => u ∉ gone ++ gone' := by
    intro l
    rw [filter_filter]
    apply filter_congr
    intro u _
    simp [Bool.and_comm]
  refine ⟨h'.mailboxId.trans h.mailboxId, h'.readOnly.trans h.readOnly,
    h'.highestModseq.trans h.highestModseq, ?_, ?_, ?_⟩
  · rw [h'.uids, h.uids, hfilter]
  · rw [h'.pending, h.pending, hfilter]
  · intro u
    rw [h'.known, h.known]
    by_cases hu' : u ∈ gone'
    · rw [if_pos hu', if_pos (mem_append_right _ hu')]
    · rw [if_neg hu']
      by_cases hu : u ∈ gone
      · rw [if_pos hu, if_pos (mem_append_left _ hu)]
      · rw [if_neg hu, if_neg]
        intro hmem
        rcases mem_append.mp hmem with hmem | hmem
        · exact hu hmem
        · exact hu' hmem

namespace MailboxView

variable {view : MailboxView}

theorem forget_forgotten (hs : Ascending view.uids) {s u : ℕ} (hat : view.uids[s - 1]? = some u) :
    Forgotten view [u] (view.forget s u) := by
  refine ⟨rfl, rfl, rfl, ?_, ?_, ?_⟩
  · show view.uids.eraseIdx (s - 1) = _
    rw [hs.eraseIdx hat]
    apply filter_congr
    intro v _
    simp
  · show (view.pending.filter fun v => v ≠ u) = _
    apply filter_congr
    intro v _
    simp
  · intro v
    show (if v = u then none else view.known v) = _
    simp

/-- The loop of the VANISHED form takes out those of `us` that the view has. -/
theorem foldl_vanishOne (hs : Ascending view.uids) (us gone0 : List ℕ) :
    ∃ gone, (us.foldl vanishOne (view, gone0)).2 = gone0 ++ gone
      ∧ Forgotten view gone (us.foldl vanishOne (view, gone0)).1
      ∧ ∀ u, u ∈ gone ↔ u ∈ us ∧ u ∈ view.uids := by
  induction us generalizing view gone0 with
  | nil => exact ⟨[], (append_nil _).symm, Forgotten.refl view, by simp⟩
  | cons v us ih =>
    rw [foldl_cons]
    by_cases hv : v ∈ view.uids
    · obtain ⟨s, hseq, hat⟩ := seqOf_of_mem hs hv
      have hstep : vanishOne (view, gone0) v = (view.forget s v, gone0 ++ [v]) := by
        rw [vanishOne]
        dsimp only
        rw [hseq]
      have hforget := forget_forgotten hs hat
      obtain ⟨gone, hlist, hgone, hmem⟩ := ih (hforget.ascending hs) (gone0 ++ [v])
      rw [hstep]
      refine ⟨[v] ++ gone, by rw [hlist, append_assoc], hforget.trans hgone, ?_⟩
      intro u
      rw [singleton_append, mem_cons, mem_cons, hmem, hforget.uids]
      by_cases huv : u = v
      · simp [huv, hv]
      · simp [huv]
    · have hstep : vanishOne (view, gone0) v = (view, gone0) := by
        rw [vanishOne]
        dsimp only
        rw [seqOf_eq_none hv]
      rw [hstep]
      obtain ⟨gone, hlist, hgone, hmem⟩ := ih hs gone0
      refine ⟨gone, hlist, hgone, ?_⟩
      intro u
      rw [hmem, mem_cons]
      constructor
      · rintro ⟨hu, huv⟩
        exact ⟨.inr hu, huv⟩
      · rintro ⟨rfl | hu, huv⟩
        · exact absurd huv hv
        · exact ⟨hu, huv⟩

/-- The loop of the EXPUNGE form, over descending numbers, takes out the UIDs that
were at those numbers when it began. -/
theorem foldl_expungeOne (hs : Ascending view.uids) {seqs : List ℕ} (hdesc : seqs.Pairwise (· > ·))
    (hin : ∀ s ∈ seqs, 0 < s ∧ s ≤ view.uids.length) :
    ∃ gone, Forgotten view gone (seqs.foldl expungeOne view)
      ∧ ∀ u, u ∈ gone ↔ ∃ s ∈ seqs, view.uids[s - 1]? = some u := by
  induction seqs generalizing view with
  | nil => exact ⟨[], Forgotten.refl view, by simp⟩
  | cons s rest ih =>
    obtain ⟨hpos, hle⟩ := hin s mem_cons_self
    obtain ⟨hlt, hrest⟩ := pairwise_cons.mp hdesc
    have hat : view.uids[s - 1]? = some (view.uids.getD (s - 1) 0) :=
      getElem?_eq_getD (by omega)
    have hstep : expungeOne view s = view.forget s (view.uids.getD (s - 1) 0) := by
      rw [expungeOne, hat]
    have hforget := forget_forgotten hs hat
    -- the numbers still to come are below `s`, so their UIDs have not moved
    have hkeep : ∀ s' ∈ rest, (view.forget s (view.uids.getD (s - 1) 0)).uids[s' - 1]?
        = view.uids[s' - 1]? := by
      intro s' hs'
      have := hlt s' hs'
      have := (hin s' (mem_cons_of_mem _ hs')).1
      exact getElem?_eraseIdx_of_lt (by omega)
    have hlen : (view.forget s (view.uids.getD (s - 1) 0)).uids.length = view.uids.length - 1 := by
      exact length_eraseIdx_of_lt (by omega)
    obtain ⟨gone, hgone, hmem⟩ := ih (hforget.ascending hs) hrest (by
      intro s' hs'
      have := hlt s' hs'
      have := (hin s' (mem_cons_of_mem _ hs')).1
      rw [hlen]
      omega)
    rw [foldl_cons, hstep]
    refine ⟨[view.uids.getD (s - 1) 0] ++ gone, hforget.trans hgone, ?_⟩
    intro u
    rw [singleton_append, mem_cons, hmem]
    constructor
    · rintro (rfl | ⟨s', hs', hu⟩)
      · exact ⟨s, mem_cons_self, hat⟩
      · exact ⟨s', mem_cons_of_mem _ hs', hkeep s' hs' ▸ hu⟩
    · rintro ⟨s', hs', hu⟩
      rcases mem_cons.mp hs' with rfl | hs'
      · rw [hat] at hu
        injection hu with hu
        exact .inl hu.symm
      · exact .inr ⟨s', hs', (hkeep s' hs').trans hu⟩

end MailboxView

end Postroom.Imap
