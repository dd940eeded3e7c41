/-
A client of sync-collection misses nothing.

`UpTo seq map c` is the invariant: for every name whose changes all lie at or below
`seq`, the map says what the collection `c` says. It survives any later change of the
collection, and one report carries it from the token sent to the token returned,
whatever is committed between the report's reads. A report that was not truncated
returns the counter itself, and then every name is such a name.
-/
import Postroom.Dav.Sync

set_option autoImplicit false

namespace Postroom.Dav

open Lib List

/-! ## 1. What a client knows -/

def UpTo (seq : ℕ) (map : String → Option String) (c : CollectionRow) : Prop :=
  seq ≤ c.syncSeq ∧ ∀ name, (∀ ch ∈ c.changes, ch.name = name → ch.seq ≤ seq) →
    map name = (c.row name).map (·.etag)

variable {c c' : CollectionRow} {seq : ℕ} {name : String} {ch : Change}
  {map : String → Option String}
  {changes : List Change} {r : ResourceMeta} {α : Type} {rows : List ResourceMeta} {client : Client}
  {request : SyncRequest} {reply : Reply} {db : Db}

/-- A name that has no change above `seq` in `c'` has none since `c`. -/
theorem Later.row_eq (h : Later c c') (hseq : seq ≤ c.syncSeq)
    (hname : ∀ ch ∈ c'.changes, ch.name = name → ch.seq ≤ seq) : c'.row name = c.row name := by
  obtain ⟨-, new, hlog, hnew, hrow⟩ := h
  refine hrow name fun ch hch heq => ?_
  have hle := hname ch (by rw [hlog]; exact mem_append_right _ hch) heq
  have hlt := hnew ch hch
  omega

theorem Later.mem_changes (h : Later c c') (hch : ch ∈ c.changes) : ch ∈ c'.changes := by
  obtain ⟨-, new, hlog, -⟩ := h
  rw [hlog]
  exact mem_append_left _ hch

/-- What was changed up to the counter of `c` is in the log of `c`. -/
theorem Later.mem_of_le (h : Later c c') (hch : ch ∈ c'.changes)
    (hle : ch.seq ≤ c.syncSeq) : ch ∈ c.changes := by
  obtain ⟨-, new, hlog, hnew, -⟩ := h
  rw [hlog] at hch
  rcases mem_append.mp hch with hch | hch
  · exact hch
  · have hlt := hnew ch hch
    omega

theorem UpTo.later (h : UpTo seq map c) (hlater : Later c c') : UpTo seq map c' := by
  refine ⟨Nat.le_trans h.1 hlater.seq_le, fun name hname => ?_⟩
  rw [hlater.row_eq h.1 hname]
  exact h.2 name fun ch hch => hname ch (hlater.mem_changes hch)

/-- At the counter itself, every name is known. -/
theorem UpTo.all (hwf : c.Wf) (h : UpTo c.syncSeq map c) (name : String) :
    map name = (c.row name).map (·.etag) :=
  h.2 name fun ch hch _ => (hwf.bounds ch hch).2

/-! ## 2. Rows and their changes -/

theorem lastChange_eq_none : lastChange changes name = none ↔ ∀ ch ∈ changes, ch.name ≠ name := by
  rw [lastChange, getLast?_eq_none_iff, filter_eq_nil_iff]
  simp

theorem lastChange_spec (h : lastChange changes name = some ch) :
    ch ∈ changes ∧ ch.name = name := by
  have hmem := mem_filter.mp (mem_of_getLast? h)
  exact ⟨hmem.1, by simpa using hmem.2⟩

variable {c1 c2 c3 : CollectionRow} {ch' : Change} {limit : Option ℕ}

/-- A resource is stamped with the last change of its name. -/
theorem CollectionRow.Wf.last_of_row (h : c.Wf) (hr : c.row name = some r) :
    ∃ ch, lastChange c.changes name = some ch ∧ ch.deleted = false ∧ ch.seq = r.modSeq := by
  have hexpl := h.explained name
  rw [hr, Option.map_some] at hexpl
  obtain ⟨ch, hch, hval⟩ := Option.bind_eq_some_iff.mp hexpl.symm
  refine ⟨ch, hch, ?_⟩
  split at hval
  · cases hval
  · rename_i hdel
    exact ⟨by simpa using hdel, Option.some.inj hval⟩

theorem seq_inj (h : changes.Pairwise fun a b => a.seq < b.seq) (hch : ch ∈ changes)
    (hch' : ch' ∈ changes) (heq : ch.seq = ch'.seq) : ch = ch' := by
  have hnodup : (changes.map (·.seq)).Nodup := (pairwise_map.mpr h).imp Nat.ne_of_lt
  exact inj_on_of_nodup_map hnodup hch hch' heq

theorem lastChange_max (h : changes.Pairwise fun a b => a.seq < b.seq)
    (hlast : lastChange changes name = some ch) (hch' : ch' ∈ changes)
    (hname : ch'.name = name) : ch'.seq ≤ ch.seq := by
  obtain ⟨init, hinit⟩ := getLast?_eq_some_iff.mp hlast
  have hsorted := h.filter fun ch => decide (ch.name = name)
  have hmem : ch' ∈ changes.filter fun ch => decide (ch.name = name) :=
    mem_filter.mpr ⟨hch', by simpa using hname⟩
  rw [hinit] at hsorted hmem
  rcases mem_append.mp hmem with hmem | hmem
  · exact Nat.le_of_lt ((pairwise_append.mp hsorted).2.2 ch' hmem ch (mem_singleton_self _))
  · rw [mem_singleton.mp hmem]

theorem CollectionRow.Wf.modSeq_inj (h : c.Wf) {r' : ResourceMeta} (hr : r ∈ c.resources)
    (hr' : r' ∈ c.resources) (heq : r.modSeq = r'.modSeq) : r = r' := by
  obtain ⟨ch, hch, -, hseq⟩ := h.last_of_row (h.row_of_mem hr)
  obtain ⟨ch', hch', -, hseq'⟩ := h.last_of_row (h.row_of_mem hr')
  obtain ⟨hmem, hname⟩ := lastChange_spec hch
  obtain ⟨hmem', hname'⟩ := lastChange_spec hch'
  refine inj_on_of_nodup_map h.names hr hr' ?_
  rw [← hname, ← hname', seq_inj h.sorted hmem hmem' (by omega)]

/-! ## 3. What the responses do to the map -/

/-- Each entry says what one name has become; no two speak of the same name. -/
theorem foldl_entries (key : α → String) (value : α → Option String) (entry : α → Entry)
    (hentry : ∀ a map n, applyEntry map (entry a) n = if n = key a then value a else map n)
    (l : List α) (hnodup : (l.map key).Nodup) (map : String → Option String) (n : String) :
    (l.map entry).foldl applyEntry map n = (l.find? fun a => key a = n).elim (map n) value := by
  induction l generalizing map with
  | nil => rfl
  | cons a l ih =>
    rw [map_cons, nodup_cons] at hnodup
    rw [map_cons, foldl_cons, ih hnodup.2, find?_cons, hentry]
    by_cases hn : n = key a
    · have hrest : l.find? (fun b => decide (key b = n)) = none := by
        rw [find?_eq_none]
        intro b hb heq
        refine hnodup.1 (mem_map.mpr ⟨b, hb, ?_⟩)
        rw [← hn]
        simpa using heq
      rw [hrest, if_pos hn, hn]
      simp
    · rw [if_neg hn]
      have hne : decide (key a = n) = false := by simpa using fun h => hn h.symm
      rw [hne]

theorem find?_of_mem (hnodup : (rows.map (·.name)).Nodup) (hr : r ∈ rows) :
    rows.find? (fun x => x.name = r.name) = some r := by
  obtain ⟨r', hr'⟩ : ∃ r', rows.find? (fun x => x.name = r.name) = some r' := by
    rw [← Option.isSome_iff_exists, find?_isSome]
    exact ⟨r, hr, by simp⟩
  have hname := find?_some hr'
  rw [hr', inj_on_of_nodup_map hnodup (mem_of_find?_eq_some hr') hr (by simpa using hname)]

theorem foldl_members (hnodup : (rows.map (·.name)).Nodup) (map : String → Option String)
    (n : String) : (rows.map memberEntry).foldl applyEntry map n
      = (rows.find? fun r => r.name = n).elim (map n) fun r => some r.etag :=
  foldl_entries (·.name) (fun r => some r.etag) memberEntry (fun _ _ _ => rfl) rows hnodup map n

theorem foldl_changes (rows : List ResourceMeta) {latest : List (String × Bool)}
    (hnodup : (latest.map (·.1)).Nodup)
    (map : String → Option String) (n : String) :
    (latest.map (changeEntry rows)).foldl applyEntry map n
      = (latest.find? fun e => e.1 = n).elim (map n) fun e =>
          if e.2 then none else (rows.find? fun r => r.name = e.1).map (·.etag) := by
  refine foldl_entries (·.1) _ (changeEntry rows) (fun e map n => ?_) latest hnodup map n
  unfold changeEntry
  by_cases hdel : e.2 = true
  · rw [if_pos hdel, if_pos hdel]
    rfl
  · rw [if_neg hdel, if_neg hdel]
    cases hrow : rows.find? fun r => decide (r.name = e.1) with
    | none => rfl
    | some r =>
      have hname := find?_some hrow
      simp only [decide_eq_true_eq] at hname
      rw [← hname]
      rfl

/-! ## 4. The loop over the changes -/

/-- `latest.delete(name); latest.set(name, deleted)`. -/
def record (latest : List (String × Bool)) (c : Change) : List (String × Bool) :=
  latest.filter (fun e => e.1 ≠ c.name) ++ [(c.name, c.deleted)]

/-- The loop has taken some of the changes, and stopped at the next one or not at
all. -/
theorem scanChanges_spec (limit : Option ℕ) (cs : List Change) (latest : List (String × Bool)) :
    ∃ done rest, cs = done ++ rest ∧ (scanChanges limit cs latest).1 = done.foldl record latest
      ∧ ((scanChanges limit cs latest).2 = none ∧ rest = []
        ∨ ∃ c rest', rest = c :: rest' ∧ (scanChanges limit cs latest).2 = some (c.seq - 1)
          ∧ limit.any (fun l => l ≤ (done.foldl record latest).length) = true) := by
  induction cs generalizing latest with
  | nil => exact ⟨[], [], rfl, rfl, .inl ⟨rfl, rfl⟩⟩
  | cons c cs ih =>
    rw [scanChanges]
    by_cases hstop : (!latest.any fun e => e.1 = c.name) ∧ limit.any (fun l => l ≤ latest.length)
    · rw [if_pos hstop]
      exact ⟨[], c :: cs, rfl, rfl, .inr ⟨c, cs, rfl, rfl, hstop.2⟩⟩
    · rw [if_neg hstop]
      obtain ⟨done, rest, hcs, hlatest, hend⟩ := ih (record latest c)
      exact ⟨c :: done, rest, by rw [hcs]; rfl, hlatest, hend⟩

/-- What the map holds after the loop: the last change of every name. -/
theorem record_spec (done : List Change) : ((done.foldl record []).map (·.1)).Nodup
      ∧ ∀ name, (done.foldl record []).find? (fun e => e.1 = name)
        = (lastChange done name).map fun ch => (name, ch.deleted) := by
  induction done using List.reverseRecOn with
  | nil => exact ⟨nodup_nil, fun _ => rfl⟩
  | append_singleton done c ih =>
    obtain ⟨hnodup, hfind⟩ := ih
    rw [foldl_append, foldl_cons, foldl_nil, record]
    refine ⟨?_, fun name => ?_⟩
    · rw [map_append, nodup_append]
      refine ⟨hnodup.sublist (filter_sublist.map _), pairwise_singleton _ _, ?_⟩
      intro n hn n' hn' heq
      obtain ⟨e, he, rfl⟩ := mem_map.mp hn
      have hne := (mem_filter.mp he).2
      rw [map_singleton, mem_singleton] at hn'
      rw [heq, hn'] at hne
      simp at hne
    · rw [find?_append, find?_filter, lastChange_concat]
      by_cases hc : c.name = name
      · subst hc
        rw [find?_eq_none.mpr (by simp), if_pos rfl]
        simp
      · have hsame : ∀ l : List (String × Bool),
            l.find? (fun e => decide (decide (e.1 ≠ c.name) = true ∧ decide (e.1 = name) = true))
              = l.find? fun e => e.1 = name := by
          intro l
          refine congrArg (fun p => List.find? p l) (funext fun e => ?_)
          by_cases he : e.1 = name
          · simp [he, Ne.symm hc]
          · simp [he]
        rw [hsame, hfind, if_neg hc]
        simp [hc]

/-! ## 5. One report -/

/-- The number in a token; the empty token counts as 0. -/
def tokenSeq (token : Text) : ℕ := ((parseSyncToken token).map (·.2)).getD 0

/-- The changes above `seq`, those the loop took before those it left. -/
theorem since_split (hwf : c.Wf) {done rest : List Change}
    (h : c.changes.filter (fun ch => decide (seq < ch.seq)) = done ++ rest) :
    (∀ ch, ch ∈ done ∨ ch ∈ rest ↔ ch ∈ c.changes ∧ seq < ch.seq)
      ∧ (done ++ rest).Pairwise fun a b => a.seq < b.seq := by
  refine ⟨fun ch => ?_, h ▸ hwf.sorted.filter _⟩
  rw [← mem_append, ← h, mem_filter, decide_eq_true_eq]

theorem mem_orderByModSeq : r ∈ orderByModSeq rows ↔ r ∈ rows :=
  mem_insertionSort _

theorem nodup_orderByModSeq (h : (rows.map (·.name)).Nodup) :
    ((orderByModSeq rows).map (·.name)).Nodup :=
  (((perm_insertionSort _ rows).map _).nodup_iff).mpr h

/-- The rows that a report reads at `c` for the names it wants: each of them that is
there, and no other. -/
structure RowsAt (c : CollectionRow) (names : List String) (rows : List ResourceMeta) : Prop where
  nodup : (rows.map (·.name)).Nodup
  mem : ∀ r, r ∈ rows ↔ r ∈ c.resources ∧ r.name ∈ names

theorem RowsAt.find {names : List String} (hwf : c.Wf) (h : RowsAt c names rows)
    (hname : name ∈ names) : rows.find? (fun r => r.name = name) = c.row name := by
  cases hrow : c.row name with
  | none =>
    rw [find?_eq_none]
    intro r hr heq
    have hmem := ((h.mem r).mp hr).1
    simp only [decide_eq_true_eq] at heq
    rw [← heq, hwf.row_of_mem hmem] at hrow
    cases hrow
  | some r =>
    obtain ⟨hr, hrn⟩ := CollectionRow.row_spec hrow
    rw [← hrn]
    exact find?_of_mem h.nodup ((h.mem r).mpr ⟨hr, hrn ▸ hname⟩)

theorem rowsAt_getResources (hwf : c.Wf) (names : List String) (id : Text) :
    RowsAt c names (answerOf (some c) (.getResources id names)) := by
  refine ⟨nodup_orderByModSeq (hwf.names.sublist (filter_sublist.map _)), fun r => ?_⟩
  show r ∈ orderByModSeq _ ↔ _
  rw [mem_orderByModSeq, mem_filter]
  simp

theorem rowsAt_listMeta (hwf : c.Wf) (names : List String) (id : Text) :
    RowsAt c names ((answerOf (some c) (.listResources id)).filter fun m => m.name ∈ names) := by
  refine ⟨(nodup_orderByModSeq hwf.names).sublist (filter_sublist.map _), fun r => ?_⟩
  rw [mem_filter]
  show r ∈ orderByModSeq _ ∧ _ ↔ _
  rw [mem_orderByModSeq]
  simp

/-- The changes of an incremental report are those of its first read. -/
theorem changesBetween_eq (hwf1 : c1.Wf) (h12 : Later c1 c2) (id : Text) (seq : ℕ) :
    answerOf (some c2) (.changesBetween id seq c1.syncSeq) = c1.changes.filter fun ch =>
    seq < ch.seq := by
  obtain ⟨-, new, hlog, hnew, -⟩ := h12
  show c2.changes.filter (fun ch => decide (seq < ch.seq ∧ ch.seq ≤ c1.syncSeq)) = _
  have hnil : new.filter (fun ch => decide (seq < ch.seq ∧ ch.seq ≤ c1.syncSeq)) = [] := by
    rw [filter_eq_nil_iff]
    intro ch hch
    have hlt := hnew ch hch
    simp only [decide_eq_true_eq, not_and]
    omega
  rw [hlog, filter_append, hnil, append_nil]
  refine filter_congr fun ch hch => ?_
  simp [(hwf1.bounds ch hch).2]

/-- **An incremental report.** -/
theorem changes_upTo (hwf1 : c1.Wf) (hwf3 : c3.Wf) (h13 : Later c1 c3) (hup : UpTo seq map c3)
    (hlimit : limit ≠ some 0) {scan : List (String × Bool) × Option ℕ}
    (hscan : scan = scanChanges limit (c1.changes.filter fun ch => seq < ch.seq) [])
    (hrows : RowsAt c3 ((scan.1.filter fun e => !e.2).map (·.1)) rows) :
    UpTo (scan.2.getD c1.syncSeq) ((scan.1.map (changeEntry rows)).foldl applyEntry map) c3
      ∧ ∀ t, scan.2 = some t → seq < t := by
  obtain ⟨done, rest, hsplit, hlatest, hend⟩ :=
    scanChanges_spec limit (c1.changes.filter fun ch => seq < ch.seq) []
  rw [← hscan] at hlatest hend
  obtain ⟨hnodup, hfind⟩ := record_spec done
  obtain ⟨hmem, hsorted⟩ := since_split hwf1 hsplit
  obtain ⟨hdone, hleft, hbefore⟩ := pairwise_append.mp hsorted
  -- every change left out lies above the new token, which lies above the old one
  have htoken : (∀ ch ∈ rest, scan.2.getD c1.syncSeq < ch.seq) ∧ scan.2.getD c1.syncSeq ≤ c1.syncSeq
      ∧ ∀ t, scan.2 = some t → seq < t := by
    rcases hend with ⟨hnone, rfl⟩ | ⟨ch, rest', rfl, hstop, hfull⟩
    · rw [hnone]
      exact ⟨nofun, le_rfl, nofun⟩
    · have hbound := hwf1.bounds ch ((hmem ch).mp (.inr mem_cons_self)).1
      rw [hstop, Option.getD_some]
      refine ⟨fun ch' hch' => ?_, by omega, fun t ht => ?_⟩
      · rcases mem_cons.mp hch' with rfl | hch'
        · omega
        · have hlt := (pairwise_cons.mp hleft).1 ch' hch'
          omega
      · -- the map was full, so at least one change was taken
        have hne : done ≠ [] := by
          rintro rfl
          cases limit with
          | none => cases hfull
          | some l =>
            simp only [Option.any_some, foldl_nil, length_nil, Nat.le_zero,
              decide_eq_true_eq] at hfull
            exact hlimit (by rw [hfull])
        obtain ⟨d, hd⟩ := exists_mem_of_ne_nil done hne
        have hdseq := ((hmem d).mp (.inl hd)).2
        have hdlt := hbefore d hd ch mem_cons_self
        rw [← Option.some.inj ht]
        omega
  obtain ⟨hrest, htop, hlarger⟩ := htoken
  refine ⟨⟨Nat.le_trans htop h13.seq_le, fun name hname => ?_⟩, hlarger⟩
  have hnodup' : (scan.1.map (·.1)).Nodup := hlatest ▸ hnodup
  rw [foldl_changes rows hnodup', hlatest, hfind]
  -- the changes of this name that the first read saw above `seq` were all taken
  have htaken : ∀ ch ∈ c3.changes, ch.name = name → seq < ch.seq → ch ∈ done := by
    intro ch hch hn hlt
    have hle := hname ch hch hn
    rcases (hmem ch).mpr ⟨h13.mem_of_le hch (Nat.le_trans hle htop), hlt⟩ with hin | hout
    · exact hin
    · have hgt := hrest ch hout
      omega
  cases hlast : lastChange done name with
  | none =>
    refine hup.2 name fun ch hch hn => ?_
    by_contra hlt
    exact lastChange_eq_none.mp hlast ch (htaken ch hch hn (by omega)) hn
  | some ch =>
    obtain ⟨hch, hn⟩ := lastChange_spec hlast
    obtain ⟨hch₁, hlt⟩ := (hmem ch).mp (.inl hch)
    -- it is the last change of the name in the log of the last read, too
    have hlast₃ : lastChange c3.changes name = some ch := by
      cases hl : lastChange c3.changes name with
      | none => exact absurd hn (lastChange_eq_none.mp hl ch (h13.mem_changes hch₁))
      | some ch' =>
        obtain ⟨hmem', hn'⟩ := lastChange_spec hl
        have hle := lastChange_max hwf3.sorted hl (h13.mem_changes hch₁) hn
        have htook : ch' ∈ done := htaken ch' hmem' hn' (by omega)
        have hge := lastChange_max hdone hlast htook hn'
        rw [seq_inj hwf3.sorted hmem' (h13.mem_changes hch₁) (by omega)]
    rw [Option.map_some, Option.elim_some]
    have hexpl := hwf3.explained name
    rw [hlast₃, Option.bind_some] at hexpl
    by_cases hdel : ch.deleted = true
    · rw [if_pos hdel] at hexpl ⊢
      rw [Option.map_eq_none_iff.mp hexpl]
      rfl
    · rw [if_neg hdel]
      have hlive : name ∈ (scan.1.filter fun e => !e.2).map (·.1) := by
        rw [hlatest]
        have hmem := mem_of_find?_eq_some ((hfind name).trans (by rw [hlast]; rfl))
        refine mem_map.mpr ⟨(name, ch.deleted), mem_filter.mpr ⟨hmem, ?_⟩, rfl⟩
        simpa using hdel
      rw [hrows.find hwf3 hlive]

/-- The page of an initial report: everything up to the token it returns. -/
structure FirstPage (c : CollectionRow) (current : ℕ) (page : List ResourceMeta × Option ℕ) :
    Prop where
  mem : ∀ r ∈ page.1, r ∈ c.resources
  nodup : (page.1.map (·.name)).Nodup
  top : page.2.getD current ≤ current
  all : ∀ r ∈ c.resources, r.modSeq ≤ page.2.getD current → r ∈ page.1
  pos : ∀ t, page.2 = some t → 0 < t

variable {page : List ResourceMeta × Option ℕ}

theorem firstPage_firstMembers (hwf : c.Wf) (hlimit : limit ≠ some 0) {current : ℕ}
    (hpage : page = firstMembers limit ((orderByModSeq c.resources).filter fun m =>
      m.modSeq ≤ current)) :
    FirstPage c current page := by
  generalize hmembers : (orderByModSeq c.resources).filter (fun m => decide (m.modSeq ≤ current))
    = members at hpage
  have hmem : ∀ r, r ∈ members ↔ r ∈ c.resources ∧ r.modSeq ≤ current := by
    intro r
    rw [← hmembers, mem_filter, mem_orderByModSeq]
    simp
  have hnodup : (members.map (·.name)).Nodup := by
    rw [← hmembers]
    exact (nodup_orderByModSeq hwf.names).sublist (filter_sublist.map _)
  have hwhole : page = (members, none) → FirstPage c current page := by
    rintro rfl
    exact ⟨fun r hr => ((hmem r).mp hr).1, hnodup, le_rfl, fun r hr hle =>
      (hmem r).mpr ⟨hr, hle⟩, nofun⟩
  unfold firstMembers at hpage
  cases limit with
  | none => exact hwhole hpage
  | some l =>
    dsimp only at hpage
    by_cases hlong : l < members.length
    · rw [if_pos hlong] at hpage
      have hl : l ≠ 0 := fun h => hlimit (by rw [h])
      obtain ⟨last, hlast⟩ : ∃ last, (members.take l).getLast? = some last := by
        rw [← Option.isSome_iff_exists, getLast?_isSome, ne_eq, take_eq_nil_iff]
        rintro (h | h)
        · exact hl h
        · rw [h] at hlong
          exact absurd hlong (Nat.not_lt_zero _)
      rw [hlast, Option.map_some, Option.getD_some] at hpage
      subst hpage
      have hlastmem : last ∈ members := mem_of_mem_take (mem_of_getLast? hlast)
      obtain ⟨hlastres, hlastle⟩ := (hmem last).mp hlastmem
      refine ⟨fun r hr => ((hmem r).mp (mem_of_mem_take hr)).1,
        hnodup.sublist ((take_sublist _ _).map _), hlastle, fun r hr hle => ?_, fun t ht => ?_⟩
      · -- a member beyond the page is stamped no lower than its last, so it would be its last
        have hrmem : r ∈ members := (hmem r).mpr ⟨hr, Nat.le_trans hle hlastle⟩
        rw [← take_append_drop l members] at hrmem
        rcases mem_append.mp hrmem with hin | hout
        · exact hin
        · have hsorted : members.Pairwise fun a b => a.modSeq ≤ b.modSeq := by
            rw [← hmembers]
            exact (pairwise_insertionSort (fun a b : ResourceMeta => a.modSeq ≤ b.modSeq) _).filter
              _
          rw [← take_append_drop l members] at hsorted
          have hge := (pairwise_append.mp hsorted).2.2 last (mem_of_getLast? hlast) r hout
          rw [hwf.modSeq_inj hr hlastres (Nat.le_antisymm hle hge)]
          exact mem_of_getLast? hlast
      · obtain ⟨ch, hch, -, hseq⟩ := hwf.last_of_row (hwf.row_of_mem hlastres)
        have hbound := hwf.bounds ch (lastChange_spec hch).1
        rw [← Option.some.inj ht]
        omega
    · rw [if_neg hlong] at hpage
      exact hwhole hpage

/-- **An initial report.** The rows are those of the page, read again or not. -/
theorem initial_upTo (hwf2 : c2.Wf) (hwf3 : c3.Wf) (h12 : Later c1 c2) (h23 : Later c2 c3)
    (hpage : FirstPage c2 c1.syncSeq page) (hnodup : (rows.map (·.name)).Nodup)
    (hrows : rows = page.1 ∧ c3 = c2 ∨ RowsAt c3 (page.1.map (·.name)) rows) :
    UpTo (page.2.getD c1.syncSeq) ((rows.map memberEntry).foldl applyEntry fun _ => none) c3 := by
  have h13 := h12.trans h23
  refine ⟨Nat.le_trans hpage.top h13.seq_le, fun name hname => ?_⟩
  have hsame : c3.row name = c2.row name := h23.row_eq (Nat.le_trans hpage.top h12.seq_le) hname
  -- a reported row of this name is the row, and the row is reported
  have hsound : ∀ r ∈ rows, r.name = name → c3.row name = some r := by
    rintro r hr rfl
    rcases hrows with ⟨rfl, rfl⟩ | hrows
    · exact hwf2.row_of_mem (hpage.mem r hr)
    · exact hwf3.row_of_mem ((hrows.mem r).mp hr).1
  have hcomplete : ∀ r, c3.row name = some r → r ∈ rows := by
    intro r hr
    have hr₂ := hsame ▸ hr
    obtain ⟨hmem, hrn⟩ := CollectionRow.row_spec hr₂
    obtain ⟨ch, hch, -, hseq⟩ := hwf2.last_of_row hr₂
    obtain ⟨hchmem, hchname⟩ := lastChange_spec hch
    have hle := hname ch (h23.mem_changes hchmem) hchname
    have hinpage := hpage.all r hmem (by omega)
    rcases hrows with ⟨rfl, -⟩ | hrows
    · exact hinpage
    · exact (hrows.mem r).mpr ⟨(CollectionRow.row_spec hr).1, mem_map_of_mem hinpage⟩
  rw [foldl_members hnodup]
  cases hrow : c3.row name with
  | none =>
    have hnone : rows.find? (fun r => decide (r.name = name)) = none := by
      rw [find?_eq_none]
      intro r hr heq
      rw [hsound r hr (by simpa using heq)] at hrow
      cases hrow
    rw [hnone]
    rfl
  | some r =>
    obtain ⟨-, rfl⟩ := CollectionRow.row_spec hrow
    rw [find?_of_mem hnodup (hcomplete r hrow)]
    rfl

/-! ## 6. A report among the writers -/

/-- The collection and what the reads so far have seen of it. Others only make it
later; a read answers from it. -/
def reading (id : Text) : Shared (CollectionRow × List (Option CollectionRow)) Query Query.Result
    Empty where
  others a b := Later a.1 b.1 ∧ b.1.Wf ∧ b.2 = a.2
  answer a q out b := b = (a.1, a.2 ++ [some a.1]) ∧ ∃ db : Db, db id = some a.1
    ∧ out = .ok (answer db q)

variable {id : Text} {seen : List (Option CollectionRow)}

theorem ensures_ask (q : Query) {k : q.Result → Reads α}
    {Q : Except Empty α → CollectionRow × List (Option CollectionRow) → Prop}
    (hq : q.collectionId = id)
    (h : ∀ c', Later c c' → c'.Wf → (k (answerOf (some c') q)).ensures (reading id) Q
      (c', seen ++ [some c'])) :
    (ask q >>= k).ensures (reading id) Q (c, seen) := by
  rintro ⟨c', seen'⟩ s2 ⟨hlater, hwf, hseen⟩
  obtain rfl : seen' = seen := hseen
  refine ⟨fun r hr => ?_, fun e => e.elim⟩
  obtain ⟨rfl, db, hdb, hr⟩ := hr
  obtain rfl : r = answer db q := Except.ok.inj hr
  have hanswer : answer db q = answerOf (some c') q := by rw [answer, hq, hdb]
  rw [hanswer]
  exact h c' hlater hwf

/-- What the client may count on in a reply. -/
structure Tells (id : Text) (client : Client) (request : SyncRequest) (reply : Reply)
    (s : CollectionRow × List (Option CollectionRow)) : Prop where
  reply_eq : ∃ responses seq, reply = .multistatus responses (syncToken id seq) ∧ seq ≤ INT8_MAX
    ∧ UpTo seq (client.receive reply).map s.1
    ∧ (reply.truncated = true → tokenSeq request.syncToken < seq)
  exact_map : reply.truncated = false → ∀ c, (∀ x ∈ s.2, x = some c) →
    ∀ name, (client.receive reply).map name = (c.row name).map (·.etag)

theorem Tells.others {s s' : CollectionRow × List (Option CollectionRow)}
    (h : Tells id client request reply s) (hs : (reading id).others s s') :
    Tells id client request reply s' := by
  obtain ⟨hlater, -, hseen⟩ := hs
  obtain ⟨responses, seq, hreply, hint8, hup, htrunc⟩ := h.reply_eq
  exact ⟨⟨responses, seq, hreply, hint8, hup.later hlater, htrunc⟩, hseen ▸ h.exact_map⟩

theorem Entry.members_not_limits {entry : α → Entry} (h : ∀ a, entry a ≠ .withinLimits)
    (l : List α) :
    (l.map entry).any (fun e => e = .withinLimits) = false := by
  rw [any_eq_false]
  intro e he
  obtain ⟨a, -, rfl⟩ := mem_map.mp he
  simpa using h a

theorem tells_finishReply {responses : List Entry} {stopped : Option ℕ} (hwf : c3.Wf)
    (hup : UpTo (stopped.getD c1.syncSeq) (responses.foldl applyEntry client.map) c3)
    (hclean : responses.any (fun e => e = .withinLimits) = false)
    (hlarger : ∀ t, stopped = some t → tokenSeq request.syncToken < t) (hfirst : some c1 ∈ seen)
    (hlast : some c3 ∈ seen) :
    Tells id client request (finishReply id c1.syncSeq responses stopped) (c3, seen) := by
  have hmap : (client.receive (finishReply id c1.syncSeq responses stopped)).map
      = responses.foldl applyEntry client.map := by
    rw [finishReply, Client.receive]
    rw [foldl_append]
    split
    · rfl
    · rfl
  have htrunc : (finishReply id c1.syncSeq responses stopped).truncated = stopped.isSome := by
    rw [finishReply, Reply.truncated, any_append, hclean]
    cases stopped with
    | none => rfl
    | some t => rfl
  refine ⟨⟨_, _, rfl, Nat.le_trans hup.1 hwf.int8, hmap ▸ hup, fun ht => ?_⟩, fun ht c hseen name =>
    ?_⟩
  · rw [htrunc] at ht
    obtain ⟨t, rfl⟩ := Option.isSome_iff_exists.mp ht
    exact hlarger t rfl
  · rw [htrunc, Option.isSome_eq_false_iff, Option.isNone_iff_eq_none] at ht
    obtain rfl : c1 = c := Option.some.inj (hseen _ hfirst)
    obtain rfl : c3 = c1 := Option.some.inj (hseen _ hlast)
    rw [hmap]
    rw [ht, Option.getD_none] at hup
    exact hup.all hwf name

/-- What the client has before a request. -/
def Synced (id : Text) (client : Client) (c : CollectionRow) : Prop :=
  client.token = [] ∧ (client.map = fun _ => none)
    ∨ ∃ seq, seq ≤ INT8_MAX ∧ client.token = syncToken id seq ∧ UpTo seq client.map c

theorem Synced.later (h : Synced id client c) (hlater : Later c c') : Synced id client c' := by
  rcases h with h | ⟨seq, hint8, htoken, hup⟩
  · exact .inl h
  · exact .inr ⟨seq, hint8, htoken, hup.later hlater⟩

theorem tokenSeq_syncToken (hid : IsCollectionId id) (hseq : seq ≤ INT8_MAX) :
    tokenSeq (syncToken id seq) = seq := by
  rw [tokenSeq, parseSyncToken_syncToken hid hseq]
  rfl

/-- What a report ensures of its reply. -/
abbrev Reports (id : Text) (client : Client) (request : SyncRequest) (p : Reads Reply)
    (c : CollectionRow)
    (seen : List (Option CollectionRow)) : Prop :=
  p.ensures (reading id) (fun out s => ∀ reply, out = .ok reply → Tells id client request reply s)
    (c, seen)

theorem reports_pure (h : Tells id client request reply (c, seen)) :
    Reports id client request (pure reply) c seen := by
  rintro _ ⟨rfl⟩
  exact h

theorem reports_initialSync (hlimit : request.limit ≠ some 0) (htoken : request.syncToken = [])
    (hmap : client.map = fun _ => none) (known : ℕ) (hfirst : some c1 ∈ seen) :
    Reports id client request (initialSync ⟨id, known⟩ request c1.syncSeq) c1 seen := by
  refine ensures_ask (.listResources id) rfl fun c2 h12 hwf2 => ?_
  generalize hpage : firstMembers request.limit
    ((answerOf (some c2) (.listResources id)).filter fun m => decide (m.modSeq ≤ c1.syncSeq)) = page
  have hfirstPage := firstPage_firstMembers hwf2 hlimit hpage.symm
  have hsent : ∀ t, page.2 = some t → tokenSeq request.syncToken < t := by
    intro t ht
    rw [htoken]
    exact hfirstPage.pos t ht
  have hfirst2 : some c1 ∈ seen ++ [some c2] := mem_append_left _ hfirst
  have hclean : ∀ rows : List ResourceMeta, (rows.map memberEntry).any
      (fun e => decide (e = .withinLimits)) = false :=
    fun rows => Entry.members_not_limits nofun rows
  by_cases hdata : request.withData = true
  · rw [if_pos hdata]
    refine ensures_ask (.getResources id _) rfl fun c3 h23 hwf3 => ?_
    have hrows := rowsAt_getResources hwf3 (page.1.map (·.name)) id
    refine reports_pure (tells_finishReply hwf3 ?_ (hclean _) hsent (mem_append_left _ hfirst2)
      (by simp))
    rw [hmap]
    exact initial_upTo hwf2 hwf3 h12 h23 hfirstPage hrows.nodup (.inr hrows)
  · rw [if_neg hdata]
    refine reports_pure (tells_finishReply hwf2 ?_ (hclean _) hsent hfirst2 (by simp))
    rw [hmap]
    exact initial_upTo hwf2 hwf2 h12 (Later.refl c2) hfirstPage hfirstPage.nodup (.inl ⟨rfl, rfl⟩)

theorem changeEntry_ne_limits (rows : List ResourceMeta) (e : String × Bool) :
    changeEntry rows e ≠ .withinLimits := by
  unfold changeEntry
  split
  · exact nofun
  · exact nofun

theorem reports_changesSync (hid : IsCollectionId id) (hwf1 : c1.Wf)
    (hlimit : request.limit ≠ some 0) (hint8 : seq ≤ INT8_MAX)
    (htoken : request.syncToken = syncToken id seq) (hup : UpTo seq client.map c1) (known : ℕ)
    (hfirst : some c1 ∈ seen) :
    Reports id client request (changesSync ⟨id, known⟩ request seq c1.syncSeq) c1 seen := by
  refine ensures_ask (.changesBetween id seq c1.syncSeq) rfl fun c2 h12 hwf2 => ?_
  rw [changesBetween_eq hwf1 h12]
  generalize hscan : scanChanges request.limit (c1.changes.filter fun ch => decide (seq < ch.seq))
    [] = scan
  have hclean : ∀ rows : List ResourceMeta,
      (scan.1.map (changeEntry rows)).any (fun e => decide (e = .withinLimits)) = false :=
    fun rows => Entry.members_not_limits (changeEntry_ne_limits rows) _
  have hfirst2 : some c1 ∈ seen ++ [some c2] := mem_append_left _ hfirst
  -- both ways to read the rows give the rows of the last read
  have hfinish : ∀ c3, Later c2 c3 → c3.Wf → ∀ rows, RowsAt c3
      ((scan.1.filter fun e => !e.2).map (·.1)) rows →
      Reports id client request
        (pure (finishReply id c1.syncSeq (scan.1.map (changeEntry rows)) scan.2)) c3
        (seen ++ [some c2] ++ [some c3]) := by
    intro c3 h23 hwf3 rows hrows
    have h13 := h12.trans h23
    obtain ⟨hup₃, hlarger⟩ := changes_upTo hwf1 hwf3 h13 (hup.later h13) hlimit hscan.symm hrows
    refine reports_pure (tells_finishReply hwf3 hup₃ (hclean rows) ?_ (mem_append_left _ hfirst2)
      (by simp))
    rw [htoken, tokenSeq_syncToken hid hint8]
    exact hlarger
  by_cases hdata : request.withData = true
  · rw [if_pos hdata]
    refine ensures_ask (.getResources id _) rfl fun c3 h23 hwf3 => ?_
    exact hfinish c3 h23 hwf3 _ (rowsAt_getResources hwf3 _ id)
  · rw [if_neg hdata]
    refine ensures_ask (.listResources id) rfl fun c3 h23 hwf3 => ?_
    exact hfinish c3 h23 hwf3 _ (rowsAt_listMeta hwf3 _ id)

/-- **One report.** Whatever is committed between its reads. -/
theorem reports_syncCollection (hid : IsCollectionId id) (hsynced : Synced id client c)
    (hlimit : request.limit ≠ some 0) (htoken : request.syncToken = client.token) (known : ℕ) :
    Reports id client request (syncCollection ⟨id, known⟩ request) c [] := by
  refine ensures_ask (.currentSeq id) rfl fun c1 h1 hwf1 => ?_
  have hcurrent : (answerOf (some c1) (.currentSeq id)).getD known = c1.syncSeq := rfl
  have hsynced1 := hsynced.later h1
  have hfirst : some c1 ∈ [some c1] := mem_singleton_self _
  rw [hcurrent]
  rcases hsynced1 with ⟨hempty, hmap⟩ | ⟨seq, hint8, hseq, hup⟩
  · rw [if_pos (htoken.trans hempty)]
    exact reports_initialSync hlimit (htoken.trans hempty) hmap known hfirst
  · have hsent : request.syncToken = syncToken id seq := htoken.trans hseq
    have hin : ¬ (id ≠ id ∨ c1.syncSeq < seq) := by
      have hle := hup.1
      simp only [ne_eq, not_true_eq_false, false_or, Nat.not_lt]
      exact hle
    rw [if_neg (by rw [hsent]; exact syncToken_ne_nil id seq), hsent,
      parseSyncToken_syncToken hid hint8]
    dsimp only
    rw [if_neg hin]
    exact reports_changesSync hid hwf1 hlimit hint8 hsent hup known hfirst

/-! ## 7. Whole histories -/

/-- What is true of a request that was answered. -/
def Exchange.Sound (x : Exchange) : Prop :=
  ∃ responses token, x.reply = .multistatus responses token
    ∧ (x.reply.truncated = true → tokenSeq x.request.syncToken < tokenSeq token)
    ∧ (x.reply.truncated = false → ∀ c, (∀ s ∈ x.seen, s = some c) →
        ∀ name, x.after.map name = (c.row name).map (·.etag))

/-- The invariant of a client among writers. -/
structure World.Inv (id : Text) (w : World) : Prop where
  serial : DavServer.Serial w.server
  there : ∃ c, w.server.db id = some c ∧ Synced id w.client c
    ∧ ∀ f, w.flight = some f → Reports id w.client f.request f.rest c f.seen
  past : ∀ x ∈ w.exchanges, x.Sound

theorem Tells.synced {s : CollectionRow × List (Option CollectionRow)}
    (h : Tells id client request reply s) : Synced id (client.receive reply) s.1 := by
  obtain ⟨responses, seq, rfl, hint8, hup, -⟩ := h.reply_eq
  exact .inr ⟨seq, hint8, rfl, hup⟩

theorem Tells.sound (hid : IsCollectionId id) (h : Tells id client request reply (c, seen)) :
    Exchange.Sound ⟨request, reply, seen, client.receive reply⟩ := by
  obtain ⟨responses, seq, rfl, hint8, -, htrunc⟩ := h.reply_eq
  refine ⟨responses, _, rfl, fun ht => ?_, h.exact_map⟩
  rw [tokenSeq_syncToken hid hint8]
  exact htrunc ht

theorem World.Inv.step (hid : IsCollectionId id) {w w' : World} {a : Act} (h : w.Inv id)
    (hok : positiveLimit w a)
    (hstep : w.step id a = some w') : w'.Inv id := by
  obtain ⟨hserial, ⟨c, hc, hsynced, hflight⟩, hpast⟩ := h
  have hwf : c.Wf := hserial.good id c hc
  cases a with
  | server a =>
    obtain ⟨server, hserver, rfl⟩ := Option.map_eq_some_iff.mp hstep
    obtain ⟨hserial', hfollows⟩ := hserial.follows hserver
    obtain ⟨c', hc', hlater⟩ := hfollows id c hc
    have hothers : ∀ seen, (reading id).others (c, seen) (c', seen) := fun seen =>
      ⟨hlater, hserial'.good id c' hc', rfl⟩
    refine ⟨hserial', ⟨c', hc', hsynced.later hlater, fun f hf => ?_⟩, hpast⟩
    refine Txn.ensures_others (fun h1 h2 => ⟨h1.1.trans h2.1, h2.2.1, h2.2.2.trans h1.2.2⟩) ?_
      (hflight f hf) (hothers f.seen)
    exact fun hothers htells reply hreply => (htells reply hreply).others hothers
  | send known limit withData =>
    rw [World.step] at hstep
    split at hstep
    · cases hstep
    · rw [Option.some.injEq] at hstep
      subst hstep
      refine ⟨hserial, ⟨c, hc, hsynced, fun f hf => ?_⟩, hpast⟩
      rw [← Option.some.inj hf]
      have hlimit : limit ≠ some 0 := hok
      exact reports_syncCollection hid hsynced hlimit rfl known
  | read =>
    rw [World.step] at hstep
    split at hstep
    · rename_i request q k seen hf
      rw [Option.some.injEq] at hstep
      subst hstep
      refine ⟨hserial, ⟨c, hc, hsynced, fun f hf' => ?_⟩, hpast⟩
      rw [← Option.some.inj hf']
      have hreports := hflight _ hf
      rw [hc]
      exact (hreports (c, seen) _ ⟨Later.refl c, hwf, rfl⟩).1 _ ⟨rfl, w.server.db, hc, rfl⟩
    · cases hstep
  | receive =>
    rw [World.step] at hstep
    split at hstep
    · rename_i request reply seen hf
      rw [Option.some.injEq] at hstep
      subst hstep
      have htells : Tells id w.client request reply (c, seen) := hflight _ hf reply rfl
      refine ⟨hserial, ⟨c, hc, htells.synced, nofun⟩, ?_⟩
      rw [forall_mem_append, forall_mem_singleton]
      exact ⟨hpast, htells.sound hid⟩
    · cases hstep

theorem World.Inv.run (hid : IsCollectionId id) (hdb : Good db) (hc : db id = some c)
    (ids : List Text) {w : World}
    (hrun : Run (World.step id) positiveLimit { server := Server.init db ids } w) : w.Inv id := by
  refine Run.invariant (World.Inv id) ?_ (fun w a w' h hok hstep => h.step hid hok hstep) hrun
  exact ⟨Serial.init ids hdb, ⟨c, hc, .inl ⟨rfl, rfl⟩, nofun⟩, nofun⟩

/-! ## 8. A collection at rest -/

/-- What a client may vary from one request to the next. -/
structure Asked where
  known : ℕ
  limit : Option ℕ
  withData : Bool

/-- A whole report while nobody writes. -/
def quietReply (id : Text) (db : Db) (client : Client) (asked : Asked) : Option Reply :=
  (syncCollection ⟨id, asked.known⟩ ⟨client.token, asked.limit, asked.withData⟩).answered fun q =>
    some (answer db q)

/-- The client after `n` such reports. -/
def quietClient (id : Text) (db : Db) (client : Client) (asked : ℕ → Asked) : ℕ → Client
  | 0 => client
  | n + 1 =>
    let before := quietClient id db client asked n
    match quietReply id db before (asked n) with
    | some reply => before.receive reply
    | none => before

theorem quietReply_tells (hid : IsCollectionId id) (hwf : c.Wf) (hc : db id = some c)
    (hsynced : Synced id client c) {asked : Asked} (hlimit : asked.limit ≠ some 0) :
    ∃ reply seen, quietReply id db client asked = some reply
      ∧ Tells id client ⟨client.token, asked.limit, asked.withData⟩ reply (c, seen) := by
  have hanswered : (quietReply id db client asked).isSome = true := Txn.answered_isSome _
  obtain ⟨reply, hreply⟩ := Option.isSome_iff_exists.mp hanswered
  -- answered from one database, the script also runs among writers that do nothing
  have hrun : ∀ (p : Reads Reply) seen, (p.answered fun q => some (answer db q)) = some reply →
      Reports id client ⟨client.token, asked.limit, asked.withData⟩ p c seen →
      ∃ seen', Tells id client ⟨client.token, asked.limit, asked.withData⟩ reply (c, seen') := by
    intro p
    induction p with
    | done r =>
      intro seen hr hp
      obtain rfl : r = reply := Option.some.inj hr
      exact ⟨seen, hp r rfl⟩
    | fail e => exact e.elim
    | stmt q k ih =>
      intro seen hr hp
      exact ih (answer db q) (seen ++ [some c]) hr
        ((hp (c, seen) _ ⟨Later.refl c, hwf, rfl⟩).1 _ ⟨rfl, db, hc, rfl⟩)
  obtain ⟨seen, htells⟩ := hrun _ [] hreply
    (reports_syncCollection hid hsynced hlimit rfl asked.known)
  exact ⟨reply, seen, hreply, htells⟩

/-- The token grows until a reply is not truncated. -/
theorem quiet_converges (hid : IsCollectionId id) (hwf : c.Wf) (hc : db id = some c)
    (hsynced : Synced id client c) (asked : ℕ → Asked) (hlimit : ∀ n, (asked n).limit ≠ some 0) :
    ∃ n reply, quietReply id db (quietClient id db client asked n) (asked n) = some reply
      ∧ reply.truncated = false := by
  by_contra hnever
  push Not at hnever
  have hgrow : ∀ n, Synced id (quietClient id db client asked n) c
      ∧ n ≤ tokenSeq (quietClient id db client asked n).token := by
    intro n
    induction n with
    | zero => exact ⟨hsynced, Nat.zero_le _⟩
    | succ n ih =>
      obtain ⟨hs, hn⟩ := ih
      obtain ⟨reply, seen, hreply, htells⟩ := quietReply_tells hid hwf hc hs (hlimit n)
      have htrunc : reply.truncated = true := by simpa using hnever n reply hreply
      rw [quietClient, hreply]
      refine ⟨htells.synced, ?_⟩
      obtain ⟨responses, seq, rfl, hint8, -, hlarger⟩ := htells.reply_eq
      have hlt := hlarger htrunc
      dsimp only at hlt
      show n + 1 ≤ tokenSeq (syncToken id seq)
      rw [tokenSeq_syncToken hid hint8]
      omega
  -- but no token is above the counter
  have hbound : ∀ client', Synced id client' c → tokenSeq client'.token ≤ c.syncSeq := by
    rintro client' (⟨hempty, -⟩ | ⟨seq, hint8, htoken, hup⟩)
    · rw [hempty]
      exact Nat.zero_le _
    · rw [htoken, tokenSeq_syncToken hid hint8]
      exact hup.1
  obtain ⟨hs, hn⟩ := hgrow (c.syncSeq + 1)
  have hle := hbound _ hs
  omega

/-- **sync-collection converges and misses nothing.** In every history of a
collection: every request of the client is answered with a multistatus; a truncated
one returns a larger token; after one that is not truncated and whose reads all saw
the collection in one state, the client's map is that state; and whenever the
collection comes to rest, some later reply is not truncated. -/
theorem sync_collection_converges (hid : IsCollectionId id) {db : Db} (hdb : Good db)
    (hc : db id = some c)
    (ids : List Text) {w : World}
    (hrun : Run (World.step id) positiveLimit { server := Server.init db ids } w) :
    (∀ x ∈ w.exchanges, ∃ responses token, x.reply = .multistatus responses token
      ∧ (x.reply.truncated = true → tokenSeq x.request.syncToken < tokenSeq token)
      ∧ (x.reply.truncated = false → ∀ c, (∀ s ∈ x.seen, s = some c) →
          ∀ name, x.after.map name = (c.row name).map (·.etag)))
    ∧ (w.flight = none → ∀ asked : ℕ → Asked, (∀ n, (asked n).limit ≠ some 0) →
        ∃ n reply, quietReply id w.server.db (quietClient id w.server.db w.client asked n)
        (asked n) = some reply
          ∧ reply.truncated = false) := by
  have hinv := World.Inv.run hid hdb hc ids hrun
  obtain ⟨c', hc', hsynced, -⟩ := hinv.there
  refine ⟨hinv.past, fun _ asked hlimit => ?_⟩
  exact quiet_converges hid (hinv.serial.good id c' hc') hc' hsynced asked hlimit

/-! ## 9. A collection with two members -/

def zeroId : Text := "00000000-0000-0000-0000-000000000000".toList

def twoMembers : CollectionRow where
  syncSeq := 3
  resources := [⟨1, "a.ics", "a", none, "A", 10, 1⟩, ⟨2, "b.ics", "b", none, "B", 10, 3⟩]
  changes := [⟨"a.ics", false, 1⟩, ⟨"b.ics", false, 2⟩, ⟨"b.ics", false, 3⟩]

theorem twoMembers_wf : twoMembers.Wf where
  names := by decide
  ids := by decide
  sorted := by decide
  bounds := by decide
  int8 := by decide
  explained name := by
    by_cases ha : name = "a.ics"
    · subst ha
      decide
    by_cases hb : name = "b.ics"
    · subst hb
      decide
    have hrow : twoMembers.row name = none := by
      rw [CollectionRow.row, find?_eq_none]
      simp [twoMembers, Ne.symm ha, Ne.symm hb]
    have hlast : lastChange twoMembers.changes name = none := by
      rw [lastChange_eq_none]
      simp [twoMembers, Ne.symm ha, Ne.symm hb]
    rw [hrow, hlast]
    rfl

theorem good_twoMembers : Good (Table.single zeroId twoMembers) := by
  intro id c hc
  unfold Table.single at hc
  split at hc
  · rw [← Option.some.inj hc]
    exact twoMembers_wf
  · cases hc

instance (w : World) : (a : Act) → Decidable (positiveLimit w a)
  | .send _ limit _ => inferInstanceAs (Decidable (limit ≠ some 0))
  | .server _ => isTrue trivial
  | .read => isTrue trivial
  | .receive => isTrue trivial

/-- `n` statements of the `i`-th writer; the ids they draw are new from `k` on. -/
def statements (i k n : ℕ) : List Act :=
  (List.range n).map fun m => .server (.advance i (List.replicate (k + m) 'x'))

def addMember : Command :=
  .put 10 zeroId
    { name := "c.ics", uid := "c", componentType := none, size := 10, preconditions := {} } ⟨"C", 3⟩

/-- A report of at most one member while a member is added, one without a limit while
another is deleted, and one at rest. -/
def threeReports : List Act :=
  [.send 3 (some 1) false, .read, .server (.start addMember)] ++ statements 0 0 8
    ++ [.read, .receive, .send 3 none true, .read, .server (.start (.delete zeroId "a.ics" {}))]
    ++ statements 1 8 6
    ++ [.read, .read, .receive, .send 3 none false, .read, .read, .read, .receive]

theorem threeReports_run : (runWhile (World.step zeroId) positiveLimit
    { server := Server.init (Table.single zeroId twoMembers) [] } threeReports).isSome
    = true := by decide +kernel

/-- Both writers commit between two reads of a report. -/
theorem sync_collection_converges_three :
    ∃ w, Run (World.step zeroId) positiveLimit
    { server := Server.init (Table.single zeroId twoMembers) [] } w
      ∧ w.exchanges.map (·.reply.truncated) = [true, false, false]
      ∧ w.exchanges.map (fun x => x.seen.map (Option.map (·.syncSeq)))
        = [[some 3, some 4], [some 4, some 5, some 5], [some 5, some 5, some 5]]
      ∧ ∀ x ∈ w.exchanges, ∃ responses token, x.reply = .multistatus responses token
        ∧ (x.reply.truncated = true → tokenSeq x.request.syncToken < tokenSeq token)
        ∧ (x.reply.truncated = false → ∀ c, (∀ s ∈ x.seen, s = some c) →
            ∀ name, x.after.map name = (c.row name).map (·.etag)) := by
  have hrun := Run.runWhile threeReports Run.refl (Option.some_get threeReports_run).symm
  refine ⟨_, hrun, by decide +kernel, by decide +kernel, ?_⟩
  exact (sync_collection_converges (by decide) good_twoMembers (Table.single_same _ _) [] hrun).1

end Postroom.Dav
