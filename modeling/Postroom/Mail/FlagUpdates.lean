/-
What a STORE does, exactly.

`keeps_storeFlags` says that a STORE leaves the database good. A session that did
the STORE needs more: which rows were rewritten, with which flags, and that the rows
it is answered are the committed ones. And it needs to know when two lists of flags
are one set of flags: the code decides this by `sameFlags`, which counts spellings.
-/
import Postroom.Mail.Writers
import Mathlib

set_option autoImplicit false

namespace Postroom.Mail

open Lib List

/-! ## 1. Sets of flags -/

/-- The same flags, in any order and any spelling. -/
def SameFlagSet (a b : List String) : Prop := ∀ k, k ∈ a.map flagKey ↔ k ∈ b.map flagKey

theorem SameFlagSet.refl (a : List String) : SameFlagSet a a := fun _ => Iff.rfl

variable {a b : List String}

theorem SameFlagSet.trans {c : List String} (h : SameFlagSet a b) (h' : SameFlagSet b c) :
    SameFlagSet a c := fun k => (h k).trans (h' k)

/-- Two texts that agree in upper case agree in lower case. -/
theorem lower_of_upper {a b : List Char} (h : a.map Char.toUpper = b.map Char.toUpper) :
    a.map Char.toLower = b.map Char.toLower := by
  have hlower := congrArg (List.map Char.toLower) h
  simpa [Function.comp_def] using hlower

theorem flagKey_canonicalFlag (flag : String) : flagKey (canonicalFlag flag) = flagKey flag := by
  unfold canonicalFlag
  cases hf : SYSTEM_FLAGS.find? fun f =>
      f.toList.map Char.toUpper = flag.toList.map Char.toUpper with
  | none => rfl
  | some f =>
    have hsame : f.toList.map Char.toUpper = flag.toList.map Char.toUpper := by
      simpa using find?_some hf
    exact lower_of_upper hsame

theorem mem_normalizeFlags_go (seen : List (List Char)) (flags : List String) (k : List Char) :
    k ∈ (normalizeFlags.go seen flags).map flagKey
      ↔ k ≠ flagKey "\\recent" ∧ k ∉ seen ∧ k ∈ flags.map flagKey := by
  induction flags generalizing seen with
  | nil => simp [normalizeFlags.go]
  | cons raw rest ih =>
    rw [normalizeFlags.go, map_cons]
    simp only [flagKey_canonicalFlag]
    split
    · -- dropped: it is \Recent, or it has been passed
      rename_i hdrop
      rw [ih seen, mem_cons]
      constructor
      · rintro ⟨hrecent, hseen, hk⟩
        exact ⟨hrecent, hseen, .inr hk⟩
      · rintro ⟨hrecent, hseen, rfl | hk⟩
        · exact absurd hdrop (not_or.mpr ⟨hrecent, hseen⟩)
        · exact ⟨hrecent, hseen, hk⟩
    · rename_i hkeep
      rw [not_or] at hkeep
      rw [map_cons, flagKey_canonicalFlag, mem_cons, mem_cons, ih (flagKey raw :: seen), mem_cons]
      constructor
      · rintro (rfl | ⟨hrecent, hseen, hk⟩)
        · exact ⟨hkeep.1, hkeep.2, .inl rfl⟩
        · exact ⟨hrecent, fun h => hseen (.inr h), .inr hk⟩
      · rintro ⟨hrecent, hseen, hk⟩
        by_cases heq : k = flagKey raw
        · exact .inl heq
        · exact .inr ⟨hrecent, not_or.mpr ⟨heq, hseen⟩, hk.resolve_left heq⟩

theorem mem_normalizeFlags (flags : List String) (k : List Char) :
    k ∈ (normalizeFlags flags).map flagKey ↔ k ≠ flagKey "\\recent" ∧ k ∈ flags.map flagKey := by
  rw [normalizeFlags, mem_normalizeFlags_go]
  simp

theorem applyFlags_congr (h : SameFlagSet a b) (op : StoreOperation) (flags : List String) :
    SameFlagSet (applyFlags a op flags) (applyFlags b op flags) := by
  intro k
  cases op with
  | set => exact Iff.rfl
  | add =>
    show k ∈ (normalizeFlags _).map flagKey ↔ k ∈ (normalizeFlags _).map flagKey
    rw [mem_normalizeFlags, mem_normalizeFlags, map_append, map_append, mem_append, mem_append, h k]
  | remove =>
    have hfilter : ∀ l : List String, k ∈ (applyFlags l .remove flags).map flagKey
        ↔ k ∈ l.map flagKey ∧ k ∉ (normalizeFlags flags).map flagKey := by
      intro l
      simp only [applyFlags, mem_map, mem_filter, decide_eq_true_eq]
      constructor
      · rintro ⟨f, ⟨hf, hnot⟩, rfl⟩
        exact ⟨⟨f, hf, rfl⟩, hnot⟩
      · rintro ⟨⟨f, hf, rfl⟩, hnot⟩
        exact ⟨f, ⟨hf, hnot⟩, rfl⟩
    rw [hfilter, hfilter, h k]

/-- Of two lists that `sameFlags` takes for the same, the second must not have one
flag in two spellings: the code compares lengths. -/
theorem sameFlags_sound (h : sameFlags a b = true) (hnodup : (b.map flagKey).Nodup) :
    SameFlagSet a b := by
  simp only [sameFlags, decide_eq_true_eq] at h
  obtain ⟨hlength, hsub⟩ := h
  have hsubset : b.map flagKey ⊆ a.map flagKey := by
    intro k hk
    obtain ⟨f, hf, rfl⟩ := mem_map.mp hk
    exact hsub f hf
  have hperm : (b.map flagKey).Perm (a.map flagKey) := by
    refine (subperm_of_subset hnodup hsubset).perm_of_length_le ?_
    rw [length_map, length_map, hlength]
  intro k
  exact hperm.mem_iff.symm

/-- A STORE that the code takes to change nothing changes nothing. -/
theorem applyFlags_of_sameFlags {current : List String} {op : StoreOperation}
    {flags : List String} (h : sameFlags (applyFlags current op flags) current = true)
    (hnodup : op ≠ .remove → (current.map flagKey).Nodup) :
    SameFlagSet (applyFlags current op flags) current := by
  by_cases hop : op = .remove
  · subst hop
    -- what is filtered out is missing from the length
    simp only [sameFlags, decide_eq_true_eq] at h
    have hall := length_filter_eq_length_iff.mp h.1
    rw [show applyFlags current .remove flags = current from filter_eq_self.mpr hall]
    exact SameFlagSet.refl current
  · exact sameFlags_sound h (hnodup hop)

/-! ## 2. The rows of a STORE -/

section store

variable (m : Mailbox) (uids : List ℕ) (op : StoreOperation) (flags : List String)
  (unchangedSince : Option ℕ)

/-- The row that a STORE leaves. -/
def storedAs (x : Message) : Message :=
  if x.uid ∈ uids ∧ isModified unchangedSince x = false
      ∧ sameFlags (applyFlags x.flags op flags) x.flags = false then
    { x with flags := applyFlags x.flags op flags, modseq := m.highestModseq + 1 }
  else x

/-- What a STORE commits and answers. -/
structure StoresFlags (m' : Mailbox) (res : StoreFlagsResult) : Prop where
  messages : m'.messages = m.messages.map (storedAs m uids op flags unchangedSince)
  rows : res.rows = ((orderByUid (m.messages.filter fun x => x.uid ∈ uids)).filter fun x =>
    !isModified unchangedSince x).map fun x => (storedAs m uids op flags unchangedSince x).flagRow
  modified : ∀ u, u ∈ res.modified
    ↔ ∃ x ∈ m.messages, x.uid = u ∧ u ∈ uids ∧ isModified unchangedSince x = true

/-- The rows a STORE reads. -/
abbrev storeRows : List Message := orderByUid (m.messages.filter fun x => x.uid ∈ uids)

/-- The updates it makes of them. -/
abbrev storeUpdates : List (ℕ × List String) :=
  flagUpdates (storeRows m uids) op flags unchangedSince

/-- Whether a row is rewritten. -/
abbrev Rewrites (x : Message) : Prop :=
  x.uid ∈ uids ∧ isModified unchangedSince x = false
    ∧ sameFlags (applyFlags x.flags op flags) x.flags = false

variable {m} {x : Message} {modseq : Option ℕ}

theorem storedAs_uid (x : Message) : (storedAs m uids op flags unchangedSince x).uid = x.uid := by
  unfold storedAs
  split <;> rfl

theorem storedAs_nil (x : Message) : storedAs m [] op flags unchangedSince x = x := by
  unfold storedAs
  rw [if_neg]
  rintro ⟨hmem, -⟩
  cases hmem

/-- The update of a row, if it has one: UIDs are unique. -/
theorem find_flagUpdates (hm : m.Wf) (hx : x ∈ m.messages) :
    (storeUpdates m uids op flags unchangedSince).find? (fun u => u.1 = x.uid)
      = if Rewrites uids op flags unchangedSince x
        then some (x.uid, applyFlags x.flags op flags) else none := by
  have hmem : ∀ u, u ∈ storeUpdates m uids op flags unchangedSince
      ↔ ∃ y ∈ m.messages, Rewrites uids op flags unchangedSince y
        ∧ u = (y.uid, applyFlags y.flags op flags) := by
    intro u
    simp only [flagUpdates, mem_map, mem_filter, orderByUid, mem_insertionSort,
      decide_eq_true_eq, Bool.and_eq_true, Bool.not_eq_true']
    constructor
    · rintro ⟨y, ⟨⟨hy, huid⟩, hmod, hsame⟩, rfl⟩
      exact ⟨y, hy, ⟨huid, hmod, hsame⟩, rfl⟩
    · rintro ⟨y, hy, ⟨huid, hmod, hsame⟩, rfl⟩
      exact ⟨y, ⟨⟨hy, huid⟩, hmod, hsame⟩, rfl⟩
  cases hfind : (storeUpdates m uids op flags unchangedSince).find? (fun u => u.1 = x.uid) with
  | none =>
    rw [if_neg]
    intro hcond
    have hnone := find?_eq_none.mp hfind _ ((hmem _).mpr ⟨x, hx, hcond, rfl⟩)
    simp at hnone
  | some u =>
    have huid : u.1 = x.uid := by simpa using find?_some hfind
    obtain ⟨y, hy, hcond, rfl⟩ := (hmem u).mp (mem_of_find?_eq_some hfind)
    rw [hm.eq_of_uid hy hx huid] at hcond ⊢
    rw [if_pos hcond]

/-- No row is rewritten when there is no update. -/
theorem storedAs_of_no_updates (hx : x ∈ m.messages)
    (h : storeUpdates m uids op flags unchangedSince = []) (hm : m.Wf) :
    storedAs m uids op flags unchangedSince x = x := by
  have hfind := find_flagUpdates uids op flags unchangedSince hm hx
  rw [h, find?_nil] at hfind
  unfold storedAs
  split at hfind
  · cases hfind
  · rename_i hcond
    rw [if_neg hcond]

/-- What storeFlags answers, told by the rows it leaves. -/
theorem storeFlagsResult_rows (hm : m.Wf)
    (hmodseq : modseq = if (storeUpdates m uids op flags unchangedSince).isEmpty then none
      else some (m.highestModseq + 1)) :
    (storeFlagsResult (storeRows m uids) (storeUpdates m uids op flags unchangedSince)
        unchangedSince modseq).rows
      = ((storeRows m uids).filter fun x => !isModified unchangedSince x).map fun x =>
          (storedAs m uids op flags unchangedSince x).flagRow := by
  refine map_congr_left fun x hx => ?_
  have hx' : x ∈ m.messages := by
    have hsorted := (mem_filter.mp hx).1
    rw [storeRows, orderByUid, mem_insertionSort] at hsorted
    exact (mem_filter.mp hsorted).1
  rw [find_flagUpdates uids op flags unchangedSince hm hx']
  by_cases hcond : Rewrites uids op flags unchangedSince x
  · -- the row has an update, so there is a new modseq
    have hsome : modseq = some (m.highestModseq + 1) := by
      rw [hmodseq, if_neg]
      intro hempty
      have hfind := find_flagUpdates uids op flags unchangedSince hm hx'
      rw [isEmpty_iff.mp hempty, if_pos hcond] at hfind
      cases hfind
    rw [if_pos hcond, hsome, storedAs, if_pos hcond]
    rfl
  · rw [if_neg hcond, storedAs, if_neg hcond]

theorem storesFlags_of {m' : Mailbox} {res : StoreFlagsResult} (hm : m.Wf)
    (hmessages : m'.messages = m.messages.map (storedAs m uids op flags unchangedSince))
    (hmodseq : modseq = if (storeUpdates m uids op flags unchangedSince).isEmpty then none
      else some (m.highestModseq + 1)) (hres : res = storeFlagsResult (storeRows m uids)
      (storeUpdates m uids op flags unchangedSince) unchangedSince modseq) :
    StoresFlags m uids op flags unchangedSince m' res := by
  refine ⟨hmessages, ?_, ?_⟩
  · rw [hres, storeFlagsResult_rows uids op flags unchangedSince hm hmodseq]
  · intro u
    rw [hres]
    simp only [storeFlagsResult, mem_map, mem_filter, orderByUid, mem_insertionSort,
      decide_eq_true_eq]
    constructor
    · rintro ⟨x, ⟨⟨hx, huid⟩, hmod⟩, rfl⟩
      exact ⟨x, hx, rfl, huid, hmod⟩
    · rintro ⟨x, hx, rfl, huid, hmod⟩
      exact ⟨x, ⟨⟨hx, huid⟩, hmod⟩, rfl⟩

end store

variable {recorded : Bool} {ks : List Key} {cur : Db}

/-- **storeFlags**, replayed alone. -/
theorem holds_storeFlags (hg : Good cur) (id : ℕ) (uids : List ℕ) (op : StoreOperation)
    (flags : List String) (unchangedSince : Option ℕ) : Holds recorded
      (fun res _ cur' => ∀ m, cur id = some m → ∃ m', cur' id = some m'
        ∧ StoresFlags m uids op flags unchangedSince m' res)
      (storeFlags id uids op flags unchangedSince) ks cur := by
  unfold storeFlags
  split
  · rename_i hempty
    rw [List.isEmpty_iff] at hempty
    subst hempty
    intro m hm
    refine ⟨m, hm, ?_, ?_, ?_⟩
    · rw [funext (storedAs_nil op flags unchangedSince), map_id']
    · simp [orderByUid]
    · simp
  apply Holds.bind
  apply holds_lock
  intro m hm
  have hk : Key.row id ∈ ks ++ [.row id] := by simp
  apply Holds.bind
  apply holds_messagesByUid hk hm
  have hwf := hg id m hm
  show Holds recorded _ (writeFlags id m.highestModseq _ _ _) _ _
  unfold writeFlags
  split
  · rename_i hnone
    intro m0 hm0
    obtain rfl : m = m0 := Option.some.inj (hm.symm.trans hm0)
    refine ⟨m, hm, storesFlags_of uids op flags unchangedSince hwf ?_ (if_pos hnone).symm rfl⟩
    rw [List.isEmpty_iff] at hnone
    symm
    rw [map_congr_left fun x hx =>
      storedAs_of_no_updates uids op flags unchangedSince hx hnone hwf, map_id']
  · rename_i hsome
    apply Holds.bind
    refine holds_updateMessages (fun _ _ _ => rfl) hk hm ?_
    apply Holds.bind
    refine holds_setCounters hk (Db.set_same ..) ?_
    intro ks' _
    apply holds_pure
    rw [Db.set_set]
    intro m0 hm0
    obtain rfl : m = m0 := Option.some.inj (hm.symm.trans hm0)
    refine ⟨_, Db.set_same .., storesFlags_of uids op flags unchangedSince hwf ?_
      (if_neg hsome).symm rfl⟩
    refine map_congr_left fun x hx => ?_
    rw [find_flagUpdates uids op flags unchangedSince hwf hx]
    by_cases hcond : Rewrites uids op flags unchangedSince x
    · rw [if_pos hcond, storedAs, if_pos hcond]
    · rw [if_neg hcond, storedAs, if_neg hcond]

end Postroom.Mail
