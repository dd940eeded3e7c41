/-
What the MIME parser holds.

`retainedBytes` sums five buffers, each capped in another method: the carried
line, the header octets of all open parts, the pending line break, the held CR
and the decoder's carry. `Bounded` states the five caps together with what keeps
the accounting honest: a frame's `headerBytes` covers the octets the frame really
holds, and `headerBytesRetained` is their sum over the stack. Every step keeps
it; the bound on the sum is then arithmetic.

The carried line is the one buffer with two users. A header line is cut at
`maxLineBytes`; a candidate delimiter is kept only while `couldBeDelimiter` says
so, which is what limits it.
-/
import Mathlib.Algebra.Order.BigOperators.Group.List
import Mathlib.Algebra.Order.Ring.Nat
import Postroom.Mime.Kept

set_option autoImplicit false

namespace Postroom.Mime

open Lib Emits List

/-! ## Header octets -/

def HeaderList.rawBytes (hs : HeaderList) : ℕ := (hs.map fun f => f.raw.length).sum

/-- The header octets a frame really holds: of the fields that are complete, of
the headers it has already handed out, and of the field it is reading. -/
def Frame.heldBytes (f : Frame) : ℕ :=
  HeaderList.rawBytes f.fields + f.part.elim 0 (fun p => HeaderList.rawBytes p.headers)
    + f.field.flatten.length

/-- The frame's counters are right, and its decoder is within its caps. -/
structure Frame.Counted (f : Frame) : Prop where
  field : f.fieldBytes = f.field.flatten.length
  held : f.heldBytes ≤ f.headerBytes
  decoder : ∀ d, f.decoder = some d → d.Held

theorem rootFrame_counted : rootFrame.Counted where
  field := rfl
  held := Nat.le_refl 0
  decoder := nofun

theorem newFrame_counted (parent : Frame) (n : ℕ) (defaultType : Text) :
    (newFrame parent n defaultType).Counted where
  field := rfl
  held := Nat.le_refl 0
  decoder := nofun

/-- The room for a carried line: a header line, or the longest candidate. -/
def carryBound (o : ParseOptions) : ℕ :=
  max o.maxLineBytes (MAX_BOUNDARY_LENGTH + 4 + MAX_DELIMITER_PADDING)

/-- The caps on what the parser holds. -/
structure Bounded (o : ParseOptions) (s : MimeParser) : Prop where
  frames : ∀ f ∈ s.stack, f.Counted
  sum : s.headerBytesRetained = (s.stack.map Frame.headerBytes).sum
  header : s.headerBytesRetained ≤ o.maxHeaderBytes
  carry : s.carry.length ≤ carryBound o
  eol : ∀ e, s.pendingEol = some e → e.length ≤ 2
  delims : ∀ d ∈ s.delimiters, d.1.length ≤ MAX_BOUNDARY_LENGTH + 2

section

variable {rt : Runtime} {o : ParseOptions} {s : MimeParser} {n : ℕ}

theorem Bounded.new : Bounded o {} where
  frames := fun f hf => by
    rw [mem_singleton] at hf
    rw [hf]
    exact rootFrame_counted
  sum := rfl
  header := Nat.zero_le _
  carry := Nat.zero_le _
  eol := nofun
  delims := nofun

/-- The top frame is counted; so is the stand-in for an empty stack. -/
theorem Bounded.top (h : Bounded o s) : s.top.Counted := by
  unfold MimeParser.top
  cases hs : s.stack with
  | nil => exact rootFrame_counted
  | cons f fs =>
    apply h.frames
    rw [hs]
    exact mem_cons_self

theorem Bounded.below (h : Bounded o s) : ∀ f ∈ s.stack.tail, f.Counted :=
  fun f hf => h.frames f (mem_of_mem_tail hf)

/-- The sum, split at the top. -/
theorem Bounded.split (h : Bounded o s) :
    s.headerBytesRetained = s.top.headerBytes + (s.stack.tail.map Frame.headerBytes).sum := by
  rw [h.sum, MimeParser.top]
  cases s.stack with
  | nil => rfl
  | cons f fs => rw [map_cons, sum_cons, headD_cons, tail_cons]

/-- The general way to change frames: new ones on top of what was below the top,
with the header octets they account for. -/
theorem Bounded.restack (h : Bounded o s) (fs : List Frame) (hfs : ∀ f ∈ fs, f.Counted)
    (hsum : n = (fs.map Frame.headerBytes).sum + (s.stack.tail.map Frame.headerBytes).sum)
    (hn : n ≤ o.maxHeaderBytes) :
    Bounded o { s with stack := fs ++ s.stack.tail, headerBytesRetained := n } := by
  refine { h with frames := forall_mem_append.mpr ⟨hfs, h.below⟩, sum := ?_, header := hn }
  rw [map_append, sum_append]
  exact hsum

variable {frame : Frame} {reprocess : Bytes → Step} {part : PartInfo}

/-- A new top frame, and the count that goes with it. -/
theorem Bounded.recount (h : Bounded o s) (hf : frame.Counted)
    (hsum : n = frame.headerBytes + (s.stack.tail.map Frame.headerBytes).sum)
    (hn : n ≤ o.maxHeaderBytes) : Bounded o { s.setTop frame with headerBytesRetained := n } := by
  refine h.restack [frame] ?_ ?_ hn
  · intro f hmem
    rw [mem_singleton] at hmem
    rw [hmem]
    exact hf
  · exact hsum

/-- A new top frame with the same count. -/
theorem Bounded.setTop (h : Bounded o s) (hf : frame.Counted)
    (hb : frame.headerBytes = s.top.headerBytes) : Bounded o (s.setTop frame) := by
  refine h.recount hf ?_ h.header
  rw [hb]
  exact h.split

/-- A new frame, which has nothing counted yet, over a new top frame. -/
theorem Bounded.push (h : Bounded o s) (hf : frame.Counted)
    (hb : frame.headerBytes = s.top.headerBytes)
    (parent : Frame) (n : ℕ) (defaultType : Text) :
    Bounded o { s with stack := newFrame parent n defaultType :: frame :: s.stack.tail } := by
  have htop := h.setTop hf hb
  refine { htop with frames := ?_, sum := ?_ }
  · intro f hmem
    rcases mem_cons.mp hmem with rfl | hmem
    · exact newFrame_counted _ _ _
    · exact htop.frames f hmem
  · exact htop.sum.trans (Nat.zero_add _).symm

/-- The number of warnings is no part of the bound. -/
theorem Bounded.warned (h : Bounded o s) (n : ℕ) : Bounded o { s with warnings := n } :=
  { h with }

/-! ## The steps -/

theorem keeps_warn (code : WarningCode) (message : Text) (frame : Frame) :
    Keeps (Bounded o) (warn o code message frame) := by
  intro s h
  rw [warn_fst]
  exact h.warned _

theorem Frame.Counted.receive {f : Frame} (h : f.Counted) (buf : Bytes) :
    (Frame.receive buf f).1.Counted ∧ (Frame.receive buf f).1.headerBytes = f.headerBytes := by
  unfold Frame.receive
  split
  · rename_i decoder part _ hd _
    refine ⟨⟨h.field, h.held, ?_⟩, rfl⟩
    intro d he
    cases he
    exact TransferDecoder.keeps_write buf decoder (h.decoder decoder hd)
  · exact ⟨h, rfl⟩

theorem keeps_content (buf : Bytes) : Keeps (Bounded o) (content buf) := by
  intro s h
  have hframes := h.frames
  have hsum := h.sum
  unfold content
  cases hs : s.stack with
  | nil =>
    rw [hs] at hsum
    exact { h with frames := fun _ hf => absurd hf not_mem_nil, sum := hsum }
  | cons f fs =>
    rw [hs] at hsum
    have hf : f.Counted := hframes f (by rw [hs]; exact mem_cons_self)
    refine { h with frames := ?_, sum := ?_ }
    · intro g hg
      rcases mem_cons.mp hg with rfl | hg
      · exact (hf.receive buf).1
      · exact hframes g (by rw [hs]; exact mem_cons_of_mem _ hg)
    · dsimp only [receiveTop]
      rw [map_cons, sum_cons, (hf.receive buf).2]
      exact hsum

theorem HeaderList.rawBytes_append (hs : HeaderList) (f : HeaderField) :
    HeaderList.rawBytes (hs ++ [f]) = HeaderList.rawBytes hs + f.raw.length := by
  rw [HeaderList.rawBytes, HeaderList.rawBytes, map_append, sum_append, map_singleton,
    sum_singleton]

theorem keeps_endField : Keeps (Bounded o) (endField rt o) := by
  intro s h
  have hheld := h.top.held
  rw [Frame.heldBytes] at hheld
  unfold endField
  dsimp only
  split_ifs with hf
  · rw [hf] at hheld
    exact h.setTop ⟨rfl, hheld, h.top.decoder⟩ rfl
  · rw [andThen_fst, modify_apply, warnIf_fst]
    refine (h.warned _).setTop ⟨rfl, ?_, h.top.decoder⟩ rfl
    -- the octets of the open field become the raw octets of a complete one
    rw [Frame.heldBytes]
    dsimp only
    rw [HeaderList.rawBytes_append, makeField_raw, flatten_nil, length_nil]
    omega

theorem length_fieldPieces (eol line : Bytes) :
    (fieldPieces eol line).flatten.length = eol.length + line.length := by
  unfold fieldPieces
  split_ifs with he
  · rw [he]
    simp
  · simp

theorem keeps_appendField (eol line : Bytes) : Keeps (Bounded o) (appendField o eol line) := by
  intro s h
  have hfield := h.top.field
  have hheld := h.top.held
  have hsplit := h.split
  have hheader := h.header
  rw [Frame.heldBytes] at hheld
  unfold appendField
  dsimp only
  split_ifs with hdrop hlong hfull
  · exact h
  · rw [warn_fst]
    refine Bounded.warned (h.setTop ?_ ?_) _
    · exact ⟨hfield, hheld, h.top.decoder⟩
    · rfl
  · -- the open field is given up, and what it counted is given back
    rw [warn_fst]
    refine Bounded.warned (h.recount ?_ ?_ ?_) _
    · refine ⟨rfl, ?_, h.top.decoder⟩
      rw [Frame.heldBytes]
      dsimp only
      rw [flatten_nil, length_nil]
      omega
    · dsimp only
      omega
    · omega
  · have hpieces := length_fieldPieces eol line
    refine h.recount ?_ ?_ ?_
    · refine ⟨?_, ?_, h.top.decoder⟩
      · rw [flatten_append, length_append, hpieces, hfield]
      · rw [Frame.heldBytes]
        dsimp only
        rw [flatten_append, length_append, hpieces]
        omega
    · dsimp only
      omega
    · omega

/-! ## Opening and closing parts -/

theorem length_delimiterOf (b : Text) : (delimiterOf b).length = b.length + 2 := by
  rw [delimiterOf, length_cons, length_cons, length_map]

/-- A frame that becomes a part hands its headers over and keeps counting them. -/
theorem Frame.Counted.become (h : frame.Counted)
    (hpart : part.headers = frame.fields) (mode : Mode) (mp : MpState) (d : Option TransferDecoder)
    (hd : ∀ x, d = some x → x.Held) :
    Frame.Counted
    { frame with fields := [], part := some part, mode := mode, mpState := mp, decoder := d } where
  field := h.field
  held := by
    have hheld := h.held
    rw [Frame.heldBytes] at hheld ⊢
    dsimp only [Option.elim_some]
    rw [hpart]
    have hnil : HeaderList.rawBytes [] = 0 := rfl
    omega
  decoder := hd

theorem Bounded.openPart (h : Bounded o s) (hpart : part.headers = s.top.fields)
    (hb : part.kind = .multipart → (part.boundary.getD []).length ≤ MAX_BOUNDARY_LENGTH) :
    Bounded o (openPart s.top part s) := by
  unfold Mime.openPart
  split
  · refine h.setTop ?_ rfl
    refine h.top.become hpart _ _ _ ?_
    intro d hd
    cases hd
    exact TransferDecoder.held_create _
  · rename_i hkind
    have hs : Bounded o (s.setTop { s.top with
        fields := [], part := some part, mode := part.kind.mode, mpState := .preamble }) :=
      h.setTop (h.top.become hpart _ _ _ h.top.decoder) rfl
    refine { hs with delims := ?_ }
    intro d hd
    rcases mem_append.mp hd with hd | hd
    · exact h.delims d hd
    · rw [mem_singleton] at hd
      rw [hd]
      rw [length_delimiterOf]
      have hlen := hb hkind
      omega
  · exact h.push (h.top.become hpart _ _ _ h.top.decoder) rfl _ _ _

theorem keeps_readHeaders : Keeps (Bounded o) (readHeaders rt o) := by
  intro s h
  obtain ⟨part, n, hfst, hpart, hb⟩ := readHeaders_fst rt o s
  have hopen : Bounded o (openPart s.top part { s with warnings := n }) := by
    refine (h.warned n).openPart hpart fun hkind => ?_
    obtain ⟨b, hb, -, hlen⟩ := hb hkind
    rw [hb]
    exact hlen
  rw [hfst]
  exact { hopen with }

theorem keeps_popTop : Keeps (Bounded o) (popTop o) := by
  intro s h
  have hsplit := h.split
  have hpop : Bounded o { s with
      stack := s.stack.tail, headerBytesRetained :=
      s.headerBytesRetained - s.top.headerBytes } := by
    refine h.restack [] (fun _ hf => absurd hf not_mem_nil) ?_ ?_
    · rw [map_nil, sum_nil]
      omega
    · exact Nat.le_trans (Nat.sub_le _ _) h.header
  unfold popTop
  dsimp only
  split
  · simp only [andThen_fst, flushTail_fst, warnIf_fst, endPart_fst]
    exact hpop.warned _
  · simp only [andThen_fst, warnIf_fst, endPart_fst]
    refine { hpop with delims := ?_ }
    intro d hd
    exact h.delims d (mem_of_mem_filter hd)
  · rw [endPart_fst]
    exact hpop

theorem keeps_enterDelimiter (m : Match) : Keeps (Bounded o) (enterDelimiter o m) := by
  intro s h
  unfold enterDelimiter
  dsimp only
  split_ifs
  · exact keeps_warn _ _ _ s h
  · rw [andThen_fst, warnIf_fst, modify_apply]
    refine (h.warned _).setTop ?_ rfl
    exact { h.top with }
  all_goals
    refine h.push ?_ ?_ _ _ _
    · exact { h.top with }
    · rfl

/-! ## Lines -/

theorem keeps_keepHeader (seg : Bytes) : Keeps (Bounded o) (keepHeader o seg) := by
  intro s h
  have hcarry := h.carry
  have hkeep : ∀ cut : Bool, Bounded o { s with
      carry := s.carry ++ seg.take (min (o.maxLineBytes - s.carry.length) seg.length),
      lineOverflow := cut } := by
    intro cut
    refine { h with carry := ?_ }
    rw [length_append, length_take]
    have hmax : o.maxLineBytes ≤ carryBound o := Nat.le_max_left _ _
    omega
  unfold keepHeader
  dsimp only
  split_ifs
  · exact h
  · rw [overflowLine, warn_fst]
    exact (hkeep true).warned _
  · exact hkeep s.lineOverflow

/-- A line that `couldBeDelimiter` keeps is within the bound: a delimiter and
its padding. -/
theorem length_of_couldBe {ds : List (Bytes × ℕ)} {line : Bytes}
    (hds : ∀ d ∈ ds, d.1.length ≤ MAX_BOUNDARY_LENGTH + 2) (h : couldBeDelimiter ds line = true) :
    line.length ≤ MAX_BOUNDARY_LENGTH + 4 + MAX_DELIMITER_PADDING := by
  obtain ⟨d, hd, hone⟩ := any_eq_true.mp h
  have hlen := hds d hd
  unfold couldBeOne at hone
  simp only [Bool.and_eq_true, Bool.or_eq_true, decide_eq_true_eq, Option.all_some] at hone
  omega

/-- The caps are kept by every step. -/
theorem bounded_kept : Kept rt o couldBeDelimiter (Bounded o) where
  endField := keeps_endField
  readHeaders := keeps_readHeaders
  popTop := keeps_popTop
  enterDelimiter := keeps_enterDelimiter
  content := keeps_content
  appendField := keeps_appendField
  keepHeader := keeps_keepHeader
  candidate := fun hcould h =>
    { h with carry := Nat.le_trans (length_of_couldBe h.delims hcould) (Nat.le_max_right _ _) }
  clear := fun h => { h with carry := Nat.zero_le _ }
  noEol := fun h => { h with eol := nofun }
  someEol := fun he h => { h with eol := fun _ heq => Option.some.inj heq ▸ he }
  aside := fun h => { h with }

/-! ## The bound -/

/-- **The caps add up to the bound.** -/
theorem Bounded.retained_le (h : Bounded o s) : s.retainedBytes ≤ retainedBound o := by
  have hcarry := h.carry
  have hheader := h.header
  have heol : s.pendingEol.elim 0 List.length ≤ 2 := by
    cases he : s.pendingEol with
    | none => exact Nat.zero_le _
    | some e => exact h.eol e he
  have hcr : (if s.heldCr then 1 else 0) ≤ 1 := by
    split_ifs
    · exact Nat.le_refl 1
    · exact Nat.zero_le 1
  have hdec : (s.stack.head?.bind Frame.decoder).elim 0 TransferDecoder.carried
      ≤ MAX_HELD_WS + 2 := by
    cases hd : s.stack.head?.bind Frame.decoder with
    | none => exact Nat.zero_le _
    | some d =>
      obtain ⟨f, hf, hfd⟩ := Option.bind_eq_some_iff.mp hd
      have hmem : f ∈ s.stack := mem_of_head? hf
      exact TransferDecoder.carried_le d ((h.frames f hmem).decoder d hfd)
  have hws : MAX_HELD_WS = 1024 := rfl
  rw [MimeParser.retainedBytes, retainedBound]
  rw [carryBound] at hcarry
  omega

/-- What the open parts really hold is what is counted. -/
theorem Bounded.held_le (h : Bounded o s) :
    (s.stack.map Frame.heldBytes).sum ≤ s.headerBytesRetained := by
  rw [h.sum]
  exact sum_le_sum fun f hf => (h.frames f hf).held

/-- A session keeps its parser within the caps and its peak within the bound. -/
def Session.Within (o : ParseOptions) (t : Session) : Prop :=
  Bounded o t.parser ∧ t.peak ≤ retainedBound o

theorem keeps_writeSlice (slice : Bytes) : Keeps (Session.Within o) (writeSlice rt o slice) := by
  intro t h
  have hp : Bounded o (process rt o couldBeDelimiter slice t.parser).1 :=
    bounded_kept.process _ slice _ h.1
  exact ⟨hp, Nat.max_le.mpr ⟨h.2, hp.retained_le⟩⟩

/-- The last event is the report. -/
theorem getLast?_parse (chunks : List Bytes) :
    (parse rt o chunks).getLast? =
      let t := (readAll (write rt o) chunks {}).1
      let p := (endParser rt o t.parser).1
      some (.done {
        bytesIn := t.bytesIn, parts := p.parts, warnings := p.warnings
        maxRetainedBytes := max t.peak p.retainedBytes, retainedBound := retainedBound o }) := by
  rw [parse, andThen_snd, endSession, ← append_assoc, getLast?_concat]

/-- Writing chunks is writing their slices. -/
theorem readAll_write (chunks : List Bytes) :
    readAll (write rt o) chunks = readAll (writeSlice rt o) (chunks.flatMap (slices o)) := by
  induction chunks with
  | nil => rfl
  | cons c cs ih => rw [readAll_cons, ih, flatMap_cons, readAll_append]; rfl

end

/-- **The memory bound holds.** For every input, chunking and options: after
every slice the parser holds no more than `retainedBound`, the header octets it
holds for all open parts are counted and within `maxHeaderBytes`, and the last
event reports a peak within the bound it reports with it. -/
theorem retained_within_bound (rt : Runtime) (o : ParseOptions) (chunks : List Bytes) :
    (∀ n, let p := (readAll (writeSlice rt o) ((chunks.flatMap (slices o)).take n) {}).1.parser
      p.retainedBytes ≤ retainedBound o ∧ (p.stack.map Frame.heldBytes).sum ≤ p.headerBytesRetained
        ∧ p.headerBytesRetained ≤ o.maxHeaderBytes)
      ∧ ∃ stats, (parse rt o chunks).getLast? = some (.done stats)
          ∧ stats.maxRetainedBytes ≤ stats.retainedBound := by
  have hrun : ∀ pieces, Session.Within o (readAll (writeSlice rt o) pieces {}).1 := fun pieces =>
    Keeps.readAll _ keeps_writeSlice pieces _ ⟨Bounded.new, Nat.zero_le _⟩
  refine ⟨?_, ?_⟩
  · intro n
    have hp : Bounded o (readAll (writeSlice rt o) ((chunks.flatMap (slices o)).take n)
        {}).1.parser :=
      (hrun _).1
    exact ⟨hp.retained_le, hp.held_le, hp.header⟩
  · have ht := hrun (chunks.flatMap (slices o))
    rw [← readAll_write] at ht
    have hend : Bounded o (endParser rt o (readAll (write rt o) chunks {}).1.parser).1 :=
      bounded_kept.endParser _ ht.1
    exact ⟨_, getLast?_parse chunks, Nat.max_le.mpr ⟨ht.2, hend.retained_le⟩⟩

end Postroom.Mime
