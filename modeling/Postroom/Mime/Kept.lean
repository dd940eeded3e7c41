/-
What every step of the parser keeps.

`PartKept` lists the four steps that open and close parts, `Kept` the other places
where the parser writes to its state. Whatever satisfies them is kept by a whole
call of `process`, for any judge of open lines (`Kept.process`). The caps on what
is held, the part structure and the current line are three uses of it.
-/
import Postroom.Mime.Parser

set_option autoImplicit false

namespace Postroom.Mime

open Lib Emits List

/-- The property is kept where parts are opened and closed. -/
structure PartKept (rt : Runtime) (o : ParseOptions) (I : MimeParser → Prop) : Prop where
  endField : Keeps I (endField rt o)
  readHeaders : Keeps I (readHeaders rt o)
  popTop : Keeps I (popTop o)
  enterDelimiter : ∀ m, Keeps I (enterDelimiter o m)

/-- And where lines are read. A line that stays open is one the judge lets pass,
a line break that is held has at most two octets. -/
structure Kept (rt : Runtime) (o : ParseOptions) (couldBe : List (Bytes × ℕ) → Bytes → Bool)
    (I : MimeParser → Prop) : Prop extends PartKept rt o I where
  content : ∀ buf, Keeps I (content buf)
  appendField : ∀ eol line, Keeps I (appendField o eol line)
  keepHeader : ∀ seg, Keeps I (keepHeader o seg)
  candidate : ∀ {s line}, couldBe s.delimiters line = true → I s → I { s with carry := line }
  clear : ∀ {s}, I s → I { s with carry := [] }
  noEol : ∀ {s}, I s → I { s with pendingEol := none }
  someEol : ∀ {s e}, e.length ≤ 2 → I s → I { s with pendingEol := some e }
  aside : ∀ {s n cut start held seen}, I s → I { s with
    warnings := n, lineOverflow := cut, atLineStart := start, heldCr := held, sawAnyHeaderLine :=
    seen }

variable {rt : Runtime} {o : ParseOptions} {I : MimeParser → Prop}
  {couldBe : List (Bytes × ℕ) → Bytes → Bool} {reprocess : Bytes → Step}

/-! ## Parts -/

/-- A boundary that is accepted is short. -/
theorem kindOf_boundary {frame : Frame} {ct : ContentType} {encoding : Text}
    (h : (kindOf o frame ct encoding).1 = .multipart) :
    ∃ b, (kindOf o frame ct encoding).2.1 = some b ∧ b ≠ [] ∧ b.length ≤ MAX_BOUNDARY_LENGTH := by
  unfold kindOf at h ⊢
  split_ifs at h ⊢ with hm
  · split at h
    · cases h
    · rename_i hflaw
      unfold multipartFlaw at hflaw
      split at hflaw
      · cases hflaw
      · rename_i b hb
        split_ifs at hflaw with hne hbad _ _
        refine ⟨b, hb, hne, ?_⟩
        rw [Bool.or_eq_true, not_or, decide_eq_true_eq] at hbad
        exact Nat.le_of_not_lt hbad.1
  · split at h
    · cases h
    · cases h

/-- What the end of a header block does: its part is opened. -/
theorem readHeaders_fst (rt : Runtime) (o : ParseOptions) (s : MimeParser) : ∃ part n,
    (readHeaders rt o s).1
      = { openPart s.top part { s with warnings := n } with parts := s.parts + 1 }
      ∧ part.headers = s.top.fields
      ∧ (part.kind = .multipart → ∃ b, part.boundary = some b ∧ b ≠ []
        ∧ b.length ≤ MAX_BOUNDARY_LENGTH) := by
  unfold readHeaders
  simp only [andThen_fst, warnIf_fst, warnSome_fst, modify_apply, onEvent_apply]
  exact ⟨_, _, rfl, rfl, kindOf_boundary⟩

namespace PartKept

variable (h : PartKept rt o I)
include h

/-- A header block ends with its last field and with its part. -/
theorem finishHeaders : Keeps I (finishHeaders rt o) := h.endField.andThen h.readHeaders

/-- A message part opens a second header block at once, hence the two rounds. -/
theorem finishOpen (n : ℕ) : Keeps I (finishOpen rt o n) := by
  induction n with
  | zero => exact Keeps.skip
  | succ n ih =>
    intro s hs
    rw [Mime.finishOpen]
    dsimp only
    split_ifs
    · exact (h.finishHeaders.andThen ih) s hs
    · exact hs

/-- Each round closes the innermost part, down to the frame asked for. -/
theorem closeDown (frameIndex : Option ℕ) (n : ℕ) : Keeps I (closeDown rt o frameIndex n) := by
  induction n with
  | zero => exact Keeps.skip
  | succ n ih =>
    intro s hs
    rw [Mime.closeDown]
    dsimp only
    split_ifs
    · exact (((h.finishOpen 2).andThen h.popTop).andThen ih) s hs
    · exact hs

/-- As many rounds as there are open parts. -/
theorem closeParts (frameIndex : Option ℕ) : Keeps I (closeParts rt o frameIndex) :=
  fun s hs => h.closeDown frameIndex _ s hs

/-- The parts inside are closed before the delimiter takes effect. -/
theorem onDelimiter (m : Match) : Keeps I (onDelimiter rt o m) :=
  (h.closeParts _).andThen (h.enterDelimiter m)

end PartKept

/-- A line ends in CRLF, in LF or in nothing. -/
theorem length_splitEol (line : Bytes) : (splitEol line).2.length ≤ 2 := by
  unfold splitEol
  split_ifs
  · exact Nat.le_refl 2
  · exact Nat.le_succ 1

/-! ## Lines -/

namespace Kept

variable (h : Kept rt o couldBe I)
include h

/-- A warning touches only the counter of warnings. -/
theorem warn (code : WarningCode) (message : Text) (frame : Frame) :
    Keeps I (warn o code message frame) := by
  intro s hs
  rw [warn_fst]
  exact h.aside hs

/-- No line break is pending where a body starts. -/
theorem startBody : Keeps I startBody := fun _ hs => h.aside (h.noEol hs)

/-- The line break of the line before becomes content once another line follows. -/
theorem flushPendingEol : Keeps I flushPendingEol := by
  intro s hs
  unfold Mime.flushPendingEol
  split
  · exact hs
  · exact h.content _ _ (h.noEol hs)

/-- A line of a body is a delimiter or content, and its line break waits. -/
theorem bodyLine (line : Bytes) {eol : Bytes} (he : eol.length ≤ 2) :
    Keeps I (bodyLine rt o line eol) := by
  intro s hs
  unfold Mime.bodyLine
  split
  · exact h.onDelimiter _ _ (h.startBody s hs)
  · have hline := h.content line _ (h.flushPendingEol s hs)
    split_ifs
    · exact h.aside (h.noEol hline)
    · exact h.aside (h.someEol he hline)

/-- A header block without its empty line ends with a warning; then the line is read
again. -/
theorem breakHeaders (message : Text) {next : Step} (hnext : Keeps I next) :
    Keeps I (breakHeaders rt o message next) := fun s hs =>
  hnext _ (h.startBody _ (h.finishHeaders _ (h.warn .headerMissingSeparator message s.top s hs)))

/-- The ways a header line can go: the end of the block, a delimiter, a continuation, a
field, or something that is none of them. -/
theorem headerLine (hre : ∀ b, Keeps I (reprocess b)) (line eol : Bytes) :
    Keeps I (headerLine rt o reprocess line eol) := by
  intro s hs
  unfold Mime.headerLine
  split_ifs
  · exact h.startBody _ (h.finishHeaders s hs)
  · split
    · exact h.breakHeaders _ (h.onDelimiter _) s hs
    · unfold headerText
      dsimp only
      split_ifs
      · exact h.appendField _ _ s hs
      · exact h.warn _ _ _ s hs
      · exact hs
      · have hfield := h.appendField [] line _ (h.endField s hs)
        exact h.aside hfield
      · exact h.warn _ _ _ s hs
      · exact h.breakHeaders _ (hre _) s hs

/-- The line is complete only with its LF. -/
theorem headerBytes (hre : ∀ b, Keeps I (reprocess b)) (seg : Bytes) :
    Keeps I (headerBytes rt o reprocess seg) := by
  refine (h.keepHeader seg).andThen ?_
  split_ifs
  · intro s hs
    unfold endHeaderLine
    split_ifs
    all_goals exact h.headerLine hre _ _ _ (h.aside (h.clear hs))
  · exact Keeps.skip

/-- The rest of a line too long for a delimiter is content as it comes. -/
theorem streamSegment (seg : Bytes) : Keeps I (streamSegment seg) := by
  intro s hs
  unfold Mime.streamSegment
  split_ifs
  · exact h.content _ s hs
  · exact h.aside (h.someEol (length_splitEol seg) (h.content _ s hs))
  · exact h.aside (h.content _ s hs)
  · exact h.content _ s hs

/-- A held CR is decided by the next octet. -/
theorem scanMidLine (seg : Bytes) : Keeps I (scanMidLine seg) := by
  intro s hs
  unfold Mime.scanMidLine
  split_ifs
  · exact h.aside (h.someEol (e := [CR, LF]) (Nat.le_refl 2) hs)
  · exact h.streamSegment seg _ (h.content _ _ (h.aside hs))
  · exact h.streamSegment seg s hs

/-- The line is no delimiter, so the pending line break is content. -/
theorem leaveLineStart : Keeps I leaveLineStart := fun s hs => h.aside (h.flushPendingEol s hs)

/-- A line that may still be a delimiter is kept, and released when it cannot be one. -/
theorem takeCandidate (seg : Bytes) : Keeps I (takeCandidate rt o couldBe seg) := by
  intro s hs
  unfold Mime.takeCandidate
  dsimp only
  split_ifs with _ hcould
  · exact h.bodyLine _ (length_splitEol _) _ (h.clear hs)
  · exact h.candidate hcould hs
  · have hleft := h.leaveLineStart _ (h.clear hs)
    unfold releaseCandidate
    split_ifs
    · exact h.aside (h.content _ _ hleft)
    · exact h.content _ _ hleft

/-- One turn of the loop keeps the property, so the loop does. -/
theorem loop (hre : ∀ b, Keeps I (reprocess b)) (n : ℕ) (buf : Bytes) :
    Keeps I (loop rt o couldBe reprocess n buf) := by
  induction n generalizing buf with
  | zero => exact Keeps.skip
  | succ n ih =>
    intro s hs
    rw [Mime.loop]
    dsimp only
    split_ifs
    · exact hs
    · exact ((h.headerBytes hre _).andThen (ih _)) s hs
    · exact ((h.scanMidLine _).andThen (ih _)) s hs
    · exact (h.leaveLineStart.andThen ((h.scanMidLine _).andThen (ih _))) s hs
    · exact ((h.takeCandidate _).andThen (ih _)) s hs

/-- **What the steps keep, the parser keeps.** -/
theorem process (n : ℕ) (buf : Bytes) : Keeps I (processNested rt o couldBe n buf) := by
  induction n generalizing buf with
  | zero => exact Keeps.skip
  | succ n ih => exact h.loop ih _ _

/-- At the end of the input a held CR is content. -/
theorem flushHeldCr : Keeps I flushHeldCr := by
  intro s hs
  unfold Mime.flushHeldCr
  split_ifs
  · exact h.content _ _ (h.aside hs)
  · exact hs

/-- So is the last line break of a part that no delimiter closes. -/
theorem flushLastEol : Keeps I flushLastEol := by
  intro s hs
  unfold Mime.flushLastEol
  split_ifs
  · exact hs
  · exact h.flushPendingEol s hs

end Kept

/-! ## The end of the input -/

/-- A last line without a line break. -/
theorem Kept.endLine (h : Kept rt o couldBeDelimiter I) : Keeps I (endLine rt o) := by
  intro s hs
  unfold Mime.endLine
  split_ifs
  · exact h.headerLine (h.process _) _ _ _ (h.clear hs)
  · refine h.bodyLine _ ?_ _ (h.clear hs)
    exact Nat.zero_le 2
  · exact hs

/-- **The end of the input** keeps the property too. -/
theorem Kept.endParser (h : Kept rt o couldBeDelimiter I) : Keeps I (endParser rt o) := by
  intro s hs
  have hline := h.endLine s hs
  exact h.closeParts none _ (h.flushLastEol _ (h.flushHeldCr _ (h.aside hline)))

end Postroom.Mime
