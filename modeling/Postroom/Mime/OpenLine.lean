/-
What the parser keeps of the line it is in.

Between two octets the parser is `Steady`, and at the start of a body line it
keeps exactly the octets of the line so far (`Reading`). Both are kept octet by
octet, so they hold wherever the input is cut. The same invariant compares two
judges of open lines: a stricter one acts like a laxer one that gives the open
line up where the slice ends (`feed_strict`).
-/
import Mathlib.Data.List.Induction
import Postroom.Lib.Views
import Postroom.Mime.Chunking

set_option autoImplicit false

namespace Postroom.Mime

open Lib Emits List

/-! ## The open line -/

/-- The open line after one more octet. -/
def extend (line : Bytes) (b : UInt8) : Bytes := if b = LF then [] else line ++ [b]

/-- What follows the last LF. -/
def openLine (input : Bytes) : Bytes := input.foldl extend []

theorem foldl_extend_of_lf (line : Bytes) {buf : Bytes} (h : buf.getLast? = some LF) :
    buf.foldl extend line = [] := by
  obtain ⟨init, rfl⟩ := getLast?_eq_some_iff.mp h
  rw [foldl_append, foldl_cons, foldl_nil, extend, if_pos rfl]

theorem openLine_append (a b : Bytes) : openLine (a ++ b) = b.foldl extend (openLine a) :=
  foldl_append

theorem lf_notMem_openLine (input : Bytes) : LF ∉ openLine input := by
  induction input using List.reverseRecOn with
  | nil => exact not_mem_nil
  | append_singleton init b ih =>
    rw [openLine_append]
    by_cases hb : b = LF
    · rw [foldl_extend_of_lf _ (by rw [hb]; rfl)]
      exact not_mem_nil
    · have hext : [b].foldl extend (openLine init) = openLine init ++ [b] := if_neg hb
      rw [hext, mem_append, mem_singleton, not_or]
      exact ⟨ih, fun h => hb h.symm⟩

/-- Between two octets, with so much of the current line read. -/
structure Reading (couldBe : List (Bytes × ℕ) → Bytes → Bool) (line : Bytes) (s : MimeParser) : Prop
    extends Steady couldBe s where
  kept : s.top.mode ≠ .headers → s.atLineStart = true → s.carry = line

/-- A step for the line that ended a header block leaves nothing of it open. -/
def Resumes (couldBe : List (Bytes × ℕ) → Bytes → Bool) (reprocess : Bytes → Step) : Prop :=
  ∀ line eol s, AtStart s → eol.getLast? = some LF →
    Reading couldBe [] (reprocess (line ++ eol) s).1

section

variable {rt : Runtime} {o : ParseOptions} {couldBe : List (Bytes × ℕ) → Bytes → Bool}
  {reprocess : Bytes → Step} {l : Loop} {s : MimeParser} {line : Bytes}

theorem Steady.reading (h : Steady couldBe s) : Reading couldBe s.carry s := ⟨h, fun _ _ => rfl⟩

theorem AtStart.reading (h : AtStart s) : Reading couldBe [] s := ⟨h.steady, fun _ _ => h.carry⟩

theorem Steady.reading_of_mid (h : Steady couldBe s) (hs : s.atLineStart = false) :
    Reading couldBe line s :=
  ⟨h, fun _ ht => nomatch hs.symm.trans ht⟩

theorem Steady.content (h : Steady couldBe s) (buf : Bytes) : Steady couldBe (content buf s).1 where
  heldCr := h.heldCr
  headers := fun hm => h.headers ((content_mode buf s).symm.trans hm)
  mid := h.mid
  eol := h.eol
  candidate := fun hm => h.candidate fun hm' => hm ((content_mode buf s).trans hm')

/-- A line that cannot be a delimiter is left for the middle of one. -/
theorem Steady.leave (h : Steady couldBe s) (hm : s.top.mode ≠ .headers) (hs : s.atLineStart = true)
    (hc : s.carry = []) : Steady couldBe (leaveLineStart s).1 := by
  rw [leaveLineStart_eq]
  refine Steady.content ?_ _
  exact ⟨fun ht => (nomatch (h.free_of_start hs).symm.trans ht), fun hm' => absurd hm' hm,
    fun _ => ⟨hc, rfl⟩, fun e he => absurd he (by simp), fun _ hne => absurd hc hne⟩

/-! ## Octet by octet -/

theorem reading_headerLine {text eol : Bytes}
    (hre : ∀ t, AtStart t → Reading couldBe [] (reprocess (text ++ eol) t).1) (h : AtStart s) :
    Reading couldBe [] (headerLine rt o reprocess text eol s).1 := by
  have hwarn : ∀ code message frame, Keeps AtStart (warn o code message frame) := fun _ _ _ =>
    (quiet_warn _ _ _).atStart
  have hfinish : Keeps AtStart (finishHeaders rt o) := quiet_finishHeaders.atStart
  unfold headerLine
  split_ifs
  · exact (atStart_startBody _ (hfinish s h)).reading
  · split
    · rw [breakHeaders_fst]
      exact ((quiet_onDelimiter _).atStart _
        (atStart_startBody _ (hfinish _ (hwarn _ _ _ s h)))).reading
    · unfold headerText
      dsimp only
      split_ifs
      · exact ((still_appendField _ _).quiet.atStart s h).reading
      · exact (hwarn _ _ _ s h).reading
      · exact h.reading
      · have hend : AtStart (appendField o [] text (endField rt o s).1).1 :=
          (still_appendField _ _).quiet.atStart _ (still_endField.quiet.atStart s h)
        rw [andThen_fst, andThen_fst, modify_apply]
        exact AtStart.reading { hend with }
      · exact (hwarn _ _ _ s h).reading
      · rw [breakHeaders_fst]
        exact hre _ (atStart_startBody _ (hfinish _ (hwarn _ _ _ s h)))

theorem reading_bodyLine (text : Bytes) (h : AtStart s) :
    Reading couldBe [] (bodyLine rt o (splitEol text).1 (splitEol text).2 s).1 := by
  unfold bodyLine
  split
  · exact ((quiet_onDelimiter _).atStart _ (atStart_startBody _ h)).reading
  · rw [andThen_fst, andThen_fst, modify_apply, flushPendingEol_eq]
    refine AtStart.reading ⟨h.carry, rfl, h.heldCr, ?_⟩
    intro e he
    split_ifs at he
    cases he
    exact splitEol_getLast text

/-- Only the line itself changes while a header line is kept. -/
theorem keepHeader_fst (seg : Bytes) (s : MimeParser) :
    ∃ carry full n, (keepHeader o seg s).1
      = { s with carry := carry, lineOverflow := full, warnings := n } := by
  unfold keepHeader
  dsimp only
  split_ifs
  · exact ⟨s.carry, s.lineOverflow, s.warnings, rfl⟩
  · rw [overflowLine, warn_fst]
    exact ⟨_, _, _, rfl⟩
  · exact ⟨_, s.lineOverflow, s.warnings, rfl⟩

theorem reading_headerBytes (hre : Resumes couldBe reprocess) (h : Steady couldBe s)
    (hm : s.top.mode = .headers)
    (b : UInt8) : Reading couldBe (extend line b) (headerBytes rt o reprocess [b] s).1 := by
  have hs := h.headers hm
  obtain ⟨carry, full, n, hk⟩ := keepHeader_fst (o := o) [b] s
  rw [headerBytes, andThen_fst, hk]
  split_ifs with hlf
  · have hext : extend line b = [] := foldl_extend_of_lf line hlf
    have hstart : AtStart { s with carry := [], lineOverflow := false, warnings := n } :=
      ⟨rfl, hs, h.free_of_start hs, h.eol⟩
    rw [hext]
    unfold endHeaderLine
    dsimp only
    split_ifs
    · exact reading_headerLine (fun t ht => hre _ _ t ht rfl) hstart
    · exact reading_headerLine (fun t ht => hre _ _ t ht rfl) hstart
    · exact reading_headerLine (fun t ht => hre _ _ t ht (splitEol_getLast _)) hstart
  · exact ⟨⟨h.heldCr, h.headers, fun hf => absurd (hf.symm.trans hs) Bool.false_ne_true, h.eol,
      fun hne => absurd hm hne⟩, fun hne => absurd hm hne⟩

/-- A segment that was streamed leads to the start of a line only by its LF. -/
theorem Streaming.reading (h : Streaming s) {b : UInt8} (hlf : s.atLineStart = true → b = LF) :
    Reading couldBe (extend line b) s := by
  refine ⟨h.steady, fun _ ht => ?_⟩
  have hext : extend line b = [] := if_pos (hlf ht)
  rw [hext]
  exact h.carry

theorem Streaming.reading_octet (h : Streaming s) (b : UInt8)
    (hb : s.atLineStart = true → b ≠ DASH) :
    Reading l.couldBe (extend line b) (l.feed [b] s).1 := by
  have hstate : Agrees (l.feed [b]) _ s := h.agrees b [] hb
  rw [cutNlDash_singleton, feed_nil, andThen_skip] at hstate
  rw [hstate.1]
  obtain ⟨hnext, hlf, -⟩ := streamSegment_spec h.released (s.withheld ++ [b])
  refine hnext.reading fun ht => ?_
  have hlast := hlf ht
  rw [getLast?_concat, Option.some.injEq] at hlast
  exact hlast

/-- After an open line was given up the parser is inside a line. -/
theorem LineStart.streaming_release (h : LineStart s) {part : Bytes} (hne : part ≠ [])
    (hlf : part.getLast? ≠ some LF) :
    Streaming (releaseCandidate part s).1 ∧ (releaseCandidate part s).1.atLineStart = false := by
  rw [(h.agrees_release hne hlf).1]
  obtain ⟨hnext, hend, -⟩ := streamSegment_spec h.released (s.withheld ++ part)
  refine ⟨hnext, ?_⟩
  rw [← Bool.not_eq_true]
  intro ht
  have hlast := hend ht
  rw [getLast?_append_of_ne_nil _ hne] at hlast
  exact hlf hlast

/-- After an octet of a candidate the line is over, kept or given up. -/
theorem LineStart.reading_candidate (h : LineStart { s with carry := [] }) (b : UInt8) :
    Reading couldBe (extend s.carry b) (takeCandidate rt o couldBe [b] s).1 := by
  by_cases hb : b = LF
  · have hext : extend s.carry b = [] := if_pos hb
    rw [takeCandidate_end (by rw [hb]; rfl), hext]
    exact reading_bodyLine _ h.toAtStart
  · have hone : [b].getLast? ≠ some LF := by simpa using hb
    have hext : extend s.carry b = s.carry ++ [b] := if_neg hb
    rw [hext]
    cases hcould : couldBe s.delimiters (s.carry ++ [b]) with
    | true =>
      rw [takeCandidate_open hone, hcould, if_pos rfl]
      exact ⟨⟨fun ht => (nomatch h.heldCr.symm.trans ht), fun hm => absurd hm h.mode,
        fun hf => (nomatch hf.symm.trans h.start), h.eol, fun _ _ => ⟨h.delims, hcould⟩⟩,
        fun _ _ => rfl⟩
    | false =>
      rw [takeCandidate_open hone, hcould, if_neg Bool.false_ne_true]
      have hlast : (s.carry ++ [b]).getLast? ≠ some LF := by simpa using hb
      obtain ⟨hnext, hmid⟩ := h.streaming_release (by simp) hlast
      exact hnext.steady.reading_of_mid hmid

/-- An octet leads from one such state to the next. -/
theorem reading_octet (hre : Resumes l.couldBe l.reprocess) (h : Reading l.couldBe line s)
    (b : UInt8) :
    Reading l.couldBe (extend line b) (l.feed [b] s).1 := by
  by_cases hm : s.top.mode = .headers
  · rw [feed_headers b [] hm, cutLine_singleton, feed_nil, andThen_skip]
    exact reading_headerBytes hre h.toSteady hm b
  · cases hs : s.atLineStart with
    | false =>
      by_cases hd : s.delimiters = []
      · rw [feed_plain b [] hm hs hd (h.free_of_plain hd)]
        exact (h.toSteady.content _).reading_of_mid hs
      · exact (h.streaming_of_mid hm hs hd).reading_octet b fun ht => nomatch hs.symm.trans ht
    | true =>
      by_cases hd : s.delimiters = []
      · have hleft : Steady l.couldBe (leaveLineStart s).1 := h.leave hm hs (h.carry_of_plain hm hd)
        have hd' := (leaveLineStart_delimiters s).trans hd
        rw [feed_start b [] hm hs (.inl hd), andThen_fst,
          feed_plain b [] (leaveLineStart_mode hm) (leaveLineStart_mid s) hd'
          (hleft.free_of_plain hd')]
        exact (hleft.content _).reading_of_mid (leaveLineStart_mid s)
      · by_cases hc : s.carry ≠ [] ∨ b = DASH
        · rw [feed_candidate b [] hm hs hd hc, cutLine_singleton, feed_nil, andThen_skip,
            ← h.kept hm hs]
          exact (h.lineStart hm hs hd).reading_candidate b
        · rw [not_or, not_not] at hc
          exact (h.streaming_of_start hm hs hd hc.1).reading_octet b fun _ => hc.2

theorem steady_octet (hre : Resumes l.couldBe l.reprocess) (b : UInt8) :
    Keeps (Steady l.couldBe) (l.feed [b]) := fun _ h => (reading_octet hre h.reading b).toSteady

/-- So does any buffer. -/
theorem reading_feed (hJ : Judge l.couldBe) (hre : Resumes l.couldBe l.reprocess) (buf : Bytes)
    (h : Reading l.couldBe line s) : Reading l.couldBe (buf.foldl extend line)
    (l.feed buf s).1 := by
  induction buf generalizing line s with
  | nil => exact h
  | cons b rest ih =>
    rw [(peel hJ h.toSteady b rest).1, andThen_fst]
    exact ih (reading_octet hre h b)

/-- A buffer may be cut anywhere. -/
theorem feed_append (hJ : Judge l.couldBe) (hre : Resumes l.couldBe l.reprocess) (a b : Bytes)
    (h : Steady l.couldBe s) :
    Agrees (l.feed (a ++ b)) (l.feed a >> l.feed b) s :=
  agreeAt_append_of_peel feed_nil (steady_octet hre) (fun _ _ _ hs => peel hJ hs _ _) a b s h

theorem resumes_processNested (hJ : Judge couldBe) (n : ℕ) :
    Resumes couldBe (processNested rt o couldBe n) := by
  induction n with
  | zero => exact fun _ _ _ h _ => h.reading
  | succ n ih =>
    intro text eol s h heol
    have hnext := reading_feed (l := ⟨rt, o, couldBe, _⟩) hJ ih (text ++ eol) h.reading
    rw [foldl_append, foldl_extend_of_lf _ heol] at hnext
    exact hnext

/-! ## A stricter judge -/

/-- The open line is given up where the judge rejects it. -/
def giveUp (strict : List (Bytes × ℕ) → Bytes → Bool) : Step := fun s =>
  if s.top.mode ≠ .headers ∧ s.atLineStart = true ∧ s.carry ≠ []
    ∧ strict s.delimiters s.carry = false then
    (clear >> releaseCandidate s.carry) s
  else (s, [])

variable {strict : List (Bytes × ℕ) → Bytes → Bool} {strictly : Bytes → Step}

theorem giveUp_skip (h : s.top.mode ≠ .headers → s.atLineStart = true → s.carry = []) :
    giveUp strict s = (s, []) :=
  if_neg fun hg => hg.2.2.1 (h hg.1 hg.2.1)

theorem Reading.giveUp_skip (h : Reading couldBe [] s) : giveUp strict s = (s, []) :=
  Mime.giveUp_skip h.kept

theorem Reading.giveUp (h : Reading couldBe line s) (hlf : LF ∉ line) :
    Reading couldBe line (giveUp strict s).1 := by
  unfold Mime.giveUp
  split_ifs with hg
  · obtain ⟨hm, hs, hc, -⟩ := hg
    have hlast : s.carry.getLast? ≠ some LF := by
      rw [h.kept hm hs]
      exact fun he => hlf (mem_of_getLast? he)
    obtain ⟨hnext, hmid⟩ := (h.lineStart hm hs (h.candidate hm hc).1).streaming_release hc hlast
    exact hnext.steady.reading_of_mid hmid
  · exact h

theorem headerLine_congr {text eol : Bytes}
    (hre : ∀ t, AtStart t → strictly (text ++ eol) t = reprocess (text ++ eol) t)
    (h : AtStart s) : headerLine rt o strictly text eol s
      = headerLine rt o reprocess text eol s := by
  have hbreak : ∀ message, breakHeaders rt o message (strictly (text ++ eol)) s
      = breakHeaders rt o message (reprocess (text ++ eol)) s := by
    intro message
    have hstart : AtStart
        (startBody (finishHeaders rt o (warn o .headerMissingSeparator message s.top s).1).1).1 :=
      atStart_startBody _ (quiet_finishHeaders.atStart _ ((quiet_warn _ _ _).atStart s h))
    unfold breakHeaders
    refine Prod.ext ?_ ?_
    · simp only [andThen_fst]
      rw [hre _ hstart]
    · simp only [andThen_snd]
      rw [hre _ hstart]
  unfold headerLine headerText
  rw [hbreak]

theorem headerBytes_congr
    (hre : ∀ text eol t, AtStart t → eol.getLast? = some LF →
      strictly (text ++ eol) t = reprocess (text ++ eol) t)
    (h : Steady couldBe s) (hm : s.top.mode = .headers) (seg : Bytes) :
    headerBytes rt o strictly seg s = headerBytes rt o reprocess seg s := by
  have hs := h.headers hm
  obtain ⟨carry, full, n, hk⟩ := keepHeader_fst (o := o) seg s
  have hstart : AtStart { s with carry := [], lineOverflow := false, warnings := n } :=
    ⟨rfl, hs, h.free_of_start hs, h.eol⟩
  rw [headerBytes, headerBytes, andThen_apply, andThen_apply, hk]
  split_ifs
  · have hsame : endHeaderLine rt o strictly
        { s with carry := carry, lineOverflow := full, warnings := n }
        = endHeaderLine rt o reprocess
          { s with carry := carry, lineOverflow := full, warnings := n } := by
      unfold endHeaderLine
      dsimp only
      split_ifs
      · exact headerLine_congr (fun t ht => hre _ _ t ht rfl) hstart
      · exact headerLine_congr (fun t ht => hre _ _ t ht rfl) hstart
      · exact headerLine_congr (fun t ht => hre _ _ t ht (splitEol_getLast _)) hstart
    rw [hsame]
  · rfl

theorem streamSegment_carry (seg : Bytes) (s : MimeParser) :
    (streamSegment seg s).1.carry = s.carry := by
  unfold streamSegment
  split_ifs
  · rfl
  · rfl
  · rfl
  · rfl

theorem scanMidLine_carry (seg : Bytes) (s : MimeParser) :
    (scanMidLine seg s).1.carry = s.carry := by
  unfold scanMidLine
  split_ifs
  · rfl
  · exact streamSegment_carry seg _
  · exact streamSegment_carry seg s

/-- The end of a slice inside a candidate is all the judges differ on. -/
theorem takeCandidate_strict (hsub : ∀ ds part, strict ds part = true → couldBe ds part = true)
    (h : LineStart { s with carry := [] }) {seg : Bytes} (hseg : seg ≠ [])
    (hlf : seg.getLast? ≠ some LF) :
    takeCandidate rt o strict seg s = (takeCandidate rt o couldBe seg >> giveUp strict) s := by
  have hne : s.carry ++ seg ≠ [] := by simp [hseg]
  have hlast : (s.carry ++ seg).getLast? ≠ some LF := by
    rw [getLast?_append_of_ne_nil _ hseg]
    exact hlf
  obtain ⟨hnext, -⟩ := h.streaming_release hne hlast
  rw [andThen_apply, takeCandidate_open hlf, takeCandidate_open hlf]
  cases hcould : couldBe s.delimiters (s.carry ++ seg) with
  | false =>
    have hno : strict s.delimiters (s.carry ++ seg) = false := by
      by_contra hyes
      rw [Bool.not_eq_false] at hyes
      exact Bool.false_ne_true (hcould.symm.trans (hsub _ _ hyes))
    rw [hno, if_neg Bool.false_ne_true, giveUp_skip fun _ _ => hnext.carry, append_nil]
  | true =>
    rw [if_pos rfl]
    unfold giveUp
    cases hyes : strict s.delimiters (s.carry ++ seg) with
    | true =>
      rw [if_pos rfl, if_neg fun hg => Bool.false_ne_true hg.2.2.2.symm]
      rfl
    | false =>
      have hopen : LineStart { s with carry := [] } := h
      rw [if_neg Bool.false_ne_true, if_pos ⟨hopen.mode, hopen.start, hne, rfl⟩]
      rfl

/-! ### Whole turns -/

theorem cutLine_fst_self (buf : Bytes) : cutLine (cutLine buf).1 = ((cutLine buf).1, []) := by
  induction buf with
  | nil => rfl
  | cons b rest ih =>
    by_cases hb : b = LF
    · rw [cutLine_pos hb, cutLine_singleton]
    · rw [cutLine_neg hb, cutLine_neg hb, ih]

theorem cutNlDash_head (buf : Bytes) : (cutNlDash buf).1.head? = buf.head? := by
  cases buf with
  | nil => rfl
  | cons x rest =>
    have hne : (cutNlDash (x :: rest)).1 ≠ [] := cutAfter_fst_ne_nil _ x rest
    have happ : (cutNlDash (x :: rest)).1 ++ (cutNlDash (x :: rest)).2 = x :: rest :=
      cutAfter_append _ _
    exact (head?_append_of_ne_nil _ hne).symm.trans (congrArg List.head? happ)

theorem cutNlDash_fst_self (buf : Bytes) : cutNlDash (cutNlDash buf).1
    = ((cutNlDash buf).1, []) := by
  induction buf with
  | nil => rfl
  | cons b rest ih =>
    by_cases hb : (b = LF && rest.head? = some DASH) = true
    · have hcut : cutNlDash (b :: rest) = ([b], rest) := cutAfter_pos _ hb
      rw [hcut, cutNlDash_singleton]
    · rw [Bool.not_eq_true] at hb
      have hcut : cutNlDash (b :: rest) = (b :: (cutNlDash rest).1, (cutNlDash rest).2) :=
        cutAfter_neg _ hb
      have hcut' : cutNlDash (b :: (cutNlDash rest).1)
          = (b :: (cutNlDash (cutNlDash rest).1).1, (cutNlDash (cutNlDash rest).1).2) :=
        cutAfter_neg _ (by rw [cutNlDash_head]; exact hb)
      rw [hcut, hcut', ih]

theorem cutMidLine_fst_self (s : MimeParser) (buf : Bytes) :
    cutMidLine s (cutMidLine s buf).1 = ((cutMidLine s buf).1, []) := by
  unfold cutMidLine
  by_cases hcr : (s.heldCr && buf.head? = some LF) = true
  · have hheld : s.heldCr = true := (Bool.and_eq_true _ _ ▸ hcr).1
    rw [if_pos hcr, hheld]
    rfl
  · rw [if_neg hcr]
    by_cases hd : s.delimiters = []
    · rw [if_pos hd, if_neg hcr, if_pos hd]
    · rw [if_neg hd, cutNlDash_head, if_neg hcr, if_neg hd, cutNlDash_fst_self]

variable {buf : Bytes}

/-- A line that ends inside the buffer ends in LF. -/
theorem cutLine_lf (h : (cutLine buf).2 ≠ []) : (cutLine buf).1.getLast? = some LF := by
  induction buf with
  | nil => exact absurd rfl h
  | cons b rest ih =>
    by_cases hb : b = LF
    · rw [cutLine_pos hb, hb]
      rfl
    · rw [cutLine_neg hb] at h ⊢
      have hlast := ih h
      have hne : (cutLine rest).1 ≠ [] := by
        intro he
        rw [he] at hlast
        cases hlast
      exact (getLast?_append_of_ne_nil [b] hne).trans hlast

/-- **Where two judges part.** On a slice the stricter judge acts like the laxer
one, but that it gives up the line the slice ends in if it rejects it. By
induction on the turns of the loop: only the last can end inside a candidate. -/
theorem feed_strict {k : Loop} (hrt : k.rt = l.rt) (ho : k.o = l.o) (hJ : Judge l.couldBe)
    (hsub : ∀ ds part, k.couldBe ds part = true → l.couldBe ds part = true)
    (hres : Resumes l.couldBe l.reprocess)
    (hre : ∀ text eol t, AtStart t → eol.getLast? = some LF →
      k.reprocess (text ++ eol) t = l.reprocess (text ++ eol) t)
    (hbuf : buf ≠ []) (h : Steady l.couldBe s) :
    k.feed buf s = (l.feed buf >> giveUp k.couldBe) s := by
  induction hn : buf.length using Nat.strongRecOn generalizing buf s with
  | ind n ih =>
  subst hn
  obtain ⟨b, rest, rfl⟩ := exists_cons_of_ne_nil hbuf
  -- a turn both judges take, and the turns after it
  have hturn : ∀ (s : MimeParser) (turn : Step) (seg after : Bytes), Steady l.couldBe s →
      after.length ≤ rest.length →
      k.feed (b :: rest) s = (turn >> k.feed after) s →
      l.feed (b :: rest) s = (turn >> l.feed after) s →
      l.feed seg s = turn s →
      (after = [] → giveUp k.couldBe (turn s).1 = ((turn s).1, [])) →
      k.feed (b :: rest) s = (l.feed (b :: rest) >> giveUp k.couldBe) s := by
    intro s turn seg after h hlen hstrict hlax hseg hlast
    have hsteady : Steady l.couldBe (turn s).1 := by
      rw [← hseg]
      exact (reading_feed hJ hres seg h.reading).toSteady
    rw [hstrict, andThen_apply, andThen_apply (l.feed (b :: rest)), hlax]
    by_cases hne : after = []
    · rw [hne, feed_nil, feed_nil, andThen_skip, hlast hne]
      rfl
    · rw [ih _ (Nat.lt_succ_of_le hlen) hne hsteady rfl,
        ← andThen_apply, ← andThen_assoc, andThen_apply]
  -- inside a line neither judge is asked
  have hmid : ∀ s : MimeParser, Steady l.couldBe s → s.top.mode ≠ .headers → s.atLineStart = false →
      k.feed (b :: rest) s = (l.feed (b :: rest) >> giveUp k.couldBe) s := by
    intro s h hm hs
    have hseg : l.feed (cutMidLine s (b :: rest)).1 s
        = scanMidLine (cutMidLine s (b :: rest)).1 s := by
      obtain ⟨x, tl, hx⟩ := exists_cons_of_ne_nil (cutMidLine_fst_ne_nil s b rest)
      have hcut := cutMidLine_fst_self s (b :: rest)
      rw [hx] at hcut ⊢
      rw [feed_mid x tl hm hs, hcut, feed_nil, andThen_skip]
    refine hturn s _ _ _ h (length_cutMidLine_snd s b rest) (feed_mid b rest hm hs)
      (feed_mid b rest hm hs) hseg
      fun _ => giveUp_skip fun _ _ => ?_
    rw [scanMidLine_carry]
    exact (h.mid hs).1
  have hne : (cutLine (b :: rest)).1 ≠ [] := cutAfter_fst_ne_nil _ b rest
  have hlen := length_cutLine_snd b rest
  -- after a whole line nothing is open
  have hended : ∀ turn : Step, l.feed (cutLine (b :: rest)).1 s = turn s →
      (cutLine (b :: rest)).1.getLast? = some LF → giveUp k.couldBe (turn s).1
        = ((turn s).1, []) := by
    intro turn hseg hlf
    have hread : Reading l.couldBe _ (l.feed (cutLine (b :: rest)).1 s).1 :=
      reading_feed hJ hres _ h.reading
    rw [foldl_extend_of_lf _ hlf, hseg] at hread
    exact hread.giveUp_skip
  by_cases hm : s.top.mode = .headers
  · have hsame : headerBytes k.rt k.o k.reprocess (cutLine (b :: rest)).1 s
        = headerBytes l.rt l.o l.reprocess (cutLine (b :: rest)).1 s := by
      rw [hrt, ho]
      exact headerBytes_congr hre h hm _
    have hseg : l.feed (cutLine (b :: rest)).1 s = headerBytes l.rt l.o l.reprocess
        (cutLine (b :: rest)).1 s := by
      obtain ⟨x, tl, hx⟩ := exists_cons_of_ne_nil hne
      have hcut := cutLine_fst_self (b :: rest)
      rw [hx] at hcut ⊢
      rw [feed_headers x tl hm, hcut, feed_nil, andThen_skip]
    refine hturn s _ _ _ h hlen ?_ (feed_headers b rest hm) hseg fun _ => ?_
    · rw [feed_headers b rest hm, andThen_apply, hsame, ← andThen_apply]
    · by_cases hlf : (cutLine (b :: rest)).1.getLast? = some LF
      · exact hended _ hseg hlf
      · refine giveUp_skip fun hm' => absurd ?_ hm'
        rw [headerBytes_open hlf, keepHeader_mode]
        exact hm
  · cases hs : s.atLineStart with
    | false => exact hmid s h hm hs
    | true =>
      by_cases hc : s.delimiters = [] ∨ s.carry = [] ∧ b ≠ DASH
      · have hcarry : s.carry = [] := by
          rcases hc with hd | hc
          · exact h.carry_of_plain hm hd
          · exact hc.1
        rw [feed_start b rest hm hs hc, andThen_apply,
          hmid _ (h.leave hm hs hcarry) (leaveLineStart_mode hm) (leaveLineStart_mid s),
          ← andThen_apply, ← andThen_assoc, andThen_apply, ← feed_start b rest hm hs hc,
          ← andThen_apply]
      · rw [not_or, not_and_or, not_not] at hc
        obtain ⟨hd, hc⟩ := hc
        by_cases hlf : (cutLine (b :: rest)).1.getLast? = some LF
        · have hsame : takeCandidate k.rt k.o k.couldBe (cutLine (b :: rest)).1 s
              = takeCandidate l.rt l.o l.couldBe (cutLine (b :: rest)).1 s := by
            rw [hrt, ho, takeCandidate_end hlf, takeCandidate_end hlf]
          have hseg : l.feed (cutLine (b :: rest)).1 s
              = takeCandidate l.rt l.o l.couldBe (cutLine (b :: rest)).1 s := by
            obtain ⟨x, tl, hx⟩ := exists_cons_of_ne_nil hne
            have hcut := cutLine_fst_self (b :: rest)
            have happ : (cutLine (b :: rest)).1 ++ (cutLine (b :: rest)).2 = b :: rest :=
              cutAfter_append _ _
            rw [hx, cons_append, List.cons.injEq] at happ
            rw [hx] at hcut ⊢
            rw [feed_candidate x tl hm hs hd (by rw [happ.1]; exact hc), hcut, feed_nil,
              andThen_skip]
          refine hturn s _ _ _ h hlen ?_ (feed_candidate b rest hm hs hd hc) hseg fun _ =>
            hended _ hseg hlf
          rw [feed_candidate b rest hm hs hd hc, andThen_apply, hsame, ← andThen_apply]
        · -- the slice ends inside the candidate
          have hlast : (cutLine (b :: rest)).2 = [] := by
            by_contra hmore
            exact hlf (cutLine_lf hmore)
          rw [feed_candidate b rest hm hs hd hc, hlast, feed_nil, andThen_skip, hrt, ho,
            takeCandidate_strict hsub (h.lineStart hm hs hd) hne hlf, andThen_apply,
            andThen_apply (l.feed _), feed_candidate b rest hm hs hd hc, hlast, feed_nil,
            andThen_skip]

/-- The same for the parser. What ended a header block ends in a line break, so
inside the nested calls the judges do not differ. -/
theorem processNested_strict (hJ : Judge couldBe)
    (hsub : ∀ ds part, strict ds part = true → couldBe ds part = true) (n : ℕ) (hbuf : buf ≠ [])
    (h : Steady couldBe s) (hn : n ≠ 0 ∨ AtStart s) :
    processNested rt o strict n buf s = (processNested rt o couldBe n buf >> giveUp strict) s := by
  induction n generalizing buf s with
  | zero =>
    have hstart : AtStart s := hn.resolve_left fun hne => hne rfl
    have hskip : giveUp strict s = (s, []) := giveUp_skip fun _ _ => hstart.carry
    exact hskip.symm
  | succ n ih =>
    refine feed_strict (k := ⟨rt, o, strict, _⟩) (l := ⟨rt, o, couldBe, _⟩) rfl rfl hJ hsub
      (resumes_processNested hJ n) ?_ hbuf h
    intro text eol t ht heol
    have hne : text ++ eol ≠ [] := by
      intro he
      rw [(append_eq_nil_iff.mp he).2] at heol
      cases heol
    have hread : Reading couldBe [] (processNested rt o couldBe n (text ++ eol) t).1 :=
      resumes_processNested hJ n text eol t ht heol
    dsimp only
    rw [ih hne ht.steady (.inr ht), andThen_apply, hread.giveUp_skip, append_nil]

end

end Postroom.Mime
