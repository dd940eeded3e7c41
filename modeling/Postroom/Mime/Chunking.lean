/-
A cut inside the input, one octet at a time.

A line that begins like a delimiter is kept whole until it ends, and is judged
where a slice ends inside it. For a judge that lets every beginning of a
delimiter line pass (`Judge`), being handed the next octet by itself makes no
difference to the loop (`peel`).
-/
import Postroom.Mime.Kept
import Postroom.Mime.Lines

set_option autoImplicit false

namespace Postroom.Mime

open Lib Emits List
open AgreeAt (of_eq after)

/-! ## Steps that leave the current line alone -/

/-- The part of the state that is about the current line. -/
def MimeParser.line (s : MimeParser) : Bytes × Bool × Bool × Option Bytes × Bool :=
  (s.carry, s.lineOverflow, s.atLineStart, s.pendingEol, s.heldCr)

/-- The step leaves it alone. -/
def Quiet (f : Step) : Prop := ∀ s, (f s).1.line = s.line

/-- And the active delimiters with it. -/
def Still (f : Step) : Prop := ∀ s, (f s).1.line = s.line ∧ (f s).1.delimiters = s.delimiters

variable {f : Step}

theorem Still.quiet (h : Still f) : Quiet f := fun s => (h s).1

section Quiet

variable {rt : Runtime} {o : ParseOptions}

theorem quiet_warn (code : WarningCode) (message : Text) (frame : Frame) :
    Quiet (warn o code message frame) := by
  intro s
  rw [warn_fst]
  rfl

theorem still_endField : Still (endField rt o) := by
  intro s
  unfold endField
  dsimp only
  split_ifs
  · exact ⟨rfl, rfl⟩
  · rw [andThen_fst, modify_apply, warnIf_fst]
    exact ⟨rfl, rfl⟩

theorem still_appendField (eol line : Bytes) : Still (appendField o eol line) := by
  intro s
  unfold appendField
  dsimp only
  split_ifs
  · exact ⟨rfl, rfl⟩
  · rw [warn_fst]
    exact ⟨rfl, rfl⟩
  · rw [warn_fst]
    exact ⟨rfl, rfl⟩
  · exact ⟨rfl, rfl⟩

theorem openPart_line (frame : Frame) (part : PartInfo) (s : MimeParser) :
    (openPart frame part s).line = s.line := by
  unfold openPart
  split
  · rfl
  · rfl
  · rfl

theorem quiet_readHeaders : Quiet (readHeaders rt o) := by
  intro s
  obtain ⟨part, n, hfst, -⟩ := readHeaders_fst rt o s
  rw [hfst]
  exact openPart_line s.top part { s with warnings := n }

theorem quiet_popTop : Quiet (popTop o) := by
  intro s
  unfold popTop
  dsimp only
  split
  · simp only [andThen_fst, flushTail_fst, warnIf_fst, endPart_fst]
    rfl
  · simp only [andThen_fst, warnIf_fst, endPart_fst]
    rfl
  · rw [endPart_fst]
    rfl

theorem still_enterDelimiter (m : Match) : Still (enterDelimiter o m) := by
  intro s
  unfold enterDelimiter
  dsimp only
  split_ifs
  · rw [warn_fst]
    exact ⟨rfl, rfl⟩
  · rw [andThen_fst, warnIf_fst, modify_apply]
    exact ⟨rfl, rfl⟩
  · exact ⟨rfl, rfl⟩
  · exact ⟨rfl, rfl⟩

/-- Whatever the current line is, opening and closing parts keeps it. -/
theorem line_kept (s : MimeParser) : PartKept rt o (fun t => t.line = s.line) where
  endField := fun t h => (still_endField t).1.trans h
  readHeaders := fun t h => (quiet_readHeaders t).trans h
  popTop := fun t h => (quiet_popTop t).trans h
  enterDelimiter := fun m t h => (still_enterDelimiter m t).1.trans h

theorem quiet_finishHeaders : Quiet (finishHeaders rt o) :=
  fun s => (line_kept s).finishHeaders s rfl

theorem quiet_onDelimiter (m : Match) : Quiet (onDelimiter rt o m) :=
  fun s => (line_kept s).onDelimiter m s rfl

theorem breakHeaders_fst (message : Text) (next : Step) (s : MimeParser) :
    (breakHeaders rt o message next s).1 =
      (next
        (startBody
        (finishHeaders rt o (warn o .headerMissingSeparator message s.top s).1).1).1).1 := by
  rw [breakHeaders, andThen_fst, andThen_fst, andThen_fst]

end Quiet

/-! ## States between octets -/

/-- The start of a line: nothing of it was read, and no CR is held. -/
structure AtStart (s : MimeParser) : Prop where
  carry : s.carry = []
  start : s.atLineStart = true
  heldCr : s.heldCr = false
  eol : ∀ e, s.pendingEol = some e → e.getLast? = some LF

/-- What every state between two octets satisfies. -/
structure Steady (couldBe : List (Bytes × ℕ) → Bytes → Bool) (s : MimeParser) : Prop where
  heldCr : s.heldCr = true → s.atLineStart = false ∧ s.delimiters ≠ []
  headers : s.top.mode = .headers → s.atLineStart = true
  mid : s.atLineStart = false → s.carry = [] ∧ s.pendingEol = none
  eol : ∀ e, s.pendingEol = some e → e.getLast? = some LF
  /-- A line that is kept may still become a delimiter. -/
  candidate : s.top.mode ≠ .headers → s.carry ≠ [] → s.delimiters ≠ []
    ∧ couldBe s.delimiters s.carry = true

section

variable {rt : Runtime} {o : ParseOptions} {couldBe : List (Bytes × ℕ) → Bytes → Bool}
  {reprocess : Bytes → Step} {l : Loop} {s : MimeParser}

theorem AtStart.steady (h : AtStart s) : Steady couldBe s where
  heldCr := fun ht => nomatch h.heldCr.symm.trans ht
  headers := fun _ => h.start
  mid := fun hf => nomatch hf.symm.trans h.start
  eol := h.eol
  candidate := fun _ hne => absurd h.carry hne

theorem Streaming.steady (h : Streaming s) : Steady couldBe s where
  heldCr := fun ht => by
    refine ⟨?_, h.delims⟩
    cases hs : s.atLineStart with
    | false => rfl
    | true => exact nomatch (h.start hs).symm.trans ht
  headers := fun hm => absurd hm h.mode
  mid := fun hf => ⟨h.carry, h.mid hf⟩
  eol := h.eol
  candidate := fun _ hne => absurd h.carry hne

/-- Only the current line matters for being at the start of one. -/
theorem AtStart.of_line {t : MimeParser} (h : AtStart s) (hl : t.line = s.line) : AtStart t := by
  simp only [MimeParser.line, Prod.mk.injEq] at hl
  obtain ⟨hc, -, hs, hp, hh⟩ := hl
  exact ⟨hc.trans h.carry, hs.trans h.start, hh.trans h.heldCr, by rw [hp]; exact h.eol⟩

theorem Quiet.atStart (hf : Quiet f) : Keeps AtStart f := fun s h => h.of_line (hf s)

theorem atStart_startBody : Keeps AtStart startBody := fun _ h =>
  ⟨h.carry, rfl, h.heldCr, fun _ he => absurd he (by simp [startBody])⟩

/-! ## Header octets -/

theorem keepHeader_over (seg : Bytes) (h : s.lineOverflow = true) :
    keepHeader o seg s = (s, []) := by
  rw [keepHeader, if_pos h]

variable {seg : Bytes}

theorem keepHeader_fits (h : ¬ s.lineOverflow = true)
    (hfit : s.carry.length + seg.length ≤ o.maxLineBytes) :
    keepHeader o seg s = ({ s with carry := s.carry ++ seg }, []) := by
  have hmin : min (o.maxLineBytes - s.carry.length) seg.length = seg.length := by omega
  rw [keepHeader, if_neg h]
  dsimp only
  rw [hmin, take_length, if_neg (Nat.lt_irrefl _)]

theorem keepHeader_cut (h : ¬ s.lineOverflow = true)
    (hcut : o.maxLineBytes < s.carry.length + seg.length) (hseg : seg ≠ []) : keepHeader o seg s =
      overflowLine o { s with carry := s.carry ++ seg.take (o.maxLineBytes - s.carry.length) } := by
  have hpos := length_pos_of_ne_nil hseg
  have hmin : min (o.maxLineBytes - s.carry.length) seg.length
      = o.maxLineBytes - s.carry.length := by omega
  rw [keepHeader, if_neg h]
  rw [hmin, if_pos (by omega)]

/-- A capped line is kept the same octet by octet. -/
theorem keepHeader_cons (b : UInt8) (hseg : seg ≠ []) (s : MimeParser) :
    keepHeader o (b :: seg) s = (keepHeader o [b] >> keepHeader o seg) s := by
  have hlen : (b :: seg).length = seg.length + 1 := length_cons
  have hone : [b].length = 1 := rfl
  rw [andThen_apply]
  by_cases hover : s.lineOverflow = true
  · rw [keepHeader_over _ hover, keepHeader_over _ hover, keepHeader_over _ hover]
    rfl
  · by_cases hroom : s.carry.length + 1 ≤ o.maxLineBytes
    · let t : MimeParser := { s with carry := s.carry ++ [b] }
      have hfirst : keepHeader o [b] s = (t, []) := keepHeader_fits hover hroom
      have hover' : ¬ t.lineOverflow = true := hover
      have hcarry : t.carry.length = s.carry.length + 1 := by rw [length_append, hone]
      rw [hfirst]
      by_cases hfit : s.carry.length + (b :: seg).length ≤ o.maxLineBytes
      · have hsecond : keepHeader o seg t = ({ t with carry := t.carry ++ seg }, []) :=
          keepHeader_fits hover' (by omega)
        rw [keepHeader_fits hover hfit, hsecond]
        rw [append_assoc]
        rfl
      · -- the octet that overflows comes later
        have hsub : o.maxLineBytes - s.carry.length = (o.maxLineBytes - (s.carry.length + 1))
            + 1 := by omega
        have hsecond : keepHeader o seg t = overflowLine o { t with
            carry := t.carry ++ seg.take (o.maxLineBytes - t.carry.length) } :=
          keepHeader_cut hover' (by omega) hseg
        rw [keepHeader_cut hover (by omega) (cons_ne_nil _ _), hsecond, hcarry, hsub,
          take_succ_cons]
        rw [append_assoc]
        rfl
    · -- the line overflows on this octet
      have hsub : o.maxLineBytes - s.carry.length = 0 := by omega
      have hthen : ∀ t, keepHeader o seg (overflowLine o t).1 = ((overflowLine o t).1, []) :=
        fun t =>
        keepHeader_over seg (by rw [overflowLine, warn_fst])
      rw [keepHeader_cut hover (by omega) (cons_ne_nil _ _),
        keepHeader_cut hover (by omega) (cons_ne_nil _ _),
        hsub, take_zero, take_zero, hthen, append_nil]
      exact Prod.ext rfl (append_nil _).symm

theorem keepHeader_mode (seg : Bytes) (s : MimeParser) :
    (keepHeader o seg s).1.top.mode = s.top.mode := by
  unfold keepHeader
  dsimp only
  split_ifs
  · rfl
  · rw [overflowLine, warn_fst]
    rfl
  · rfl

theorem headerBytes_open (h : seg.getLast? ≠ some LF) :
    headerBytes rt o reprocess seg = keepHeader o seg := by
  rw [headerBytes, if_neg h]
  exact andThen_skip _

theorem headerBytes_cons (b : UInt8) (hb : b ≠ LF) (hseg : seg ≠ []) (s : MimeParser) :
    headerBytes rt o reprocess (b :: seg) s
      = (headerBytes rt o reprocess [b] >> headerBytes rt o reprocess seg) s := by
  have hlast : (b :: seg).getLast? = seg.getLast? := getLast?_append_of_ne_nil [b] hseg
  have hone : [b].getLast? ≠ some LF := by simpa using hb
  rw [headerBytes_open hone, headerBytes, headerBytes, hlast, ← andThen_assoc, andThen_apply,
    andThen_apply (keepHeader o [b] >> keepHeader o seg), keepHeader_cons b hseg]

theorem peel_headers (b : UInt8) (rest : Bytes) (hm : s.top.mode = .headers) :
    l.feed (b :: rest) s = (l.feed [b] >> l.feed rest) s := by
  have hfirst : l.feed [b] s = headerBytes l.rt l.o l.reprocess [b] s := by
    rw [feed_headers b [] hm, cutLine_singleton, feed_nil, andThen_skip]
  rw [feed_headers b rest hm, andThen_apply (l.feed [b]), hfirst]
  by_cases hb : b = LF
  · rw [cutLine_pos hb, andThen_apply]
  · rw [cutLine_neg hb]
    cases rest with
    | nil => rw [cutLine, cutAfter, andThen_apply]
    | cons x rest =>
      have hne : (cutLine (x :: rest)).1 ≠ [] := cutAfter_fst_ne_nil _ x rest
      have hm' : (headerBytes l.rt l.o l.reprocess [b] s).1.top.mode = .headers := by
        rw [headerBytes_open (by simpa using hb), keepHeader_mode]
        exact hm
      rw [feed_headers x rest hm', andThen_apply, headerBytes_cons b hb hne,
        ← andThen_apply, andThen_assoc,
        andThen_apply]

/-! ## Body without delimiters -/

/-- With no delimiter to look for, everything is content. -/
theorem feed_plain (b : UInt8) (rest : Bytes) (hm : s.top.mode ≠ .headers)
    (hs : s.atLineStart = false)
    (hd : s.delimiters = []) (hh : s.heldCr = false) :
    l.feed (b :: rest) s = content (b :: rest) s := by
  have hcut : cutMidLine s (b :: rest) = (b :: rest, []) := by
    unfold cutMidLine
    rw [if_neg (by rw [hh]; exact Bool.false_ne_true), if_pos hd]
  rw [feed_mid b rest hm hs, hcut, feed_nil, andThen_skip, scanMidLine,
    if_neg (by rw [hh]; exact Bool.false_ne_true),
    streamSegment, if_pos hd]

theorem peel_plain (b : UInt8) (rest : Bytes) (hm : s.top.mode ≠ .headers)
    (hs : s.atLineStart = false)
    (hd : s.delimiters = []) (hh : s.heldCr = false) : Agrees (l.feed (b :: rest))
      (l.feed [b] >> l.feed rest) s := by
  cases rest with
  | nil =>
    rw [feed_nil, andThen_skip]
    exact AgreeAt.refl _ _
  | cons x rest =>
    have hm' : (content [b] s).1.top.mode ≠ .headers := by
      rw [content_mode]
      exact hm
    have hright : (l.feed [b] >> l.feed (x :: rest)) s
        = (content [b] >> content (x :: rest)) s := by
      rw [andThen_apply, feed_plain b [] hm hs hd hh, feed_plain x rest hm' hs hd hh, andThen_apply]
    exact ((of_eq (feed_plain b (x :: rest) hm hs hd hh)).trans
      (content_append [b] (x :: rest) s)).trans
      (of_eq hright.symm)

/-! ## Candidates -/

/-- A judge of open lines that never gives up a line which may still become a
delimiter: a beginning of a line it lets pass passes too, and so does every line
that is a delimiter, with the CR of its line break. -/
structure Judge (couldBe : List (Bytes × ℕ) → Bytes → Bool) : Prop where
  initial : ∀ ds a b, couldBe ds (a ++ b) = true → couldBe ds a = true
  matched : ∀ ds line, matchDelimiter ds line ≠ none → couldBe ds (line ++ [CR]) = true

/-- A line with a beginning that was given up is no delimiter. -/
theorem Judge.no_match (h : Judge couldBe) {ds : List (Bytes × ℕ)} {a c : Bytes}
    (ha : couldBe ds a = false)
    (hc : c.getLast? = some LF) : matchDelimiter ds (splitEol (a ++ c)).1 = none := by
  by_contra hne
  have hcould := h.matched ds _ hne
  -- the beginning that was given up is a beginning of the line with its CR
  have hinit : ∃ t, (splitEol (a ++ c)).1 ++ [CR] = a ++ t := by
    obtain ⟨x, rfl⟩ := getLast?_eq_some_iff.mp hc
    unfold splitEol
    rw [← append_assoc, dropLast_concat]
    split_ifs with hcr
    · obtain ⟨z, hz⟩ := getLast?_eq_some_iff.mp hcr
      exact ⟨x, by rw [hz, dropLast_concat]⟩
    · exact ⟨x ++ [CR], by rw [append_assoc]⟩
  obtain ⟨t, ht⟩ := hinit
  rw [ht] at hcould
  exact Bool.false_ne_true (ha.symm.trans (h.initial ds a t hcould))

/-- At the start of a line in body, where it may turn out a delimiter. -/
structure LineStart (s : MimeParser) : Prop extends AtStart s where
  mode : s.top.mode ≠ .headers
  delims : s.delimiters ≠ []

theorem LineStart.released (h : LineStart s) : Released (release s).1 :=
  ⟨h.mode, h.delims, h.carry, rfl, rfl, rfl⟩

/-- The line break held at the start of a line ends in no CR. -/
theorem LineStart.withheld_last (h : LineStart s) : s.withheld.getLast? ≠ some CR := by
  rw [withheld_start h.heldCr]
  cases he : s.pendingEol with
  | none => simp
  | some e =>
    rw [Option.getD_some, h.eol e he]
    decide

/-- An open line that is given up is streamed after the line break before it. -/
theorem LineStart.agrees_release (h : LineStart s) {part : Bytes} (hne : part ≠ [])
    (hlf : part.getLast? ≠ some LF) :
    Agrees (releaseCandidate part) (release >> streamSegment (s.withheld ++ part)) s := by
  have hd : (release s).1.delimiters ≠ [] := h.delims
  have hd' : ((release >> content (s.pendingEol.getD [])) s).1.delimiters ≠ [] := h.delims
  have hsplit := streamSegment_append hd hne fun hcr => absurd hcr h.withheld_last
  refine AgreeAt.trans (of_eq ?_) (after (f := release) hsplit).symm
  rw [← andThen_assoc, releaseCandidate, andThen_apply, andThen_apply (release >> content _),
    leaveLineStart_eq_content h.heldCr, withheld_start h.heldCr]
  by_cases hcr : part.getLast? = some CR
  · rw [if_pos hcr, streamSegment_cr hd' hcr]
  · rw [if_neg hcr, streamSegment_other hd' hlf hcr]

/-- A complete line that is no delimiter is streamed after the line break before it. -/
theorem LineStart.agrees_bodyLine (h : LineStart s) {line : Bytes} (hlf : line.getLast? = some LF)
    (hno : matchDelimiter s.delimiters (splitEol line).1 = none) :
    Agrees (bodyLine rt o (splitEol line).1 (splitEol line).2)
      (release >> streamSegment (s.withheld ++ line)) s := by
  have hne : line ≠ [] := by
    rintro rfl
    cases hlf
  have hd : (release s).1.delimiters ≠ [] := h.delims
  have heol : (splitEol line).2 ≠ [] := by
    intro he
    have hlast := splitEol_getLast line
    rw [he] at hlast
    cases hlast
  have hsplit := streamSegment_append hd hne fun hcr => absurd hcr h.withheld_last
  refine AgreeAt.trans (of_eq ?_) (after (f := release) hsplit).symm
  have hrel : release s = ({ s with pendingEol := none, atLineStart := false }, []) := by
    have hsame : { s with pendingEol := none, heldCr := false, atLineStart := false }
        = { s with pendingEol := none, atLineStart := false } := by rw [← h.heldCr]
    rw [release, modify_apply, hsame]
  have hd' : (content s.withheld (release s).1).1.delimiters ≠ [] := h.delims
  rw [bodyLine, hno]
  rw [andThen_apply release, andThen_apply (content s.withheld), streamSegment_lf hd' hlf,
    if_neg heol,
    andThen_apply, flushPendingEol_eq, hrel, withheld_start h.heldCr]
  rfl

/-- Streaming up to the end of a line and on from there. -/
theorem Streaming.agrees_line (h : Streaming s) (y z : Bytes) (hne : y ≠ []) (hlf : LF ∉ y.dropLast)
    (hb : s.atLineStart = true → y.head? ≠ some DASH) : Agrees (l.feed (y ++ z))
      ((release >> streamSegment (s.withheld ++ y)) >> l.feed z) s := by
  induction y generalizing s with
  | nil => exact absurd rfl hne
  | cons b y ih =>
    have hb' : s.atLineStart = true → b ≠ DASH := fun hs hbd => hb hs (by rw [hbd]; rfl)
    have hpeel : Agrees (l.feed (b :: (y ++ z))) _ s :=
      h.peel b (y ++ z) hb'
    have hfirst : Agrees (l.feed [b]) _ s := h.agrees b [] hb'
    rw [cutNlDash_singleton, feed_nil, andThen_skip] at hfirst
    have hstep := hpeel.trans hfirst.before
    cases y with
    | nil => exact hstep
    | cons x y =>
      obtain ⟨hnext, hstart, -⟩ := streamSegment_spec h.released (s.withheld ++ [b])
      rw [dropLast_cons_of_ne_nil (cons_ne_nil x y), mem_cons, not_or] at hlf
      have hrest := ih hnext (cons_ne_nil x y) hlf.2 fun hs => by
        -- only a LF leads to the start of a line, and it would be the last octet
        have hlast := hstart hs
        rw [getLast?_concat, Option.some.injEq] at hlast
        exact absurd hlast.symm hlf.1
      have htwice := streamSegment_twice h.released (s.withheld ++ [b]) (x :: y) (cons_ne_nil x y)
      rw [append_assoc, singleton_append] at htwice
      refine hstep.trans (AgreeAt.trans ?_ (AgreeAt.before (after (f := release) htwice)).symm)
      rw [andThen_assoc, andThen_assoc, andThen_assoc]
      exact after (after hrest)

theorem takeCandidate_open (h : seg.getLast? ≠ some LF) : takeCandidate rt o couldBe seg s =
      if couldBe s.delimiters (s.carry ++ seg) then ({ s with carry := s.carry ++ seg }, [])
      else releaseCandidate (s.carry ++ seg) { s with carry := [] } := by
  unfold takeCandidate
  rw [if_neg h]

theorem takeCandidate_end (h : seg.getLast? = some LF) : takeCandidate rt o couldBe seg s =
      bodyLine rt o (splitEol (s.carry ++ seg)).1 (splitEol (s.carry ++ seg)).2
      { s with carry := [] } := by
  unfold takeCandidate
  rw [if_pos h]

/-- No LF stands before the end of a line that was cut off. -/
theorem not_mem_dropLast_cutLine (buf : Bytes) : LF ∉ (cutLine buf).1.dropLast := by
  induction buf with
  | nil => simp [cutLine, cutAfter]
  | cons b rest ih =>
    by_cases hb : b = LF
    · rw [cutLine_pos hb]
      simp
    · rw [cutLine_neg hb]
      by_cases hne : (cutLine rest).1 = []
      · rw [hne]
        simp
      · rw [dropLast_cons_of_ne_nil hne, mem_cons, not_or]
        exact ⟨fun h => hb h.symm, ih⟩

/-- Forget the open line. -/
def clear : Step := modify fun s => { s with carry := [] }

/-- A candidate that is given up, or turns out no delimiter, is streamed. -/
theorem takeCandidate_agrees (h : LineStart { s with carry := [] }) (hseg : seg ≠ [])
    (hopen : seg.getLast? ≠ some LF → couldBe s.delimiters (s.carry ++ seg) = false)
    (hend : seg.getLast? = some LF → matchDelimiter s.delimiters (splitEol (s.carry ++ seg)).1
      = none) :
    Agrees (takeCandidate rt o couldBe seg)
      (clear >> (release >> streamSegment ((clear s).1.withheld ++ (s.carry ++ seg)))) s := by
  have hne : s.carry ++ seg ≠ [] := by simp [hseg]
  have hlast : (s.carry ++ seg).getLast? = seg.getLast? := getLast?_append_of_ne_nil _ hseg
  by_cases hlf : seg.getLast? = some LF
  · have heq : takeCandidate rt o couldBe seg s
        = (clear >> bodyLine rt o (splitEol (s.carry ++ seg)).1 (splitEol (s.carry ++ seg)).2) s :=
          takeCandidate_end hlf
    exact (of_eq heq).trans (after (h.agrees_bodyLine (hlast.trans hlf) (hend hlf)))
  · have heq : takeCandidate rt o couldBe seg s
        = (clear >> releaseCandidate (s.carry ++ seg)) s := by
      rw [takeCandidate_open hlf, hopen hlf, if_neg Bool.false_ne_true]
      rfl
    exact (of_eq heq).trans (after (h.agrees_release hne (by rw [hlast]; exact hlf)))

/-- Where a kept line turns out no delimiter it makes no difference to give it
up before the line goes on: it is streamed in either case. -/
theorem LineStart.agrees_abandon (h : LineStart { s with carry := [] }) (hc : s.carry ≠ [])
    (hlf : s.carry.getLast? ≠ some LF) (x : UInt8) (rest : Bytes)
    (hopen : (cutLine (x :: rest)).1.getLast? ≠ some LF →
      l.couldBe s.delimiters (s.carry ++ (cutLine (x :: rest)).1) = false)
    (hend : (cutLine (x :: rest)).1.getLast? = some LF →
      matchDelimiter s.delimiters (splitEol (s.carry ++ (cutLine (x :: rest)).1)).1 = none) :
    Agrees (l.feed (x :: rest)) ((clear >> releaseCandidate s.carry) >> l.feed (x :: rest)) s := by
  have hm : s.top.mode ≠ .headers := h.mode
  have hne : (cutLine (x :: rest)).1 ≠ [] := cutAfter_fst_ne_nil _ x rest
  have hcutapp : (cutLine (x :: rest)).1 ++ (cutLine (x :: rest)).2 = x :: rest :=
    cutAfter_append _ _
  have hline : l.feed (x :: rest) s = _ :=
    feed_candidate x rest hm h.start h.delims (.inl hc)
  -- what was kept is streamed, and then the rest of the line
  have hhead := after (f := clear) (h.agrees_release hc hlf)
  obtain ⟨hnext, hlf', -⟩ := streamSegment_spec h.released ((clear s).1.withheld ++ s.carry)
  have hmid : (streamSegment ((clear s).1.withheld ++ s.carry)
      (release (clear s).1).1).1.atLineStart ≠ true := by
    intro ht
    have hend' := hlf' ht
    rw [getLast?_append_of_ne_nil _ hc] at hend'
    exact hlf hend'
  have htail : Agrees (l.feed (_ ++ _)) _ _ :=
    hnext.agrees_line (cutLine (x :: rest)).1 (cutLine (x :: rest)).2 hne
      (not_mem_dropLast_cutLine _)
      fun ht => absurd ht hmid
  rw [hcutapp] at htail
  have htwice := streamSegment_twice h.released ((clear s).1.withheld ++ s.carry)
    (cutLine (x :: rest)).1 hne
  have hwhole : Agrees (takeCandidate l.rt l.o l.couldBe (cutLine (x :: rest)).1) _ s :=
    takeCandidate_agrees h hne hopen hend
  rw [← append_assoc] at hwhole
  refine (of_eq hline).trans (hwhole.before.trans (AgreeAt.trans ?_ hhead.before.symm))
  refine AgreeAt.trans (AgreeAt.before (after (f := clear) (after (f := release) htwice))) ?_
  rw [andThen_assoc, andThen_assoc, andThen_assoc, andThen_assoc, andThen_assoc]
  exact after (after (after htail.symm))

/-- A candidate that loses its first octet to an earlier slice. Either it is
kept and the line goes on, or it is given up; then the whole line could not have
been a delimiter, and it is streamed in either case. -/
theorem peel_candidate (hJ : Judge l.couldBe) (h : LineStart { s with carry := [] }) (b : UInt8)
    (rest : Bytes)
    (hc : s.carry ≠ [] ∨ b = DASH) : Agrees (l.feed (b :: rest)) (l.feed [b] >> l.feed rest) s := by
  have hm : s.top.mode ≠ .headers := h.mode
  have hs : s.atLineStart = true := h.start
  have hd : s.delimiters ≠ [] := h.delims
  have hfirst : l.feed [b] s = takeCandidate l.rt l.o l.couldBe [b] s := by
    rw [feed_candidate b [] hm hs hd hc, cutLine_singleton, feed_nil, andThen_skip]
  have hline : l.feed (b :: rest) s = _ := feed_candidate b rest hm hs hd hc
  by_cases hb : b = LF
  · refine of_eq ?_
    rw [hline, cutLine_pos hb, andThen_apply, andThen_apply, hfirst]
  · rw [cutLine_neg hb] at hline
    cases rest with
    | nil =>
      rw [feed_nil, andThen_skip]
      exact AgreeAt.refl _ _
    | cons x rest =>
      have hone : [b].getLast? ≠ some LF := by simpa using hb
      have hne : (cutLine (x :: rest)).1 ≠ [] := cutAfter_fst_ne_nil _ x rest
      have hlast : (b :: (cutLine (x :: rest)).1).getLast? = (cutLine (x :: rest)).1.getLast? :=
        getLast?_append_of_ne_nil [b] hne
      have happ : s.carry ++ b :: (cutLine (x :: rest)).1
          = (s.carry ++ [b]) ++ (cutLine (x :: rest)).1 := by
        rw [append_assoc]
        rfl
      -- either way the line goes on from one octet further
      have hgo : l.feed (x :: rest) { s with carry := s.carry ++ [b] } = _ :=
        feed_candidate x rest hm hs hd (.inl (by simp))
      have hsame : takeCandidate l.rt l.o l.couldBe (b :: (cutLine (x :: rest)).1) s
          = takeCandidate l.rt l.o l.couldBe (cutLine (x :: rest)).1
            { s with carry := s.carry ++ [b] } := by
        unfold takeCandidate
        rw [hlast, happ]
      have hnext : l.feed (b :: x :: rest) s = l.feed (x :: rest)
          { s with carry := s.carry ++ [b] } := by
        rw [hline, hgo, andThen_apply, andThen_apply, hsame]
      cases hcould : l.couldBe s.delimiters (s.carry ++ [b]) with
      | true =>
        have hkept : takeCandidate l.rt l.o l.couldBe [b] s
            = ({ s with carry := s.carry ++ [b] }, []) := by
          rw [takeCandidate_open hone, hcould, if_pos rfl]
        refine of_eq ?_
        rw [hnext, andThen_apply, hfirst, hkept]
        rfl
      | false =>
        let t : MimeParser := { s with carry := s.carry ++ [b] }
        have ht : LineStart { t with carry := [] } := h
        have hright : (l.feed [b] >> l.feed (x :: rest)) s
            = ((clear >> releaseCandidate t.carry) >> l.feed (x :: rest)) t := by
          have hgone : takeCandidate l.rt l.o l.couldBe [b] s
              = (clear >> releaseCandidate t.carry) t := by
            rw [takeCandidate_open hone, hcould, if_neg Bool.false_ne_true]
            rfl
          rw [andThen_apply, hfirst, hgone, andThen_apply (clear >> releaseCandidate t.carry)]
        have habandon : Agrees (l.feed (x :: rest)) _ t :=
          ht.agrees_abandon (by simp [t]) (by simpa [t] using hb) x rest
            (fun _ => by
              by_contra hyes
              rw [Bool.not_eq_false] at hyes
              exact Bool.false_ne_true (hcould.symm.trans (hJ.initial _ _ _ hyes)))
            (fun hlf => hJ.no_match hcould hlf)
        unfold Agrees AgreeAt
        rw [hnext, hright]
        exact habandon

/-! ## Every octet may come earlier -/

section

variable (h : Steady couldBe s)
include h

/-- No CR is held at the start of a line. -/
theorem Steady.free_of_start (hs : s.atLineStart = true) : s.heldCr = false := by
  rw [← Bool.not_eq_true]
  intro hh
  exact Bool.false_ne_true ((h.heldCr hh).1.symm.trans hs)

/-- Nor where there is no delimiter to look for. -/
theorem Steady.free_of_plain (hd : s.delimiters = []) : s.heldCr = false := by
  rw [← Bool.not_eq_true]
  intro hh
  exact (h.heldCr hh).2 hd

theorem Steady.carry_of_plain (hm : s.top.mode ≠ .headers) (hd : s.delimiters = []) :
    s.carry = [] := by
  by_contra hne
  exact (h.candidate hm hne).1 hd

theorem Steady.streaming_of_mid (hm : s.top.mode ≠ .headers) (hs : s.atLineStart = false)
    (hd : s.delimiters ≠ []) : Streaming s :=
  ⟨hm, hd, (h.mid hs).1, fun ht => (nomatch hs.symm.trans ht), fun _ => (h.mid hs).2, h.eol⟩

theorem Steady.streaming_of_start (hm : s.top.mode ≠ .headers) (hs : s.atLineStart = true)
    (hd : s.delimiters ≠ []) (hc : s.carry = []) : Streaming s :=
  ⟨hm, hd, hc, fun _ => h.free_of_start hs, fun hf => (nomatch hf.symm.trans hs), h.eol⟩

theorem Steady.lineStart (hm : s.top.mode ≠ .headers) (hs : s.atLineStart = true)
    (hd : s.delimiters ≠ []) : LineStart { s with carry := [] } :=
  ⟨⟨rfl, hs, h.free_of_start hs, h.eol⟩, hm, hd⟩

end

/-- **One octet earlier.** For a judge that gives nothing up too early, handing
the loop its first octet by itself changes nothing that can be seen. -/
theorem peel (hJ : Judge l.couldBe) (h : Steady l.couldBe s) (b : UInt8) (rest : Bytes) :
    Agrees (l.feed (b :: rest)) (l.feed [b] >> l.feed rest) s := by
  by_cases hm : s.top.mode = .headers
  · exact of_eq (peel_headers b rest hm)
  · cases hs : s.atLineStart with
    | false =>
      by_cases hd : s.delimiters = []
      · exact peel_plain b rest hm hs hd (h.free_of_plain hd)
      · exact (h.streaming_of_mid hm hs hd).peel b rest fun ht => nomatch hs.symm.trans ht
    | true =>
      by_cases hd : s.delimiters = []
      · -- every line is released at once, and the rest is plain content
        have hm' := leaveLineStart_mode hm
        have hplain : Agrees (l.feed (b :: rest))
            (l.feed [b] >> l.feed rest) (leaveLineStart s).1 := by
          rw [leaveLineStart_eq] at hm' ⊢
          exact peel_plain b rest hm' rfl hd (h.free_of_start hs)
        have hright : (l.feed [b] >> l.feed rest) s
            = (leaveLineStart >> (l.feed [b] >> l.feed rest)) s := by
          rw [← andThen_assoc, andThen_apply, andThen_apply (leaveLineStart >> _),
            feed_start b [] hm hs (.inl hd)]
        exact ((of_eq (feed_start b rest hm hs (.inl hd))).trans hplain.after).trans
          (of_eq hright.symm)
      · by_cases hc : s.carry ≠ [] ∨ b = DASH
        · exact peel_candidate hJ (h.lineStart hm hs hd) b rest hc
        · rw [not_or, not_not] at hc
          exact (h.streaming_of_start hm hs hd hc.1).peel b rest fun _ => hc.2

end

end Postroom.Mime
