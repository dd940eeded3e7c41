/-
The byte loop of the MIME parser, turn by turn.

`loop` is run with fuel; `feed` is the loop with fuel enough, and `feed_cons`
says what its first turn does. Everything the loop does to body octets ends in
`content`, and `content` cannot see cuts (`content_append`), so what matters of a
piece of body is what `streamSegment` holds back of it: the line break or the CR
at its end. `streamSegment_append` is that calculation, and the only place where
a CR and the LF after it are looked at together.
-/
import Postroom.Mime.Parser

set_option autoImplicit false

namespace Postroom.Mime

open Lib Emits List
open AgreeAt (of_eq after before)

/-! ## Cuts -/

variable {b : UInt8}

section

variable (p : UInt8 → Bytes → Bool) {rest : Bytes}

theorem cutAfter_pos (h : p b rest = true) : cutAfter p (b :: rest) = ([b], rest) := by
  rw [cutAfter, if_pos h]

theorem cutAfter_neg (h : p b rest = false) :
    cutAfter p (b :: rest) = (b :: (cutAfter p rest).1, (cutAfter p rest).2) := by
  rw [cutAfter, if_neg (by rw [h]; exact Bool.false_ne_true)]

theorem cutAfter_fst_ne_nil (b : UInt8) (rest : Bytes) : (cutAfter p (b :: rest)).1 ≠ [] := by
  cases h : p b rest with
  | true =>
    rw [cutAfter_pos p h]
    exact cons_ne_nil _ _
  | false =>
    rw [cutAfter_neg p h]
    exact cons_ne_nil _ _

/-- The two pieces of a cut are the buffer. -/
theorem cutAfter_append (buf : Bytes) : (cutAfter p buf).1 ++ (cutAfter p buf).2 = buf := by
  induction buf with
  | nil => rfl
  | cons b rest ih =>
    cases h : p b rest with
    | true => rw [cutAfter_pos p h]; rfl
    | false => rw [cutAfter_neg p h, cons_append, ih]

theorem length_cutAfter_snd (b : UInt8) (rest : Bytes) :
    (cutAfter p (b :: rest)).2.length ≤ rest.length := by
  have happ := congrArg List.length (cutAfter_append p (b :: rest))
  have hne := length_pos_of_ne_nil (cutAfter_fst_ne_nil p b rest)
  rw [length_append, length_cons] at happ
  omega

end

theorem length_cutLine_snd (b : UInt8) (rest : Bytes) :
    (cutLine (b :: rest)).2.length ≤ rest.length :=
  length_cutAfter_snd _ b rest

theorem cutMidLine_fst_ne_nil (s : MimeParser) (b : UInt8) (rest : Bytes) :
    (cutMidLine s (b :: rest)).1 ≠ [] := by
  unfold cutMidLine
  split_ifs
  · exact cons_ne_nil _ _
  · exact cons_ne_nil _ _
  · exact cutAfter_fst_ne_nil _ b rest

theorem length_cutMidLine_snd (s : MimeParser) (b : UInt8) (rest : Bytes) :
    (cutMidLine s (b :: rest)).2.length ≤ rest.length := by
  unfold cutMidLine
  split_ifs
  · exact Nat.le_refl _
  · exact Nat.zero_le _
  · exact length_cutAfter_snd _ b rest

theorem cutLine_pos (hb : b = LF) (rest : Bytes) : cutLine (b :: rest) = ([b], rest) :=
  cutAfter_pos _ (by simpa using hb)

theorem cutLine_neg (hb : b ≠ LF) (rest : Bytes) :
    cutLine (b :: rest) = (b :: (cutLine rest).1, (cutLine rest).2) :=
  cutAfter_neg _ (by simpa using hb)

/-- A single octet is always cut off whole. -/
theorem cutLine_singleton (b : UInt8) : cutLine [b] = ([b], []) := by
  unfold cutLine cutAfter
  split_ifs
  · rfl
  · rfl

theorem cutNlDash_singleton (b : UInt8) : cutNlDash [b] = ([b], []) := by
  unfold cutNlDash cutAfter
  split_ifs
  · rfl
  · rfl

/-! ## Content -/

/-- Content taken apart: body events become one event for each octet. -/
def MimeEvent.octets : MimeEvent → List MimeEvent
  | .body part chunk => chunk.map fun b => .body part [b]
  | e => [e]

/-- Both end in one state and emit the same events, octet by octet. -/
abbrev Agrees {σ : Type} (f g : Emits σ MimeEvent) (s : σ) : Prop := AgreeAt MimeEvent.octets f g s

theorem Frame.receive_mode (buf : Bytes) (f : Frame) : (Frame.receive buf f).1.mode = f.mode := by
  unfold Frame.receive
  split
  · rfl
  · rfl

theorem flatMap_octets_body (part : PartInfo) (chunk : Bytes) :
    (if chunk = [] then [] else [MimeEvent.body part chunk]).flatMap MimeEvent.octets
      = chunk.map fun b => .body part [b] := by
  split_ifs with h
  · rw [h]
    rfl
  · rw [flatMap_singleton]
    rfl

theorem Frame.receive_leaf {f : Frame} {d : TransferDecoder} {part : PartInfo} (hm : f.mode = .leaf)
    (hd : f.decoder = some d) (hp : f.part = some part) (buf : Bytes) :
    Frame.receive buf f =
      ({ f with
          decoder := some (TransferDecoder.write buf d).1
          size := f.size + (TransferDecoder.write buf d).2.length },
        if (TransferDecoder.write buf d).2 = [] then []
        else [.body part (TransferDecoder.write buf d).2]) := by
  unfold Frame.receive
  rw [hm, hd, hp]

/-- A frame that is no leaf takes no content. -/
theorem Frame.receive_cases (f : Frame) :
    (∃ d part, f.mode = .leaf ∧ f.decoder = some d ∧ f.part = some part)
      ∨ ∀ buf, Frame.receive buf f = (f, []) := by
  by_cases h : ∃ d part, f.mode = .leaf ∧ f.decoder = some d ∧ f.part = some part
  · exact .inl h
  · refine .inr fun buf => ?_
    unfold Frame.receive
    split
    · rename_i d part hm hd hp
      exact absurd ⟨d, part, hm, hd, hp⟩ h
    · rfl

/-- A frame cannot see where its content was cut. -/
theorem Frame.receive_append (a b : Bytes) (f : Frame) :
    Agrees (Frame.receive (a ++ b)) (Frame.receive a >> Frame.receive b) f := by
  rcases Frame.receive_cases f with ⟨d, part, hm, hd, hp⟩ | hother
  · have ha := Frame.receive_leaf hm hd hp a
    have hb : Frame.receive b (Frame.receive a f).1 = _ :=
      Frame.receive_leaf (by rw [ha]; exact hm) (by rw [ha]) (by rw [ha]; exact hp) b
    rw [Agrees, AgreeAt, andThen_fst, andThen_snd, hb, ha, Frame.receive_leaf hm hd hp,
      TransferDecoder.write_append,
      andThen_fst, andThen_snd, flatMap_append, flatMap_octets_body, flatMap_octets_body,
      flatMap_octets_body, map_append, length_append, Nat.add_assoc]
    exact ⟨rfl, rfl⟩
  · refine of_eq ?_
    rw [andThen_apply, hother, hother, hother]
    rfl

theorem Frame.receive_nil (f : Frame) : Frame.receive [] f = (f, []) := by
  rcases Frame.receive_cases f with ⟨d, part, hm, hd, hp⟩ | hother
  · rw [Frame.receive_leaf hm hd hp]
    dsimp only [TransferDecoder.write, skip_apply]
    rw [← hd]
    rfl
  · exact hother []

theorem content_nil (s : MimeParser) : content [] s = (s, []) := by
  unfold content
  cases hs : s.stack with
  | nil => rw [receiveTop, ← hs]
  | cons f fs => rw [receiveTop, Frame.receive_nil, ← hs]

/-- **Content cannot be told by its cuts.** -/
theorem content_append (a b : Bytes) (s : MimeParser) :
    Agrees (content (a ++ b)) (content a >> content b) s := by
  unfold content
  cases hs : s.stack with
  | nil => exact of_eq (by rw [andThen_apply, hs]; rfl)
  | cons f fs =>
    obtain ⟨hstate, hout⟩ := Frame.receive_append a b f
    rw [Agrees, AgreeAt, andThen_fst, andThen_snd, hs]
    dsimp only [receiveTop]
    rw [hstate]
    exact ⟨rfl, hout⟩

theorem content_mode (buf : Bytes) (s : MimeParser) : (content buf s).1.top.mode = s.top.mode := by
  unfold content MimeParser.top
  cases s.stack with
  | nil => rfl
  | cons f fs => exact Frame.receive_mode buf f

theorem flushPendingEol_eq (s : MimeParser) :
    flushPendingEol s = content (s.pendingEol.getD []) { s with pendingEol := none } := by
  unfold flushPendingEol
  cases hs : s.pendingEol with
  | none =>
    have hsame : s = { s with pendingEol := none } := by rw [← hs]
    rw [Option.getD_none, content_nil]
    exact congrArg (fun t => (t, [])) hsame
  | some eol => rfl

/-- Leaving the start of a line releases the line break that was held there. -/
theorem leaveLineStart_eq (s : MimeParser) :
    leaveLineStart s = content (s.pendingEol.getD [])
    { s with pendingEol := none, atLineStart := false } := by
  unfold leaveLineStart
  rw [andThen_apply, flushPendingEol_eq, modify_apply, append_nil]
  rfl

theorem leaveLineStart_mode {s : MimeParser} (h : s.top.mode ≠ .headers) :
    (leaveLineStart s).1.top.mode ≠ .headers := by
  rw [leaveLineStart_eq, content_mode]
  exact h

theorem leaveLineStart_mid (s : MimeParser) : (leaveLineStart s).1.atLineStart = false := by
  rfl

theorem leaveLineStart_delimiters (s : MimeParser) :
    (leaveLineStart s).1.delimiters = s.delimiters := by
  rw [leaveLineStart_eq]
  rfl

/-! ## The loop with fuel enough -/

section

variable (rt : Runtime) (o : ParseOptions) (couldBe : List (Bytes × ℕ) → Bytes → Bool)
  (reprocess : Bytes → Step)

/-- The loop with fuel enough. -/
def feed (buf : Bytes) : Step := loop rt o couldBe reprocess buf.length buf

/-- Fuel beyond the length of the buffer changes nothing: every turn leaves a
shorter one. -/
theorem loop_fuel (n m : ℕ) (buf : Bytes) (hn : buf.length ≤ n) (hm : buf.length ≤ m) :
    loop rt o couldBe reprocess n buf = loop rt o couldBe reprocess m buf := by
  induction n generalizing m buf with
  | zero =>
    obtain rfl := length_eq_zero_iff.mp (Nat.le_zero.mp hn)
    cases m with
    | zero => rfl
    | succ m => rfl
  | succ n ih =>
    cases buf with
    | nil =>
      cases m with
      | zero => rfl
      | succ m => rfl
    | cons b rest =>
      rw [length_cons] at hn hm
      obtain ⟨m, rfl⟩ : ∃ k, m = k + 1 := ⟨m - 1, by omega⟩
      have hline := length_cutLine_snd b rest
      have hrest : ∀ c : Bytes, c.length ≤ rest.length →
          loop rt o couldBe reprocess n c = loop rt o couldBe reprocess m c := by
        intro c hc
        exact ih m c (by omega) (by omega)
      funext s
      have hmid := length_cutMidLine_snd s b rest
      rw [loop, loop]
      dsimp only
      rw [hrest _ hline, hrest _ hmid]

end

/-- What the loop is run with. -/
structure Loop where
  rt : Runtime
  o : ParseOptions
  couldBe : List (Bytes × ℕ) → Bytes → Bool
  reprocess : Bytes → Step

def Loop.feed (l : Loop) : Bytes → Step := Mime.feed l.rt l.o l.couldBe l.reprocess

section

variable {l : Loop} {s : MimeParser}

@[simp] theorem feed_nil : l.feed [] = skip := rfl

/-- The first turn. -/
theorem feed_cons (b : UInt8) (rest : Bytes) : l.feed (b :: rest) s = if s.top.mode = .headers then
        (headerBytes l.rt l.o l.reprocess (cutLine (b :: rest)).1 >> l.feed (cutLine (b :: rest)).2)
        s
      else if !s.atLineStart then (scanMidLine (cutMidLine s (b :: rest)).1
          >> l.feed (cutMidLine s (b :: rest)).2) s else if s.delimiters = []
          || (s.carry = [] && b ≠ DASH) then
        (leaveLineStart >> scanMidLine (cutMidLine s (b :: rest)).1
          >> l.feed (cutMidLine s (b :: rest)).2) s
      else (takeCandidate l.rt l.o l.couldBe (cutLine (b :: rest)).1
        >> l.feed (cutLine (b :: rest)).2) s := by
  have hline := length_cutLine_snd b rest
  have hmid := length_cutMidLine_snd s b rest
  rw [Loop.feed, feed, length_cons, loop]
  dsimp only
  rw [if_neg (cons_ne_nil b rest), loop_fuel l.rt l.o l.couldBe l.reprocess rest.length _ _ hline
    (Nat.le_refl _),
    loop_fuel l.rt l.o l.couldBe l.reprocess rest.length _ _ hmid (Nat.le_refl _)]
  simp only [head?_cons, ne_eq, Option.some.injEq, feed]

theorem feed_headers (b : UInt8) (rest : Bytes) (hm : s.top.mode = .headers) :
    l.feed (b :: rest) s =
      (headerBytes l.rt l.o l.reprocess (cutLine (b :: rest)).1 >> l.feed (cutLine (b :: rest)).2)
      s := by
  rw [feed_cons, if_pos hm]

theorem feed_mid (b : UInt8) (rest : Bytes) (hm : s.top.mode ≠ .headers)
    (hs : s.atLineStart = false) :
    l.feed (b :: rest) s = (scanMidLine (cutMidLine s (b :: rest)).1
        >> l.feed (cutMidLine s (b :: rest)).2) s := by
  rw [feed_cons, if_neg hm, if_pos (by rw [hs]; rfl)]

theorem feed_candidate (b : UInt8) (rest : Bytes) (hm : s.top.mode ≠ .headers)
    (hs : s.atLineStart = true)
    (hd : s.delimiters ≠ []) (hc : s.carry ≠ [] ∨ b = DASH) : l.feed (b :: rest) s =
      (takeCandidate l.rt l.o l.couldBe (cutLine (b :: rest)).1 >> l.feed (cutLine (b :: rest)).2)
      s := by
  have hcond : ¬ (decide (s.delimiters = []) || (decide (s.carry = []) && decide (b ≠ DASH)))
      = true := by
    simp only [Bool.or_eq_true, Bool.and_eq_true, decide_eq_true_eq, not_or, not_and, ne_eq,
      not_not]
    refine ⟨hd, fun h => ?_⟩
    rcases hc with hc | hc
    · exact absurd h hc
    · exact hc
  rw [feed_cons, if_neg hm, if_neg (by rw [hs]; exact Bool.false_ne_true), if_neg hcond]

/-- A line that cannot be a delimiter is left to the mid-line scan. -/
theorem feed_start (b : UInt8) (rest : Bytes) (hm : s.top.mode ≠ .headers)
    (hs : s.atLineStart = true)
    (hc : s.delimiters = [] ∨ s.carry = [] ∧ b ≠ DASH) : l.feed (b :: rest) s =
      (leaveLineStart >> l.feed (b :: rest)) s := by
  have hcond : (decide (s.delimiters = []) || (decide (s.carry = []) && decide (b ≠ DASH)))
      = true := by
    simpa only [Bool.or_eq_true, Bool.and_eq_true, decide_eq_true_eq] using hc
  have hcut : cutMidLine (leaveLineStart s).1 (b :: rest) = cutMidLine s (b :: rest) := by
    rw [leaveLineStart_eq]
    rfl
  rw [feed_cons, if_neg hm, if_neg (by rw [hs]; exact Bool.false_ne_true), if_pos hcond,
    andThen_apply,
    andThen_apply leaveLineStart, feed_mid b rest (leaveLineStart_mode hm) (leaveLineStart_mid s),
    hcut]

end

/-! ## What a segment of body holds back -/

section

variable {s : MimeParser} {seg : Bytes} {a : Bytes}

theorem streamSegment_lf (hd : s.delimiters ≠ []) (h : seg.getLast? = some LF) :
    streamSegment seg s =
      (content (splitEol seg).1
        >> modify fun s => { s with pendingEol := some (splitEol seg).2, atLineStart := true })
        s := by
  unfold streamSegment
  rw [if_neg hd, if_pos h]

theorem streamSegment_cr (hd : s.delimiters ≠ []) (h : seg.getLast? = some CR) :
    streamSegment seg s = (content seg.dropLast >> modify fun s =>
      { s with heldCr := true }) s := by
  unfold streamSegment
  rw [if_neg hd, if_neg (by rw [h]; decide), if_pos h]

theorem streamSegment_other (hd : s.delimiters ≠ []) (hlf : seg.getLast? ≠ some LF)
    (hcr : seg.getLast? ≠ some CR) : streamSegment seg s = content seg s := by
  unfold streamSegment
  rw [if_neg hd, if_neg hlf, if_neg hcr]

/-- The line break of a segment is its own, unless it is a lone LF after a CR. -/
theorem splitEol_append (hlf : seg.getLast? = some LF) (hcr : a.getLast? = some CR → seg ≠ [LF]) :
    splitEol (a ++ seg) = (a ++ (splitEol seg).1, (splitEol seg).2) := by
  have hseg : seg ≠ [] := by
    rintro rfl
    cases hlf
  unfold splitEol
  rw [dropLast_append_of_ne_nil hseg]
  by_cases hone : seg.dropLast = []
  · have hsingle : seg = [LF] := by
      rw [← dropLast_append_getLast hseg, hone, nil_append]
      rw [getLast?_eq_some_getLast hseg] at hlf
      rw [Option.some.inj hlf]
    have ha : a.getLast? ≠ some CR := fun h => hcr h hsingle
    rw [hone, append_nil, if_neg ha, if_neg (by rw [getLast?_nil]; simp), append_nil]
  · rw [getLast?_append_of_ne_nil _ hone]
    split_ifs
    · rw [dropLast_append_of_ne_nil hone]
    · rfl

/-- **Streaming in two pieces.** What a segment holds back does not depend on
what was streamed before it, as long as no CR is parted from its LF. -/
theorem streamSegment_append (hd : s.delimiters ≠ []) (hseg : seg ≠ [])
    (hcr : a.getLast? = some CR → seg ≠ [LF]) :
    Agrees (streamSegment (a ++ seg)) (content a >> streamSegment seg) s := by
  have hlast : (a ++ seg).getLast? = seg.getLast? := getLast?_append_of_ne_nil _ hseg
  have hd' : (content a s).1.delimiters ≠ [] := hd
  by_cases hlf : seg.getLast? = some LF
  · refine (of_eq (streamSegment_lf hd (hlast.trans hlf))).trans ?_
    have hright : (content a >> streamSegment seg) s = (content a >> (content (splitEol seg).1
          >> modify fun s => { s with pendingEol := some (splitEol seg).2, atLineStart := true }))
          s := by
      rw [andThen_apply, streamSegment_lf hd' hlf, andThen_apply (content a)]
    refine AgreeAt.trans ?_ (of_eq hright.symm)
    rw [splitEol_append hlf hcr, ← andThen_assoc]
    exact (content_append a (splitEol seg).1 s).before
  · by_cases hcrl : seg.getLast? = some CR
    · refine (of_eq (streamSegment_cr hd (hlast.trans hcrl))).trans ?_
      have hright : (content a >> streamSegment seg) s
          = (content a >> (content seg.dropLast >> modify fun s => { s with heldCr := true }))
            s := by
        rw [andThen_apply, streamSegment_cr hd' hcrl, andThen_apply (content a)]
      refine AgreeAt.trans ?_ (of_eq hright.symm)
      rw [dropLast_append_of_ne_nil hseg, ← andThen_assoc]
      exact (content_append a seg.dropLast s).before
    · have hright : (content a >> streamSegment seg) s = (content a >> content seg) s := by
        rw [andThen_apply, streamSegment_other hd' hlf hcrl, andThen_apply (content a)]
      refine (of_eq (streamSegment_other hd (by rw [hlast]; exact hlf)
        (by rw [hlast]; exact hcrl))).trans ?_
      exact (content_append a seg s).trans (of_eq hright.symm)

/-- The octets of the CR that is held back. -/
def MimeParser.heldBack (s : MimeParser) : Bytes := if s.heldCr then [CR] else []

/-- No CR is held back. -/
def unhold : Step := modify fun s => { s with heldCr := false }

theorem unhold_of_free (h : s.heldCr = false) : unhold s = (s, []) := by
  have hsame : { s with heldCr := false } = s := by rw [← h]
  rw [unhold, modify_apply, hsame]

/-- A held CR is streamed together with what follows it. -/
theorem scanMidLine_agrees (hd : s.delimiters ≠ []) (hseg : seg ≠ [])
    (hlf : s.heldCr = true → seg.head? = some LF → seg = [LF]) :
    Agrees (scanMidLine seg) (unhold >> streamSegment (s.heldBack ++ seg)) s := by
  have hd' : (unhold s).1.delimiters ≠ [] := hd
  cases hh : s.heldCr with
  | false =>
    have hback : s.heldBack = [] := by rw [MimeParser.heldBack, hh]; rfl
    refine of_eq ?_
    rw [andThen_apply, unhold_of_free hh, hback, scanMidLine,
      if_neg (by rw [hh]; exact Bool.false_ne_true)]
    rfl
  | true =>
    have hback : s.heldBack = [CR] := by rw [MimeParser.heldBack, hh]; rfl
    rw [hback]
    by_cases hhead : seg.head? = some LF
    · -- the line break is complete
      obtain rfl := hlf hh hhead
      have hsplit : splitEol ([CR] ++ [LF]) = ([], [CR, LF]) := by decide
      refine of_eq ?_
      rw [andThen_apply, streamSegment_lf hd' (by decide), hsplit, andThen_apply, content_nil,
        scanMidLine,
        if_pos hh, if_pos hhead]
      rfl
    · have hnot : seg ≠ [LF] := fun h => hhead (by rw [h]; rfl)
      have hagree := streamSegment_append (a := [CR]) hd' hseg fun _ => hnot
      refine AgreeAt.trans (of_eq ?_) (after (f := unhold) hagree).symm
      rw [scanMidLine, if_pos hh, if_neg hhead]
      rfl

end

/-! ## One octet earlier

`feed` may be handed the first octet of its buffer by itself. The turns that
read to the end of a line or beyond it are undone one octet at a time. -/

section

variable {l : Loop} {s : MimeParser}

/-- In mid-line the loop streams what it reads, with the CR held before it. -/
theorem feed_mid_agrees (b : UInt8) (rest : Bytes) (hm : s.top.mode ≠ .headers)
    (hs : s.atLineStart = false)
    (hd : s.delimiters ≠ []) : Agrees (l.feed (b :: rest))
      ((unhold >> streamSegment (s.heldBack ++ (cutMidLine s (b :: rest)).1))
        >> l.feed (cutMidLine s (b :: rest)).2) s := by
  refine (of_eq (feed_mid b rest hm hs)).trans (before ?_)
  refine scanMidLine_agrees hd (cutMidLine_fst_ne_nil s b rest) ?_
  intro hh hhead
  unfold cutMidLine at hhead ⊢
  split_ifs at hhead ⊢ with hlf
  · rfl
  · -- the first octet of the longer cuts is that of the buffer, which is no LF here
    exfalso
    rw [hh, Bool.true_and, decide_eq_true_eq] at hlf
    have happ := cutAfter_append (fun b rest => b = LF && rest.head? = some DASH) (b :: rest)
    have hne := cutAfter_fst_ne_nil (fun b rest => b = LF && rest.head? = some DASH) b rest
    apply hlf
    rw [← happ, head?_append_of_ne_nil _ hne]
    exact hhead

/-- A state in the middle of body that may hold back the end of what it has
read: a line break at the start of a line, a CR in mid-line. -/
structure Streaming (s : MimeParser) : Prop where
  mode : s.top.mode ≠ .headers
  delims : s.delimiters ≠ []
  carry : s.carry = []
  start : s.atLineStart = true → s.heldCr = false
  mid : s.atLineStart = false → s.pendingEol = none
  eol : ∀ e, s.pendingEol = some e → e.getLast? = some LF

/-- The same state when nothing is held back. -/
structure Released (s : MimeParser) : Prop where
  mode : s.top.mode ≠ .headers
  delims : s.delimiters ≠ []
  carry : s.carry = []
  eol : s.pendingEol = none
  heldCr : s.heldCr = false
  mid : s.atLineStart = false

/-- What such a state holds back. -/
def MimeParser.withheld (s : MimeParser) : Bytes := s.pendingEol.getD [] ++ s.heldBack

/-- It is taken out of the state. -/
def release : Step := modify fun s =>
    { s with pendingEol := none, heldCr := false, atLineStart := false }

theorem Streaming.released (h : Streaming s) : Released (release s).1 :=
  ⟨h.mode, h.delims, h.carry, rfl, rfl, rfl⟩

theorem withheld_mid (hs : s.pendingEol = none) : s.withheld = s.heldBack := by
  rw [MimeParser.withheld, hs]
  rfl

theorem withheld_start (hh : s.heldCr = false) : s.withheld = s.pendingEol.getD [] := by
  rw [MimeParser.withheld, MimeParser.heldBack, hh]
  exact append_nil _

theorem release_mid (hs : s.atLineStart = false) (hp : s.pendingEol = none) :
    release s = unhold s := by
  have hsame : { s with pendingEol := none, heldCr := false, atLineStart := false }
    = { s with heldCr := false } := by
    rw [← hs, ← hp]
  rw [release, unhold, modify_apply, modify_apply, hsame]

theorem leaveLineStart_eq_content (hh : s.heldCr = false) :
    leaveLineStart s = (release >> content (s.pendingEol.getD [])) s := by
  have hsame : { s with pendingEol := none, heldCr := false, atLineStart := false }
      = { s with pendingEol := none, atLineStart := false } := by rw [← hh]
  rw [leaveLineStart_eq, andThen_apply, release, modify_apply, hsame]
  rfl

theorem cutMidLine_of_delims (buf : Bytes) (hd : s.delimiters ≠ [])
    (hlf : s.heldCr = true → buf.head? ≠ some LF) :
    cutMidLine s buf = cutNlDash buf := by
  unfold cutMidLine
  rw [if_neg ?_, if_neg hd]
  rw [Bool.and_eq_true, decide_eq_true_eq]
  exact fun h => hlf h.1 h.2

/-- Streaming at the start of a line that is no candidate. -/
theorem Streaming.agrees_start (h : Streaming s) (b : UInt8) (rest : Bytes)
    (hs : s.atLineStart = true)
    (hb : b ≠ DASH) : Agrees (l.feed (b :: rest))
      ((release >> streamSegment (s.withheld ++ (cutNlDash (b :: rest)).1))
        >> l.feed (cutNlDash (b :: rest)).2) s := by
  have hh := h.start hs
  have hd1 : (release s).1.delimiters ≠ [] := h.delims
  -- the state once the held line break has gone out
  have hd₂ : (leaveLineStart s).1.delimiters ≠ [] := by
    rw [leaveLineStart_delimiters]
    exact h.delims
  have hh₂ : (leaveLineStart s).1.heldCr = false := by
    rw [leaveLineStart_eq]
    exact hh
  have hcut := cutMidLine_of_delims (b :: rest) hd₂ fun ht => nomatch hh₂.symm.trans ht
  have hback : (leaveLineStart s).1.heldBack = [] := by
    rw [MimeParser.heldBack, hh₂]
    rfl
  have hmid : Agrees (l.feed (b :: rest)) _ (leaveLineStart s).1 :=
    feed_mid_agrees b rest (leaveLineStart_mode h.mode) (leaveLineStart_mid s) hd₂
  rw [hback, hcut, nil_append] at hmid
  have hw : s.withheld.getLast? = some CR → (cutNlDash (b :: rest)).1 ≠ [LF] := by
    intro hcr
    rw [withheld_start hh] at hcr
    cases he : s.pendingEol with
    | none =>
      rw [he] at hcr
      cases hcr
    | some e =>
      rw [he, Option.getD_some, h.eol e he] at hcr
      cases hcr
  have hstream : Agrees (leaveLineStart >> (unhold >> streamSegment (cutNlDash (b :: rest)).1))
      (release >> streamSegment (s.withheld ++ (cutNlDash (b :: rest)).1)) s := by
    have hsplit := streamSegment_append hd1 (cutAfter_fst_ne_nil _ b rest) hw
    refine AgreeAt.trans (of_eq ?_) (after (f := release) hsplit).symm
    rw [andThen_apply, andThen_apply unhold, unhold_of_free hh₂, leaveLineStart_eq_content hh,
      withheld_start hh,
      ← andThen_assoc, andThen_apply (release >> content _), nil_append]
    rfl
  refine (of_eq (feed_start b rest h.mode hs (.inr ⟨h.carry, hb⟩))).trans (hmid.after.trans ?_)
  rw [← andThen_assoc]
  exact hstream.before

/-- **What a streaming state makes of a buffer**: it releases what it held back,
and streams it with the octets it reads. -/
theorem Streaming.agrees (h : Streaming s) (b : UInt8) (rest : Bytes)
    (hb : s.atLineStart = true → b ≠ DASH) :
    Agrees (l.feed (b :: rest))
    ((release >> streamSegment (s.withheld ++ (cutNlDash (b :: rest)).1))
        >> l.feed (cutNlDash (b :: rest)).2) s := by
  cases hs : s.atLineStart with
  | true => exact h.agrees_start b rest hs (hb hs)
  | false =>
    have hp := h.mid hs
    have hmid : Agrees (l.feed (b :: rest)) _ s :=
      feed_mid_agrees b rest h.mode hs h.delims
    have hrel : ∀ g : Step, (unhold >> g) s = (release >> g) s := by
      intro g
      rw [andThen_apply, andThen_apply, release_mid hs hp]
    by_cases hlf : s.heldCr = true ∧ b = LF
    · -- the cut was inside a CRLF, which the loop takes as a segment of its own
      obtain ⟨hh, rfl⟩ := hlf
      have hback : s.withheld = [CR] := by
        rw [withheld_mid hp, MimeParser.heldBack, hh]
        rfl
      have hcut : cutMidLine s (LF :: rest) = ([LF], rest) := by
        unfold cutMidLine
        rw [if_pos (by rw [hh]; rfl)]
        rfl
      rw [← withheld_mid hp, hback, hcut] at hmid
      rw [hback]
      have hmid' := hmid.trans (before (of_eq (hrel _)))
      cases rest with
      | nil => exact hmid'
      | cons x rest' =>
        by_cases hx : x = DASH
        · -- the loop stops there in either case
          have hnl : cutNlDash (LF :: x :: rest') = ([LF], x :: rest') :=
            cutAfter_pos _ (by rw [hx]; rfl)
          rw [hnl]
          exact hmid'
        · have hnl : cutNlDash (LF :: x :: rest')
              = (LF :: (cutNlDash (x :: rest')).1, (cutNlDash (x :: rest')).2) :=
            cutAfter_neg _ (by simp [hx])
          rw [hnl]
          have hcrlf : (release >> streamSegment ([CR] ++ [LF])) s
              = ({ s with heldCr := false, pendingEol := some [CR, LF], atLineStart := true },
                []) := by
            have hsplit : splitEol ([CR] ++ [LF]) = ([], [CR, LF]) := by decide
            have hd' : (release s).1.delimiters ≠ [] := h.delims
            rw [andThen_apply, streamSegment_lf hd' (by decide), hsplit, andThen_apply, content_nil]
            rfl
          have hnext : Streaming ((release >> streamSegment ([CR] ++ [LF])) s).1 := by
            rw [hcrlf]
            exact ⟨h.mode, h.delims, h.carry, fun _ => rfl, fun ht =>
              absurd ht (by simp), fun e he => by
              cases he
              rfl⟩
          have hrest : Agrees (l.feed (x :: rest')) _ _ :=
            hnext.agrees_start x rest' (by rw [hcrlf]) hx
          refine hmid'.trans (hrest.after.trans ?_)
          rw [← andThen_assoc]
          refine before (of_eq ?_)
          rw [andThen_apply, hcrlf, andThen_apply, andThen_apply, release, modify_apply,
            modify_apply]
          rfl
    · have hcut := cutMidLine_of_delims (b :: rest) h.delims fun hh hhead =>
        hlf ⟨hh, Option.some.inj hhead⟩
      rw [hcut] at hmid
      rw [withheld_mid hp]
      refine hmid.trans (before (of_eq (hrel _)))

/-- The line break of a line that ends in LF, put back. -/
theorem splitEol_join {y : Bytes} (h : y.getLast? = some LF) :
    (splitEol y).1 ++ (splitEol y).2 = y := by
  obtain ⟨x, rfl⟩ := getLast?_eq_some_iff.mp h
  unfold splitEol
  rw [dropLast_concat]
  split_ifs with hcr
  · obtain ⟨z, rfl⟩ := getLast?_eq_some_iff.mp hcr
    rw [dropLast_concat, append_assoc]
    rfl
  · rfl

theorem splitEol_getLast (y : Bytes) : (splitEol y).2.getLast? = some LF := by
  unfold splitEol
  split_ifs
  · rfl
  · rfl

/-- Streaming a segment from a state that holds nothing: `x` goes out, and the rest is
held back as a line break or a CR. -/
theorem streamSegment_parts (h : Released s) (y : Bytes) :
    ∃ x eol cr start, streamSegment y s =
        ({ (content x s).1 with pendingEol := eol, heldCr := cr, atLineStart := start },
          (content x s).2)
      ∧ y = x ++ (eol.getD [] ++ if cr then [CR] else [])
      ∧ (start = true → cr = false ∧ y.getLast? = some LF)
      ∧ (start = false → eol = none)
      ∧ (∀ e, eol = some e → e.getLast? = some LF)
      ∧ ∀ c, c ≠ [] → x.getLast? = some CR → (eol.getD [] ++ if cr then [CR] else [])
        ++ c ≠ [LF] := by
  have hno : ∀ e, s.pendingEol = some e → e.getLast? = some LF := fun e he =>
    nomatch h.eol.symm.trans he
  have hmid : s.atLineStart = true → ∀ {P : Prop}, P := fun ht => nomatch h.mid.symm.trans ht
  by_cases hlf : y.getLast? = some LF
  · refine ⟨(splitEol y).1, some (splitEol y).2, s.heldCr, true, ?_, ?_, fun _ =>
      ⟨h.heldCr, hlf⟩, nofun, ?_, ?_⟩
    · rw [streamSegment_lf h.delims hlf, andThen_apply, modify_apply, append_nil]
      rfl
    · rw [h.heldCr]
      exact (splitEol_join hlf).symm.trans (congrArg _ (append_nil _).symm)
    · rintro e ⟨⟩
      exact splitEol_getLast y
    · intro c hne _ hone
      have hlen := congrArg List.length hone
      rw [length_append, length_append, length_singleton] at hlen
      have h1 := length_pos_of_ne_nil hne
      have h2 : 0 < (splitEol y).2.length := length_pos_of_mem
        (mem_of_getLast? (splitEol_getLast y))
      rw [Option.getD_some] at hlen
      omega
  · by_cases hcr : y.getLast? = some CR
    · refine ⟨y.dropLast, s.pendingEol, true, s.atLineStart, ?_, ?_, fun ht => hmid ht, fun _ =>
        h.eol, hno, ?_⟩
      · rw [streamSegment_cr h.delims hcr, andThen_apply, modify_apply, append_nil]
        rfl
      · obtain ⟨x, rfl⟩ := getLast?_eq_some_iff.mp hcr
        rw [dropLast_concat, h.eol]
        rfl
      · rw [h.eol]
        rintro c - - ⟨⟩
    · refine ⟨y, s.pendingEol, s.heldCr, s.atLineStart, ?_, ?_, fun ht => hmid ht, fun _ =>
        h.eol, hno, ?_⟩
      · exact streamSegment_other h.delims hlf hcr
      · rw [h.eol, h.heldCr]
        exact (append_nil _).symm
      · exact fun c _ hx => absurd hx hcr

/-- What streaming a segment from a state that holds nothing leaves: the segment
is `x ++ w`, of which `x` went out and `w` is held back. -/
theorem streamSegment_spec (h : Released s) (y : Bytes) : Streaming (streamSegment y s).1
      ∧ ((streamSegment y s).1.atLineStart = true → y.getLast? = some LF)
      ∧ ∃ x, y = x ++ (streamSegment y s).1.withheld
        ∧ (streamSegment y >> release) s = content x s
        ∧ ∀ c, c ≠ [] → x.getLast? = some CR → (streamSegment y s).1.withheld ++ c ≠ [LF] := by
  have hrel : ∀ t : MimeParser, t.pendingEol = none → t.heldCr = false → t.atLineStart = false →
      { t with pendingEol := none, heldCr := false, atLineStart := false } = t := by
    intro t h1 h2 h3
    cases t
    dsimp only at h1 h2 h3
    rw [h1, h2, h3]
  obtain ⟨x, eol, cr, start, heq, hy, hstart, hmid, heol, hcr⟩ := streamSegment_parts h y
  rw [andThen_apply, heq]
  refine ⟨⟨?_, h.delims, h.carry, fun ht => (hstart ht).1, hmid, heol⟩, fun ht =>
    (hstart ht).2, x, hy, ?_, hcr⟩
  · exact fun hm => h.mode ((content_mode _ s).symm.trans hm)
  · rw [release, modify_apply, append_nil]
    exact Prod.ext (hrel (content x s).1 h.eol h.heldCr h.mid) rfl

/-- Streaming on from what a segment held back is streaming it whole. -/
theorem streamSegment_twice (h : Released s) (y c : Bytes) (hne : c ≠ []) :
    Agrees (streamSegment (y ++ c))
      (streamSegment y >> (release >> streamSegment ((streamSegment y s).1.withheld ++ c))) s := by
  obtain ⟨-, -, x, hy, hx, hcr⟩ := streamSegment_spec h y
  have hsplit : y ++ c = x ++ ((streamSegment y s).1.withheld ++ c) := by
    rw [← append_assoc, ← hy]
  rw [hsplit, ← andThen_assoc]
  refine (streamSegment_append h.delims (by simp [hne]) (hcr c hne)).trans (of_eq ?_)
  rw [andThen_apply, andThen_apply (streamSegment y >> release), hx]

/-- **One octet earlier, while streaming.** -/
theorem Streaming.peel (h : Streaming s) (b : UInt8) (rest : Bytes)
    (hb : s.atLineStart = true → b ≠ DASH) :
    Agrees (l.feed (b :: rest)) (l.feed [b] >> l.feed rest) s := by
  have hfirst : Agrees (l.feed [b]) _ s := h.agrees b [] hb
  have hall : Agrees (l.feed (b :: rest)) _ s := h.agrees b rest hb
  rw [cutNlDash_singleton, feed_nil, andThen_skip] at hfirst
  refine hall.trans (AgreeAt.trans ?_ hfirst.symm.before)
  by_cases hp : (b = LF && rest.head? = some DASH) = true
  · have hcut : cutNlDash (b :: rest) = ([b], rest) := cutAfter_pos _ hp
    rw [hcut]
    exact AgreeAt.refl _ _
  · have hcut : cutNlDash (b :: rest) = (b :: (cutNlDash rest).1, (cutNlDash rest).2) :=
      cutAfter_neg _ (by simpa using hp)
    rw [hcut]
    cases rest with
    | nil => exact AgreeAt.refl _ _
    | cons x rest =>
      -- what is read next is streamed from what the first octet left held back
      obtain ⟨hnext, hstart, -⟩ := streamSegment_spec h.released (s.withheld ++ [b])
      have hx : (streamSegment (s.withheld ++ [b]) (release s).1).1.atLineStart = true →
          x ≠ DASH := by
        intro ht hxd
        have hlf := hstart ht
        rw [getLast?_concat, Option.some.injEq] at hlf
        apply hp
        rw [hlf, hxd]
        rfl
      have hrest : Agrees (l.feed (x :: rest)) _ _ :=
        hnext.agrees x rest hx
      have htwice := streamSegment_twice h.released (s.withheld ++ [b]) (cutNlDash (x :: rest)).1
        (cutAfter_fst_ne_nil _ x rest)
      rw [append_assoc, singleton_append] at htwice
      refine AgreeAt.trans (before (after (f := release) htwice)) ?_
      rw [andThen_assoc, andThen_assoc, andThen_assoc]
      exact after (after hrest.symm)

end

end Postroom.Mime
