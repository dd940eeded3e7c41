/-
The reader and its client.

A client command is a list of text lines with literals between them; a line
announces the literal that follows it. What stands before an LF is a line, a line
that ends in a bare LF included, since that is where the reader ends it. The client
sends a non-synchronizing literal right away, and a synchronizing one only when the
reader has asked for it and the caller has not refused it; otherwise it ends the
command there (`send`, `transcript`).

As long as the reader does not give up the stream, every command gets its own part
of what the reader says, with one outcome in it, and the reader is as new when the
command is over. What the reader passes on of a command are octets of that command:
no octet of a literal reaches another one.
-/
import Mathlib.Data.List.Forall2
import Postroom.ImapProto.Markers
import Postroom.Lib.Strings

set_option autoImplicit false

namespace Postroom.ImapProto

open Lib Emits List

/-! ## Client commands -/

/-- A line, and the literal it announces. -/
structure Fragment where
  /-- The line, up to its LF. -/
  raw : Bytes
  nonSync : Bool
  literal : Bytes
  noLf : LF ∉ raw
  announces : Announces (stripCr raw) literal.length nonSync

structure ClientCommand where
  fragments : List Fragment
  /-- The last line, up to its LF. -/
  last : Bytes
  noLf : LF ∉ last
  plain : Plain (stripCr last)

/-- The lines of a command, or of the rest of one. -/
def linesOf (fs : List Fragment) (last : Bytes) : List Bytes := fs.map Fragment.raw ++ [last]

/-- Where the first argument of an APPEND command stands on its first line. -/
def argStart (raw : Bytes) : Option ℕ := appendArgStart (stripCr raw) (extractTag (stripCr raw))

/-- Is the literal a message of an APPEND command whose arguments start at `start`?
The mailbox name of its first line is not. -/
def streams (start : Option ℕ) (first : Bool) (f : Fragment) : Bool :=
  start.isSome && !(first && start = (literalMarkerAt (stripCr f.raw)).map LiteralMarker.start)

/-- The text of a command and its literals, as the reader's events tell it: no line
break stands before a message. -/
def toldFrom (start : Option ℕ) : Bool → List Fragment → Bytes
  | _, [] => []
  | first, f :: fs =>
    stripCr f.raw ++ (if streams start first f then [] else [CR, LF]) ++ f.literal
      ++ toldFrom start false fs

/-- The messages of an APPEND command. -/
def messagesFrom (start : Option ℕ) : Bool → List Fragment → List Fragment
  | _, [] => []
  | first, f :: fs => (if streams start first f then [f] else []) ++ messagesFrom start false fs

/-- The size of a command without its messages. -/
def sizeFrom (start : Option ℕ) : Bool → List Fragment → ℕ
  | _, [] => 0
  | first, f :: fs =>
    (stripCr f.raw).length + 2 + (if streams start first f then 0 else f.literal.length)
      + sizeFrom start false fs

/-- A line with nothing wrong. -/
def CleanLine (o : CommandReaderOptions) (raw : Bytes) : Prop :=
  raw.getLast? = some CR ∧ CR ∉ stripCr raw ∧ (stripCr raw).length ≤ o.maxLineLength

/-- The rest of a command, with what came before it. -/
structure Rest where
  /-- Where the first argument of an APPEND command starts. -/
  start : Option ℕ
  /-- Nothing of the command was sent yet. -/
  first : Bool
  fragments : List Fragment
  last : Bytes
  /-- Octets sent, but for messages. -/
  size : ℕ
  /-- Literals sent. -/
  count : ℕ
  /-- What was sent and not yet passed on. -/
  pending : Bytes
  /-- A message was sent. -/
  streamed : Bool

def ClientCommand.whole (c : ClientCommand) : Rest where
  start := (linesOf c.fragments c.last).head?.bind argStart
  first := true
  fragments := c.fragments
  last := c.last
  size := 0
  count := 0
  pending := []
  streamed := false

namespace Rest

variable (r : Rest) (o : CommandReaderOptions)

def lines : List Bytes := linesOf r.fragments r.last

def told : Bytes := r.pending ++ (toldFrom r.start r.first r.fragments ++ stripCr r.last)

def messages : List Fragment := messagesFrom r.start r.first r.fragments

def fullSize : ℕ := r.size + (sizeFrom r.start r.first r.fragments + (stripCr r.last).length)

/-- The command breaks the limit, or has the bare CR or LF, that the code is about. -/
def Breaks : ReaderErrorCode → Prop
  | .bareLf => ∃ raw ∈ r.lines, raw.getLast? ≠ some CR
  | .bareCr => ∃ raw ∈ r.lines, CR ∈ stripCr raw
  | .lineTooLong => ∃ raw ∈ r.lines, o.maxLineLength < (stripCr raw).length
  | .commandTooLarge => o.maxCommandSize < r.fullSize
  | .literalTooLarge =>
    o.maxCommandSize < r.fullSize ∨ ∃ f ∈ r.messages, o.maxAppendSize < f.literal.length
  | .tooManyLiterals => o.maxLiterals < r.count + r.fragments.length
  | .nonSyncLiteralTooLarge => False
  | .nonSyncLiteralRefused => False

/-- Nothing is wrong with the lines, and there are not too many literals. -/
def Clean : Prop := (∀ raw ∈ r.lines, CleanLine o raw)
    ∧ r.count + r.fragments.length ≤ o.maxLiterals

end Rest

/-! ## What the client sends -/

/-- The reader asks for a literal. -/
def Item.asks : Item → Bool
  | .event (.continuation _ _) => true
  | .event (.appendBegin _ _ _ _ synchronizing _) => synchronizing
  | _ => false

/-- The last word is a request for a literal: it was not refused. -/
def asked (items : List Item) : Bool := items.getLast?.any Item.asks

section

variable (o : CommandReaderOptions) (refuse : ℕ → Bool)

/-- What the client sends of the rest of a command, as the reader answers. -/
def send : List Fragment → Bytes → Session → Bytes
  | [], last, _ => last ++ [LF]
  | f :: fs, last, t =>
    let out := feed o refuse (f.raw ++ [LF]) t
    if f.nonSync || asked out.2 then
      (f.raw ++ [LF]) ++ (f.literal ++ send fs last (feed o refuse f.literal out.1).1)
    else f.raw ++ [LF]

/-- The same conversation, as the reader sees it. -/
def converse : List Fragment → Bytes → Emits Session Item
  | [], last => feed o refuse (last ++ [LF])
  | f :: fs, last => fun t =>
    if f.nonSync || asked (feed o refuse (f.raw ++ [LF]) t).2 then
      (feed o refuse (f.raw ++ [LF]) >> (feed o refuse f.literal >> converse fs last)) t
    else feed o refuse (f.raw ++ [LF]) t

def ClientCommand.converse (c : ClientCommand) : Emits Session Item :=
  ImapProto.converse o refuse c.fragments c.last

/-- What the client sends for these commands, one after another. -/
def transcript : List ClientCommand → Session → Bytes
  | [], _ => []
  | c :: cs, t => send o refuse c.fragments c.last t ++ transcript cs (c.converse o refuse t).1

end

/-! ## What the reader says -/

inductive Outcome where
  | command
  | appendEnd
  | failed (code : ReaderErrorCode)
  | refused
  deriving DecidableEq

/-- The outcome of a command, if the item is one. -/
def Item.outcome : Item → Option Outcome
  | .event (.command _ _) => some .command
  | .event (.appendEnd _ _) => some .appendEnd
  | .event (.error e) => some (.failed e.code)
  | .refused => some .refused
  | _ => none

/-- The octets of the client's that an item passes on. -/
def Item.text : Item → Bytes
  | .event (.command _ bytes) => bytes
  | .event (.appendBegin _ before _ _ _ _) => before
  | .event (.appendData chunk) => chunk
  | .event (.appendEnd _ trailing) => trailing
  | _ => []

/-- What the outcome of a command says about it, when these were its items. -/
def Rest.Answers (r : Rest) (o : CommandReaderOptions) (items : List Item) : Outcome → Prop
  | .command => (r.streamed = false ∧ r.messages = []) ∧ r.Clean o
    ∧ items.flatMap Item.text = r.told
  | .appendEnd =>
    (r.streamed = true ∨ r.messages ≠ []) ∧ r.Clean o ∧ items.flatMap Item.text = r.told
  | .failed code => r.Breaks o code ∧ items.flatMap Item.text <+: r.told
  | .refused => (∃ f ∈ r.fragments, f.nonSync = false) ∧ items.flatMap Item.text <+: r.told

/-- The items are those of a command with exactly one outcome, and it answers the command. -/
def Rest.Served (r : Rest) (o : CommandReaderOptions) (items : List Item) : Prop :=
  ∃ x, items.filterMap Item.outcome = [x] ∧ r.Answers o items x

def Serves (o : CommandReaderOptions) (c : ClientCommand) (items : List Item) : Prop :=
  c.whole.Served o items

def Item.fatal : Item → Bool
  | .event (.error e) => e.fatal
  | _ => false

/-- The reader has given up the stream. -/
def HasFatal (items : List Item) : Prop := ∃ i ∈ items, i.fatal = true

instance (items : List Item) : Decidable (HasFatal items) :=
  inferInstanceAs (Decidable (∃ i ∈ items, i.fatal = true))

/-! ## Between lines -/

section

variable {o : CommandReaderOptions} {refuse : ℕ → Bool} {t : Session} {raw : Bytes}
variable {s : CommandReader} {tag : Option Bytes} {literal : Bytes}

/-- But for the command being assembled, the reader is as new. -/
def Idle (s : CommandReader) : Prop := resetCommand s = {}

theorem Idle.fields (h : Idle s) :
    s.mode = .line ∧ s.line = [] ∧ s.rawLine = false ∧ s.awaitingSync = false ∧ s.tail = [] :=
  ⟨congrArg CommandReader.mode h, congrArg CommandReader.line h, congrArg CommandReader.rawLine h,
    congrArg CommandReader.awaitingSync h, congrArg CommandReader.tail h⟩

theorem Idle.restart (h : Idle s) : Idle { s with awaitingSync := false, mode := .line } := by
  have hsame : resetCommand { s with awaitingSync := false, mode := .line }
      = { resetCommand s with awaitingSync := false, mode := .line } := rfl
  rw [Idle, hsame, h]

theorem short_of_line (h : t.reader.line = []) : Short o t := by
  unfold Short
  rw [h]
  exact Nat.zero_le _

theorem line_ne_nil (raw : Bytes) : raw ++ [LF] ≠ [] :=
  append_ne_nil_of_right_ne_nil raw (cons_ne_nil LF [])

theorem cutLf_line (h : LF ∉ raw) : cutLf (raw ++ [LF]) = (raw, some []) := by
  induction raw with
  | nil => exact cutLf_lf []
  | cons b rest ih =>
    rw [mem_cons, not_or] at h
    rw [cons_append, cutLf_cons (Ne.symm h.1), ih h.2]

/-- What follows a line is decided before the next one: `pump` starts anew. -/
def settled (t : Session) (out : CommandReader × List ReaderEvent) (items : List Item) :
    Session × List Item :=
  ({ t with reader := settle { out.1 with awaitingSync := false } }, items ++ out.2.map .event)

theorem take_settled (out : CommandReader × List ReaderEvent) (h : out.1.awaitingSync = false) :
    (take refuse out >> feed o refuse []) t = settled t out [] := by
  rw [andThen_apply, take_quiet h, feed_nil, append_nil]
  rfl

/-- A line that fits is completed. -/
theorem feed_line (hi : Idle t.reader) (hlf : LF ∉ raw) (hfits : raw.length ≤ o.maxLineLength + 1) :
    feed o refuse (raw ++ [LF]) t = (take refuse (completeLine o raw t.reader) >> feed o refuse [])
    t := by
  obtain ⟨hm, hline, -, hq, -⟩ := hi.fields
  have hcut := cutLf_line hlf
  have hstep : stepLine o (raw ++ [LF]) t.reader = (completeLine o raw t.reader, []) := by
    have hsame : { t.reader with line := [] } = t.reader := by rw [← hline]
    rw [stepLine_fits (by rw [hcut, hline]; exact Nat.not_lt.mpr (by simpa using hfits)), hcut,
      hline, hsame]
    rfl
  obtain ⟨b, rest, hbuf⟩ := exists_cons_of_ne_nil (line_ne_nil raw)
  rw [hbuf] at hstep ⊢
  rw [feed_turn (Live.of_mode (short_of_line hline) (.inl hm) hq), turn_line _ hm, hstep]

/-- The end of a line that is being discarded. -/
theorem feed_discarded {tail : Bytes}
    (ht : t.reader = { tag := tag, mode := .discard, tail := tail })
    (hlf : LF ∉ raw) :
    feed o refuse (raw ++ [LF]) t = settled t
      (afterFailedLine o (stripCr (takeLast TAIL (tail ++ raw))) tag {}) [] := by
  have hm : t.reader.mode = .discard := congrArg CommandReader.mode ht
  have hq : t.reader.awaitingSync = false := congrArg CommandReader.awaitingSync ht
  have hshort : Short o t := short_of_line (congrArg CommandReader.line ht)
  have hstep : stepDiscard o (raw ++ [LF]) t.reader
      = (afterFailedLine o (stripCr (takeLast TAIL (tail ++ raw))) tag {}, []) := by
    rw [stepDiscard, cutLf_line hlf, ht]
    rfl
  obtain ⟨b, rest, hbuf⟩ := exists_cons_of_ne_nil (line_ne_nil raw)
  rw [hbuf] at hstep ⊢
  rw [feed_turn (Live.of_mode hshort (.inr hm) hq), turn_discard _ hm, hstep]
  exact take_settled _ (afterFailedLine_retagged _ tag tag {}).2.2.1

theorem feed_overlong (hi : Idle t.reader) (hlf : LF ∉ raw)
    (hover : o.maxLineLength + 1 < raw.length) :
    ∃ tag, feed o refuse (raw ++ [LF]) t =
      settled t (afterFailedLine o (stripCr (takeLast TAIL raw)) tag {})
      [.event (tooLong o tag)] := by
  obtain ⟨hm, hline, hraw, hq, htail⟩ := hi.fields
  have hcut := cutLf_line hlf
  have hfirst : ∃ tag, feed o refuse (raw ++ [LF]) t = _ :=
    feed_overflow (short_of_line hline) hm hq (line_ne_nil raw)
      (by rw [hcut, hline]; simpa using hover)
  obtain ⟨tag, htag⟩ := hfirst
  refine ⟨tag, ?_⟩
  rw [hcut, hline, nil_append, drop_left] at htag
  -- only the LF is left, and it ends the discarded line
  have hreset : discarding t.reader (takeLast TAIL raw) tag
      = { tag := tag, mode := .discard, tail := takeLast TAIL raw } := by
    have h : discarding t.reader (takeLast TAIL raw) tag
        = discarding (resetCommand t.reader) (takeLast TAIL raw) tag := rfl
    have hid : resetCommand t.reader = {} := hi
    rw [h, hid]
    rfl
  have hlast : feed o refuse [LF] (overflowed o t.reader (takeLast TAIL raw) tag t).1
      = settled t (afterFailedLine o (stripCr (takeLast TAIL raw)) tag {}) [] := by
    have hend : feed o refuse ([] ++ [LF]) (overflowed o t.reader (takeLast TAIL raw) tag t).1
        = _ :=
      feed_discarded hreset not_mem_nil
    rwa [append_nil, takeLast_takeLast] at hend
  rw [htag, andThen_apply, hlast]
  rfl

/-! ## Literals -/

/-- What is kept of a literal. -/
def kept (m : Mode) (literal : Bytes) : Bytes := if m = .literal then literal else []

/-- What is passed on of a literal. -/
def passed (m : Mode) (literal : Bytes) : List ReaderEvent :=
  if m = .append ∧ literal ≠ [] then [.appendData literal] else []

theorem absorb_eq (hm : s.mode.reads = true) (hne : literal ≠ []) :
    absorb literal s =
      ({ s
        with remaining := s.remaining - literal.length, parts := s.parts ++ kept s.mode literal },
        passed s.mode literal) := by
  cases hmode : s.mode with
  | literal | skip => simp [absorb, kept, passed, hmode]
  | append => simp [absorb, kept, passed, hmode, hne]
  | _ => rw [hmode] at hm; cases hm

/-- A literal is read in one piece. -/
theorem feed_literal (hline : t.reader.line = []) (hm : t.reader.mode.reads = true)
    (hr : t.reader.remaining = literal.length) : feed o refuse literal t = ({ t with reader :=
            { t.reader with
              awaitingSync := false, remaining := 0, parts :=
              t.reader.parts ++ kept t.reader.mode literal
              mode := t.reader.mode.after } },
        (passed t.reader.mode literal).map .event) := by
  by_cases hnil : literal = []
  · subst hnil
    have hzero : t.reader.remaining = 0 := hr
    have hkept : t.reader.parts ++ kept t.reader.mode [] = t.reader.parts := by
      unfold kept
      split_ifs
      · exact append_nil _
      · exact append_nil _
    have hpassed : passed t.reader.mode [] = [] := if_neg fun h => h.2 rfl
    have hcalm : calm t =
        { t with
          reader := { t.reader with awaitingSync := false, mode := t.reader.mode.after } } := by
      exact congrArg (fun r => { t with reader := r }) (if_pos hzero)
    rw [feed_nil, hcalm, hkept, hpassed, ← hzero]
    rfl
  · have hpos : t.reader.remaining ≠ 0 := by
      rw [hr]
      exact fun h => hnil (length_eq_zero_iff.mp h)
    let t1 : Session := { t with reader := { t.reader with awaitingSync := false } }
    have hcalm : calm t = t1 := congrArg (fun r => { t with reader := r }) (if_neg hpos)
    have hshort : Short o t1 := short_of_line hline
    have hm1 : t1.reader.mode.reads = true := hm
    have hread : feed o refuse literal t1 = _ :=
      feed_reads hshort rfl hm1 (Nat.pos_of_ne_zero hpos) hnil
    have hr1 : t1.reader.remaining = literal.length := hr
    rw [hr1, take_length, drop_length, andThen_apply, absorbs, absorb_eq hm1 hnil, take_quiet rfl,
      feed_nil,
      hr1, Nat.sub_self, append_nil] at hread
    rw [← feed_calm, hcalm, hread]
    rfl

/-! ## The rest of a failed command -/

variable {text : Bytes} {items : List Item}
variable {items' : List Item} {f : Fragment} {fs : List Fragment} {last : Bytes}
  {code : ReaderErrorCode}

theorem afterFailedLine_plain (h : Plain text) (tag : Option Bytes) :
    afterFailedLine o text tag {} = ({}, []) := by
  rw [afterFailedLine, h.marker]

/-- A failed line that announces a literal: the command ends there, or the literal
is skipped, or the stream is given up. -/
theorem afterFailedLine_announces {n : ℕ} {nonSync : Bool} (h : Announces text n nonSync)
    (tag : Option Bytes) : nonSync = false ∧ afterFailedLine o text tag {} = ({}, [])
      ∨ nonSync = true ∧ afterFailedLine o text tag
      {} = ({ tag := tag, mode := .skip, remaining := n }, [])
      ∨ ∃ e, e.fatal = true ∧ (afterFailedLine o text tag {}).2 = [.error e] := by
  obtain ⟨m, hm, hns, hsize⟩ := h.marker
  rw [afterFailedLine, hm]
  dsimp only
  cases nonSync with
  | false =>
    rw [hns]
    exact .inl ⟨rfl, rfl⟩
  | true =>
    rw [hns, hsize, if_neg (by decide)]
    cases nonSyncFatal o m with
    | none => exact .inr (.inl ⟨rfl, rfl⟩)
    | some e => exact .inr (.inr ⟨_, rfl, rfl⟩)

theorem hasFatal_append_left (h : HasFatal items) : HasFatal (items ++ items') := by
  obtain ⟨e, he, hf⟩ := h
  exact ⟨e, mem_append_left _ he, hf⟩

theorem hasFatal_append_right (h : HasFatal items') : HasFatal (items ++ items') := by
  obtain ⟨e, he, hf⟩ := h
  exact ⟨e, mem_append_right _ he, hf⟩

section

variable {f : Fragment} {fs : List Fragment} {last : Bytes}

theorem converse_stop (hns : f.nonSync = false)
    (hask : asked (feed o refuse (f.raw ++ [LF]) t).2 = false) :
    converse o refuse (f :: fs) last t = feed o refuse (f.raw ++ [LF]) t := by
  exact if_neg (by rw [hns, hask]; decide)

theorem converse_go (h : f.nonSync = true ∨ asked (feed o refuse (f.raw ++ [LF]) t).2 = true) :
    converse o refuse (f :: fs) last t =
      (feed o refuse (f.raw ++ [LF]) >> (feed o refuse f.literal >> converse o refuse fs last))
      t := by
  exact if_pos (Bool.or_eq_true_iff.mpr h)

/-- A fatal error with the line is one of the whole conversation. -/
theorem hasFatal_converse (h : HasFatal (feed o refuse (f.raw ++ [LF]) t).2) :
    HasFatal (converse o refuse (f :: fs) last t).2 := by
  rw [converse]
  dsimp only
  split_ifs
  · exact hasFatal_append_left h
  · exact h

end

/-- The command is over and nothing was said but `items`, or the stream is given up. -/
def Dropped (items : List Item) (out : Session × List Item) : Prop :=
  HasFatal out.2 ∨ out.1.reader = {} ∧ out.2 = items

/-- After a failed line the rest of the command is read and dropped. -/
theorem dropped_fragment
    (hrest : ∀ t' : Session, t'.reader = { tag := tag, mode := .discard } →
      Dropped [] (converse o refuse fs last t'))
    (hfeed : feed o refuse (f.raw ++ [LF]) t = settled t (afterFailedLine o text tag {}) items)
    (hann : Announces text f.literal.length f.nonSync) (hask : asked items = false) :
    Dropped items (converse o refuse (f :: fs) last t) := by
  rcases afterFailedLine_announces (o := o) hann tag with ⟨hns, hout⟩ | ⟨hns, hout⟩ | ⟨e, he, hout⟩
  · rw [hout, settled, map_nil, append_nil] at hfeed
    rw [converse_stop hns (by rw [hfeed]; exact hask), hfeed]
    exact .inr ⟨rfl, rfl⟩
  · rw [hout, settled, map_nil, append_nil] at hfeed
    -- the literal is skipped, and the next line discarded
    let t1 : Session :=
      { t with reader := { tag := tag, mode := .skip, remaining := f.literal.length } }
    have hcalm : feed o refuse (f.raw ++ [LF]) t = (calm t1, items) := hfeed
    have hskip : feed o refuse f.literal t1
        = ({ t with reader := { tag := tag, mode := .discard } }, []) :=
      feed_literal rfl rfl rfl
    rw [converse_go (.inl hns), andThen_apply, hcalm, andThen_apply, feed_calm, hskip]
    rcases hrest { t with reader := { tag := tag, mode := .discard } }
      rfl with hfatal | ⟨hreader, hitems⟩
    · exact .inl (hasFatal_append_right hfatal)
    · refine .inr ⟨hreader, ?_⟩
      rw [hitems, append_nil, append_nil]
  · refine .inl (hasFatal_converse ?_)
    rw [hfeed, settled, hout]
    exact ⟨_, mem_append_right _ (mem_singleton.mpr rfl), he⟩

theorem dropped_last (hfeed : feed o refuse (last ++ [LF]) t
      = settled t (afterFailedLine o text tag {}) items)
    (hplain : Plain text) : Dropped items (converse o refuse [] last t) := by
  rw [afterFailedLine_plain hplain, settled, map_nil, append_nil] at hfeed
  rw [converse, hfeed]
  exact .inr ⟨rfl, rfl⟩

/-- **The rest of a failed command** is dropped, literals and all. -/
theorem converse_discard (fs : List Fragment) (hlf : LF ∉ last) (hplain : Plain (stripCr last))
    (ht : t.reader = { tag := tag, mode := .discard }) :
    Dropped [] (converse o refuse fs last t) := by
  induction fs generalizing t with
  | nil => exact dropped_last (feed_discarded ht hlf) hplain.tail
  | cons f fs ih =>
    exact dropped_fragment (fun t' ht' => ih ht') (feed_discarded ht f.noLf) f.announces.tail rfl

/-! ## A line of a command that has not failed -/

/-- What a failed line does to a reader that is as new but for its command. -/
def failedLine (o : CommandReaderOptions) (code : ReaderErrorCode) (tag : Option Bytes)
    (text : Bytes) (message : String) :
    CommandReader × List ReaderEvent :=
  ((afterFailedLine o text tag {}).1,
    .error { code := code, tag := tag, fatal := false, message := message } ::
    (afterFailedLine o text tag {}).2)

theorem Idle.failLine (h : Idle s) (code : ReaderErrorCode) (tag : Option Bytes) (text : Bytes)
    (message : String) : failLine o code tag text message s
      = failedLine o code tag text message := by
  have hreset : resetCommand { s with rawLine := false } = {} := by
    have hsame : resetCommand { s with rawLine := false }
      = { resetCommand s with rawLine := false } := rfl
    rw [hsame, h]
  unfold ImapProto.failLine failedLine emitError
  rw [andThen_apply, if_neg Bool.false_ne_true, hreset]
  rfl

theorem take_failedLine (code : ReaderErrorCode) (tag : Option Bytes) (text : Bytes)
    (message : String) :
    (take refuse (failedLine o code tag text message) >> feed o refuse []) t
      = settled t (failedLine o code tag text message) [] :=
  take_settled _ (afterFailedLine_retagged text tag tag {}).2.2.1

/-- The faults a line can have by itself. -/
def FaultyLine (o : CommandReaderOptions) (raw : Bytes) : ReaderErrorCode → Prop
  | .bareLf => raw.getLast? ≠ some CR
  | .bareCr => CR ∈ stripCr raw
  | .lineTooLong => o.maxLineLength < (stripCr raw).length
  | _ => False

theorem Rest.breaks_of_line {r : Rest} (hraw : raw ∈ r.lines) (h : FaultyLine o raw code) :
    r.Breaks o code := by
  cases code with
  | bareLf | bareCr | lineTooLong => exact ⟨raw, hraw, h⟩
  | _ => exact False.elim h

theorem length_stripCr (raw : Bytes) : raw.length ≤ (stripCr raw).length + 1 := by
  unfold stripCr
  split_ifs
  · rw [length_dropLast]
    omega
  · omega

theorem completeLine_cases (hi : Idle s) (raw : Bytes) :
    (∃ code tag message, FaultyLine o raw code ∧ completeLine o raw s = failedLine o code tag
      (stripCr raw) message)
      ∨ CleanLine o raw
        ∧ completeLine o raw s =
          acceptLine o (decide (s.fragment = 0)) (if s.fragment = 0 then extractTag (stripCr raw)
            else s.tag) (stripCr raw) s := by
  obtain ⟨-, -, hrawLine, -, -⟩ := hi.fields
  by_cases hcr : raw.getLast? = some CR
  · by_cases hbare : CR ∈ stripCr raw
    · rw [completeLine, if_neg (not_not.mpr hcr), if_pos hbare]
      exact .inl ⟨.bareCr, _, _, hbare, hi.failLine _ _ _ _⟩
    · by_cases hlong : o.maxLineLength < (stripCr raw).length
      · rw [completeLine, if_neg (not_not.mpr hcr), if_neg hbare, hrawLine,
          if_neg Bool.false_ne_true, if_pos hlong]
        exact .inl ⟨.lineTooLong, _, _, hlong, hi.failLine _ _ _ _⟩
      · refine .inr ⟨⟨hcr, hbare, Nat.not_lt.mp hlong⟩, ?_⟩
        rw [completeLine, if_neg (not_not.mpr hcr), if_neg hbare, hrawLine,
          if_neg Bool.false_ne_true, if_neg hlong]
        simp
  · rw [completeLine, if_pos hcr]
    exact .inl ⟨.bareLf, _, _, hcr, hi.failLine _ _ _ _⟩

/-- The reader stands where the rest of the command begins. -/
structure Follows (o : CommandReaderOptions) (r : Rest) (s : CommandReader) : Prop where
  idle : Idle s
  first : r.first = decide (s.fragment = 0)
  start : r.start = if s.fragment = 0 then r.lines.head?.bind argStart else s.appendAt
  size : s.cmdSize ≤ r.size
  count : s.literals = r.count
  few : r.count ≤ o.maxLiterals
  pending : s.parts = r.pending
  streamed : s.appendStreamed = r.streamed
  messages : r.streamed = true → r.pending = [] ∧ r.start.isSome = true ∧ r.first = false

theorem follows_whole (c : ClientCommand) : Follows o c.whole {} where
  idle := rfl
  first := rfl
  start := rfl
  size := Nat.le_refl _
  count := rfl
  few := Nat.zero_le _
  pending := rfl
  streamed := rfl
  messages := nofun

namespace Rest

variable (r : Rest) (f : Fragment) (fs : List Fragment)

/-- The rest after a fragment. -/
def next : Rest where
  start := r.start
  first := false
  fragments := fs
  last := r.last
  size := r.size + ((stripCr f.raw).length + 2 + if streams r.start r.first f then 0
    else f.literal.length)
  count := r.count + 1
  pending := if streams r.start r.first f then []
    else r.pending ++ stripCr f.raw ++ [CR, LF] ++ f.literal
  streamed := r.streamed || streams r.start r.first f

/-- What is passed on with the announcement of a literal. -/
def opening : Bytes := if streams r.start r.first f then r.pending ++ stripCr f.raw else []

/-- What is passed on of a literal. -/
def body : Bytes := if streams r.start r.first f then f.literal else []

variable {r f fs} (hr : r.fragments = f :: fs)

include hr

theorem told_next : r.told = r.opening f ++ (r.body f ++ (r.next f fs).told) := by
  unfold told next opening body
  rw [hr, toldFrom]
  split_ifs
  · simp
  · simp

theorem lines_next : r.lines = f.raw :: (r.next f fs).lines := by
  unfold lines linesOf
  rw [hr]
  rfl

theorem fullSize_next : r.fullSize = (r.next f fs).fullSize := by
  unfold fullSize next
  rw [hr, sizeFrom]
  dsimp only
  omega

theorem messages_next : r.messages = (if streams r.start r.first f then [f] else [])
    ++ (r.next f fs).messages := by
  unfold messages
  rw [hr, messagesFrom]
  rfl

theorem breaks_next (h : (r.next f fs).Breaks o code) : r.Breaks o code := by
  have hline : ∀ {P : Bytes → Prop}, (∃ raw ∈ (r.next f fs).lines, P raw) →
      ∃ raw ∈ r.lines, P raw := by
    rintro P ⟨raw, hraw, hP⟩
    exact ⟨raw, by rw [lines_next hr]; exact mem_cons_of_mem _ hraw, hP⟩
  cases code with
  | bareLf | bareCr | lineTooLong => exact hline h
  | commandTooLarge =>
    unfold Breaks at h ⊢
    rwa [fullSize_next hr]
  | literalTooLarge =>
    unfold Breaks at h ⊢
    rw [fullSize_next hr, messages_next hr]
    rcases h with h | ⟨m, hm, hlen⟩
    · exact .inl h
    · exact .inr ⟨m, mem_append_right _ hm, hlen⟩
  | tooManyLiterals =>
    have hcount : o.maxLiterals < r.count + 1 + fs.length := h
    unfold Breaks
    rw [hr, length_cons]
    omega
  | nonSyncLiteralTooLarge => exact h
  | nonSyncLiteralRefused => exact h

theorem clean_next (hline : CleanLine o f.raw) (h : (r.next f fs).Clean o) : r.Clean o := by
  obtain ⟨hlines, hcount⟩ := h
  have hcount' : r.count + 1 + fs.length ≤ o.maxLiterals := hcount
  constructor
  · rw [lines_next hr]
    exact forall_mem_cons.mpr ⟨hline, hlines⟩
  · rw [hr, length_cons]
    omega

/-- What answers the rest of a command answers the command. -/
theorem answers_next (hline : CleanLine o f.raw) {before items : List Item}
    (hbefore : before.flatMap Item.text = r.opening f ++ r.body f) {x : Outcome}
    (h : (r.next f fs).Answers o items x) :
    r.Answers o (before ++ items) x := by
  have htext : (before ++ items).flatMap Item.text = r.opening f
      ++ (r.body f ++ items.flatMap Item.text) := by
    rw [flatMap_append, hbefore, append_assoc]
  have hfull : items.flatMap Item.text = (r.next f fs).told → (before ++ items).flatMap Item.text
      = r.told := by
    intro heq
    rw [htext, heq, told_next hr]
  have hpart : items.flatMap Item.text <+: (r.next f fs).told →
      (before ++ items).flatMap Item.text <+: r.told := by
    intro hpre
    rw [htext, told_next hr]
    exact (prefix_append_right_inj _).mpr ((prefix_append_right_inj _).mpr hpre)
  cases x with
  | command =>
    obtain ⟨⟨hstreamed, hmsg⟩, hclean, heq⟩ := h
    obtain ⟨hs, hstr⟩ := Bool.or_eq_false_iff.mp hstreamed
    refine ⟨⟨hs, ?_⟩, clean_next hr hline hclean, hfull heq⟩
    rw [messages_next hr, hstr, hmsg]
    rfl
  | appendEnd =>
    obtain ⟨hmsg, hclean, heq⟩ := h
    refine ⟨?_, clean_next hr hline hclean, hfull heq⟩
    rw [messages_next hr]
    rcases hmsg with hmsg | hmsg
    · rcases Bool.or_eq_true_iff.mp hmsg with hs | hs
      · exact .inl hs
      · rw [hs]
        exact .inr (cons_ne_nil _ _)
    · exact .inr (append_ne_nil_of_right_ne_nil _ hmsg)
  | failed code =>
    obtain ⟨hbreaks, hpre⟩ := h
    exact ⟨breaks_next hr hbreaks, hpart hpre⟩
  | refused =>
    obtain ⟨⟨g, hg, hns⟩, hpre⟩ := h
    refine ⟨⟨g, ?_, hns⟩, hpart hpre⟩
    rw [hr]
    exact mem_cons_of_mem _ hg

end Rest

section

variable {r : Rest} {s : CommandReader} {tag : Option Bytes}
  {out : CommandReader × List ReaderEvent}

/-- The last line ends the command, if that is not too large. -/
theorem accept_last (hf : Follows o r s) (hr : r.fragments = []) (hline : CleanLine o r.last)
    (hplain : Plain (stripCr r.last)) (first : Bool) (tag : Option Bytes) :
    (∃ message, r.Breaks o .commandTooLarge
        ∧ acceptLine o first tag (stripCr r.last) s = failedLine o .commandTooLarge tag
        (stripCr r.last) message)
      ∨ ∃ ev, acceptLine o first tag (stripCr r.last) s = ({}, [ev]) ∧ r.Served o [.event ev] := by
  have hidle : Idle (addLine first tag (stripCr r.last) s) := hf.idle
  have hsize : (addLine first tag (stripCr r.last) s).cmdSize
      = s.cmdSize + (stripCr r.last).length := by
    rw [addLine, hplain.marker]
    rfl
  have hclean : r.Clean o := by
    refine ⟨?_, ?_⟩
    · rw [Rest.lines, linesOf, hr]
      exact forall_mem_singleton.mpr hline
    · rw [hr]
      exact hf.few
  have htold : r.told = r.pending ++ stripCr r.last := by
    rw [Rest.told, hr]
    rfl
  have hmessages : r.messages = [] := by
    rw [Rest.messages, hr]
    rfl
  unfold acceptLine
  split_ifs with hlarge
  · refine .inl ⟨_, ?_, hidle.failLine _ _ _ _⟩
    have hle := hf.size
    have hfull : r.fullSize = r.size + (0 + (stripCr r.last).length) := by
      rw [Rest.fullSize, hr]
      rfl
    unfold Rest.Breaks
    omega
  · rw [hplain.marker]
    have hend : endCommand tag (stripCr r.last) (addLine first tag (stripCr r.last) s)
        = ({}, if r.streamed then [.appendEnd tag (stripCr r.last)]
          else [.command tag (r.pending ++ stripCr r.last)]) := by
      have hreset : resetCommand (addLine first tag (stripCr r.last) s) = {} := hidle
      have hparts : (addLine first tag (stripCr r.last) s).parts = r.pending := hf.pending
      have hstreamed : (addLine first tag (stripCr r.last) s).appendStreamed = r.streamed :=
        hf.streamed
      rw [endCommand, hreset, hparts, hstreamed]
    rw [hend]
    refine .inr ?_
    cases hs : r.streamed with
    | false =>
      refine ⟨_, rfl, .command, rfl, ⟨hs, hmessages⟩, hclean, ?_⟩
      rw [htold]
      exact append_nil _
    | true =>
      refine ⟨_, rfl, .appendEnd, rfl, .inl hs, hclean, ?_⟩
      rw [htold, (hf.messages hs).1]
      exact append_nil _

/-- The reader has accepted the announcement of a literal. -/
structure Begun (o : CommandReaderOptions) (r : Rest) (f : Fragment) (fs : List Fragment)
    (s : CommandReader)
    (events : List ReaderEvent) : Prop where
  line : s.line = []
  mode : s.mode = if streams r.start r.first f then .append else .literal
  remaining : s.remaining = f.literal.length
  sync : s.awaitingSync = !f.nonSync
  next : Follows o (r.next f fs)
    { s with
      awaitingSync := false, remaining := 0, parts := s.parts ++ kept s.mode f.literal
      mode := .line }
  text : (events.map Item.event).flatMap Item.text = r.opening f
  quiet : (events.map Item.event).filterMap Item.outcome = []
  asks : f.nonSync = false → asked (events.map Item.event) = true

section

variable {f : Fragment} {fs : List Fragment} {m : LiteralMarker}

/-- The line is added and its literal counted. -/
structure Ready (o : CommandReaderOptions) (r : Rest) (f : Fragment) (s : CommandReader) :
    Prop where
  idle : Idle s
  fragment : s.fragment ≠ 0
  start : s.appendAt = r.start
  size : s.cmdSize ≤ r.size + ((stripCr f.raw).length + 2)
  count : s.literals = r.count + 1
  few : r.count + 1 ≤ o.maxLiterals
  pending : s.parts = r.pending
  streamed : s.appendStreamed = r.streamed
  messages : r.streamed = true → r.pending = [] ∧ r.start.isSome = true ∧ r.first = false

theorem begun_append (h : Ready o r f s) (hs : streams r.start r.first f = true)
    (hns : m.nonSync = f.nonSync) :
    Begun o r f fs (beginAppend tag (stripCr f.raw) m f.literal.length s).1
      (beginAppend tag (stripCr f.raw) m f.literal.length s).2 where
  line := h.idle.fields.2.1
  mode := by
    rw [hs]
    rfl
  remaining := rfl
  sync := congrArg (!·) hns
  next := {
    idle := h.idle.restart
    first := (decide_eq_false h.fragment).symm
    start := by
      rw [if_neg (by exact h.fragment)]
      exact h.start.symm
    size := Nat.zero_le _
    count := h.count
    few := h.few
    pending := by
      rw [Rest.next, hs]
      rfl
    streamed := by
      rw [Rest.next, hs, Bool.or_true]
      rfl
    messages := by
      intro _
      rw [Rest.next, hs]
      exact ⟨rfl, (Bool.and_eq_true_iff.mp hs).1, rfl⟩ }
  text := by
    rw [Rest.opening, hs]
    cases hst : r.streamed with
    | true => simp [beginAppend, Item.text, h.streamed, hst, (h.messages hst).1]
    | false => simp [beginAppend, Item.text, h.streamed, hst, h.pending]
  quiet := rfl
  asks := by
    intro hsync
    simp [beginAppend, asked, Item.asks, hns, hsync]

theorem begun_literal (h : Ready o r f s) (hs : streams r.start r.first f = false)
    (hns : m.nonSync = f.nonSync) :
    Begun o r f fs (beginLiteral tag (stripCr f.raw) m f.literal.length s).1
      (beginLiteral tag (stripCr f.raw) m f.literal.length s).2 where
  line := h.idle.fields.2.1
  mode := by
    rw [hs]
    rfl
  remaining := rfl
  sync := by
    rw [beginLiteral, hns, h.idle.fields.2.2.2.1]
    cases f.nonSync with
    | true => rfl
    | false => rfl
  next := {
    idle := h.idle.restart
    first := (decide_eq_false h.fragment).symm
    start := by
      rw [if_neg (by exact h.fragment)]
      exact h.start.symm
    size := by
      have hsize := h.size
      rw [Rest.next, hs]
      dsimp only [beginLiteral]
      rw [if_neg Bool.false_ne_true]
      omega
    count := h.count
    few := h.few
    pending := by
      rw [Rest.next, hs, ← h.pending]
      rfl
    streamed := by
      rw [Rest.next, hs, Bool.or_false]
      exact h.streamed
    messages := by
      -- behind a message every literal is one
      intro hst
      rw [Rest.next, hs, Bool.or_false] at hst
      obtain ⟨-, hstart, hfirst⟩ := h.messages hst
      rw [streams, hstart, hfirst] at hs
      cases hs }
  text := by
    rw [Rest.opening, hs]
    cases hn : m.nonSync with
    | true => simp [beginLiteral, hn]
    | false => simp [beginLiteral, hn, Item.text]
  quiet := by
    cases hn : m.nonSync with
    | true => simp [beginLiteral, hn]
    | false => simp [beginLiteral, hn, Item.outcome]
  asks := by
    intro hsync
    simp [beginLiteral, asked, Item.asks, hns, hsync]

end

theorem exceeds_some (n max : ℕ) : exceeds (some n) max = decide (max < n) := rfl

theorem accept_fragment (hf : Follows o r s) (hr : r.fragments = f :: fs)
    (tag : Option Bytes) (htag : tag = if s.fragment = 0 then extractTag (stripCr f.raw) else s.tag)
    (hout : acceptLine o (decide (s.fragment = 0)) tag (stripCr f.raw) s = out) :
    (∃ code message, r.Breaks o code ∧ out = failedLine o code tag (stripCr f.raw) message)
      ∨ (∃ e, e.fatal = true ∧ out.2 = [.error e]) ∨ Begun o r f fs out.1 out.2 := by
  subst hout
  obtain ⟨m, hm, hns, hmsize⟩ := f.announces.marker
  let s1 := addLine (decide (s.fragment = 0)) tag (stripCr f.raw) s
  have hidle : Idle s1 := hf.idle
  have hfull : r.size + ((stripCr f.raw).length + 2 + if streams r.start r.first f then 0
      else f.literal.length) ≤ r.fullSize := by
    rw [Rest.fullSize_next hr]
    exact Nat.le_add_right _ _
  have hle := hf.size
  have hsize : s1.cmdSize = s.cmdSize + ((stripCr f.raw).length + 2) := by
    dsimp only [s1]
    rw [addLine, hm]
    rfl
  have hstart : s1.appendAt = r.start := by
    rw [hf.start]
    dsimp only [s1, addLine]
    rw [Rest.lines_next hr, htag]
    by_cases hz : s.fragment = 0
    · simp [hz, argStart]
    · simp [hz]
  by_cases hlarge : o.maxCommandSize < s1.cmdSize
  · have hbreaks : r.Breaks o .commandTooLarge := by
      unfold Rest.Breaks
      omega
    rw [acceptLine, if_pos hlarge]
    exact .inl ⟨_, _, hbreaks, hidle.failLine _ _ _ _⟩
  have haccept : acceptLine o (decide (s.fragment = 0)) tag (stripCr f.raw) s
      = announce o (decide (s.fragment = 0)) tag (stripCr f.raw) m s1 := by
    rw [acceptLine, if_neg hlarge, hm]
  rw [haccept, announce]
  have hcount : s1.literals = r.count := hf.count
  by_cases hmany : o.maxLiterals < s1.literals + 1
  · have hbreaks : r.Breaks o .tooManyLiterals := by
      unfold Rest.Breaks
      rw [hr, length_cons]
      omega
    have hidle2 : Idle { s1 with literals := s1.literals + 1 } := hidle
    rw [if_pos hmany]
    exact .inl ⟨_, _, hbreaks, hidle2.failLine _ _ _ _⟩
  rw [if_neg hmany]
  cases (if m.nonSync then nonSyncFatal o m else none) with
  | some e => exact .inr (.inl ⟨_, rfl, rfl⟩)
  | none =>
    let s3 : CommandReader := { s1 with literals := s1.literals + 1, fragment := s1.fragment + 1 }
    have hstreams :
        (s1.appendAt.isSome && !(decide (s.fragment = 0) && decide (s1.appendAt = some m.start)))
        = streams r.start r.first f := by
      rw [hstart, streams, hm, hf.first]
      rfl
    have hready : Ready o r f s3 := {
      idle := hidle
      fragment := Nat.succ_ne_zero _
      start := hstart
      size := by
        rw [hsize]
        omega
      count := congrArg (· + 1) hcount
      few := by omega
      pending := hf.pending
      streamed := hf.streamed
      messages := hf.messages }
    dsimp only [startLiteral]
    rw [hstreams, hmsize, Option.map_some, exceeds_some, exceeds_some]
    cases hs : streams r.start r.first f with
    | true =>
      rw [if_pos rfl]
      by_cases hbig : o.maxAppendSize < f.literal.length
      · have hbreaks : r.Breaks o .literalTooLarge := by
          refine .inr ⟨f, ?_, hbig⟩
          rw [Rest.messages_next hr, hs]
          exact mem_cons_self
        rw [if_pos (decide_eq_true hbig)]
        exact .inl ⟨_, _, hbreaks, hready.idle.failLine _ _ _ _⟩
      · rw [if_neg (by simpa using hbig)]
        exact .inr (.inr (begun_append hready hs hns))
    | false =>
      rw [if_neg Bool.false_ne_true]
      by_cases hbig : o.maxCommandSize < s1.cmdSize + f.literal.length
      · have hbreaks : r.Breaks o .literalTooLarge := by
          rw [hs, if_neg Bool.false_ne_true] at hfull
          refine .inl ?_
          omega
        rw [if_pos (decide_eq_true hbig)]
        exact .inl ⟨_, _, hbreaks, hready.idle.failLine _ _ _ _⟩
      · rw [if_neg (by simpa using hbig)]
        exact .inr (.inr (begun_literal hready hs hns))

/-! ## Whole commands -/

/-- A line by itself: it fails, or it is accepted. -/
theorem line_cases (hi : Idle t.reader) (hlf : LF ∉ raw) :
    (∃ code tag text message, FaultyLine o raw code
      ∧ (text = stripCr raw ∨ text = stripCr (takeLast TAIL raw))
        ∧ feed o refuse (raw ++ [LF]) t = settled t (failedLine o code tag text message) [])
      ∨ CleanLine o raw
        ∧ feed o refuse (raw ++ [LF]) t
          = (take refuse (acceptLine o (decide (t.reader.fragment = 0))
                (if t.reader.fragment = 0 then extractTag (stripCr raw) else t.reader.tag)
                (stripCr raw) t.reader)
            >> feed o refuse []) t := by
  by_cases hfits : raw.length ≤ o.maxLineLength + 1
  · have hfeed : feed o refuse (raw ++ [LF]) t = _ := feed_line hi hlf hfits
    rcases completeLine_cases (o := o) hi raw with ⟨code, tag, message, hfault, hline⟩ | ⟨hclean,
      hline⟩
    · rw [hline, take_failedLine] at hfeed
      exact .inl ⟨code, tag, _, message, hfault, .inl rfl, hfeed⟩
    · rw [hline] at hfeed
      exact .inr ⟨hclean, hfeed⟩
  · have hlen := length_stripCr raw
    have hfault : FaultyLine o raw .lineTooLong := by
      unfold FaultyLine
      omega
    obtain ⟨tag, hfeed⟩ : ∃ tag, feed o refuse (raw ++ [LF]) t = _ :=
      feed_overlong hi hlf (Nat.not_le.mp hfits)
    exact .inl ⟨_, tag, _, _, hfault, .inr rfl, hfeed⟩

theorem take_events (refuse : ℕ → Bool) (out : CommandReader × List ReaderEvent) (t : Session) :
    ∃ more, (take refuse out t).2 = out.2.map .event ++ more := by
  unfold take
  split_ifs
  · exact ⟨_, rfl⟩
  · exact ⟨[], (append_nil _).symm⟩
  · exact ⟨[], (append_nil _).symm⟩

/-- The stream is given up, or the command is served and the reader as new. -/
def Settles (o : CommandReaderOptions) (r : Rest) (out : Session × List Item) : Prop :=
  HasFatal out.2 ∨ out.1.reader = {} ∧ r.Served o out.2

theorem settles_of_dropped {out : Session × List Item} {e : ReaderError}
    (hbreaks : r.Breaks o e.code)
    (h : Dropped [.event (.error e)] out) : Settles o r out := by
  rcases h with hfatal | ⟨hreader, hitems⟩
  · exact .inl hfatal
  · refine .inr ⟨hreader, .failed e.code, ?_, hbreaks, ?_⟩
    · rw [hitems]
      rfl
    · rw [hitems]
      exact List.nil_prefix

/-- The last line of a command. -/
theorem settles_last (hf : Follows o r t.reader) (hr : r.fragments = []) (hlf : LF ∉ r.last)
    (hplain : Plain (stripCr r.last)) :
    Settles o r (converse o refuse [] r.last t) := by
  have hmem : r.last ∈ r.lines := mem_append_right _ (mem_singleton.mpr rfl)
  rcases line_cases (o := o) hf.idle hlf with ⟨code, tag, text, message, hfault, htext,
    hfeed⟩ | ⟨hclean, hfeed⟩
  · have hplain' : Plain text := by
      rcases htext with rfl | rfl
      · exact hplain
      · exact hplain.tail
    exact settles_of_dropped (e := ⟨code, tag, false, message⟩) (Rest.breaks_of_line hmem hfault)
      (dropped_last hfeed hplain')
  · rcases accept_last hf hr hclean hplain (decide (t.reader.fragment = 0))
      (if t.reader.fragment = 0 then extractTag (stripCr r.last) else t.reader.tag) with
      ⟨message, hbreaks, hout⟩ | ⟨ev, hout, hserved⟩
    · rw [hout, take_failedLine] at hfeed
      exact settles_of_dropped (e := ⟨.commandTooLarge, _, false, message⟩) hbreaks
        (dropped_last hfeed hplain)
    · rw [hout, take_settled _ rfl] at hfeed
      rw [converse, hfeed]
      exact .inr ⟨rfl, hserved⟩

section

variable {f : Fragment} {fs : List Fragment} (hr : r.fragments = f :: fs)
  (ih : ∀ t' : Session, Follows o (r.next f fs) t'.reader →
    Settles o (r.next f fs) (converse o refuse fs r.last t'))

include hr ih

/-- A literal that is read, and the rest of the command. -/
theorem settles_literal (hclean : CleanLine o f.raw) {events : List ReaderEvent}
    (hb : Begun o r f fs t.reader events) :
    HasFatal ((feed o refuse f.literal >> converse o refuse fs r.last) t).2
      ∨ ((feed o refuse f.literal >> converse o refuse fs r.last) t).1.reader = {}
        ∧ r.Served o
        (events.map .event ++ ((feed o refuse f.literal >> converse o refuse fs r.last) t).2) := by
  have hmode : t.reader.mode.reads = true ∧ t.reader.mode.after = .line := by
    rw [hb.mode]
    split_ifs
    · exact ⟨rfl, rfl⟩
    · exact ⟨rfl, rfl⟩
  have hfeed : feed o refuse f.literal t = _ := feed_literal hb.line hmode.1 hb.remaining
  rw [hmode.2] at hfeed
  have hbody : ((passed t.reader.mode f.literal).map Item.event).flatMap Item.text = r.body f
      ∧ ((passed t.reader.mode f.literal).map Item.event).filterMap Item.outcome = [] := by
    rw [hb.mode, Rest.body, passed]
    by_cases hnil : f.literal = []
    · simp [hnil]
    · split_ifs <;> simp_all [Item.text, Item.outcome]
  rw [andThen_apply, hfeed]
  let t' : Session :=
    { t with
      reader :=
        { t.reader with
          awaitingSync := false, remaining := 0, parts :=
          t.reader.parts ++ kept t.reader.mode f.literal, mode := .line } }
  rcases ih t' hb.next with hfatal | ⟨hreader, x, hx, hanswers⟩
  · exact .inl (hasFatal_append_right hfatal)
  · refine .inr ⟨hreader, x, ?_, ?_⟩
    · rw [filterMap_append, filterMap_append, hb.quiet, hbody.2, hx]
      rfl
    · rw [← append_assoc]
      refine Rest.answers_next hr hclean ?_ hanswers
      rw [flatMap_append, hb.text, hbody.1]

/-- A literal that is announced: it is read, or refused. -/
theorem settles_begun (hclean : CleanLine o f.raw) (hb : Begun o r f fs out.1 out.2)
    (hfeed : feed o refuse (f.raw ++ [LF]) t = (take refuse out >> feed o refuse []) t) :
    Settles o r (converse o refuse (f :: fs) r.last t) := by
  have hread : ∀ n, take refuse out t = ({ reader := out.1, asked := n }, out.2.map .event) →
      f.nonSync = true ∨ asked (out.2.map Item.event) = true →
        Settles o r (converse o refuse (f :: fs) r.last t) := by
    intro n htake hgo
    rw [andThen_apply, htake, feed_nil, append_nil] at hfeed
    have hrest : ∀ g : Emits Session Item, (feed o refuse f.literal >> g)
        (calm { reader := out.1, asked := n })
        = (feed o refuse f.literal >> g) { reader := out.1, asked := n } := by
      intro g
      rw [andThen_apply, feed_calm, ← andThen_apply]
    have hall : converse o refuse (f :: fs) r.last t = _ := converse_go (by rw [hfeed]; exact hgo)
    rw [andThen_apply, hfeed, hrest] at hall
    rw [hall]
    rcases settles_literal (t := { reader := out.1, asked := n }) hr ih hclean
      hb with hfatal | hserved
    · exact .inl (hasFatal_append_right hfatal)
    · exact .inr hserved
  cases hns : f.nonSync with
  | true =>
    have hq : out.1.awaitingSync = false := by
      rw [hb.sync, hns]
      rfl
    exact hread _ (take_quiet hq t) (.inl hns)
  | false =>
    have hq : out.1.awaitingSync = true := by
      rw [hb.sync, hns]
      rfl
    by_cases hrefuse : refuse t.asked = true
    · have htake : take refuse out t
          = ({ reader := {}, asked := t.asked + 1 }, out.2.map .event ++ [.refused]) := by
        have hreject : rejectLiteral out.1 = {} := by
          rw [rejectLiteral, if_pos hq]
          exact hb.next.idle
        rw [take, if_pos hq, if_pos hrefuse, hreject]
      rw [andThen_apply, htake, feed_nil, append_nil] at hfeed
      have hask : asked (feed o refuse (f.raw ++ [LF]) t).2 = false := by
        rw [hfeed, asked, getLast?_concat]
        rfl
      rw [converse_stop hns hask, hfeed]
      refine .inr ⟨rfl, .refused, ?_, ⟨f, ?_, hns⟩, ?_⟩
      · rw [filterMap_append, hb.quiet]
        rfl
      · rw [hr]
        exact mem_cons_self
      · rw [flatMap_append, hb.text, Rest.told_next hr]
        exact (prefix_append_right_inj _).mpr List.nil_prefix
    · refine hread (t.asked + 1) ?_ (.inr (hb.asks hns))
      rw [take, if_pos hq, if_neg hrefuse]

theorem settles_fragment (hf : Follows o r t.reader) (hlf : LF ∉ r.last)
    (hplain : Plain (stripCr r.last)) :
    Settles o r (converse o refuse (f :: fs) r.last t) := by
  have hmem : f.raw ∈ r.lines := by
    rw [Rest.lines_next hr]
    exact mem_cons_self
  have hdrop : ∀ {tag : Option Bytes} {t' : Session}, t'.reader = { tag := tag, mode := .discard } →
      Dropped [] (converse o refuse fs r.last t') := fun ht => converse_discard fs hlf hplain ht
  rcases line_cases (o := o) hf.idle f.noLf with ⟨code, tag, text, message, hfault, htext,
    hfeed⟩ | ⟨hclean, hfeed⟩
  · have hann : Announces text f.literal.length f.nonSync := by
      rcases htext with rfl | rfl
      · exact f.announces
      · exact f.announces.tail
    exact settles_of_dropped (e := ⟨code, tag, false, message⟩) (Rest.breaks_of_line hmem hfault)
      (dropped_fragment (fun _ => hdrop) hfeed hann rfl)
  rcases accept_fragment hf hr _ rfl rfl with ⟨code, message, hbreaks, hout⟩ | ⟨e, he,
    hout⟩ | hbegun
  · rw [hout, take_failedLine] at hfeed
    exact settles_of_dropped (e := ⟨code, _, false, message⟩) hbreaks
      (dropped_fragment (fun _ => hdrop) hfeed f.announces rfl)
  · refine .inl (hasFatal_converse ?_)
    rw [hfeed, andThen_snd]
    obtain ⟨more, hmore⟩ := take_events _ _ _
    rw [hmore, hout]
    exact ⟨_, mem_cons_self, he⟩
  · exact settles_begun hr ih hclean hbegun hfeed

end

/-- **One command**, or the rest of one. -/
theorem settles_rest (hlf : LF ∉ r.last) (hplain : Plain (stripCr r.last))
    (hf : Follows o r t.reader) :
    Settles o r (converse o refuse r.fragments r.last t) := by
  induction hr : r.fragments generalizing r t with
  | nil => exact settles_last hf hr hlf hplain
  | cons f fs ih =>
    have hnext : ∀ t' : Session, Follows o (r.next f fs) t'.reader →
        Settles o (r.next f fs) (converse o refuse fs r.last t') := by
      intro t' hf'
      have hlf' : LF ∉ (r.next f fs).last := hlf
      exact ih hlf' hplain hf' rfl
    exact settles_fragment hr hnext hf hlf hplain

end

/-! ## Whole conversations -/

theorem short_converse (fs : List Fragment) (last : Bytes) :
    Keeps (Short o) (converse o refuse fs last) := by
  induction fs with
  | nil => exact short_feed _
  | cons f fs ih =>
    intro t h
    rw [converse]
    dsimp only
    split_ifs
    · exact ih _ (short_feed _ _ (short_feed _ _ h))
    · exact short_feed _ _ h

theorem calm_feed (buf : Bytes) (t : Session) : Calm (feed o refuse buf t).1 := calm_drive _ _ _

theorem calm_converse (fs : List Fragment) (last : Bytes) (t : Session) :
    Calm (converse o refuse fs last t).1 := by
  induction fs generalizing t with
  | nil => exact calm_feed _ _
  | cons f fs ih =>
    rw [converse]
    dsimp only
    split_ifs
    · exact ih _
    · exact calm_feed _ _

/-- What the client sends in a command is read as the conversation goes. -/
theorem agrees_send (fs : List Fragment) (last : Bytes) (h : Short o t) :
    Agrees (feed o refuse (send o refuse fs last t)) (converse o refuse fs last) t := by
  induction fs generalizing t with
  | nil => exact AgreeUpTo.refl _ _
  | cons f fs ih =>
    by_cases hgo : (f.nonSync || asked (feed o refuse (f.raw ++ [LF]) t).2) = true
    · let t1 := (feed o refuse (f.raw ++ [LF]) t).1
      have hshort1 : Short o t1 := short_feed _ _ h
      have hsend : send o refuse (f :: fs) last t
          = (f.raw ++ [LF]) ++ (f.literal ++ send o refuse fs last
            (feed o refuse f.literal t1).1) := by
        exact if_pos hgo
      rw [hsend]
      let t2 := (feed o refuse f.literal t1).1
      have hliteral : Agrees (feed o refuse (f.literal ++ send o refuse fs last t2))
          (feed o refuse f.literal >> feed o refuse (send o refuse fs last t2)) t1 :=
            agrees_cut _ _ hshort1
      have hshort2 : Short o t2 := short_feed _ _ hshort1
      have hrest : Agrees (feed o refuse (f.literal ++ send o refuse fs last t2))
          (feed o refuse f.literal >> converse o refuse fs last) t1 :=
            hliteral.trans (ih hshort2).after
      exact ((agrees_cut _ _ h).trans hrest.after).trans
        (AgreeUpTo.of_eq (converse_go (Bool.or_eq_true_iff.mp hgo)).symm)
    · obtain ⟨hns, hask⟩ := Bool.or_eq_false_iff.mp (Bool.not_eq_true _ ▸ hgo)
      have hsend : send o refuse (f :: fs) last t = f.raw ++ [LF] := by
        exact if_neg hgo
      rw [hsend]
      exact AgreeUpTo.of_eq (converse_stop hns hask).symm

/-- The conversation about these commands, one after another. -/
def converseAll (o : CommandReaderOptions) (refuse : ℕ → Bool) :
    List ClientCommand → Emits Session Item
  | [] => skip
  | c :: cs => c.converse o refuse >> converseAll o refuse cs

theorem agrees_transcript (cs : List ClientCommand) (h : Short o t) (hc : Calm t) :
    Agrees (feed o refuse (transcript o refuse cs t)) (converseAll o refuse cs) t := by
  induction cs generalizing t with
  | nil =>
    refine AgreeUpTo.of_eq ?_
    rw [transcript, feed_nil, hc.calm]
    rfl
  | cons c cs ih =>
    let t1 := (c.converse o refuse t).1
    have hcut : Agrees
        (feed o refuse (send o refuse c.fragments c.last t ++ transcript o refuse cs t1))
        (feed o refuse (send o refuse c.fragments c.last t)
          >> feed o refuse (transcript o refuse cs t1)) t :=
      agrees_cut _ _ h
    have hfirst : Agrees
        (feed o refuse (send o refuse c.fragments c.last t)
          >> feed o refuse (transcript o refuse cs t1))
        (c.converse o refuse >> feed o refuse (transcript o refuse cs t1)) t :=
      (agrees_send c.fragments c.last h).before (respects_feed _)
    have hrest : Agrees (feed o refuse (transcript o refuse cs t1)) (converseAll o refuse cs) t1 :=
      ih (short_converse c.fragments c.last t h) (calm_converse c.fragments c.last t)
    exact hcut.trans (hfirst.trans hrest.after)

theorem settles_all (cs : List ClientCommand) (ht : t.reader = {}) :
    HasFatal (converseAll o refuse cs t).2
      ∨ (converseAll o refuse cs t).1.reader = {}
        ∧ ∃ segments, (converseAll o refuse cs t).2 = segments.flatten
          ∧ List.Forall₂ (Serves o) cs segments := by
  induction cs generalizing t with
  | nil => exact .inr ⟨ht, [], rfl, List.Forall₂.nil⟩
  | cons c cs ih =>
    have hf : Follows o c.whole t.reader := by
      rw [ht]
      exact follows_whole c
    have hone : Settles o c.whole (c.converse o refuse t) := settles_rest c.noLf c.plain hf
    rcases hone with hfatal | ⟨hreader, hserved⟩
    · exact .inl (hasFatal_append_left hfatal)
    · rcases ih hreader with hfatal | ⟨hreader', segments, hitems, hall⟩
      · exact .inl (hasFatal_append_right hfatal)
      · refine .inr ⟨hreader', (c.converse o refuse t).2 :: segments, ?_,
          List.Forall₂.cons hserved hall⟩
        rw [flatten_cons, ← hitems]
        rfl

/-! ### Chunks -/

theorem Item.octets_outcome (i : Item) : i.octets.filterMap Item.outcome = i.outcome.toList := by
  cases i with
  | refused => rfl
  | event e => cases e with
    | appendData chunk =>
      rw [Item.octets, filterMap_map]
      exact filterMap_eq_nil_iff.mpr fun _ _ => rfl
    | _ => rfl

theorem Item.octets_text (i : Item) : i.octets.flatMap Item.text = i.text := by
  cases i with
  | refused => rfl
  | event e => cases e with
    | appendData chunk =>
      rw [Item.octets, flatMap_map]
      exact flatMap_singleton' chunk
    | _ => exact append_nil _

theorem outcomes_octets (items : List Item) :
    (items.flatMap Item.octets).filterMap Item.outcome = items.filterMap Item.outcome := by
  induction items with
  | nil => rfl
  | cons i items ih =>
    rw [flatMap_cons, filterMap_append, i.octets_outcome, ih, filterMap_cons]
    cases i.outcome with
    | none => rfl
    | some x => rfl

theorem text_octets (items : List Item) : (items.flatMap Item.octets).flatMap Item.text
    = items.flatMap Item.text := by
  rw [flatMap_assoc]
  exact congrArg items.flatMap (funext Item.octets_text)

theorem Item.octets_fatal {i j : Item} (h : j ∈ i.octets) : j.fatal = i.fatal := by
  cases i with
  | refused => exact congrArg Item.fatal (mem_singleton.mp h)
  | event ev => cases ev with
    | appendData chunk =>
      obtain ⟨b, -, rfl⟩ := mem_map.mp h
      rfl
    | error e =>
      rw [Item.octets, mem_singleton] at h
      rw [h]
      rfl
    | _ => exact congrArg Item.fatal (mem_singleton.mp h)

theorem hasFatal_octets (items : List Item) : HasFatal (items.flatMap Item.octets)
    ↔ HasFatal items := by
  constructor
  · rintro ⟨j, hj, hf⟩
    obtain ⟨i, hi, hj⟩ := mem_flatMap.mp hj
    exact ⟨i, hi, (Item.octets_fatal hj).symm.trans hf⟩
  · rintro ⟨i, hi, hf⟩
    cases i with
    | refused => cases hf
    | event ev => cases ev with
      | error e => exact ⟨_, mem_flatMap.mpr ⟨_, hi, mem_singleton.mpr rfl⟩, hf⟩
      | _ => cases hf

theorem served_octets {c : ClientCommand} (h : Serves o c items) :
    Serves o c (items.flatMap Item.octets) := by
  obtain ⟨x, hx, hanswers⟩ := h
  refine ⟨x, (outcomes_octets items).trans hx, ?_⟩
  unfold Rest.Answers at hanswers ⊢
  rw [text_octets]
  exact hanswers

theorem short_new : Short o {} := Nat.zero_le _

theorem calm_new : Calm {} := Calm.of_mode (.inl rfl) rfl

end

/-- **The reader and its client stay aligned.** Whatever the commands are, whichever
literals are refused and however what the client sends is cut into chunks: as long
as no fatal error is emitted, the reader's words are one part for each command, in
order, each with exactly one outcome, and the reader is as new at the end. What a
part passes on are the octets of its own command. The commands sent so far are any
list, so this also says where each command is taken up. -/
theorem reader_stays_aligned (o : CommandReaderOptions) (refuse : ℕ → Bool)
    (cs : List ClientCommand) (chunks : List Bytes)
    (hsent : chunks.flatten = transcript o refuse cs {})
    (hfatal : ¬ HasFatal (run o refuse chunks).2) :
    (run o refuse chunks).1.reader = {}
      ∧ ∃ segments, (run o refuse chunks).2.flatMap Item.octets = segments.flatten
        ∧ List.Forall₂ (Serves o) cs segments := by
  have hchunks : Agrees (readAll (feed o refuse) chunks) (feed o refuse chunks.flatten) {} :=
    agrees_chunks short_new calm_new chunks
  rw [hsent] at hchunks
  obtain ⟨hview, hitems⟩ := hchunks.trans (agrees_transcript cs short_new calm_new)
  have hsettled : HasFatal (converseAll o refuse cs {}).2 ∨ _ := settles_all cs rfl
  rcases hsettled with hlost | ⟨hreader, segments, hsegments, hall⟩
  · refine absurd ((hasFatal_octets _).mp ?_) hfatal
    rw [run, hitems]
    exact (hasFatal_octets _).mpr hlost
  · refine ⟨?_, segments.map (·.flatMap Item.octets), ?_, ?_⟩
    · -- a reader that is as new has no tag to hide
      rcases Session.view_eq hview.symm with heq | ⟨hm, -⟩
      · rw [run, ← heq, hreader]
      · rw [hreader] at hm
        rcases hm with hm | hm
        · cases hm
        · cases hm
    · rw [run, hitems, hsegments]
      rw [flatMap_def, map_flatten, flatten_flatten, map_map]
      rfl
    · exact List.forall₂_map_right_iff.mpr (hall.imp fun _ _ h => served_octets h)

/-- `a LOGIN {5}`, and a last line: its literal is synchronizing. -/
def loginCommand : ClientCommand where
  fragments := [{
    raw := ascii "a LOGIN \x7b5\x7d\r"
    nonSync := false
    literal := ascii "alice"
    noLf := by decide +kernel
    announces :=
    ⟨ascii "a LOGIN ", false, ascii "5", by decide +kernel, ⟨by decide +kernel, by decide +kernel⟩,
      by decide +kernel, by decide +kernel⟩ }]
  last := ascii " secret\r"
  noLf := by decide +kernel
  plain := plain_of_marker (by decide +kernel)

/-- A line with a bare CR, and a literal that looks like a command. -/
def brokenCommand : ClientCommand where
  fragments := [{
    raw := ascii "b LO\rGIN \x7b8+\x7d\r"
    nonSync := true
    literal := ascii "x NOOP\r\n"
    noLf := by decide +kernel
    announces := ⟨ascii "b LO\rGIN ", false,
    ascii "8", by decide +kernel, ⟨by decide +kernel, by decide +kernel⟩,
      by decide +kernel, by decide +kernel⟩ }]
  last := ascii "\r"
  noLf := by decide +kernel
  plain := plain_of_marker (by decide +kernel)

def noopCommand : ClientCommand where
  fragments := []
  last := ascii "c NOOP\r"
  noLf := by decide +kernel
  plain := plain_of_marker (by decide +kernel)

theorem reader_stays_aligned_small :
    [ascii "a LOGIN \x7b5", ascii "\x7d\r\nalice secret\r\nb LO\rGIN \x7b8+\x7d\r",
      ascii "\nx NOOP\r\n\r\nc NOOP\r\n"].flatten
        = transcript {} (fun _ => false) [loginCommand, brokenCommand, noopCommand] {}
      ∧ (run {} (fun _ => false) [ascii "a LOGIN \x7b5",
        ascii "\x7d\r\nalice secret\r\nb LO\rGIN \x7b8+\x7d\r",
          ascii "\nx NOOP\r\n\r\nc NOOP\r\n"]).1.reader = {} :=
  ⟨by decide +kernel,
    (reader_stays_aligned {} (fun _ => false) [loginCommand, brokenCommand, noopCommand] _
    (by decide +kernel) (by decide +kernel)).1⟩

/-- A refused literal ends its command without an event of the reader: of two
commands only the second one gets a terminal event. -/
theorem refused_literal_has_no_event :
    [ascii "a LOGIN \x7b5\x7d\r\nc NOOP\r\n"].flatten = transcript {} (fun _ => true)
    [loginCommand, noopCommand] {}
      ∧ (run {} (fun _ => true) [ascii "a LOGIN \x7b5\x7d\r\nc NOOP\r\n"]).2
        = [.event (.continuation (some (ascii "a")) 5), .refused,
          .event (.command (some (ascii "c")) (ascii "c NOOP"))] := by
  decide +kernel

end Postroom.ImapProto
