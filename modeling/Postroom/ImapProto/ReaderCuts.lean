/-
The command reader cannot see where its input was cut.

Handing the reader the next octet by itself changes nothing (`peel`), and so no
cut does (`agrees_cut`, `agrees_chunks`), up to two things a caller sees: how the
octets of a message were cut into `append-data` events, and the tag of an error.
The tag of a line that grows too long is read from the part of the line that had
arrived when it did, so it depends on the cuts; it is only ever reported, and it is
kept only while the rest of the command is discarded (`view`).
-/
import Postroom.ImapProto.Reader
import Postroom.Lib.Views

set_option autoImplicit false

namespace Postroom.ImapProto

open Lib Emits List

/-! ## Views -/

/-- A session without the tag of a command that is being discarded. -/
def Session.view (t : Session) : Session :=
  if t.reader.mode = .discard ∨ t.reader.mode = .skip then
    { t with reader := { t.reader with tag := none } } else t

/-- The octets of a message one by one, errors without their tag. -/
def Item.octets : Item → List Item
  | .event (.appendData chunk) => chunk.map fun b => .event (.appendData [b])
  | .event (.error e) => [.event (.error { e with tag := none })]
  | i => [i]

/-- Both end in states that look the same and emit the same items, octet by octet. -/
abbrev Agrees (f g : Emits Session Item) (t : Session) : Prop :=
  AgreeUpTo Session.view Item.octets f g t

variable {t : Session}

theorem Session.view_eq {s : Session} (h : s.view = t.view) :
    s = t ∨ (s.reader.mode = .discard ∨ s.reader.mode = .skip)
      ∧ ∃ tag, t = { s with reader := { s.reader with tag := tag } } := by
  unfold Session.view at h
  split_ifs at h with hs ht ht
  · refine .inr ⟨hs, t.reader.tag, ?_⟩
    obtain ⟨⟨⟩, _⟩ := s
    obtain ⟨⟨⟩, _⟩ := t
    simp only [Session.mk.injEq, CommandReader.mk.injEq] at h ⊢
    tauto
  · refine absurd ?_ ht
    rw [← h]
    exact hs
  · refine absurd ?_ hs
    rw [h]
    exact ht
  · exact .inl h

/-! ## Fuel -/

section

variable {o : CommandReaderOptions} {refuse : ℕ → Bool} {k : ℕ}

/-- The start of every `pump`. -/
def calm (t : Session) : Session :=
  { t with reader := settle { t.reader with awaitingSync := false } }

/-- The line being read is not too long yet. -/
def Short (o : CommandReaderOptions) (t : Session) : Prop :=
  t.reader.line.length ≤ o.maxLineLength + 1

theorem settle_line (s : CommandReader) : (settle s).line = s.line := by
  unfold settle
  split_ifs
  · rfl
  · rfl

theorem settle_awaitingSync (s : CommandReader) : (settle s).awaitingSync = s.awaitingSync := by
  unfold settle
  split_ifs
  · rfl
  · rfl

theorem Mode.after_cases (m : Mode) : m.after = .line ∨ m.after = .discard ∨ m.after = .dead := by
  cases m with
  | line | literal | append => exact .inl rfl
  | discard | skip => exact .inr (.inl rfl)
  | dead => exact .inr (.inr rfl)

theorem Mode.after_after (m : Mode) : m.after.after = m.after := by
  rcases m.after_cases with h | h | h <;> rw [h] <;> rfl

/-- Whatever is left of a literal is left of one that is being read. -/
theorem settle_mode (s : CommandReader) (h : (settle s).remaining = 0) :
    (settle s).mode = .line ∨ (settle s).mode = .discard ∨ (settle s).mode = .dead := by
  unfold settle at h ⊢
  split_ifs at h ⊢ with hr
  · exact s.mode.after_cases
  · exact absurd h hr

theorem settle_settle (s : CommandReader) : settle (settle s) = settle s := by
  by_cases hr : s.remaining = 0
  · have hs : settle s = { s with mode := s.mode.after } := if_pos hr
    rw [hs, settle, if_pos hr, Mode.after_after]
  · have hs : settle s = s := if_neg hr
    rw [hs, hs]

theorem calm_awaitingSync (t : Session) : (calm t).reader.awaitingSync = false :=
  settle_awaitingSync _

theorem calm_calm (t : Session) : calm (calm t) = calm t := by
  have hsame : { (calm t).reader with awaitingSync := false }
    = (calm t).reader := by rw [← calm_awaitingSync t]
  rw [calm, hsame]
  exact congrArg (fun r => { t with reader := r }) (settle_settle _)

theorem short_calm (h : Short o t) : Short o (calm t) := by
  unfold Short calm
  rw [settle_line]
  exact h

variable (buf : Bytes)
variable {code : ReaderErrorCode} {tag : Option Bytes} {message : String} {s s' : CommandReader}
  {out : CommandReader × List ReaderEvent} {b : UInt8}

theorem drive_zero (t : Session) : drive o refuse 0 buf t = (calm t, []) := rfl

theorem drive_succ (n : ℕ) (buf : Bytes) (t : Session) : drive o refuse (n + 1) buf t =
      if buf = [] ∨ (calm t).reader.mode = .dead then (calm t, []) else
        (take refuse (turn o buf (calm t).reader).1 >> drive o refuse n
          (turn o buf (calm t).reader).2) t := by
  rw [drive]
  dsimp only
  by_cases hc : buf = [] ∨ (calm t).reader.mode = .dead
  · rw [if_pos hc, if_pos (by simpa [calm] using hc)]
    rfl
  · rw [if_neg hc, if_neg (by simpa [calm] using hc)]
    rfl

theorem take_calm (out : CommandReader × List ReaderEvent) (t : Session) :
    take refuse out (calm t) = take refuse out t := by
  rfl

theorem drive_calm (n : ℕ) (buf : Bytes) (t : Session) :
    drive o refuse n buf (calm t) = drive o refuse n buf t := by
  cases n with
  | zero => rw [drive_zero, drive_zero, calm_calm]
  | succ n => rw [drive_succ, drive_succ, calm_calm, andThen_apply, andThen_apply, take_calm]

/-! ### The line -/

theorem cutLf_append :
    buf = (cutLf buf).1 ++ match (cutLf buf).2 with | none => [] | some rest => LF :: rest := by
  induction buf with
  | nil => rfl
  | cons b rest ih =>
    rw [cutLf]
    split_ifs with hb
    · rw [hb]
      rfl
    · exact congrArg (b :: ·) ih

theorem emitError_line {fatal : Bool} :
    Keeps (fun s => s.line.length ≤ k) (emitError code tag fatal message) := by
  intro s h
  cases fatal with
  | false => exact h
  | true => exact Nat.zero_le k

theorem afterFailedLine_line (line : Bytes) (tag : Option Bytes) :
    Keeps (fun s => s.line.length ≤ k) (afterFailedLine o line tag) := by
  intro s h
  unfold afterFailedLine
  split
  · exact h
  · split_ifs
    · exact h
    · split
      · exact emitError_line s h
      · exact emitError_line s h
      · exact h

theorem failLine_line {line : Bytes} :
    Keeps (fun s => s.line.length ≤ k) (failLine o code tag line message) :=
  fun _ h => afterFailedLine_line line tag _ h

theorem announce_line (first : Bool) (tag : Option Bytes) (line : Bytes) (marker : LiteralMarker) :
    Keeps (fun s => s.line.length ≤ k) (announce o first tag line marker) := by
  intro s h
  unfold announce
  by_cases hcount : o.maxLiterals < s.literals + 1
  · rw [if_pos hcount]
    exact failLine_line _ h
  · rw [if_neg hcount]
    split
    · exact emitError_line _ h
    · unfold startLiteral
      dsimp only
      split_ifs
      · exact failLine_line _ h
      · exact h
      · exact failLine_line _ h
      · exact h

theorem completeLine_line (raw : Bytes) :
    Keeps (fun s => s.line.length ≤ k) (completeLine o raw) := by
  have haccept : ∀ first tag line, Keeps (fun s => s.line.length ≤ k)
      (acceptLine o first tag line) := by
    intro first tag line s h
    have hadd : (addLine first tag line s).line.length ≤ k := h
    unfold acceptLine
    split_ifs
    · exact failLine_line _ hadd
    · split
      · exact hadd
      · exact announce_line _ _ _ _ _ hadd
  intro s h
  unfold completeLine
  by_cases hcr : raw.getLast? ≠ some CR
  · rw [if_pos hcr]
    exact failLine_line s h
  · rw [if_neg hcr]
    split
    · exact failLine_line s h
    · split
      · exact h
      · split
        · exact failLine_line s h
        · exact haccept _ _ _ s h

theorem absorb_fields (taken : Bytes) (s : CommandReader) :
    (absorb taken s).1.line = s.line ∧ (absorb taken s).1.mode = s.mode
      ∧ (absorb taken s).1.remaining = s.remaining - taken.length
        ∧ (absorb taken s).1.awaitingSync = s.awaitingSync := by
  unfold absorb
  dsimp only
  split
  · exact ⟨rfl, rfl, rfl, rfl⟩
  · exact ⟨rfl, rfl, rfl, rfl⟩
  · exact ⟨rfl, rfl, rfl, rfl⟩

section

variable {s : CommandReader} (buf : Bytes)

theorem turn_line (h : s.mode = .line) : turn o buf s = stepLine o buf s := by rw [turn, h]

theorem turn_discard (h : s.mode = .discard) : turn o buf s = stepDiscard o buf s := by rw [turn, h]

/-- A mode that reads a literal. -/
def Mode.reads : Mode → Bool
  | .literal => true
  | .append => true
  | .skip => true
  | _ => false

theorem turn_reads (h : s.mode.reads = true) :
    turn o buf s = (absorb (buf.take s.remaining) s, buf.drop s.remaining) := by
  cases hm : s.mode with
  | literal | append | skip => rw [turn, hm]
  | _ => rw [hm] at h; cases h

end

/-- After a turn the line is not too long, and something was used up. -/
theorem turn_spec (hshort : s.line.length ≤ o.maxLineLength + 1)
    (hs : s.remaining = 0 → s.mode = .line ∨ s.mode = .discard ∨ s.mode = .dead) (b : UInt8)
    (rest : Bytes) :
    (turn o (b :: rest) s).1.1.line.length ≤ o.maxLineLength + 1
      ∧ (turn o (b :: rest) s).2.length ≤ rest.length := by
  have hcut : (cutLf (b :: rest)).1.length ≤ (b :: rest).length
      ∧ ∀ tl, (cutLf (b :: rest)).2 = some tl → tl.length ≤ rest.length := by
    have happ := congrArg List.length (cutLf_append (b :: rest))
    rw [length_append, length_cons] at happ
    refine ⟨by rw [length_cons]; omega, fun tl htl => ?_⟩
    rw [htl] at happ
    rw [length_cons] at happ
    omega
  have habsorb : 0 < s.remaining → (absorb ((b :: rest).take s.remaining) s).1.line.length
      ≤ o.maxLineLength + 1
      ∧ ((b :: rest).drop s.remaining).length ≤ rest.length := by
    intro hpos
    rw [(absorb_fields _ s).1, length_drop, length_cons]
    exact ⟨hshort, by omega⟩
  have hpos : s.mode ≠ .line → s.mode ≠ .discard → s.mode ≠ .dead → 0 < s.remaining := by
    intro h1 h2 h3
    rw [Nat.pos_iff_ne_zero]
    intro hr
    rcases hs hr with hm | hm | hm
    · exact h1 hm
    · exact h2 hm
    · exact h3 hm
  unfold turn
  split
  · unfold stepLine
    dsimp only
    split_ifs with hover
    · refine ⟨Nat.zero_le _, ?_⟩
      rw [length_drop, length_cons]
      omega
    · split
      · exact ⟨by rw [length_append]; omega, Nat.zero_le _⟩
      · rename_i tl htl
        exact ⟨completeLine_line _ _ (Nat.zero_le _), hcut.2 tl htl⟩
  · unfold stepDiscard
    split
    · exact ⟨hshort, Nat.zero_le _⟩
    · rename_i tl htl
      exact ⟨afterFailedLine_line _ _ _ hshort, hcut.2 tl htl⟩
  · exact ⟨hshort, Nat.zero_le _⟩
  · rename_i h1 h2 h3
    exact habsorb (hpos h1 h2 h3)

theorem take_short (h : out.1.line.length ≤ o.maxLineLength + 1) (t : Session) :
    Short o (take refuse out t).1 := by
  unfold take rejectLiteral
  split_ifs
  · exact h
  · exact h
  · exact h

theorem calm_turn (h : Short o t) (b : UInt8) (rest : Bytes) :
    (turn o (b :: rest) (calm t).reader).1.1.line.length ≤ o.maxLineLength + 1
      ∧ (turn o (b :: rest) (calm t).reader).2.length ≤ rest.length :=
  turn_spec (short_calm h) (settle_mode _) b rest

theorem short_drive (n : ℕ) (buf : Bytes) : Keeps (Short o) (drive o refuse n buf) := by
  induction n generalizing buf with
  | zero => exact fun t h => short_calm h
  | succ n ih =>
    intro t h
    rw [drive_succ]
    split_ifs with hc
    · exact short_calm h
    · obtain ⟨b, rest, rfl⟩ := exists_cons_of_ne_nil (not_or.mp hc).1
      exact ih _ _ (take_short (calm_turn h b rest).1 t)

theorem drive_fuel (n m : ℕ) (buf : Bytes) (hn : buf.length ≤ n) (hm : buf.length ≤ m)
    (h : Short o t) :
    drive o refuse n buf t = drive o refuse m buf t := by
  induction n generalizing m buf t with
  | zero =>
    have hnil : buf = [] := length_eq_zero_iff.mp (Nat.le_zero.mp hn)
    rw [hnil]
    cases m with
    | zero => rfl
    | succ m =>
      rw [drive_zero, drive_succ, if_pos (.inl rfl)]
  | succ n ih =>
    cases buf with
    | nil =>
      cases m with
      | zero => rw [drive_zero, drive_succ, if_pos (.inl rfl)]
      | succ m => rw [drive_succ, drive_succ, if_pos (.inl rfl), if_pos (.inl rfl)]
    | cons b rest =>
      obtain ⟨m, rfl⟩ : ∃ m', m = m' + 1 := ⟨m - 1, by rw [length_cons] at hm; omega⟩
      rw [length_cons] at hn hm
      have hturn := calm_turn h b rest
      rw [drive_succ, drive_succ]
      by_cases hc : b :: rest = [] ∨ (calm t).reader.mode = .dead
      · rw [if_pos hc, if_pos hc]
      · rw [if_neg hc, if_neg hc, andThen_apply, andThen_apply,
          ih m _ (by omega) (by omega) (take_short hturn.1 t)]

theorem feed_nil (t : Session) : feed o refuse [] t = (calm t, []) := rfl

theorem feed_calm (t : Session) : feed o refuse buf (calm t) = feed o refuse buf t :=
  drive_calm _ _ _

theorem feed_nil_andThen : (feed o refuse [] >> feed o refuse buf) = feed o refuse buf := by
  funext t
  rw [andThen_apply, feed_nil, feed_calm]
  rfl

theorem short_feed : Keeps (Short o) (feed o refuse buf) := short_drive _ _

/-- One turn, and the rest of the buffer. -/
theorem feed_cons (h : Short o t) (hdead : (calm t).reader.mode ≠ .dead) (b : UInt8)
    (rest : Bytes) :
    feed o refuse (b :: rest) t =
      (take refuse (turn o (b :: rest) (calm t).reader).1
        >> feed o refuse (turn o (b :: rest) (calm t).reader).2) t := by
  have hturn := calm_turn h b rest
  have hc : ¬ (b :: rest = [] ∨ (calm t).reader.mode = .dead) := by
    rw [not_or]
    exact ⟨cons_ne_nil _ _, hdead⟩
  rw [feed, length_cons, drive_succ, if_neg hc, andThen_apply, andThen_apply, feed,
    drive_fuel rest.length _ _ hturn.2 (Nat.le_refl _) (take_short hturn.1 t)]

theorem feed_dead (hdead : (calm t).reader.mode = .dead) (buf : Bytes) :
    feed o refuse buf t = (calm t, []) := by
  cases buf with
  | nil => rfl
  | cons b rest => rw [feed, length_cons, drive_succ, if_pos (.inr hdead)]

/-! ## The view is respected -/

/-- Two readers that differ in the tag of the command being discarded. -/
def Retagged (s s' : CommandReader) : Prop :=
  (s.mode = .discard ∨ s.mode = .skip) ∧ ∃ tag, s' = { s with tag := tag }

theorem view_retagged (h : s = s' ∨ Retagged s s') :
    Session.view { t with reader := s } = Session.view { t with reader := s' } := by
  rcases h with rfl | ⟨hm, tag, rfl⟩
  · rfl
  · unfold Session.view
    rw [if_pos hm, if_pos hm]

theorem settle_retagged (h : Retagged s s') :
    Retagged (settle { s with awaitingSync := false })
    (settle { s' with awaitingSync := false }) := by
  obtain ⟨hm, tag, rfl⟩ := h
  unfold settle
  split_ifs with hr
  · refine ⟨.inl ?_, tag, rfl⟩
    rcases hm with hm | hm
    · exact congrArg Mode.after hm
    · exact congrArg Mode.after hm
  · exact ⟨hm, tag, rfl⟩

/-- What a failed line leads to looks the same for every tag. -/
theorem afterFailedLine_retagged (line : Bytes) (tag tag' : Option Bytes) (s : CommandReader) :
    ((afterFailedLine o line tag s).1 = (afterFailedLine o line tag' s).1
        ∨ Retagged (afterFailedLine o line tag s).1 (afterFailedLine o line tag' s).1)
      ∧ ((afterFailedLine o line tag s).2.map Item.event).flatMap Item.octets
        = ((afterFailedLine o line tag' s).2.map Item.event).flatMap Item.octets
      ∧ (afterFailedLine o line tag s).1.awaitingSync = s.awaitingSync
      ∧ (afterFailedLine o line tag' s).1.awaitingSync = s.awaitingSync := by
  unfold afterFailedLine
  split
  · exact ⟨.inl rfl, rfl, rfl, rfl⟩
  · split_ifs
    · exact ⟨.inl rfl, rfl, rfl, rfl⟩
    · split
      · exact ⟨.inl rfl, rfl, rfl, rfl⟩
      · exact ⟨.inl rfl, rfl, rfl, rfl⟩
      · exact ⟨.inr ⟨.inr rfl, tag', rfl⟩, rfl, rfl, rfl⟩

theorem take_quiet (h : out.1.awaitingSync = false) (t : Session) :
    take refuse out t = ({ t with reader := out.1 }, out.2.map .event) := by
  rw [take, if_neg (by rw [h]; exact Bool.false_ne_true)]

/-- A turn of a reader that discards looks the same for every tag. -/
theorem turn_retagged (h : Retagged s s') (buf : Bytes) :
    ((turn o buf s).1.1 = (turn o buf s').1.1 ∨ Retagged (turn o buf s).1.1 (turn o buf s').1.1)
      ∧ ((turn o buf s).1.2.map Item.event).flatMap Item.octets
        = ((turn o buf s').1.2.map Item.event).flatMap Item.octets
      ∧ (turn o buf s).2 = (turn o buf s').2
      ∧ (turn o buf s).1.1.awaitingSync = s.awaitingSync
        ∧ (turn o buf s').1.1.awaitingSync = s.awaitingSync := by
  obtain ⟨hm, tag, rfl⟩ := h
  rcases hm with hm | hm
  · have hm' : { s with tag := tag }.mode = .discard := hm
    rw [turn_discard buf hm, turn_discard buf hm']
    unfold stepDiscard
    split
    · exact ⟨.inr ⟨.inl hm, tag, rfl⟩, rfl, rfl, rfl, rfl⟩
    · obtain ⟨hstate, hout, hs, hs'⟩ := afterFailedLine_retagged (o := o)
        (stripCr (takeLast TAIL (s.tail ++ (cutLf buf).1))) s.tag tag
          (resetCommand { s with tail := [] })
      exact ⟨hstate, hout, rfl, hs, hs'⟩
  · have hread : s.mode.reads = true := by rw [hm]; rfl
    have hread' : { s with tag := tag }.mode.reads = true := hread
    have habsorb : ∀ s : CommandReader, s.mode = .skip → ∀ taken,
        absorb taken s = ({ s with remaining := s.remaining - taken.length }, []) := by
      intro s hs taken
      rw [absorb, hs]
    have hm' : { s with tag := tag }.mode = .skip := hm
    rw [turn_reads buf hread, turn_reads buf hread', habsorb s hm, habsorb _ hm']
    exact ⟨.inr ⟨.inr hm, tag, rfl⟩, rfl, rfl, rfl, rfl⟩

theorem respects_drive (n : ℕ) (buf : Bytes) :
    Respects Session.view Item.octets (drive o refuse n buf) := by
  induction n generalizing buf with
  | zero =>
    intro s t h
    rcases Session.view_eq h with rfl | ⟨hm, tag, rfl⟩
    · exact ⟨rfl, rfl⟩
    · have hre : Retagged s.reader { s.reader with tag := tag } := ⟨hm, tag, rfl⟩
      exact ⟨view_retagged (.inr (settle_retagged hre)), rfl⟩
  | succ n ih =>
    intro s t h
    rcases Session.view_eq h with rfl | ⟨hm, tag, rfl⟩
    · exact ⟨rfl, rfl⟩
    · let t : Session := { s with reader := { s.reader with tag := tag } }
      have hre : Retagged s.reader t.reader := ⟨hm, tag, rfl⟩
      have hcalm : Retagged (calm s).reader (calm t).reader := settle_retagged hre
      have hmode : (calm t).reader.mode = (calm s).reader.mode := by
        obtain ⟨-, tag', heq⟩ := hcalm
        rw [heq]
      rw [drive_succ, drive_succ, hmode]
      split_ifs
      · exact ⟨view_retagged (.inr hcalm), rfl⟩
      · obtain ⟨hstate, hout, hrest, hs, hs'⟩ := turn_retagged (o := o) hcalm buf
        have hquiet := calm_awaitingSync s
        rw [andThen_apply, andThen_apply, take_quiet (hs.trans hquiet),
          take_quiet (hs'.trans hquiet), ← hrest]
        obtain ⟨hview, hout'⟩ := ih (turn o buf (calm s).reader).2 _ _
          (view_retagged (t := s) hstate)
        refine ⟨hview, ?_⟩
        rw [flatMap_append, flatMap_append, hout, hout']

theorem respects_feed : Respects Session.view Item.octets (feed o refuse buf) := respects_drive _ _

/-! ## One octet earlier -/

theorem takeLast_append (n : ℕ) (a b : Bytes) :
    takeLast n (takeLast n a ++ b) = takeLast n (a ++ b) := by
  unfold takeLast
  rw [drop_append, drop_append, length_append, length_append, length_drop, drop_drop]
  congr 1
  · congr 1
    omega
  · congr 1
    omega

theorem cutLf_lf (rest : Bytes) : cutLf (LF :: rest) = ([], some rest) := if_pos rfl

theorem cutLf_cons (hb : b ≠ LF) (rest : Bytes) :
    cutLf (b :: rest) = (b :: (cutLf rest).1, (cutLf rest).2) := if_neg hb

theorem drop_cutLf : buf.drop (cutLf buf).1.length =
    match (cutLf buf).2 with
    | none => []
    | some rest => LF :: rest := by
  have happ := congrArg (List.drop (cutLf buf).1.length) (cutLf_append buf)
  rwa [drop_left] at happ

section

variable {t : Session} {buf : Bytes}

/-- A session at the start of a `pump`. -/
structure Calm (t : Session) : Prop where
  settled : settle t.reader = t.reader
  quiet : t.reader.awaitingSync = false

theorem Calm.calm (h : Calm t) : calm t = t := by
  have hsame : { t.reader with awaitingSync := false } = t.reader := by rw [← h.quiet]
  rw [ImapProto.calm, hsame, h.settled]

theorem calm_isCalm (t : Session) : Calm (calm t) := ⟨settle_settle _, calm_awaitingSync t⟩

/-- A session whose next turn reads. -/
structure Live (o : CommandReaderOptions) (t : Session) : Prop where
  short : Short o t
  calm : Calm t
  live : t.reader.mode ≠ .dead

/-- In a mode with no literal to read. -/
theorem Calm.of_mode (hm : t.reader.mode = .line ∨ t.reader.mode = .discard)
    (hq : t.reader.awaitingSync = false) :
    Calm t := by
  refine ⟨?_, hq⟩
  have hafter : t.reader.mode.after = t.reader.mode := by
    rcases hm with hm | hm
    · rw [hm]; rfl
    · rw [hm]; rfl
  rw [settle, hafter, ite_self]

theorem Live.of_mode (h : Short o t) (hm : t.reader.mode = .line ∨ t.reader.mode = .discard)
    (hq : t.reader.awaitingSync = false) : Live o t := by
  refine ⟨h, Calm.of_mode hm hq, ?_⟩
  rcases hm with hm | hm
  · rw [hm]; decide
  · rw [hm]; decide

section

variable (h : Live o t)
include h

theorem feed_turn (b : UInt8) (rest : Bytes) : feed o refuse (b :: rest) t =
      (take refuse (turn o (b :: rest) t.reader).1 >> feed o refuse (turn o (b :: rest) t.reader).2)
      t := by
  have hcalm : feed o refuse (b :: rest) t = _ :=
    feed_cons h.short (by rw [h.calm.calm]; exact h.live) b rest
  rwa [h.calm.calm] at hcalm

/-- Where the octet by itself takes the turn the buffer takes, the rest follows. -/
theorem peel_same (b : UInt8) (rest : Bytes)
    (hturn : (turn o (b :: rest) t.reader).1 = (turn o [b] t.reader).1)
    (hrest : (turn o (b :: rest) t.reader).2 = rest)
    (hnil : (turn o [b] t.reader).2 = []) :
    feed o refuse (b :: rest) t = (feed o refuse [b] >> feed o refuse rest) t := by
  have hone : feed o refuse [b] t = (take refuse (turn o [b] t.reader).1 >> feed o refuse [])
      t := by
    rw [feed_turn h b [], hnil]
  rw [feed_turn h b rest, hturn, hrest, andThen_apply (feed o refuse [b]), hone, ← andThen_apply,
    andThen_assoc, feed_nil_andThen]

/-- A turn that only moves on. -/
theorem feed_move {rest : Bytes}
    {left : Bytes} (hturn : turn o (b :: rest) t.reader = ((s, []), left))
    (hq : s.awaitingSync = false) :
    feed o refuse (b :: rest) t = feed o refuse left { t with reader := s } := by
  rw [feed_turn h b rest, hturn, andThen_apply, take_quiet hq]
  rfl

end

theorem takeLast_takeLast (n : ℕ) (a : Bytes) : takeLast n (takeLast n a) = takeLast n a := by
  have happ := takeLast_append n a []
  rwa [append_nil, append_nil] at happ

/-- The rest of a line that is discarded only matters by its end. -/
theorem feed_discard (h : Short o t) (hm : t.reader.mode = .discard)
    (hq : t.reader.awaitingSync = false)
    (hbuf : buf ≠ []) : feed o refuse buf t = feed o refuse (buf.drop (cutLf buf).1.length)
        { t
          with reader :=
  { t.reader with tail := takeLast TAIL (t.reader.tail ++ (cutLf buf).1) } } := by
  obtain ⟨b, rest, rfl⟩ := exists_cons_of_ne_nil hbuf
  have hr : Live o t := Live.of_mode h (.inr hm) hq
  let t' : Session :=
    { t with
      reader :=
        { t.reader with tail := takeLast TAIL (t.reader.tail ++ (cutLf (b :: rest)).1) } }
  have hr' : Live o t' := Live.of_mode h (.inr hm) hq
  rw [drop_cutLf]
  cases hq' : (cutLf (b :: rest)).2 with
  | none =>
    have hturn : turn o (b :: rest) t.reader = ((t'.reader, []), []) := by
      rw [turn_discard _ hm, stepDiscard, hq']
    rw [feed_move hr hturn hq]
  | some tl =>
    -- the LF ends the line in either case
    have hturn : turn o (b :: rest) t.reader
        = (afterFailedLine o (stripCr t'.reader.tail) t.reader.tag
          (resetCommand { t.reader with tail := [] }), tl) := by
      rw [turn_discard _ hm, stepDiscard, hq']
    have hm' : t'.reader.mode = .discard := hm
    have hturn' : turn o (LF :: tl) t'.reader
        = (afterFailedLine o (stripCr t'.reader.tail) t.reader.tag
          (resetCommand { t.reader with tail := [] }), tl) := by
      rw [turn_discard _ hm', stepDiscard, cutLf_lf]
      rw [append_nil, takeLast_takeLast]
    have hfeed' : feed o refuse (LF :: tl) t' = _ := feed_turn hr' LF tl
    rw [feed_turn hr b rest, hturn, hfeed', hturn']
    rfl

theorem peel_discard (h : Short o t) (hm : t.reader.mode = .discard)
    (hq : t.reader.awaitingSync = false)
    (b : UInt8) (rest : Bytes) : feed o refuse (b :: rest) t
      = (feed o refuse [b] >> feed o refuse rest) t := by
  by_cases hb : b = LF
  · subst hb
    refine peel_same (Live.of_mode h (.inr hm) hq) LF rest ?_ ?_ ?_
    · rw [turn_discard _ hm, turn_discard _ hm, stepDiscard, stepDiscard, cutLf_lf, cutLf_lf]
    · rw [turn_discard _ hm, stepDiscard, cutLf_lf]
    · rw [turn_discard _ hm, stepDiscard, cutLf_lf]
  · let t' : Session :=
      { t with reader := { t.reader with tail := takeLast TAIL (t.reader.tail ++ [b]) } }
    have hone : feed o refuse [b] t = feed o refuse [] t' := by
      rw [feed_discard h hm hq (cons_ne_nil b []), cutLf_cons hb]
      rfl
    have htwo : (feed o refuse [b] >> feed o refuse rest) t = feed o refuse rest t' := by
      rw [andThen_apply, hone, ← andThen_apply, feed_nil_andThen]
    rw [htwo, feed_discard h hm hq (cons_ne_nil b rest), cutLf_cons hb]
    by_cases hrest : rest = []
    · rw [hrest]
      rfl
    · have happ : t.reader.tail ++ b :: (cutLf rest).1
          = (t.reader.tail ++ [b]) ++ (cutLf rest).1 := by
        rw [append_assoc]
        rfl
      have hshort' : Short o t' := h
      have hrest' : feed o refuse rest t' = _ := feed_discard hshort' hm hq hrest
      rw [hrest', length_cons, drop_succ_cons, happ]
      rw [takeLast_append]

/-- Octets of a literal, and what the caller sees of them. -/
def absorbs (refuse : ℕ → Bool) (taken : Bytes) : Emits Session Item :=
  fun t => take refuse (absorb taken t.reader) t

/-- The octets of a literal one by one. -/
theorem absorbs_append (hq : t.reader.awaitingSync = false) (a c : Bytes) :
    Agrees (absorbs refuse (a ++ c)) (absorbs refuse a >> absorbs refuse c) t := by
  have hquiet : ∀ t : Session, t.reader.awaitingSync = false → ∀ taken, absorbs refuse taken t
      = ({ t with reader := (absorb taken t.reader).1 }, (absorb taken t.reader).2.map .event) := by
    intro t hq taken
    exact take_quiet ((absorb_fields taken t.reader).2.2.2.trans hq) t
  have hsub : t.reader.remaining - (a ++ c).length = t.reader.remaining - a.length - c.length := by
    rw [length_append]
    omega
  unfold Agrees AgreeUpTo
  rw [andThen_apply, hquiet t hq, hquiet t hq, hquiet]
  · cases hm : t.reader.mode with
    | literal =>
      simp only [absorb, hm, hsub, append_assoc]
      exact ⟨trivial, rfl⟩
    | append =>
      simp only [absorb, hm, hsub, map_cons, map_nil, flatMap_append, flatMap_singleton,
        Item.octets, map_append]
      exact ⟨trivial, trivial⟩
    | _ => simp only [absorb, hm, hsub]; exact ⟨trivial, rfl⟩
  · exact (absorb_fields a t.reader).2.2.2.trans hq

/-- While a literal lasts, what is left of the buffer goes into it. -/
theorem feed_reads (h : Short o t) (hq : t.reader.awaitingSync = false)
    (hm : t.reader.mode.reads = true)
    (hpos : 0 < t.reader.remaining) (hbuf : buf ≠ []) : feed o refuse buf t =
      (absorbs refuse (buf.take t.reader.remaining) >> feed o refuse (buf.drop t.reader.remaining))
      t := by
  obtain ⟨b, rest, rfl⟩ := exists_cons_of_ne_nil hbuf
  have hr : Live o t := by
    refine ⟨h, ⟨if_neg (by omega), hq⟩, fun hd => ?_⟩
    rw [hd] at hm
    cases hm
  rw [feed_turn hr b rest, turn_reads _ hm]
  rfl

theorem Mode.after_ne {m : Mode} (h : m.reads = true) : m.after ≠ m := by
  cases m with
  | literal => decide
  | append => decide
  | skip => decide
  | _ => cases h

theorem peel_reads (h : Short o t) (hc : Calm t) (hm : t.reader.mode.reads = true) (b : UInt8)
    (rest : Bytes) :
    Agrees (feed o refuse (b :: rest)) (feed o refuse [b] >> feed o refuse rest) t := by
  have hpos : 0 < t.reader.remaining := by
    rw [Nat.pos_iff_ne_zero]
    intro hr
    have hset := congrArg CommandReader.mode hc.settled
    rw [settle, if_pos hr] at hset
    exact Mode.after_ne hm hset
  obtain ⟨r, hr⟩ : ∃ r, t.reader.remaining = r + 1 := ⟨t.reader.remaining - 1, by omega⟩
  have hwhole : feed o refuse (b :: rest) t
      = (absorbs refuse ([b] ++ rest.take r) >> feed o refuse (rest.drop r)) t := by
    rw [feed_reads h hc.quiet hm hpos (cons_ne_nil b rest), hr]
    rfl
  have htwo : (feed o refuse [b] >> feed o refuse rest) t
      = (absorbs refuse [b] >> feed o refuse rest) t := by
    rw [andThen_apply, feed_reads h hc.quiet hm hpos (cons_ne_nil b []), hr, take_succ_cons,
      take_nil,
      drop_succ_cons, drop_nil, ← andThen_apply, andThen_assoc, feed_nil_andThen]
  by_cases hlast : rest = [] ∨ r = 0
  · -- the octet is the last of the buffer or of the literal
    have hsame : rest.take r = [] ∧ rest.drop r = rest := by
      rcases hlast with hnil | hzero
      · rw [hnil]
        simp
      · rw [hzero]
        simp
    refine AgreeUpTo.of_eq ?_
    rw [hwhole, htwo, hsame.1, hsame.2, append_nil]
  · rw [not_or] at hlast
    obtain ⟨hline, hmode, hrem, hquiet⟩ := absorb_fields [b] t.reader
    have hone : (absorbs refuse [b] t).1 = { t with reader := (absorb [b] t.reader).1 } := by
      rw [absorbs, take_quiet (hquiet.trans hc.quiet)]
    have hrem₁ : (absorb [b] t.reader).1.remaining = r := by
      rw [hrem, hr]
      rfl
    have hrest : feed o refuse rest (absorbs refuse [b] t).1
        = (absorbs refuse (rest.take r) >> feed o refuse (rest.drop r))
          (absorbs refuse [b] t).1 := by
      have hshort : Short o { t with reader := (absorb [b] t.reader).1 } := by
        unfold Short
        rw [hline]
        exact h
      have hpos₁ : 0 < (absorb [b] t.reader).1.remaining := by omega
      rw [hone, feed_reads hshort (hquiet.trans hc.quiet) (hmode.symm ▸ hm) hpos₁ hlast.1, hrem₁]
    have hsplit : (absorbs refuse [b] >> feed o refuse rest) t
        = ((absorbs refuse [b] >> absorbs refuse (rest.take r)) >> feed o refuse (rest.drop r))
          t := by
      rw [andThen_assoc, andThen_apply, hrest, ← andThen_apply]
    exact (AgreeUpTo.of_eq hwhole).trans
      (((absorbs_append hc.quiet [b] (rest.take r)).before (respects_feed _)).trans
      (AgreeUpTo.of_eq (htwo.trans hsplit).symm))

theorem stepLine_over (hover : o.maxLineLength + 1 < s.line.length + (cutLf buf).1.length) :
    stepLine o buf s = (overflow o (cutLf buf).1 s, buf.drop (cutLf buf).1.length) := by
  exact if_pos hover

theorem stepLine_fits (hfits : ¬ o.maxLineLength + 1 < s.line.length + (cutLf buf).1.length) :
    stepLine o buf s =
      match (cutLf buf).2 with
      | none => (({ s with line := s.line ++ (cutLf buf).1 }, []), [])
      | some rest => (completeLine o (s.line ++ (cutLf buf).1) { s with line := [] }, rest) := by
  exact if_neg hfits

/-- A reader that discards a line whose read part ends so. -/
def discarding (s : CommandReader) (tail : Bytes) (tag : Option Bytes) : CommandReader :=
  { resetCommand s with rawLine := false, tail := tail, line := [], tag := tag, mode := .discard }

def tooLong (o : CommandReaderOptions) (tag : Option Bytes) : ReaderEvent :=
  .error {
    code := .lineTooLong, tag := tag, fatal := false
    message := s!"line longer than {o.maxLineLength} octets" }

/-- An overflow, up to its tag. -/
theorem overflow_eq (piece : Bytes) (s : CommandReader) :
    ∃ tag, overflow o piece s = ((discarding s (takeLast TAIL (s.line ++ piece)) tag),
      [tooLong o tag]) := ⟨_, rfl⟩

/-- The session starts to discard. -/
def overflowed (o : CommandReaderOptions) (s : CommandReader) (tail : Bytes) (tag : Option Bytes) :
    Emits Session Item :=
  fun t => ({ t with reader := discarding s tail tag }, [.event (tooLong o tag)])

theorem feed_overflow (h : Short o t) (hm : t.reader.mode = .line)
    (hq : t.reader.awaitingSync = false)
    (hbuf : buf ≠ []) (hover : o.maxLineLength + 1 < t.reader.line.length + (cutLf buf).1.length) :
    ∃ tag, feed o refuse buf t = (overflowed o t.reader
      (takeLast TAIL (t.reader.line ++ (cutLf buf).1)) tag
        >> feed o refuse (buf.drop (cutLf buf).1.length)) t := by
  obtain ⟨b, rest, rfl⟩ := exists_cons_of_ne_nil hbuf
  obtain ⟨tag, htag⟩ := overflow_eq (o := o) (cutLf (b :: rest)).1 t.reader
  refine ⟨tag, ?_⟩
  rw [feed_turn (Live.of_mode h (.inl hm) hq) b rest, turn_line _ hm, stepLine_over hover, htag,
    andThen_apply,
    take_quiet hq]
  rfl

/-- Which tag the error carries cannot be seen. -/
theorem overflowed_agrees (s : CommandReader) (tail : Bytes) (tag tag' : Option Bytes)
    (buf : Bytes) :
    Agrees (overflowed o s tail tag >> feed o refuse buf)
      (overflowed o s tail tag' >> feed o refuse buf) t := by
  have hview : Session.view (overflowed o s tail tag t).1
      = Session.view (overflowed o s tail tag' t).1 :=
    view_retagged (.inr ⟨.inl rfl, tag', rfl⟩)
  have hfirst : Agrees (overflowed o s tail tag) (overflowed o s tail tag') t := ⟨hview, rfl⟩
  exact hfirst.before (respects_feed buf)

theorem peel_line (h : Short o t) (hm : t.reader.mode = .line) (hq : t.reader.awaitingSync = false)
    (b : UInt8)
    (rest : Bytes) : Agrees (feed o refuse (b :: rest))
    (feed o refuse [b] >> feed o refuse rest) t := by
  have hr : Live o t := Live.of_mode h (.inl hm) hq
  have hshort : t.reader.line.length ≤ o.maxLineLength + 1 := h
  by_cases hb : b = LF
  · subst hb
    have hfits : ∀ tl, ¬ o.maxLineLength + 1 < t.reader.line.length
        + (cutLf (LF :: tl)).1.length := by
      intro tl
      rw [cutLf_lf]
      exact Nat.not_lt.mpr hshort
    refine AgreeUpTo.of_eq (peel_same hr LF rest ?_ ?_ ?_)
    · rw [turn_line _ hm, turn_line _ hm, stepLine_fits (hfits rest), stepLine_fits (hfits []),
        cutLf_lf, cutLf_lf]
    · rw [turn_line _ hm, stepLine_fits (hfits rest), cutLf_lf]
    · rw [turn_line _ hm, stepLine_fits (hfits []), cutLf_lf]
  · have hcutb : ∀ tl, (cutLf (b :: tl)).1.length = (cutLf tl).1.length + 1 := by
      intro tl
      rw [cutLf_cons hb]
      rfl
    let t1 : Session := { t with reader := { t.reader with line := t.reader.line ++ [b] } }
    have hm1 : t1.reader.mode = .line := hm
    have hlen1 : t1.reader.line.length = t.reader.line.length
        + 1 := by rw [length_append, length_singleton]
    have happ : t.reader.line ++ b :: (cutLf rest).1 = t1.reader.line ++ (cutLf rest).1 := by
      rw [append_assoc]
      rfl
    -- an octet that still fits
    have hone : ¬ o.maxLineLength + 1 < t.reader.line.length + 1 →
        (feed o refuse [b] >> feed o refuse rest) t = feed o refuse rest t1 := by
      intro hfits
      have hturn : turn o [b] t.reader = ((t1.reader, []), []) := by
        rw [turn_line _ hm, stepLine_fits (by rw [hcutb]; exact hfits), cutLf_cons hb]
        rfl
      rw [andThen_apply, feed_move hr hturn hq, ← andThen_apply, feed_nil_andThen]
    by_cases hover : o.maxLineLength + 1 < t.reader.line.length + ((cutLf rest).1.length + 1)
    · have hleft : ∃ tag, feed o refuse (b :: rest) t = _ :=
        feed_overflow h hm hq (cons_ne_nil b rest) (by rw [hcutb]; exact hover)
      obtain ⟨tag, htag⟩ := hleft
      rw [cutLf_cons hb, length_cons, drop_succ_cons, happ] at htag
      -- the overflow comes with this octet, or with what follows it
      have hright : ∃ tag', (feed o refuse [b] >> feed o refuse rest) t =
          (overflowed o t.reader (takeLast TAIL (t1.reader.line ++ (cutLf rest).1)) tag'
            >> feed o refuse (rest.drop (cutLf rest).1.length)) t := by
        by_cases hfits : o.maxLineLength + 1 < t.reader.line.length + 1
        · have hfirst : ∃ tag', feed o refuse [b] t = _ :=
            feed_overflow h hm hq (cons_ne_nil b []) (by rw [hcutb]; exact hfits)
          obtain ⟨tag', htag'⟩ := hfirst
          rw [cutLf_cons hb, length_cons, drop_succ_cons, cutLf, drop_nil] at htag'
          refine ⟨tag', ?_⟩
          rw [andThen_apply, htag', ← andThen_apply, andThen_assoc, feed_nil_andThen]
          by_cases hnil : rest = []
          · rw [hnil, cutLf, append_nil]
            rfl
          · let t₂ : Session :=
              (overflowed o t.reader (takeLast TAIL (t.reader.line ++ [b])) tag' t).1
            have hshort₂ : Short o t₂ := Nat.zero_le _
            have hrest : feed o refuse rest t₂ = _ := feed_discard hshort₂ rfl hq hnil
            have hlast : takeLast TAIL (t₂.reader.tail ++ (cutLf rest).1)
                = takeLast TAIL (t1.reader.line ++ (cutLf rest).1) := takeLast_append _ _ _
            rw [hlast] at hrest
            rw [andThen_apply, hrest, andThen_apply]
            rfl
        · have hshort₁ : Short o t1 := by
            unfold Short
            omega
          have hnil : rest ≠ [] := by
            rintro rfl
            exact hfits hover
          have hfirst : ∃ tag', feed o refuse rest t1 = _ :=
            feed_overflow hshort₁ hm1 hq hnil (by omega)
          obtain ⟨tag', htag'⟩ := hfirst
          refine ⟨tag', ?_⟩
          rw [hone hfits, htag']
          rfl
      obtain ⟨tag', htag'⟩ := hright
      exact (AgreeUpTo.of_eq htag).trans
        ((overflowed_agrees t.reader _ tag tag' _).trans (AgreeUpTo.of_eq htag'.symm))
    · have hfits : ¬ o.maxLineLength + 1 < t.reader.line.length + (cutLf (b :: rest)).1.length := by
        rw [hcutb]
        exact hover
      refine AgreeUpTo.of_eq ?_
      rw [hone (by omega)]
      cases rest with
      | nil =>
        have hturn : turn o [b] t.reader = ((t1.reader, []), []) := by
          rw [turn_line _ hm, stepLine_fits hfits, cutLf_cons hb]
          rfl
        exact feed_move hr hturn hq
      | cons x rest =>
        have hshort₁ : Short o t1 := by
          unfold Short
          omega
        have hfits₁ : ¬ o.maxLineLength + 1 < t1.reader.line.length
            + (cutLf (x :: rest)).1.length := by omega
        have hfeed₁ : feed o refuse (x :: rest) t1 = _ :=
          feed_turn (Live.of_mode hshort₁ (.inl hm) hq) x rest
        rw [feed_turn hr b (x :: rest), hfeed₁, turn_line _ hm, turn_line _ hm1,
          stepLine_fits hfits,
          stepLine_fits hfits₁, cutLf_cons hb]
        dsimp only
        rw [happ]
        cases (cutLf (x :: rest)).2 with
        | none => rfl
        | some tl => rfl

/-- **One octet earlier.** -/
theorem peel (h : Short o t) (b : UInt8) (rest : Bytes) :
    Agrees (feed o refuse (b :: rest)) (feed o refuse [b] >> feed o refuse rest) t := by
  have hcalm : Agrees (feed o refuse (b :: rest)) (feed o refuse [b] >> feed o refuse rest)
      (calm t) := by
    have hc := calm_isCalm t
    have hs := short_calm h
    cases hm : (calm t).reader.mode with
    | line => exact peel_line hs hm hc.quiet b rest
    | literal | append | skip => exact peel_reads hs hc (by rw [hm]; rfl) b rest
    | discard => exact AgreeUpTo.of_eq (peel_discard hs hm hc.quiet b rest)
    | dead =>
      refine AgreeUpTo.of_eq ?_
      have hdead : (calm (calm t)).reader.mode = .dead := by rw [calm_calm, hm]
      rw [feed_dead hdead, andThen_apply, feed_dead hdead, calm_calm, feed_dead hdead, calm_calm]
      rfl
  have hpair : (feed o refuse [b] >> feed o refuse rest) (calm t)
      = (feed o refuse [b] >> feed o refuse rest) t := by
    rw [andThen_apply, feed_calm, ← andThen_apply]
  unfold Agrees AgreeUpTo at hcalm ⊢
  rwa [feed_calm, hpair] at hcalm

/-- **Any cut.** -/
theorem agrees_cut (a c : Bytes) (h : Short o t) :
    Agrees (feed o refuse (a ++ c)) (feed o refuse a >> feed o refuse c) t :=
  agreeUpTo_append_of_peel feed_nil_andThen (fun b => short_feed [b]) respects_feed
    (fun b rest _ hs => peel hs b rest) a c t h

theorem calm_drive (n : ℕ) (buf : Bytes) (t : Session) : Calm (drive o refuse n buf t).1 := by
  induction n generalizing buf t with
  | zero => exact calm_isCalm t
  | succ n ih =>
    rw [drive_succ]
    split_ifs
    · exact calm_isCalm t
    · exact ih _ _

theorem calm_readAll (chunks : List Bytes) (h : Calm t) :
    Calm (readAll (feed o refuse) chunks t).1 :=
  Keeps.readAll _ (fun buf t _ => calm_drive buf.length buf t) chunks t h

/-- **Any cuts.** However a conversation is cut into chunks, it looks the same. -/
theorem agrees_chunks (h : Short o t) (hc : Calm t) (chunks : List Bytes) :
    Agrees (readAll (feed o refuse) chunks) (feed o refuse chunks.flatten) t := by
  have hend : (readAll (feed o refuse) chunks >> feed o refuse []) t
      = readAll (feed o refuse) chunks t := by
    have hlast : feed o refuse [] (readAll (feed o refuse) chunks t).1
        = ((readAll (feed o refuse) chunks t).1, []) := by
      rw [feed_nil, (calm_readAll chunks hc).calm]
    rw [andThen_apply, hlast, append_nil]
  exact (AgreeUpTo.of_eq hend.symm).trans
    (agreeUpTo_readAll short_feed (fun a c _ hs => agrees_cut a c hs) chunks t h)

end

end

end Postroom.ImapProto
