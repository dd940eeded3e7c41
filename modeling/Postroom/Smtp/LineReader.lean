/-
`packages/smtp-proto/src/line-reader.ts`: the strict SMTP line reader.

The reader is fed buffers at arbitrary boundaries (`push`) and asked for events
(`next`). In command mode it frames lines at CRLF only; in DATA mode it emits
the dot-unstuffed body as slices of the pushed buffers and ends only at
`<CRLF>.<CRLF>`.

The embedding keeps the program's shape: the queue of buffers with an offset
into the first one, the queue of events, the run-based emission of `scanData`
with its `runStart`, the held-back CR of the `DotCR` state. Two representation
choices: the preallocated `lineBuf` with its `lineLen` is the list of its first
`lineLen` octets, and `maxSize` is `none` where the program has `Infinity`.
-/
import Mathlib.Algebra.GroupWithZero.Nat
import Mathlib.Data.List.Basic

set_option autoImplicit false

namespace Postroom.Smtp

open List

/-! ## Octets -/

def CR : UInt8 := 13
def LF : UInt8 := 10
def DOT : UInt8 := 46
def NUL : UInt8 := 0

/-- `Buffer.subarray(from, to)`. -/
def subarray (buf : List UInt8) (start stop : ℕ) : List UInt8 :=
  (buf.drop start).take (stop - start)

/-! ## Events and state -/

inductive LineError where
  | bareLf
  | bareCr
  | lineTooLong
  deriving DecidableEq, Repr

inductive DataRejection where
  | bareLf
  | bareCr
  | nul
  | tooLarge
  deriving DecidableEq, Repr

inductive LineReaderEvent where
  /-- A complete command line, without its CRLF. -/
  | line (line : List UInt8)
  /-- A malformed command line; the rest of it is discarded silently. -/
  | lineError (error : LineError)
  /-- Dot-unstuffed message bytes. -/
  | data (chunk : List UInt8)
  /-- The message has just become unacceptable. -/
  | dataRejected (reason : DataRejection)
  /-- `<CRLF>.<CRLF>` seen; `size` counts unstuffed octets. -/
  | dataEnd (size : ℕ) (rejection : Option DataRejection)
  deriving DecidableEq, Repr

def DEFAULT_MAX_LINE_LENGTH : ℕ := 2048

inductive DataState where
  /-- Just after CRLF (or at the start of DATA). -/
  | lineStart
  /-- Inside a line. -/
  | mid
  /-- Saw CR; waiting for LF. -/
  | cr
  /-- Saw "." at a line start (dropped: stuffing or terminator). -/
  | dot
  /-- Saw "." then CR at a line start; LF next ends DATA. -/
  | dotCR
  deriving DecidableEq, Repr

inductive ReaderMode where
  | command
  | data
  deriving DecidableEq, Repr

structure SmtpLineReader where
  maxLineLength : ℕ := DEFAULT_MAX_LINE_LENGTH
  queue : List (List UInt8) := []
  offset : ℕ := 0
  events : List LineReaderEvent := []
  mode : ReaderMode := .command
  lineBuf : List UInt8 := []
  cmdCR : Bool := false
  discarding : Bool := false
  ds : DataState := .lineStart
  size : ℕ := 0
  maxSize : Option ℕ := none
  rejection : Option DataRejection := none
  rejectionReported : Bool := false
  maxBufferedBytes : ℕ := 0
  deriving DecidableEq, Repr

namespace SmtpLineReader

/-- Octets held: unconsumed input plus the partial command line. -/
def bufferedBytes (r : SmtpLineReader) : ℕ :=
  r.lineBuf.length + (r.queue.map List.length).sum - r.offset

def push (r : SmtpLineReader) (chunk : List UInt8) : SmtpLineReader :=
  if chunk.length = 0 then r
  else
    let r' := { r with queue := r.queue ++ [chunk] }
    { r' with maxBufferedBytes := max r.maxBufferedBytes r'.bufferedBytes }

/-- Switch to DATA mode after the 354 reply; only valid between lines. -/
def startData (r : SmtpLineReader) (maxSize : Option ℕ) : Except String SmtpLineReader :=
  if r.mode ≠ .command ∨ r.lineBuf.length ≠ 0 ∨ r.cmdCR ∨ r.discarding then
    .error "startData() is only valid at a command line boundary"
  else
    .ok { r with mode := .data, ds := .lineStart, size := 0, maxSize := maxSize,
                 rejection := none, rejectionReported := false }

/-- Throw away everything buffered and not yet consumed; also the octet count. -/
def discardPending (r : SmtpLineReader) : SmtpLineReader × ℕ :=
  ({ r with queue := [], offset := 0, events := [], lineBuf := [], cmdCR := false,
            discarding := false, mode := .command },
   r.lineBuf.length + (r.queue.map List.length).sum - r.offset)

/-! ## Command mode -/

def lineError (r : SmtpLineReader) (error : LineError) : SmtpLineReader × LineReaderEvent :=
  ({ r with discarding := true, lineBuf := [] }, .lineError error)

/-- One octet of `scanCommand`'s loop, after `offset` has moved past it. -/
def scanCommandByte (r : SmtpLineReader) (b : UInt8) : SmtpLineReader × Option LineReaderEvent :=
  if r.cmdCR then
    if b = LF then
      if r.discarding then
        ({ r with cmdCR := false, discarding := false, lineBuf := [] }, none)
      else
        ({ r with cmdCR := false, lineBuf := [] }, some (.line r.lineBuf))
    else
      -- The previous CR was bare. This byte may itself be a CR that starts a real CRLF.
      let r := { r with cmdCR := decide (b = CR) }
      if !r.discarding then
        let (r, e) := r.lineError .bareCr
        (r, some e)
      else (r, none)
  else if b = CR then ({ r with cmdCR := true }, none)
  else if b = LF then
    if !r.discarding then
      let (r, e) := r.lineError .bareLf
      (r, some e)
    else (r, none)
  else if r.discarding then (r, none)
  else if r.lineBuf.length ≥ r.maxLineLength then
    let (r, e) := r.lineError .lineTooLong
    (r, some e)
  else ({ r with lineBuf := r.lineBuf ++ [b] }, none)

/-- `scanCommand` over the octets of the buffer from `offset` on. -/
def scanCommand : SmtpLineReader → List UInt8 → SmtpLineReader × Option LineReaderEvent
  | r, [] => (r, none)
  | r, b :: rest =>
    match scanCommandByte { r with offset := r.offset + 1 } b with
    | (r', some e) => (r', some e)
    | (r', none) => scanCommand r' rest

/-! ## DATA mode -/

/-- `this.rejection ??= reason`. -/
def reject (r : SmtpLineReader) (reason : DataRejection) : SmtpLineReader :=
  { r with rejection := r.rejection <|> some reason }

/-- Whether `size` octets are within the limit. -/
def fits (maxSize : Option ℕ) (size : ℕ) : Prop := ∀ m, maxSize = some m → size ≤ m

instance (maxSize : Option ℕ) (size : ℕ) : Decidable (fits maxSize size) :=
  match maxSize with
  | none => .isTrue nofun
  | some m => decidable_of_iff (size ≤ m)
      ⟨fun h _ hm => by injection hm with hm; exact hm ▸ h, fun h => h m rfl⟩

def emit (r : SmtpLineReader) (segment : List UInt8) : SmtpLineReader :=
  if segment.length = 0 then r
  else
    let r := { r with size := r.size + segment.length }
    let r := if fits r.maxSize r.size then r else r.reject .tooLarge
    if r.rejection ≠ none then r
    else { r with events := r.events ++ [.data segment] }

/-- The position of `scanData` inside a buffer: where the pending run starts,
and whether the terminator was seen. -/
structure DataPos where
  runStart : ℕ
  ended : Bool

/-- A body octet in the states where nothing is held back: CR waits for its LF, a
bare LF or a NUL spoils the message. -/
def bodyByte (r : SmtpLineReader) (b : UInt8) : SmtpLineReader :=
  if b = CR then { r with ds := .cr }
  else
    let r := if b = LF then r.reject .bareLf else if b = NUL then r.reject .nul else r
    { r with ds := .mid }

/-- One turn of `scanData`'s loop: octet `b` at index `i` of `buf`. -/
def scanDataByte (buf : List UInt8) (i : ℕ) (b : UInt8) (r : SmtpLineReader) (runStart : ℕ) :
    SmtpLineReader × DataPos :=
  if r.ds = .lineStart ∧ b = DOT then
    -- Drop the leading dot: it is either stuffing or the start of the terminator.
    ({ r.emit (subarray buf runStart i) with ds := .dot }, ⟨i + 1, false⟩)
  else
    match r.ds with
    | .lineStart => (r.bodyByte b, ⟨runStart, false⟩)
    | .mid => (r.bodyByte b, ⟨runStart, false⟩)
    | .cr =>
      if b = LF then ({ r with ds := .lineStart }, ⟨runStart, false⟩)
      else if b = CR then (r.reject .bareCr, ⟨runStart, false⟩)
      else
        let r := r.reject .bareCr
        let r := if b = NUL then r.reject .nul else r
        ({ r with ds := .mid }, ⟨runStart, false⟩)
    | .dot =>
      if b = CR then
        -- Hold the CR back: if LF follows, this is the terminator and the CR is not body.
        ({ r.emit (subarray buf runStart i) with ds := .dotCR }, ⟨i + 1, false⟩)
      else (r.bodyByte b, ⟨runStart, false⟩)
    | .dotCR =>
      if b = LF then (r, ⟨runStart, true⟩)
      else
        -- ".<CR>" not followed by LF: the held CR is bare body data.
        let r := (r.reject .bareCr).emit [CR]
        if b = CR then ({ r with ds := .cr }, ⟨runStart, false⟩)
        else
          let r := if b = NUL then r.reject .nul else r
          ({ r with ds := .mid }, ⟨runStart, false⟩)

/-- The loop: reads octets from index `i` on; returns the index after the last
octet read. -/
def scanDataLoop (buf : List UInt8) :
    List UInt8 → ℕ → SmtpLineReader → ℕ → SmtpLineReader × ℕ × DataPos
  | [], i, r, runStart => (r, i, ⟨runStart, false⟩)
  | b :: rest, i, r, runStart =>
    match scanDataByte buf i b r runStart with
    | (r', ⟨runStart', true⟩) => (r', i + 1, ⟨runStart', true⟩)
    | (r', ⟨runStart', false⟩) => scanDataLoop buf rest (i + 1) r' runStart'

/-- Report a rejection once. -/
def reportRejection (r : SmtpLineReader) : SmtpLineReader :=
  match r.rejection with
  | some reason =>
    if r.rejectionReported then r
    else { r with rejectionReported := true, events := r.events ++ [.dataRejected reason] }
  | none => r

/-- Consume the rest of `buf` (or up to the terminator), queueing events. -/
def scanData (r : SmtpLineReader) (buf : List UInt8) : SmtpLineReader :=
  let (r', i, pos) := scanDataLoop buf (buf.drop r.offset) r.offset r r.offset
  let r' := if pos.ended then r' else r'.emit (subarray buf pos.runStart i)
  let r' := { r' with offset := i }
  let r' := r'.reportRejection
  if pos.ended then
    { r' with events := r'.events ++ [.dataEnd r'.size r'.rejection], mode := .command,
              maxSize := none }
  else r'

/-! ## `next`

One turn of the program's `for (;;)` either returns, drops an exhausted buffer
or scans the first one to its end; so two turns per queued buffer and a last one
always suffice, and the fuel below is never the reason for an answer
(`nextLoop_induct` has no case for it). -/

def nextLoop : ℕ → SmtpLineReader → Option LineReaderEvent × SmtpLineReader
  | 0, r => (none, r)
  | fuel + 1, r =>
    match r.events with
    | e :: es => (some e, { r with events := es })
    | [] =>
      match r.queue with
      | [] => (none, r)
      | head :: tail =>
        if r.offset ≥ head.length then nextLoop fuel { r with queue := tail, offset := 0 }
        else
          match r.mode with
          | .command =>
            match r.scanCommand (head.drop r.offset) with
            | (r', some e) => (some e, r')
            | (r', none) => nextLoop fuel r'
          | .data => nextLoop fuel (r.scanData head)

/-- The next event, or `none` when more input is needed. -/
def next (r : SmtpLineReader) : Option LineReaderEvent × SmtpLineReader :=
  nextLoop (2 * r.queue.length + 1) r

/-- The octets pushed and not yet consumed. -/
def pending (r : SmtpLineReader) : List UInt8 := r.queue.flatten.drop r.offset

/-! ## What one call of `next` can do

The rule `next_induct` is the only place where the fuel is counted; everything
about `next` elsewhere is an instance of it. -/

section

variable (r : SmtpLineReader)

@[simp] theorem emit_queue (seg : List UInt8) : (r.emit seg).queue = r.queue := by
  unfold emit reject
  dsimp only
  split_ifs <;> rfl

@[simp] theorem reject_queue (x : DataRejection) :
    (r.reject x).queue = r.queue := rfl

@[simp] theorem bodyByte_queue (b : UInt8) : (r.bodyByte b).queue = r.queue := by
  unfold bodyByte reject
  split_ifs <;> rfl

/-- `reportRejection` does nothing, or queues the rejection it found. -/
theorem reportRejection_cases : r.reportRejection = r ∨ ∃ x, r.rejection = some x
    ∧ r.reportRejection
            = { r with rejectionReported := true, events := r.events ++ [.dataRejected x] } := by
  unfold reportRejection
  cases hr : r.rejection with
  | none => exact .inl rfl
  | some x =>
    dsimp only
    by_cases hrep : r.rejectionReported
    · exact .inl (by rw [if_pos hrep])
    · exact .inr ⟨x, rfl, by rw [if_neg hrep]⟩

@[simp] theorem reportRejection_queue : r.reportRejection.queue = r.queue := by
  obtain h | ⟨x, -, h⟩ := r.reportRejection_cases <;> rw [h]

@[simp] theorem reportRejection_offset : r.reportRejection.offset = r.offset := by
  obtain h | ⟨x, -, h⟩ := r.reportRejection_cases <;> rw [h]

@[simp] theorem reportRejection_ds : r.reportRejection.ds = r.ds := by
  obtain h | ⟨x, -, h⟩ := r.reportRejection_cases <;> rw [h]

end

theorem scanDataByte_queue (buf : List UInt8) (i : ℕ) (b : UInt8) (r : SmtpLineReader)
    (runStart : ℕ) : (scanDataByte buf i b r runStart).1.queue = r.queue := by
  unfold scanDataByte
  cases r.ds <;> dsimp only <;> split_ifs <;> simp

/-- The loop leaves the queue alone, stays inside the buffer and stops early only
at the terminator. -/
theorem scanDataLoop_frame (buf rest : List UInt8) (i : ℕ) (r : SmtpLineReader) (runStart : ℕ) :
    (scanDataLoop buf rest i r runStart).1.queue = r.queue
      ∧ (scanDataLoop buf rest i r runStart).2.1 ≤ i + rest.length
      ∧ ((scanDataLoop buf rest i r runStart).2.2.ended = false →
          (scanDataLoop buf rest i r runStart).2.1 = i + rest.length) := by
  induction rest generalizing i r runStart with
  | nil => simp [scanDataLoop]
  | cons b rest ih =>
    have hq := scanDataByte_queue buf i b r runStart
    unfold scanDataLoop
    split
    · next heq =>
        rw [heq] at hq
        refine ⟨hq, ?_, by simp⟩
        rw [length_cons]
        dsimp only
        omega
    · next r' runStart' heq =>
        rw [heq] at hq
        obtain ⟨h1, h2, h3⟩ := ih (i + 1) r' runStart'
        refine ⟨h1.trans hq, ?_, fun he => ?_⟩
        · rw [length_cons]
          omega
        · rw [h3 he, length_cons]
          omega

theorem scanData_queue (r : SmtpLineReader) (buf : List UInt8) :
    (r.scanData buf).queue = r.queue := by
  have h := (scanDataLoop_frame buf (buf.drop r.offset) r.offset r r.offset).1
  unfold scanData
  dsimp only
  split_ifs <;> simp [h]

/-- `scanData` moves the offset to where its loop stopped. -/
theorem scanData_offset (r : SmtpLineReader) (buf : List UInt8) : (r.scanData buf).offset
      = (scanDataLoop buf (buf.drop r.offset) r.offset r r.offset).2.1 := by
  unfold scanData
  dsimp only
  split_ifs <;> simp

variable {r : SmtpLineReader} {head : List UInt8} {tail : List (List UInt8)}

theorem scanData_offset_le {buf : List UInt8} (h : r.offset ≤ buf.length) :
    (r.scanData buf).offset ≤ buf.length := by
  have hle := (scanDataLoop_frame buf (buf.drop r.offset) r.offset r r.offset).2.1
  rw [← scanData_offset, length_drop] at hle
  omega

/-- A buffer that is not used up leaves an event behind. -/
theorem scanData_progress (r : SmtpLineReader) (buf : List UInt8) :
    buf.length ≤ (r.scanData buf).offset ∨ (r.scanData buf).events ≠ [] := by
  by_cases he : (scanDataLoop buf (buf.drop r.offset) r.offset r r.offset).2.2.ended
  · right
    unfold scanData
    simp [he]
  · left
    have hi := (scanDataLoop_frame buf (buf.drop r.offset) r.offset r r.offset).2.2
      (by simpa using he)
    rw [← scanData_offset, length_drop] at hi
    omega

theorem scanCommandByte_frame (r : SmtpLineReader) (b : UInt8) :
    (r.scanCommandByte b).1.queue = r.queue ∧ (r.scanCommandByte b).1.offset = r.offset
      ∧ (r.scanCommandByte b).1.events = r.events := by
  unfold scanCommandByte lineError
  dsimp only
  split_ifs <;> exact ⟨rfl, rfl, rfl⟩

/-- `scanCommand` leaves queue and events alone, moves the offset inside what it
was given, and uses all of it up when it has no event. -/
theorem scanCommand_frame (r : SmtpLineReader) (rest : List UInt8) :
    (r.scanCommand rest).1.queue = r.queue ∧ (r.scanCommand rest).1.events = r.events
      ∧ (r.scanCommand rest).1.offset ≤ r.offset + rest.length
      ∧ ((r.scanCommand rest).2 = none → (r.scanCommand rest).1.offset = r.offset
        + rest.length) := by
  induction rest generalizing r with
  | nil => simp [scanCommand]
  | cons b rest ih =>
    obtain ⟨hq, ho, he⟩ := scanCommandByte_frame { r with offset := r.offset + 1 } b
    unfold scanCommand
    split
    · next r' e heq =>
        rw [heq] at hq ho he
        refine ⟨hq, he, ?_, by simp⟩
        rw [length_cons]
        dsimp only at ho ⊢
        omega
    · next r' heq =>
        rw [heq] at hq ho he
        obtain ⟨hq', he', ho', hn'⟩ := ih r'
        dsimp only at hq ho he
        refine ⟨hq'.trans hq, he'.trans he, ?_, fun hn => ?_⟩
        · rw [length_cons]
          omega
        · rw [hn' hn, ho, length_cons]
          omega

/-- The turns of the loop that remain: two for each buffer, one fewer when the
first is used up, and the last one. -/
def turns (r : SmtpLineReader) : ℕ :=
  match r.queue with
  | [] => 1
  | head :: tail => 2 * tail.length + if r.offset ≥ head.length then 2 else 3

theorem one_le_turns (r : SmtpLineReader) : 1 ≤ r.turns := by
  unfold turns
  split
  · omega
  · split_ifs <;> omega

theorem turns_le (r : SmtpLineReader) : r.turns ≤ 2 * r.queue.length + 1 := by
  unfold turns
  split
  · omega
  · next heq =>
      rw [heq, length_cons]
      split_ifs <;> omega

section NextInduct

-- `P` holds at every turn, `Q` of what the loop returns.
variable {P : SmtpLineReader → Prop} {Q : Option LineReaderEvent → SmtpLineReader → Prop}
    (hevent : ∀ r e es, P r → r.events = e :: es → Q (some e) { r with events := es })
    (hempty : ∀ r, P r → r.events = [] → r.queue = [] → Q none r)
    (hdrop : ∀ r head tail, P r → r.events = [] → r.queue = head :: tail →
      r.offset ≥ head.length → P { r with queue := tail, offset := 0 })
    (hline : ∀ r head tail r' e, P r → r.events = [] → r.queue = head :: tail →
      r.offset < head.length → r.mode = .command →
      r.scanCommand (head.drop r.offset) = (r', some e) → Q (some e) r')
    (hcommand : ∀ r head tail r', P r → r.events = [] → r.queue = head :: tail →
      r.offset < head.length → r.mode = .command →
      r.scanCommand (head.drop r.offset) = (r', none) → P r')
    (hdata : ∀ r head tail, P r → r.events = [] → r.queue = head :: tail →
      r.offset < head.length → r.mode = .data → P (r.scanData head))

include hevent hempty hdrop hline hcommand hdata

/-- The loop with enough fuel; running out of it is not among the cases. -/
theorem nextLoop_induct (fuel : ℕ) (r : SmtpLineReader) (hP : P r)
    (hfuel : (if r.events = [] then r.turns else 1) ≤ fuel) :
    Q (nextLoop fuel r).1 (nextLoop fuel r).2 := by
  induction fuel generalizing r with
  | zero =>
    have := r.one_le_turns
    split_ifs at hfuel <;> omega
  | succ fuel ih =>
    unfold nextLoop
    cases hev : r.events with
    | cons e es => exact hevent r e es hP hev
    | nil =>
      rw [if_pos hev] at hfuel
      cases hq : r.queue with
      | nil => exact hempty r hP hev hq
      | cons head tail =>
        by_cases hoff : r.offset ≥ head.length
        · simp only [hoff, if_true]
          have hP' := hdrop r head tail hP hev hq hoff
          rw [hev] at hP'
          refine ih _ hP' ?_
          rw [if_pos rfl]
          have hle := turns_le { r with queue := tail, offset := 0, events := [] }
          simp only [turns, hq, hoff, if_true] at hfuel
          dsimp only at hle
          omega
        · simp only [hoff, if_false]
          have hlt : r.offset < head.length := Nat.lt_of_not_le hoff
          simp only [turns, hq, hoff, if_false] at hfuel
          cases hm : r.mode with
          | command =>
            obtain ⟨hq', he', -, hn'⟩ := scanCommand_frame r (head.drop r.offset)
            cases hs : r.scanCommand (head.drop r.offset) with
            | mk r' o =>
              cases o with
              | some e => exact hline r head tail r' e hP hev hq hlt hm hs
              | none =>
                rw [hs] at hq' he' hn'
                dsimp only at hq' he' hn' ⊢
                refine ih r' (hcommand r head tail r' hP hev hq hlt hm hs) ?_
                have ho := hn' rfl
                rw [length_drop] at ho
                rw [if_pos (he'.trans hev), turns, hq', hq]
                dsimp only
                rw [if_pos (by omega)]
                omega
          | data =>
            refine ih _ (hdata r head tail hP hev hq hlt hm) ?_
            rcases scanData_progress r head with ho | he
            · have ht : (r.scanData head).turns = 2 * tail.length + 2 := by
                rw [turns, scanData_queue, hq]
                dsimp only
                rw [if_pos ho]
              rw [ht]
              split_ifs <;> omega
            · rw [if_neg he]
              omega

/-- **Rule for `next`.** -/
theorem next_induct (r : SmtpLineReader) (hP : P r) : Q r.next.1 r.next.2 := by
  refine nextLoop_induct hevent hempty hdrop hline hcommand hdata _ r hP ?_
  have := r.turns_le
  split_ifs <;> omega

end NextInduct

/-! ## Reachable readers -/

/-- The offset stays inside the first buffer. -/
def Bounded (r : SmtpLineReader) : Prop :=
  match r.queue with
  | [] => r.offset = 0
  | head :: _ => r.offset ≤ head.length

/-- The readers a program can hold: a new one, and what its methods make of it. -/
inductive Reachable : SmtpLineReader → Prop
  | new (maxLineLength : ℕ) : Reachable { maxLineLength := maxLineLength }
  | push {r : SmtpLineReader} (chunk : List UInt8) : Reachable r → Reachable (r.push chunk)
  | next {r : SmtpLineReader} : Reachable r → Reachable r.next.2
  | startData {r r' : SmtpLineReader} {maxSize : Option ℕ} :
      Reachable r → r.startData maxSize = .ok r' → Reachable r'
  | discardPending {r : SmtpLineReader} : Reachable r → Reachable r.discardPending.1

theorem bounded_iff_of_cons (hq : r.queue = head :: tail) : r.Bounded ↔ r.offset ≤ head.length := by
  rw [Bounded, hq]

theorem Bounded.push (h : r.Bounded) (chunk : List UInt8) : (r.push chunk).Bounded := by
  unfold SmtpLineReader.push
  split_ifs
  · exact h
  · unfold Bounded at h ⊢
    cases hq : r.queue with
    | nil =>
      rw [hq] at h
      simp [h]
    | cons head tail =>
      simpa [hq] using h

theorem Bounded.drop (r : SmtpLineReader) (tail : List (List UInt8)) :
    Bounded { r with queue := tail, offset := 0 } := by
  cases tail with
  | nil => rfl
  | cons head tail => exact Nat.zero_le _

theorem Bounded.scanData (h : r.Bounded) (hq : r.queue = head :: tail) :
    (r.scanData head).Bounded := by
  rw [bounded_iff_of_cons ((scanData_queue r head).trans hq)]
  exact scanData_offset_le ((bounded_iff_of_cons hq).mp h)

theorem Bounded.scanCommand {r' : SmtpLineReader} {o : Option LineReaderEvent} (h : r.Bounded)
    (hq : r.queue = head :: tail) (hs : r.scanCommand (head.drop r.offset) = (r', o)) :
    r'.Bounded := by
  have hle := (bounded_iff_of_cons hq).mp h
  obtain ⟨hq', -, ho', -⟩ := scanCommand_frame r (head.drop r.offset)
  rw [hs, length_drop] at ho'
  rw [hs] at hq'
  rw [bounded_iff_of_cons (hq'.trans hq)]
  omega

theorem Bounded.next (h : r.Bounded) : r.next.2.Bounded := by
  refine next_induct (P := Bounded) (Q := fun _ r' => r'.Bounded) ?_ ?_ ?_ ?_ ?_ ?_ r h
  · intro r e es hr _
    exact hr
  · intro r hr _ _
    exact hr
  · intro r head tail _ _ _ _
    exact Bounded.drop r tail
  · intro r head tail r' e hr _ hq _ _ hs
    exact hr.scanCommand hq hs
  · intro r head tail r' hr _ hq _ _ hs
    exact hr.scanCommand hq hs
  · intro r head tail hr _ hq _ _
    exact hr.scanData hq

theorem Reachable.bounded (h : Reachable r) : r.Bounded := by
  induction h with
  | new n => rfl
  | push chunk _ ih => exact ih.push chunk
  | next _ ih => exact ih.next
  | startData _ hs ih =>
    unfold SmtpLineReader.startData at hs
    split_ifs at hs
    injection hs with hs
    subst hs
    exact ih
  | discardPending _ _ => rfl

/-! ## Pending octets -/

theorem pending_cons (hq : r.queue = head :: tail) (hle : r.offset ≤ head.length) :
    r.pending = head.drop r.offset ++ tail.flatten := by
  rw [pending, hq, flatten_cons, drop_append_of_le_length hle]

theorem pending_push (h : r.Bounded) (chunk : List UInt8) :
    (r.push chunk).pending = r.pending ++ chunk := by
  have hle : r.offset ≤ r.queue.flatten.length := by
    unfold Bounded at h
    cases hq : r.queue with
    | nil =>
      rw [hq] at h
      simp [h]
    | cons head tail =>
      rw [hq] at h
      simp only [flatten_cons, length_append]
      omega
  unfold SmtpLineReader.push
  split_ifs with hc
  · rw [eq_nil_of_length_eq_zero hc, append_nil]
  · simp only [pending, flatten_append, flatten_singleton]
    rw [drop_append_of_le_length hle]

/-- Dropping a used-up buffer loses nothing. -/
theorem pending_drop (hq : r.queue = head :: tail) (h : r.Bounded) (hoff : r.offset ≥ head.length) :
    pending { r with queue := tail, offset := 0 } = r.pending := by
  have hle := (bounded_iff_of_cons hq).mp h
  rw [pending_cons hq hle, drop_eq_nil_of_le hoff]
  rfl

/-- A reader with nothing queued and nothing pending asks for input. -/
theorem next_eq_none (hb : r.Bounded) (hev : r.events = []) (hp : r.pending = []) :
    r.next.1 = none := by
  have hfull : ∀ (x : SmtpLineReader) (head : List UInt8) (tail : List (List UInt8)),
      x.Bounded → x.pending = [] → x.queue = head :: tail → ¬ x.offset < head.length := by
    intro x head tail hx hpend hq hlt
    have hle := (bounded_iff_of_cons hq).mp hx
    rw [pending_cons hq hle] at hpend
    have := congrArg List.length (append_eq_nil_iff.mp hpend).1
    rw [length_drop, length_nil] at this
    omega
  refine next_induct (P := fun x => x.Bounded ∧ x.events = [] ∧ x.pending = [])
    (Q := fun o _ => o = none) ?_ ?_ ?_ ?_ ?_ ?_ r ⟨hb, hev, hp⟩
  · intro x e es hx he
    rw [hx.2.1] at he
    cases he
  · intro x _ _ _
    rfl
  · intro x head tail hx he hq hoff
    exact ⟨Bounded.drop x tail, he, (pending_drop hq hx.1 hoff).trans hx.2.2⟩
  · intro x head tail x' e hx _ hq hlt _ _
    exact absurd hlt (hfull x head tail hx.1 hx.2.2 hq)
  · intro x head tail x' hx _ hq hlt _ _
    exact absurd hlt (hfull x head tail hx.1 hx.2.2 hq)
  · intro x head tail hx _ hq hlt _
    exact absurd hlt (hfull x head tail hx.1 hx.2.2 hq)

end SmtpLineReader

end Postroom.Smtp
