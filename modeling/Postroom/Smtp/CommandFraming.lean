/-
What a command line read by the line reader has to do with the octets received.

`Feeds recv r` says that the reader `r` was given exactly the octets `recv` since
it was made: what it has used up, then the line it is collecting (with the CR it
is waiting to see completed), then what it has not looked at. Every method keeps
it, and a line is only ever reported when it and its CRLF have just been used up,
so that a command is always a stretch of the octets received (`Feeds.next`).
-/
import Postroom.Smtp.LineReader

set_option autoImplicit false

namespace Postroom.Smtp

open List

namespace SmtpLineReader

/-- The part of the current line that was read: its octets, and a CR whose LF has
not come yet. -/
def held (r : SmtpLineReader) : List UInt8 := r.lineBuf ++ if r.cmdCR then [CR] else []

/-- A line is never queued: it is returned as it is completed. -/
def NoLine (r : SmtpLineReader) : Prop := ∀ e ∈ r.events, ∀ l, e ≠ .line l

/-- The reader was given the octets `recv`. -/
structure Feeds (recv : List UInt8) (r : SmtpLineReader) : Prop where
  bounded : r.Bounded
  parts : ∃ used, recv = used ++ r.held ++ r.pending
  discarding : r.discarding = true → r.lineBuf = []
  noLine : r.NoLine
  data : r.mode = .data → r.held = []

theorem feeds_new (maxLineLength : ℕ) : Feeds [] { maxLineLength := maxLineLength } := by
  refine ⟨rfl, ⟨[], rfl⟩, nofun, nofun, nofun⟩

variable {recv head : List UInt8} {r r' : SmtpLineReader} {tail : List (List UInt8)}

theorem Feeds.push (h : Feeds recv r) (chunk : List UInt8) :
    Feeds (recv ++ chunk) (r.push chunk) := by
  have hparts : ∃ used, recv ++ chunk = used ++ (r.push chunk).held ++ (r.push chunk).pending := by
    obtain ⟨used, hu⟩ := h.parts
    refine ⟨used, ?_⟩
    have hheld : (r.push chunk).held = r.held := by
      unfold SmtpLineReader.push
      split <;> rfl
    rw [pending_push h.bounded, hheld, hu]
    simp only [append_assoc]
  refine ⟨h.bounded.push chunk, hparts, ?_, ?_, ?_⟩ <;> unfold SmtpLineReader.push <;> split
  · exact h.discarding
  · exact h.discarding
  · exact h.noLine
  · exact h.noLine
  · exact h.data
  · exact h.data

theorem Feeds.startData {maxSize : Option ℕ} (h : Feeds recv r)
    (hs : r.startData maxSize = .ok r') :
    Feeds recv r' := by
  unfold SmtpLineReader.startData at hs
  split at hs
  · cases hs
  · rename_i hfree
    injection hs with hs
    subst hs
    refine { h with data := ?_ }
    intro _
    -- The method refuses to start inside a line, so nothing is held.
    simp only [not_or, ne_eq, not_not, Bool.not_eq_true] at hfree
    obtain ⟨_, hbuf, hcr, _⟩ := hfree
    show r.lineBuf ++ (if r.cmdCR then [CR] else []) = []
    rw [eq_nil_of_length_eq_zero hbuf, hcr]
    rfl

/-- Throwing everything away is using it up. -/
theorem Feeds.discardPending : Feeds recv r.discardPending.1 :=
  ⟨rfl, ⟨recv, by simp [SmtpLineReader.discardPending, held, pending]⟩, nofun, nofun, nofun⟩

/-! ## Command mode -/

/-- One octet: what was held, and the octet, is used up except for what is held
now; a reported line is exactly what was held, completed by its LF. -/
theorem scanCommandByte_spec (r : SmtpLineReader) (b : UInt8)
    (hdisc : r.discarding = true → r.lineBuf = []) :
    (∃ used, r.held ++ [b] = used ++ (r.scanCommandByte b).1.held)
      ∧ ((r.scanCommandByte b).1.discarding = true → (r.scanCommandByte b).1.lineBuf = [])
      ∧ (∀ l, (r.scanCommandByte b).2 = some (.line l) → r.held ++ [b] = l ++ [CR, LF])
      ∧ (r.scanCommandByte b).1.mode = r.mode := by
  have hne : ¬ CR = LF := by decide
  have hne' : ¬ LF = CR := by decide
  by_cases hcr : r.cmdCR = true
  · -- A CR is waiting for its LF.
    by_cases hlf : b = LF
    · by_cases hd : r.discarding = true
      · simp [scanCommandByte, held, hcr, hlf, hd]
      · simp [scanCommandByte, held, hcr, hlf, hd]
    · by_cases hcr' : b = CR
      · by_cases hd : r.discarding = true
        · simp only [scanCommandByte, held, hcr, hcr', hd, hdisc hd, hne]
          exact ⟨⟨[CR], rfl⟩, fun _ => rfl, nofun, rfl⟩
        · simp only [scanCommandByte, lineError, held, hcr, hcr', hd, hne]
          exact ⟨⟨r.lineBuf ++ [CR], by simp⟩, fun _ => rfl, nofun, rfl⟩
      · by_cases hd : r.discarding = true
        · simp [scanCommandByte, held, hcr, hlf, hcr', hd, hdisc hd]
        · simp [scanCommandByte, lineError, held, hcr, hlf, hcr', hd]
  · by_cases hcr' : b = CR
    · have heq : r.scanCommandByte b = ({ r with cmdCR := true }, none) := by
        simp [scanCommandByte, hcr, hcr']
      rw [heq]
      refine ⟨⟨[], ?_⟩, hdisc, nofun, rfl⟩
      simp [held, hcr, hcr']
    · by_cases hlf : b = LF
      · by_cases hd : r.discarding = true
        · simp [scanCommandByte, held, hcr, hlf, hd, hdisc hd, hne']
        · simp [scanCommandByte, lineError, held, hcr, hlf, hd, hne']
      · by_cases hd : r.discarding = true
        · simp [scanCommandByte, held, hcr, hlf, hcr', hd, hdisc hd]
        · by_cases hlen : r.lineBuf.length ≥ r.maxLineLength
          · simp [scanCommandByte, lineError, held, hcr, hlf, hcr', hd, hlen]
          · have heq : r.scanCommandByte b = ({ r with lineBuf := r.lineBuf ++ [b] }, none) := by
              simp [scanCommandByte, hcr, hlf, hcr', hd, hlen]
            rw [heq]
            refine ⟨⟨[], ?_⟩, fun h => absurd h hd, nofun, rfl⟩
            simp [held, hcr]

/-- The same for the whole loop over a buffer. -/
theorem scanCommand_spec (r : SmtpLineReader) (rest : List UInt8)
    (hdisc : r.discarding = true → r.lineBuf = []) : ∃ read left, rest = read ++ left
      ∧ (r.scanCommand rest).1.offset = r.offset + read.length
      ∧ (∃ used, r.held ++ read = used ++ (r.scanCommand rest).1.held)
      ∧ ((r.scanCommand rest).1.discarding = true → (r.scanCommand rest).1.lineBuf = [])
      ∧ (∀ l, (r.scanCommand rest).2 = some (.line l) →
        ∃ used, r.held ++ read = used ++ (l ++ [CR, LF]))
      ∧ (r.scanCommand rest).1.mode = r.mode := by
  induction rest generalizing r with
  | nil => exact ⟨[], [], rfl, rfl, ⟨[], by simp [scanCommand]⟩, hdisc, nofun, rfl⟩
  | cons b rest ih =>
    obtain ⟨⟨used1, h₁⟩, hd1, hl1, hm1⟩ :=
      scanCommandByte_spec { r with offset := r.offset + 1 } b hdisc
    obtain ⟨-, ho1, -⟩ := scanCommandByte_frame { r with offset := r.offset + 1 } b
    have hheld : held { r with offset := r.offset + 1 } = r.held := rfl
    rw [hheld] at h₁ hl1
    unfold scanCommand
    split
    · next r' e heq =>
        rw [heq] at h₁ hd1 hl1 hm1 ho1
        refine ⟨[b], rest, rfl, ho1, ⟨used1, h₁⟩, hd1, ?_, hm1⟩
        intro l hl
        exact ⟨[], by rw [hl1 l hl, nil_append]⟩
    · next r' heq =>
        rw [heq] at h₁ hd1 hl1 hm1 ho1
        obtain ⟨read, left, hrest, ho, ⟨used, hu⟩, hd, hl, hm⟩ := ih r' hd1
        have hstep : ∀ x, r'.held ++ read = x → r.held ++ b :: read = used1 ++ x := by
          rintro x rfl
          calc r.held ++ b :: read = (r.held ++ [b]) ++ read := by simp
            _ = used1 ++ (r'.held ++ read) := by rw [h₁, append_assoc]
        refine ⟨b :: read, left, by rw [hrest]; rfl, ?_, ?_, hd, ?_, hm.trans hm1⟩
        · rw [ho, ho1, length_cons]
          dsimp only
          omega
        · refine ⟨used1 ++ used, ?_⟩
          rw [hstep _ hu, append_assoc]
        · intro l hll
          obtain ⟨used', hu'⟩ := hl l hll
          refine ⟨used1 ++ used', ?_⟩
          rw [hstep _ hu', append_assoc]

/-! ## DATA mode -/

/-- What DATA mode leaves alone. -/
structure DataFrame (r r' : SmtpLineReader) : Prop where
  lineBuf : r'.lineBuf = r.lineBuf
  cmdCR : r'.cmdCR = r.cmdCR
  discarding : r'.discarding = r.discarding
  noLine : r.NoLine → r'.NoLine

theorem DataFrame.refl (r : SmtpLineReader) : DataFrame r r := ⟨rfl, rfl, rfl, id⟩

theorem DataFrame.trans {r1 r2 r3 : SmtpLineReader} (h : DataFrame r1 r2) (h' : DataFrame r2 r3) :
    DataFrame r1 r3 :=
  ⟨h'.lineBuf.trans h.lineBuf, h'.cmdCR.trans h.cmdCR, h'.discarding.trans h.discarding,
    fun hn => h'.noLine (h.noLine hn)⟩

theorem NoLine.append (h : r.NoLine) {e : LineReaderEvent} (he : ∀ l, e ≠ .line l) :
    NoLine { r with events := r.events ++ [e] } := by
  intro e' he'
  rcases mem_append.mp he' with h1 | h1
  · exact h e' h1
  · rw [mem_singleton.mp h1]
    exact he

theorem dataFrame_emit (r : SmtpLineReader) (seg : List UInt8) : DataFrame r (r.emit seg) := by
  unfold emit reject
  dsimp only
  split_ifs
  all_goals first
    | exact ⟨rfl, rfl, rfl, id⟩
    | exact ⟨rfl, rfl, rfl, fun h => NoLine.append h nofun⟩

theorem dataFrame_bodyByte (r : SmtpLineReader) (b : UInt8) : DataFrame r (r.bodyByte b) := by
  unfold bodyByte reject
  split_ifs <;> exact ⟨rfl, rfl, rfl, id⟩

theorem dataFrame_ds (h : DataFrame r r') (ds : DataState) :
    DataFrame r { r' with ds := ds } := { h with }

theorem dataFrame_reject (h : DataFrame r r') (x : DataRejection) :
    DataFrame r (r'.reject x) := { h with }

theorem dataFrame_scanDataByte (buf : List UInt8) (i : ℕ) (b : UInt8) (r : SmtpLineReader)
    (runStart : ℕ) : DataFrame r (scanDataByte buf i b r runStart).1 := by
  have hnul : ∀ {r' : SmtpLineReader}, DataFrame r r' →
      DataFrame r (if b = NUL then r'.reject .nul else r') := by
    intro r' h
    split
    · exact dataFrame_reject h _
    · exact h
  unfold scanDataByte
  split
  · exact dataFrame_ds (dataFrame_emit _ _) _
  cases r.ds with
  | lineStart | mid => exact dataFrame_bodyByte _ _
  | cr =>
    dsimp only
    split
    · exact dataFrame_ds (DataFrame.refl r) _
    split
    · exact dataFrame_reject (DataFrame.refl r) _
    · exact dataFrame_ds (hnul (dataFrame_reject (DataFrame.refl r) _)) _
  | dot =>
    dsimp only
    split
    · exact dataFrame_ds (dataFrame_emit _ _) _
    · exact dataFrame_bodyByte _ _
  | dotCR =>
    have hheld := (dataFrame_reject (DataFrame.refl r) .bareCr).trans (dataFrame_emit _ [CR])
    dsimp only
    split
    · exact DataFrame.refl r
    split
    · exact dataFrame_ds hheld _
    · exact dataFrame_ds (hnul hheld) _

theorem dataFrame_scanDataLoop (buf rest : List UInt8) (i : ℕ) (r : SmtpLineReader)
    (runStart : ℕ) : DataFrame r (scanDataLoop buf rest i r runStart).1 := by
  induction rest generalizing i r runStart with
  | nil => exact DataFrame.refl r
  | cons b rest ih =>
    have h := dataFrame_scanDataByte buf i b r runStart
    unfold scanDataLoop
    split
    · next heq =>
        rw [heq] at h
        exact h
    · next r' runStart' heq =>
        rw [heq] at h
        exact h.trans (ih (i + 1) r' runStart')

theorem scanDataLoop_offset_ge (buf rest : List UInt8) (i : ℕ) (r : SmtpLineReader)
    (runStart : ℕ) : i ≤ (scanDataLoop buf rest i r runStart).2.1 := by
  induction rest generalizing i r runStart with
  | nil => exact Nat.le_refl i
  | cons b rest ih =>
    unfold scanDataLoop
    split
    · exact Nat.le_succ i
    · next r' runStart' _ =>
        have := ih (i + 1) r' runStart'
        omega

theorem dataFrame_reportRejection (r : SmtpLineReader) : DataFrame r r.reportRejection := by
  obtain h | ⟨x, -, h⟩ := r.reportRejection_cases
  · rw [h]
    exact DataFrame.refl r
  · rw [h]
    exact ⟨rfl, rfl, rfl, fun h => NoLine.append h nofun⟩

theorem dataFrame_scanData (r : SmtpLineReader) (buf : List UInt8) :
    DataFrame r (r.scanData buf) := by
  have hloop := dataFrame_scanDataLoop buf (buf.drop r.offset) r.offset r r.offset
  unfold scanData
  generalize scanDataLoop buf (buf.drop r.offset) r.offset r r.offset = out at hloop ⊢
  obtain ⟨r1, i, pos⟩ := out
  dsimp only at hloop ⊢
  have h2 : DataFrame r (if pos.ended then r1 else r1.emit (subarray buf pos.runStart i)) := by
    split
    · exact hloop
    · exact hloop.trans (dataFrame_emit _ _)
  generalize (if pos.ended then r1 else r1.emit (subarray buf pos.runStart i)) = r2 at h2 ⊢
  have hmoved : DataFrame r { r2 with offset := i } :=
    { h2 with }
  have h3 := hmoved.trans (dataFrame_reportRejection _)
  split
  · exact { h3 with noLine := fun hn => NoLine.append (h3.noLine hn) nofun }
  · exact h3

/-! ## One call of `next` -/

/-- Where a buffer was read up to, the rest is still pending. -/
theorem pending_of_read {read left : List UInt8} (hb : r.Bounded) (hb' : r'.Bounded)
    (hq : r.queue = head :: tail) (hq' : r'.queue = head :: tail)
    (hsplit : head.drop r.offset = read ++ left) (ho : r'.offset = r.offset + read.length) :
    r.pending = read ++ r'.pending := by
  rw [pending_cons hq ((bounded_iff_of_cons hq).mp hb),
    pending_cons hq' ((bounded_iff_of_cons hq').mp hb'), ho, ← drop_drop, hsplit,
    drop_left, append_assoc]

theorem Feeds.scanCommand {o : Option LineReaderEvent} (h : Feeds recv r)
    (hq : r.queue = head :: tail) (hm : r.mode = .command)
    (hs : r.scanCommand (head.drop r.offset) = (r', o)) :
    Feeds recv r' ∧ ∀ l, o = some (.line l) → l ++ [CR, LF] <:+: recv := by
  obtain ⟨read, left, hsplit, ho, ⟨used', hu'⟩, hd, hl, hm'⟩ :=
    scanCommand_spec r (head.drop r.offset) h.discarding
  obtain ⟨hqf, hef, -, -⟩ := scanCommand_frame r (head.drop r.offset)
  rw [hs] at ho hu' hd hl hm' hqf hef
  have hb' : r'.Bounded := h.bounded.scanCommand hq hs
  have hp := pending_of_read h.bounded hb' hq (hqf.trans hq) hsplit ho
  obtain ⟨used, hu⟩ := h.parts
  have hrecv : ∀ x, r.held ++ read = x → recv = used ++ x ++ r'.pending := by
    rintro x rfl
    rw [hu, hp]
    simp only [append_assoc]
  refine ⟨⟨hb', ⟨used ++ used', ?_⟩, hd, ?_, ?_⟩, ?_⟩
  · rw [hrecv _ hu']
    simp only [append_assoc]
  · unfold NoLine
    rw [hef]
    exact h.noLine
  · intro hdata
    rw [hm', hm] at hdata
    cases hdata
  · intro l hline
    obtain ⟨used'', hu''⟩ := hl l hline
    refine ⟨used ++ used'', r'.pending, ?_⟩
    rw [hrecv _ hu'']
    simp only [append_assoc]

theorem Feeds.scanData (h : Feeds recv r) (hq : r.queue = head :: tail) (hm : r.mode = .data) :
    Feeds recv (r.scanData head) := by
  have hf := dataFrame_scanData r head
  have hb' := h.bounded.scanData hq
  have hheld : (r.scanData head).held = [] := by
    have hr := h.data hm
    unfold held at hr ⊢
    rw [hf.lineBuf, hf.cmdCR]
    exact hr
  have hle := (scanDataLoop_frame head (head.drop r.offset) r.offset r r.offset).2.1
  rw [← scanData_offset, length_drop] at hle
  -- The loop only moves forward in the buffer.
  have hge : r.offset ≤ (r.scanData head).offset := by
    rw [scanData_offset]
    exact scanDataLoop_offset_ge head (head.drop r.offset) r.offset r r.offset
  have hp : r.pending = (head.drop r.offset).take ((r.scanData head).offset - r.offset)
        ++ (r.scanData head).pending := by
    refine pending_of_read h.bounded hb' hq ((scanData_queue r head).trans hq)
      (take_append_drop _ _).symm ?_
    rw [length_take, length_drop]
    omega
  obtain ⟨used, hu⟩ := h.parts
  refine ⟨hb', ⟨used ++ (head.drop r.offset).take ((r.scanData head).offset - r.offset), ?_⟩, ?_,
    hf.noLine h.noLine, fun _ => hheld⟩
  · rw [hu, h.data hm, hheld, hp]
    simp only [append_nil, append_assoc]
  · intro hd
    rw [hf.discarding] at hd
    rw [hf.lineBuf]
    exact h.discarding hd

/-- **A line is a stretch of what was received**, and reading keeps the books. -/
theorem Feeds.next (h : Feeds recv r) :
    Feeds recv r.next.2 ∧ ∀ l, r.next.1 = some (.line l) → l ++ [CR, LF] <:+: recv := by
  refine next_induct (P := Feeds recv)
    (Q := fun o r' => Feeds recv r' ∧ ∀ l, o = some (.line l) → l ++ [CR, LF] <:+: recv)
    ?_ ?_ ?_ ?_ ?_ ?_ r h
  · intro r e es hr hev
    refine ⟨⟨hr.bounded, hr.parts, hr.discarding, ?_, hr.data⟩, ?_⟩
    · intro e' he'
      exact hr.noLine e' (by rw [hev]; exact mem_cons_of_mem _ he')
    · intro l hl
      exact absurd (Option.some.inj hl) (hr.noLine e (by rw [hev]; exact mem_cons_self ..) l)
  · intro r hr _ _
    exact ⟨hr, nofun⟩
  · intro r head tail hr _ hq hoff
    obtain ⟨used, hu⟩ := hr.parts
    refine ⟨Bounded.drop r tail, ⟨used, ?_⟩, hr.discarding, hr.noLine, hr.data⟩
    rw [pending_drop hq hr.bounded hoff]
    exact hu
  · intro r head tail r' e hr _ hq _ hm hs
    exact hr.scanCommand hq hm hs
  · intro r head tail r' hr _ hq _ hm hs
    exact (hr.scanCommand hq hm hs).1
  · intro r head tail hr _ hq _ hm
    exact hr.scanData hq hm

end SmtpLineReader

end Postroom.Smtp
