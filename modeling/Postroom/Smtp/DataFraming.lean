/-
DATA framing is exact: `SmtpLineReader` computes what `DataSpec` specifies.

Three layers meet here. `scanDataLoop` walks one buffer and is shown to follow
the byte machine `dataStep` octet by octet (`scanDataByte_follows`), with the
octets between `runStart` and the current index standing for body that is not
emitted yet. `scanData` closes a buffer, and `next` chains buffers, so that the
invariant `Streaming` survives any interleaving of `push` and `next`. What the
machine has computed when it stops is `scan_dataStep_spec`.

The reader may hold events from before `startData`; they are `old` throughout and
are delivered first.
-/
import Postroom.Smtp.DataSpec

set_option autoImplicit false

namespace Postroom.Smtp

open Lib SmtpLineReader List

/-! ## Events -/

/-- The body octets an event carries. -/
def LineReaderEvent.body : LineReaderEvent → List UInt8
  | .data chunk => chunk
  | _ => []

/-- The concatenation of the data events. -/
def bodyOf (es : List LineReaderEvent) : List UInt8 := es.flatMap LineReaderEvent.body

def LineReaderEvent.isEnd : LineReaderEvent → Bool
  | .dataEnd _ _ => true
  | _ => false

@[simp] theorem bodyOf_nil : bodyOf [] = [] := rfl

@[simp] theorem bodyOf_append (a b : List LineReaderEvent) :
    bodyOf (a ++ b) = bodyOf a ++ bodyOf b := flatMap_append

theorem subarray_self (buf : List UInt8) (i : ℕ) : subarray buf i i = [] := by
  simp [subarray]

variable {rest : List UInt8} {i runStart : ℕ} {b : UInt8}

/-- The run grows by the octet just read. -/
theorem subarray_succ {buf : List UInt8} (hrest : buf.drop i = b :: rest) (hrun : runStart ≤ i) :
    subarray buf runStart (i + 1) = subarray buf runStart i ++ [b] := by
  have hget : (buf.drop runStart)[i - runStart]? = some b := by
    rw [getElem?_drop, Nat.add_sub_cancel' hrun, ← Nat.add_zero i, ← getElem?_drop, hrest]
    rfl
  have hsub : i + 1 - runStart = (i - runStart) + 1 := by omega
  rw [subarray, subarray, hsub, take_add_one, hget]
  rfl

/-! ## The loop follows the machine -/

/-- The fields a DATA scan leaves alone. -/
structure Open (maxSize : Option ℕ) (queue : List (List UInt8)) (r : SmtpLineReader) : Prop where
  mode : r.mode = .data
  maxSize : r.maxSize = maxSize
  queue : r.queue = queue
  lineBuf : r.lineBuf = []
  cmdCR : r.cmdCR = false
  discarding : r.discarding = false

/-- The reader has taken in `out` (damaged if `bad`), of which `run` is still to
be emitted; `sent` are the events delivered so far. -/
structure Follows (maxSize : Option ℕ) (old sent : List LineReaderEvent) (out run : List UInt8)
    (bad : Bool) (r : SmtpLineReader) : Prop where
  size : r.size + run.length = out.length
  rejection : r.rejection = none ↔ bad = false ∧ fits maxSize r.size
  log : ∃ new, sent ++ r.events = old ++ new ∧ (∀ e ∈ new, e.isEnd = false)
    ∧ (r.rejection = none → bodyOf new ++ run = out)

section Loop

variable {maxSize : Option ℕ} {old sent : List LineReaderEvent} {queue : List (List UInt8)}
  {out run : List UInt8} {bad : Bool} {r : SmtpLineReader}

theorem fits_mono {m n : ℕ} (hmn : m ≤ n) (h : fits maxSize n) : fits maxSize m :=
  fun k hk => Nat.le_trans hmn (h k hk)

theorem reject_eq_none (r : SmtpLineReader) (x : DataRejection) :
    (r.reject x).rejection ≠ none := by
  cases h : r.rejection <;> simp [reject, h]

theorem Open.withDs (h : Open maxSize queue r) (ds : DataState) :
    Open maxSize queue { r with ds := ds } :=
  { h with }

theorem Follows.withDs (h : Follows maxSize old sent out run bad r) (ds : DataState) :
    Follows maxSize old sent out run bad { r with ds := ds } :=
  { h with }

theorem Open.reject (h : Open maxSize queue r) (x : DataRejection) :
    Open maxSize queue (r.reject x) :=
  { h with }

theorem Follows.reject (h : Follows maxSize old sent out run bad r) (x : DataRejection) :
    Follows maxSize old sent out run true (r.reject x) where
  size := h.size
  rejection := by simp [reject_eq_none]
  log := by
    obtain ⟨new, hnew, hend, -⟩ := h.log
    exact ⟨new, hnew, hend, fun hr => absurd hr (reject_eq_none r x)⟩

/-- An octet joins the run. -/
theorem Follows.grow (h : Follows maxSize old sent out run bad r) (b : UInt8) :
    Follows maxSize old sent (out ++ [b]) (run ++ [b]) bad r where
  size := by
    have := h.size
    simp only [length_append, length_singleton]
    omega
  rejection := h.rejection
  log := by
    obtain ⟨new, hnew, hend, hbody⟩ := h.log
    refine ⟨new, hnew, hend, fun hr => ?_⟩
    rw [← append_assoc, hbody hr]

theorem Open.emit (h : Open maxSize queue r) (seg : List UInt8) :
    Open maxSize queue (r.emit seg) := by
  unfold SmtpLineReader.emit
  dsimp only
  split_ifs
  all_goals exact { h with }

/-- What `emit` does with a non-empty segment. -/
theorem emit_of_ne_nil (hr : r.maxSize = maxSize) {seg : List UInt8} (hseg : seg ≠ []) :
    (r.emit seg).size = r.size + seg.length
      ∧ ((r.emit seg).rejection = none ↔ r.rejection = none ∧ fits maxSize (r.size + seg.length))
      ∧ ((r.emit seg).rejection = none → (r.emit seg).events = r.events ++ [.data seg])
      ∧ ((r.emit seg).rejection ≠ none → (r.emit seg).events = r.events) := by
  have hlen : seg.length ≠ 0 := by simpa using hseg
  subst hr
  unfold SmtpLineReader.emit
  rw [if_neg hlen]
  by_cases hfit : fits r.maxSize (r.size + seg.length)
  · by_cases hrej : r.rejection = none <;> simp [hfit, hrej]
  · cases hrej : r.rejection <;> simp [hfit, SmtpLineReader.reject]

/-- Emitting the whole run. -/
theorem Follows.emit (h : Follows maxSize old sent out run bad r) (hr : r.maxSize = maxSize) :
    Follows maxSize old sent out [] bad (r.emit run) := by
  by_cases hrun : run = []
  · rw [hrun] at h ⊢
    have he : r.emit [] = r := by simp [SmtpLineReader.emit]
    rwa [he]
  obtain ⟨hsize, hrej, hev, hev'⟩ := emit_of_ne_nil hr hrun
  have hsz := h.size
  obtain ⟨new, hnew, hend, hbody⟩ := h.log
  refine ⟨by rw [hsize]; simpa using hsz, ?_, ?_⟩
  · rw [hrej, hsize, h.rejection]
    exact ⟨fun ⟨⟨hb, _⟩, hf⟩ => ⟨hb, hf⟩, fun ⟨hb, hf⟩ =>
      ⟨⟨hb, fits_mono (Nat.le_add_right _ _) hf⟩, hf⟩⟩
  · by_cases hn : (r.emit run).rejection = none
    · refine ⟨new ++ [.data run], ?_, ?_, fun _ => ?_⟩
      · rw [hev hn, ← append_assoc, hnew, append_assoc]
      · simpa [LineReaderEvent.isEnd, or_imp, forall_and] using hend
      · rw [bodyOf_append, append_nil, ← hbody (hrej.mp hn).1]
        simp [bodyOf, LineReaderEvent.body]
    · exact ⟨new, by rw [hev' hn, hnew], hend, fun hr' => absurd hr' hn⟩

variable {c : DataCore} {buf : List UInt8}

/-- A body octet where nothing is held back. -/
theorem Follows.bodyByte (h : Follows maxSize old sent c.out run c.bad r) (b : UInt8) :
    Follows maxSize old sent (c.put b).out (run ++ [b]) (c.put b).bad (r.bodyByte b)
      ∧ (r.bodyByte b).ds = (c.put b).ds := by
  by_cases hcr : b = CR
  · simp only [SmtpLineReader.bodyByte, DataCore.put, hcr, if_true]
    exact ⟨(h.grow CR).withDs _, trivial⟩
  by_cases hlf : b = LF
  · simp only [SmtpLineReader.bodyByte, DataCore.put, hlf, LF_ne_CR, if_false, if_true]
    simp only [decide_true, Bool.or_true, Bool.true_or]
    exact ⟨((h.grow LF).reject _).withDs _, trivial⟩
  by_cases hnul : b = NUL
  · simp only [SmtpLineReader.bodyByte, DataCore.put, hnul, NUL_ne_CR, NUL_ne_LF, if_false, if_true]
    simp only [decide_true, Bool.or_true]
    exact ⟨((h.grow NUL).reject _).withDs _, trivial⟩
  · simp only [SmtpLineReader.bodyByte, DataCore.put, hcr, hlf, hnul, if_false, decide_false,
      Bool.or_false]
    exact ⟨(h.grow b).withDs _, trivial⟩

theorem Open.bodyByte (h : Open maxSize queue r) (b : UInt8) :
    Open maxSize queue (r.bodyByte b) := by
  unfold SmtpLineReader.bodyByte
  split_ifs
  all_goals exact { h with }

/-- The reader at index `i` of `buf`, with the run since `runStart`, mirrors the machine. -/
structure Mirrors (maxSize : Option ℕ) (old sent : List LineReaderEvent)
    (queue : List (List UInt8)) (buf : List UInt8) (i runStart : ℕ) (c : DataCore)
    (r : SmtpLineReader) : Prop where
  isOpen : Open maxSize queue r
  ds : r.ds = c.ds
  start : runStart ≤ i
  held : c.ds = .dotCR → runStart = i
  follows : Follows maxSize old sent c.out (subarray buf runStart i) c.bad r

/-- **One octet**: the reader's loop body does what the machine's step does. -/
theorem scanDataByte_follows
    (hrest : buf.drop i = b :: rest) (h : Mirrors maxSize old sent queue buf i runStart c r) :
    match dataStep c b with
    | .inl c' => ∃ r' runStart', scanDataByte buf i b r runStart = (r', ⟨runStart', false⟩)
        ∧ Mirrors maxSize old sent queue buf (i + 1) runStart' c' r'
    | .inr c' => scanDataByte buf i b r runStart = (r, ⟨runStart, true⟩) ∧ c' = c := by
  have hsub := subarray_succ hrest h.start
  have hle : runStart ≤ i + 1 := Nat.le_succ_of_le h.start
  -- the run so far is emitted and the octet itself is dropped or held
  have hcut : ∀ ds, (ds = DataState.dot ∨ ds = DataState.dotCR) →
      Mirrors maxSize old sent queue buf (i + 1) (i + 1) { c with ds := ds }
        { r.emit (subarray buf runStart i) with ds := ds } := by
    intro ds hds
    refine ⟨(h.isOpen.emit _).withDs ds, rfl, Nat.le_refl _, fun _ => rfl, ?_⟩
    rw [subarray_self]
    exact (h.follows.emit h.isOpen.maxSize).withDs ds
  -- the octet joins the run
  have hput : Mirrors maxSize old sent queue buf (i + 1) runStart (c.put b) (r.bodyByte b) := by
    obtain ⟨hf, hds⟩ := h.follows.bodyByte b
    refine ⟨h.isOpen.bodyByte b, hds, hle, ?_, hsub ▸ hf⟩
    intro hd
    by_cases hb : b = CR <;> simp [DataCore.put, hb] at hd
  -- the octet joins the run after a bare CR
  have hmid : ∀ {out r}, Open maxSize queue r → Follows maxSize old sent out
      (subarray buf runStart i) true r →
      Mirrors maxSize old sent queue buf (i + 1) runStart
        { ds := .mid, out := out ++ [b], bad := true }
        { (if b = NUL then r.reject .nul else r) with ds := .mid } := by
    intro out r hopen hf
    refine ⟨?_, rfl, hle, by simp, ?_⟩
    · split_ifs
      · exact (hopen.reject _).withDs _
      · exact hopen.withDs _
    · rw [hsub]
      split_ifs
      · exact ((hf.grow b).reject _).withDs _
      · exact (hf.grow b).withDs _
  have hrds := h.ds
  unfold dataStep scanDataByte
  cases hds : c.ds with
  | lineStart =>
    rw [hrds, hds]
    by_cases hb : b = DOT
    · simp only [hb, if_true, and_self]
      exact ⟨_, _, rfl, hcut .dot (.inl rfl)⟩
    · simp only [hb, if_false, and_false]
      exact ⟨_, _, rfl, hput⟩
  | mid =>
    rw [hrds, hds]
    simp only [reduceCtorEq, false_and, if_false]
    exact ⟨_, _, rfl, hput⟩
  | cr =>
    rw [hrds, hds]
    simp only [reduceCtorEq, false_and, if_false]
    by_cases hlf : b = LF
    · simp only [hlf, if_true]
      rw [hlf] at hsub
      refine ⟨_, _, rfl, h.isOpen.withDs _, rfl, hle, by simp, ?_⟩
      rw [hsub]
      exact (h.follows.grow LF).withDs _
    by_cases hcr : b = CR
    · simp only [hcr, CR_ne_LF, if_true, if_false]
      rw [hcr] at hsub
      refine ⟨_, _, rfl, h.isOpen.reject _, hrds.trans hds, hle, by simp, ?_⟩
      rw [hsub]
      exact (h.follows.grow CR).reject _
    · simp only [hlf, hcr, if_false]
      exact ⟨_, _, rfl, hmid (h.isOpen.reject _) (h.follows.reject _)⟩
  | dot =>
    rw [hrds, hds]
    by_cases hb : b = CR
    · simp only [hb, if_true]
      exact ⟨_, _, rfl, hcut .dotCR (.inr rfl)⟩
    · simp only [hb, if_false]
      exact ⟨_, _, rfl, hput⟩
  | dotCR =>
    rw [hrds, hds]
    simp only [reduceCtorEq, false_and, if_false]
    by_cases hlf : b = LF
    · simp only [hlf, if_true]
      exact ⟨trivial, trivial⟩
    -- the held CR becomes body on its own, then the octet starts a run
    have hstart := h.held hds
    have hopen := (h.isOpen.reject .bareCr).emit [CR]
    have hemit : Follows maxSize old sent (c.out ++ [CR]) (subarray buf runStart i) true
        ((r.reject .bareCr).emit [CR]) := by
      have hf := h.follows
      rw [hstart, subarray_self] at hf ⊢
      exact ((hf.grow CR).reject .bareCr).emit (h.isOpen.reject .bareCr).maxSize
    have hout : c.out ++ [CR, b] = c.out ++ [CR] ++ [b] := by simp
    by_cases hcr : b = CR
    · simp only [hcr, CR_ne_LF, if_true, if_false]
      rw [hcr] at hsub hout
      refine ⟨_, _, rfl, hopen.withDs _, rfl, hle, by simp, ?_⟩
      rw [hsub, hout]
      exact (hemit.grow CR).withDs _
    · simp only [hlf, hcr, if_false]
      rw [hout]
      exact ⟨_, _, rfl, hmid hopen hemit⟩

/-- **One buffer**: the loop does what the machine does over the rest of the buffer. -/
theorem scanDataLoop_follows (hrest : buf.drop i = rest)
    (hi : i ≤ buf.length) (h : Mirrors maxSize old sent queue buf i runStart c r) :
    match scan dataStep c rest with
    | .more c' => ∃ r' runStart', scanDataLoop buf rest i r runStart
      = (r', buf.length, ⟨runStart', false⟩)
          ∧ Mirrors maxSize old sent queue buf buf.length runStart' c' r'
    | .stop c' left => ∃ r' i' runStart', scanDataLoop buf rest i r runStart
      = (r', i', ⟨runStart', true⟩)
          ∧ i' ≤ buf.length ∧ buf.drop i' = left
          ∧ Open maxSize queue r' ∧ Follows maxSize old sent c'.out [] c'.bad r' := by
  induction rest generalizing i runStart c r with
  | nil =>
    have hlen : i = buf.length := by
      have := drop_eq_nil_iff.mp hrest
      omega
    subst hlen
    exact ⟨r, runStart, rfl, h⟩
  | cons b rest ih =>
    have hbyte := scanDataByte_follows hrest h
    have hlt : i < buf.length := by
      have := congrArg List.length hrest
      rw [length_drop, length_cons] at this
      omega
    have hrest' : buf.drop (i + 1) = rest := by
      rw [← drop_drop, hrest]
      rfl
    cases hstep : dataStep c b with
    | inl c' =>
      rw [hstep] at hbyte
      obtain ⟨r', runStart', heq, h'⟩ := hbyte
      rw [scan_cons_inl _ hstep, scanDataLoop, heq]
      exact ih hrest' hlt h'
    | inr c' =>
      rw [hstep] at hbyte
      obtain ⟨heq, rfl⟩ := hbyte
      obtain ⟨-, -, hds⟩ := dataStep_stop hstep
      rw [scan_cons_inr _ hstep, scanDataLoop, heq]
      have hf := h.follows
      rw [h.held hds, subarray_self] at hf
      exact ⟨r, i + 1, runStart, rfl, hlt, hrest', h.isOpen, hf⟩

theorem Open.reportRejection (h : Open maxSize queue r) : Open maxSize queue r.reportRejection := by
  obtain heq | ⟨x, -, heq⟩ := r.reportRejection_cases
  all_goals
    rw [heq]
    exact { h with }

theorem Follows.reportRejection (h : Follows maxSize old sent out run bad r) :
    Follows maxSize old sent out run bad r.reportRejection := by
  obtain heq | ⟨x, hx, heq⟩ := r.reportRejection_cases
  · rwa [heq]
  · rw [heq]
    obtain ⟨new, hnew, hend, -⟩ := h.log
    refine ⟨h.size, h.rejection, new ++ [.dataRejected x], ?_, ?_, ?_⟩
    · rw [← append_assoc, hnew, append_assoc]
    · simpa [LineReaderEvent.isEnd, or_imp, forall_and] using hend
    · intro hn
      exact absurd (hx.symm.trans hn) (by simp)

@[simp] theorem emit_ds (r : SmtpLineReader) (seg : List UInt8) : (r.emit seg).ds = r.ds := by
  unfold SmtpLineReader.emit SmtpLineReader.reject
  dsimp only
  split_ifs <;> rfl

/-- What is queued when the terminator was seen: the data events, then data-end. -/
structure Closed (maxSize : Option ℕ) (old sent : List LineReaderEvent) (out : List UInt8)
    (bad : Bool) (queue : List (List UInt8)) (r : SmtpLineReader) : Prop where
  mode : r.mode = .command
  queue : r.queue = queue
  boundary : r.lineBuf = [] ∧ r.cmdCR = false ∧ r.discarding = false
  log : ∃ new rejection, sent ++ r.events = old ++ (new ++ [.dataEnd out.length rejection])
    ∧ (∀ e ∈ new, e.isEnd = false)
    ∧ (rejection = none ↔ bad = false ∧ fits maxSize out.length)
    ∧ (rejection = none → bodyOf new = out)

/-- **`scanData`** on a buffer from its offset on. -/
theorem scanData_follows (hi : r.offset ≤ buf.length) (hopen : Open maxSize queue r)
    (hds : r.ds = c.ds) (h : Follows maxSize old sent c.out [] c.bad r) :
    match scan dataStep c (buf.drop r.offset) with
    | .more c' => (r.scanData buf).offset = buf.length ∧ Open maxSize queue (r.scanData buf)
        ∧ (r.scanData buf).ds = c'.ds
        ∧ Follows maxSize old sent c'.out [] c'.bad (r.scanData buf)
    | .stop c' left => (r.scanData buf).offset ≤ buf.length
        ∧ buf.drop (r.scanData buf).offset = left ∧ (r.scanData buf).events ≠ []
        ∧ Closed maxSize old sent c'.out c'.bad queue (r.scanData buf) := by
  have hm : Mirrors maxSize old sent queue buf r.offset r.offset c r :=
    ⟨hopen, hds, Nat.le_refl _, fun _ => rfl, by rwa [subarray_self]⟩
  have hloop := scanDataLoop_follows rfl hi hm
  cases hscan : scan dataStep c (buf.drop r.offset) with
  | more c' =>
    rw [hscan] at hloop
    obtain ⟨r', runStart', heq, h'⟩ := hloop
    unfold scanData
    rw [heq]
    have ho := h'.isOpen.emit (subarray buf runStart' buf.length)
    have hf := h'.follows.emit h'.isOpen.maxSize
    refine ⟨by simp, ?_, by simpa using h'.ds, ?_⟩
    · exact Open.reportRejection { ho with }
    · exact Follows.reportRejection { hf with }
  | stop c' left =>
    rw [hscan] at hloop
    obtain ⟨r', i', runStart', heq, hle, hdrop, ho, hf⟩ := hloop
    unfold scanData
    rw [heq]
    simp only [if_true]
    have ho' : Open maxSize queue (SmtpLineReader.reportRejection { r' with offset := i' }) :=
      Open.reportRejection { ho with }
    have hf' : Follows maxSize old sent c'.out [] c'.bad
        (SmtpLineReader.reportRejection { r' with offset := i' }) :=
      Follows.reportRejection { hf with }
    have hoff := reportRejection_offset { r' with offset := i' }
    generalize SmtpLineReader.reportRejection { r' with offset := i' } = R at ho' hf' hoff ⊢
    have hsize : R.size = c'.out.length := by simpa using hf'.size
    obtain ⟨new, hnew, hend, hbody⟩ := hf'.log
    rw [append_nil] at hbody
    refine ⟨hoff ▸ hle, hoff ▸ hdrop, by simp, rfl, ho'.queue,
      ⟨ho'.lineBuf, ho'.cmdCR, ho'.discarding⟩, new, R.rejection, ?_, hend, ?_, hbody⟩
    · rw [hsize, ← append_assoc, hnew, append_assoc]
    · rw [hf'.rejection, hsize]

end Loop

/-! ## Whole runs

`s` is what was received after `startData`: the octets pending at that moment and
everything pushed since. -/

section Runs

variable {maxSize : Option ℕ} {old sent : List LineReaderEvent} {s : List UInt8}
  {r r' : SmtpLineReader}
variable {r₀ : SmtpLineReader} {head : List UInt8} {tail : List (List UInt8)}

/-- No terminator was met in the octets consumed so far. -/
structure Streaming (maxSize : Option ℕ) (old : List LineReaderEvent) (s : List UInt8)
    (sent : List LineReaderEvent) (r : SmtpLineReader) : Prop where
  bounded : r.Bounded
  isOpen : Open maxSize r.queue r
  core : ∃ consumed c, s = consumed ++ r.pending ∧ scan dataStep {} consumed = .more c
    ∧ r.ds = c.ds ∧ Follows maxSize old sent c.out [] c.bad r

/-- The terminator was met; what follows it is pending. -/
structure Ended (maxSize : Option ℕ) (old : List LineReaderEvent) (s : List UInt8)
    (sent : List LineReaderEvent) (r : SmtpLineReader) : Prop where
  bounded : r.Bounded
  core : ∃ c, scan dataStep {} s = .stop c r.pending
    ∧ Closed maxSize old sent c.out c.bad r.queue r

/-- The reader after `startData`, with no event lost: streaming, or ended with
data-end still to be delivered. -/
def InPhase (maxSize : Option ℕ) (old : List LineReaderEvent) (s : List UInt8)
    (sent : List LineReaderEvent) (r : SmtpLineReader) : Prop :=
  Streaming maxSize old s sent r ∨ (Ended maxSize old s sent r ∧ r.events ≠ [])

/-- `startData` begins the stream. -/
theorem streaming_startData (hr : r.Bounded)
    (h : r.startData maxSize = .ok r₀) : Streaming maxSize r.events r.pending [] r₀ := by
  unfold startData at h
  split_ifs at h with hcond
  simp only [not_or, not_not, Bool.not_eq_true] at hcond
  obtain ⟨-, hbuf, hcr, hdis⟩ := hcond
  injection h with h
  subst h
  have hfits : fits maxSize 0 := fun _ _ => Nat.zero_le _
  refine ⟨hr, ⟨rfl, rfl, rfl, eq_nil_of_length_eq_zero hbuf, hcr, hdis⟩,
    [], {}, rfl, rfl, rfl, ⟨rfl, by simpa using hfits, [], by simp, by simp, by simp⟩⟩

/-- `scanData` on the first buffer goes on streaming or ends the stream. -/
theorem Streaming.scanData (h : Streaming maxSize old s sent r) (hq : r.queue = head :: tail) :
    InPhase maxSize old s sent (r.scanData head)
      ∧ (r.offset < head.length → (r.scanData head).pending.length < r.pending.length) := by
  have hle := (bounded_iff_of_cons hq).mp h.bounded
  have hq' := (scanData_queue r head).trans hq
  have hb' := h.bounded.scanData hq
  have hpend' := pending_cons hq' (scanData_offset_le hle)
  obtain ⟨consumed, c, hs, hscan, hds, hf⟩ := h.core
  have hsplit : s = consumed ++ head.drop r.offset ++ tail.flatten := by
    rw [hs, pending_cons hq hle, append_assoc]
  have hdata := scanData_follows hle h.isOpen hds hf
  cases hrest : scan dataStep c (head.drop r.offset) with
  | more c' =>
    rw [hrest] at hdata
    obtain ⟨hoff, hopen, hds', hf'⟩ := hdata
    rw [hoff, drop_length, nil_append] at hpend'
    refine ⟨.inl ⟨hb', (scanData_queue r head).symm ▸ hopen, consumed ++ head.drop r.offset, c',
      by rw [hsplit, hpend'], by rw [scan_append_of_more _ hscan, hrest], hds', hf'⟩, ?_⟩
    intro hlt
    rw [hpend', pending_cons hq hle, length_append, length_drop]
    omega
  | stop c' left =>
    rw [hrest] at hdata
    obtain ⟨-, hdrop, hev, hclosed⟩ := hdata
    rw [hdrop] at hpend'
    have hscan' : scan dataStep {} s = .stop c' (left ++ tail.flatten) := by
      rw [hsplit, scan_append_of_stop _ ((scan_append_of_more _ hscan).trans hrest)]
    refine ⟨.inr ⟨⟨hb', c', by rw [hscan', hpend'], (scanData_queue r head).symm ▸ hclosed⟩, hev⟩,
      ?_⟩
    intro _
    have hlt := length_lt_of_scan_stop hrest
    rw [hpend', pending_cons hq hle, length_append, length_append]
    omega

variable {e : LineReaderEvent} {es : List LineReaderEvent} {p : ℕ}

/-- Delivering a queued event only moves it from the reader to the log. -/
theorem InPhase.deliver (h : InPhase maxSize old s sent r) (hev : r.events = e :: es) :
    Streaming maxSize old s (sent ++ [e]) { r with events := es }
      ∨ Ended maxSize old s (sent ++ [e]) { r with events := es } := by
  have hmove : sent ++ [e] ++ es = sent ++ r.events := by rw [hev]; simp
  rcases h with h | ⟨h, -⟩
  · obtain ⟨consumed, c, hs, hscan, hds, hf⟩ := h.core
    obtain ⟨new, hnew, hend, hbody⟩ := hf.log
    have ho := h.isOpen
    exact .inl ⟨h.bounded, ⟨ho.mode, ho.maxSize, rfl, ho.lineBuf, ho.cmdCR, ho.discarding⟩,
      consumed, c, hs, hscan, hds, hf.size, hf.rejection, new, hmove.trans hnew, hend, hbody⟩
  · obtain ⟨c, hscan, hc⟩ := h.core
    obtain ⟨new, rejection, hnew, hrest⟩ := hc.log
    exact .inr ⟨h.bounded, c, hscan, hc.mode, rfl, hc.boundary, new, rejection, hmove.trans hnew,
      hrest⟩

/-- Dropping a used-up buffer changes nothing. -/
theorem Streaming.drop (h : Streaming maxSize old s sent r) (hq : r.queue = head :: tail)
    (hoff : r.offset ≥ head.length) :
    Streaming maxSize old s sent { r with queue := tail, offset := 0 } := by
  obtain ⟨consumed, c, hs, hscan, hds, hf⟩ := h.core
  have ho := h.isOpen
  refine ⟨Bounded.drop r tail, ⟨ho.mode, ho.maxSize, rfl, ho.lineBuf, ho.cmdCR, ho.discarding⟩,
    consumed, c, ?_, hscan, hds, hf.size, hf.rejection, hf.log⟩
  rw [pending_drop hq h.bounded hoff]
  exact hs

theorem InPhase.streaming (h : InPhase maxSize old s sent r) (hev : r.events = []) :
    Streaming maxSize old s sent r := by
  rcases h with h | ⟨-, hne⟩
  · exact h
  · exact absurd hev hne

/-- **One call of `next`** delivers the next event of the stream, or has consumed
everything received without meeting the terminator. -/
theorem InPhase.next (h : InPhase maxSize old s sent r) :
    match r.next with
    | (none, r') => Streaming maxSize old s sent r' ∧ r'.pending = []
    | (some e, r') => (Streaming maxSize old s (sent ++ [e]) r'
      ∨ Ended maxSize old s (sent ++ [e]) r')
        ∧ (r.events = [] → r'.pending.length < r.pending.length) := by
  have key := next_induct
    (P := fun x => InPhase maxSize old s sent x ∧ x.pending.length ≤ r.pending.length
      ∧ (x.events ≠ r.events → x.pending.length < r.pending.length))
    (Q := fun o x => match o with
      | none => Streaming maxSize old s sent x ∧ x.pending = []
      | some e => (Streaming maxSize old s (sent ++ [e]) x ∨ Ended maxSize old s (sent ++ [e]) x)
          ∧ (r.events = [] → x.pending.length < r.pending.length))
    ?_ ?_ ?_ ?_ ?_ ?_ r ⟨h, Nat.le_refl _, fun hne => absurd rfl hne⟩
  · cases hn : r.next with
    | mk o r' =>
      rw [hn] at key
      cases o with
      | none => exact key
      | some e => exact key
  · intro x e es hx hev
    refine ⟨hx.1.deliver hev, fun hr => ?_⟩
    exact hx.2.2 (by rw [hev, hr]; simp)
  · intro x hx hev hq
    refine ⟨hx.1.streaming hev, ?_⟩
    simp [pending, hq]
  · intro x head tail hx hev hq hoff
    have hs := hx.1.streaming hev
    have hp := pending_drop hq hs.bounded hoff
    refine ⟨.inl (hs.drop hq hoff), ?_, ?_⟩
    · rw [hp]
      exact hx.2.1
    · intro hne
      rw [hp]
      exact hx.2.2 hne
  · intro x head tail x' e hx hev _ _ hm _
    have := (hx.1.streaming hev).isOpen.mode
    rw [hm] at this
    cases this
  · intro x head tail x' hx hev _ _ hm _
    have := (hx.1.streaming hev).isOpen.mode
    rw [hm] at this
    cases this
  · intro x head tail hx hev hq hlt _
    obtain ⟨hp, hdec⟩ := (hx.1.streaming hev).scanData hq
    have hlt' := Nat.lt_of_lt_of_le (hdec hlt) hx.2.1
    exact ⟨hp, Nat.le_of_lt hlt', fun _ => hlt'⟩

theorem InPhase.push (h : InPhase maxSize old s sent r) (chunk : List UInt8) :
    InPhase maxSize old (s ++ chunk) sent (r.push chunk) := by
  by_cases hc : chunk.length = 0
  · have hr : r.push chunk = r := by rw [SmtpLineReader.push, if_pos hc]
    rwa [hr, eq_nil_of_length_eq_zero hc, append_nil]
  have hbounded : r.Bounded := h.elim (·.bounded) (·.1.bounded)
  have hp := pending_push hbounded chunk
  have hb := hbounded.push chunk
  unfold SmtpLineReader.push at hp hb ⊢
  rw [if_neg hc] at hp hb ⊢
  rcases h with h | ⟨h, hne⟩
  · obtain ⟨consumed, c, hs, hscan, hds, hf⟩ := h.core
    have ho := h.isOpen
    refine .inl ⟨hb, ⟨ho.mode, ho.maxSize, rfl, ho.lineBuf, ho.cmdCR, ho.discarding⟩,
      consumed, c, ?_, hscan, hds, hf.size, hf.rejection, hf.log⟩
    rw [hp, hs, append_assoc]
  · obtain ⟨c, hscan, hcl⟩ := h.core
    refine .inr ⟨⟨hb, c, ?_, hcl.mode, rfl, hcl.boundary, hcl.log⟩, hne⟩
    rw [hp, scan_append_of_stop _ hscan]

/-- Any use of a reader from `r₀` on: `push` and `next` in any order. `received` is
what was pushed, `es` the events `next` returned. -/
inductive Run (r₀ : SmtpLineReader) : List UInt8 → List LineReaderEvent → SmtpLineReader → Prop
  | start : Run r₀ [] [] r₀
  | push {received : List UInt8} {es : List LineReaderEvent} {r : SmtpLineReader}
      (chunk : List UInt8) : Run r₀ received es r → Run r₀ (received ++ chunk) es (r.push chunk)
  | next {received : List UInt8} {es : List LineReaderEvent} {r r' : SmtpLineReader}
      {e : LineReaderEvent} :
      Run r₀ received es r → r.next = (some e, r') → Run r₀ received (es ++ [e]) r'
  | wait {received : List UInt8} {es : List LineReaderEvent} {r r' : SmtpLineReader} :
      Run r₀ received es r → r.next = (none, r') → Run r₀ received es r'

/-- Calling `next` again and again. -/
inductive Delivers : SmtpLineReader → List LineReaderEvent → SmtpLineReader → Prop
  | nil (r : SmtpLineReader) : Delivers r [] r
  | cons {r r' r'' : SmtpLineReader} {e : LineReaderEvent} {es : List LineReaderEvent} :
      r.next = (some e, r') → Delivers r' es r'' → Delivers r (e :: es) r''

/-- The delivered events that belong to this stream hold no data-end yet. -/
def Unfinished (old sent : List LineReaderEvent) : Prop :=
  ∀ e ∈ sent.drop old.length, e.isEnd = false

theorem unfinished_append_iff (es : List LineReaderEvent) :
    Unfinished old (old ++ es) ↔ ∀ e ∈ es, e.isEnd = false := by
  rw [Unfinished, drop_left]

theorem Unfinished.of_snoc (h : Unfinished old (sent ++ [e])) : Unfinished old sent := by
  intro x hx
  refine h x ?_
  rw [drop_append]
  exact mem_append_left _ hx

/-- An ended stream whose data-end was not delivered still has it queued. -/
theorem Ended.events_ne_nil (h : Ended maxSize old s sent r) (hun : Unfinished old sent) :
    r.events ≠ [] := by
  intro hnil
  obtain ⟨c, -, hc⟩ := h.core
  obtain ⟨new, rejection, hlog, -⟩ := hc.log
  rw [hnil, append_nil] at hlog
  rw [hlog, unfinished_append_iff] at hun
  have := hun (.dataEnd c.out.length rejection) (by simp)
  simp [LineReaderEvent.isEnd] at this

/-- **The run lemma**: any use keeps the stream's phase until data-end is delivered. -/
theorem Run.inPhase {received : List UInt8}
    (h₀ : Streaming maxSize old s [] r₀) (hrun : Run r₀ received es r) (hun : Unfinished old es) :
    InPhase maxSize old (s ++ received) es r := by
  induction hrun with
  | start =>
    rw [append_nil]
    exact .inl h₀
  | push chunk _ ih =>
    rw [← append_assoc]
    exact (ih hun).push chunk
  | next _ hn ih =>
    have h := (ih hun.of_snoc).next
    rw [hn] at h
    rcases h.1 with hs | he
    · exact .inl hs
    · exact .inr ⟨he, he.events_ne_nil hun⟩
  | wait _ hn ih =>
    have h := (ih hun).next
    rw [hn] at h
    exact .inl h.1

/-- What the delivered data-end says. -/
theorem InPhase.dataEnd {size : ℕ} {rejection : Option DataRejection}
    (h : InPhase maxSize old s (old ++ es) r) (hn : r.next = (some (.dataEnd size rejection), r')) :
    ∃ c, scan dataStep {} s = .stop c r'.pending ∧ r'.mode = .command ∧ r'.events = []
      ∧ size = c.out.length
      ∧ (rejection = none ↔ c.bad = false ∧ fits maxSize c.out.length)
      ∧ (rejection = none → bodyOf es = c.out) := by
  have h' := h.next
  rw [hn] at h'
  rcases h'.1 with hs | he
  · -- while streaming no event of the stream is a data-end
    obtain ⟨_, _, -, -, -, hf⟩ := hs.core
    obtain ⟨new, hnew, hend, -⟩ := hf.log
    have hmem : LineReaderEvent.dataEnd size rejection ∈ new := by
      rw [append_assoc, append_assoc, append_cancel_left_eq] at hnew
      rw [← hnew]
      simp
    have := hend _ hmem
    simp [LineReaderEvent.isEnd] at this
  · obtain ⟨c, hscan, hc⟩ := he.core
    obtain ⟨new, rej, hlog, hend, hrej, hbody⟩ := hc.log
    rw [append_assoc, append_assoc, append_cancel_left_eq] at hlog
    rcases eq_nil_or_concat r'.events with hnil | ⟨u, x, hu⟩
    · rw [hnil, append_nil] at hlog
      obtain ⟨rfl, hlast⟩ := append_inj' hlog rfl
      have hlast : size = c.out.length ∧ rejection = rej := by simpa using hlast
      obtain ⟨rfl, rfl⟩ := hlast
      exact ⟨c, hscan, hc.mode, hnil, rfl, hrej, hbody⟩
    · -- data-end is the last event of its stream
      rw [hu, concat_eq_append, ← append_assoc, ← append_assoc] at hlog
      obtain ⟨hnew, -⟩ := append_inj' hlog rfl
      have := hend (.dataEnd size rejection) (by rw [← hnew]; simp)
      simp [LineReaderEvent.isEnd] at this

theorem next_of_events (hev : r.events = e :: es) : r.next = (some e, { r with events := es }) := by
  rw [SmtpLineReader.next, nextLoop, hev]

/-- When the terminator has been received, `next` has an event: data-end, or one
after which the stream is still in phase. -/
theorem InPhase.next_some (hp : FirstEnd s p) (h : InPhase maxSize old s (old ++ es) r)
    (hes : ∀ e ∈ es, e.isEnd = false) : ∃ e r', r.next = (some e, r')
      ∧ (r'.pending.length < r.pending.length
        ∨ r'.pending.length = r.pending.length ∧ r'.events.length < r.events.length)
      ∧ ((∃ size rejection, e = .dataEnd size rejection)
        ∨ e.isEnd = false ∧ InPhase maxSize old s (old ++ (es ++ [e])) r') := by
  have h' := h.next
  cases hnext : r.next with
  | mk o r' =>
    rw [hnext] at h'
    cases o with
    | none =>
      -- everything was consumed without a terminator
      obtain ⟨hs, hpend⟩ := h'
      obtain ⟨consumed, c, hcons, hscan, -⟩ := hs.core
      rw [hpend, append_nil] at hcons
      exact absurd hp ((scan_dataStep_spec s).1 c (hcons ▸ hscan) p)
    | some e =>
      obtain ⟨hph, hlt⟩ := h'
      have hless : r'.pending.length < r.pending.length
          ∨ r'.pending.length = r.pending.length ∧ r'.events.length < r.events.length := by
        rcases hev : r.events with _ | ⟨e', rest⟩
        · exact .inl (hlt hev)
        · rw [next_of_events hev] at hnext
          obtain ⟨-, rfl⟩ := Prod.mk.inj hnext
          exact .inr ⟨rfl, Nat.lt_succ_self _⟩
      refine ⟨e, r', rfl, hless, ?_⟩
      by_cases he : e.isEnd = true
      · left
        cases e with
        | dataEnd size rejection => exact ⟨size, rejection, rfl⟩
        | _ => simp [LineReaderEvent.isEnd] at he
      · right
        have he : e.isEnd = false := by simpa using he
        have hes' : ∀ x ∈ es ++ [e], x.isEnd = false := by
          rw [forall_mem_append, forall_mem_singleton]
          exact ⟨hes, he⟩
        rw [append_assoc] at hph
        refine ⟨he, ?_⟩
        rcases hph with hs | hend
        · exact .inl hs
        · exact .inr ⟨hend, hend.events_ne_nil ((unfinished_append_iff _).mpr hes')⟩

/-- **`next` gets to data-end** once the terminator has been received. -/
theorem InPhase.delivers (hp : FirstEnd s p) (h : InPhase maxSize old s (old ++ es) r)
    (hes : ∀ e ∈ es, e.isEnd = false) :
    ∃ es' size rejection r', Delivers r (es' ++ [.dataEnd size rejection]) r'
      ∧ ∀ e ∈ es', e.isEnd = false := by
  -- outer induction on the octets to consume, inner on the events to deliver
  induction hn : r.pending.length using Nat.strongRecOn generalizing r es with
  | ind n ihn =>
  induction hk : r.events.length using Nat.strongRecOn generalizing r es with
  | ind k ihk =>
    obtain ⟨e, r', hnext, hless, ⟨size, rejection, rfl⟩ | ⟨he, h'⟩⟩ := h.next_some hp hes
    · exact ⟨[], size, rejection, r', .cons hnext (.nil r'), by simp⟩
    · have hes' : ∀ x ∈ es ++ [e], x.isEnd = false := by simpa [or_imp, forall_and] using ⟨hes, he⟩
      obtain ⟨es', size, rejection, r'', hd, hend⟩ :=
        hless.elim (fun hlt => ihn _ (hn ▸ hlt) h' hes' rfl)
        fun hlt => ihk _ (hk ▸ hlt.2) h' hes' (hlt.1.trans hn) rfl
      exact ⟨e :: es', size, rejection, r'', .cons hnext hd, by simpa using ⟨he, hend⟩⟩

/-- **DATA framing is exact.** Whatever the chunks and however `push` and `next`
are interleaved, data-end is delivered for the first terminator of the stream and
only then; it leaves exactly the octets after the terminator for command mode and
reports the unstuffed size, and the message is accepted precisely when the body is
clean and fits, in which case the data events are the unstuffed body. All of this
is said of the stream `s` alone. -/
theorem data_framing_exact {r₀ : SmtpLineReader} {received : List UInt8}
    {es : List LineReaderEvent} (hr : Reachable r) (h₀ : r.startData maxSize = .ok r₀)
    (hrun : Run r₀ received (r.events ++ es) r') (hes : ∀ e ∈ es, e.isEnd = false)
    (hs : s = r.pending ++ received) :
    (∀ size rejection r'', r'.next = (some (.dataEnd size rejection), r'') →
      ∃ p, FirstEnd s p ∧ (∀ q, FirstEnd s q → q = p) ∧ r''.mode = .command ∧ r''.pending = s.drop p
        ∧ size = (unstuff (s.take (p - 3))).length
        ∧ (rejection = none ↔ ¬ Spoiled (s.take (p - 3)) ∧ fits maxSize size)
        ∧ (rejection = none → bodyOf es = unstuff (s.take (p - 3))))
      ∧ (∀ r'', r'.next = (none, r'') → r''.mode = .data ∧ ∀ p, ¬ FirstEnd s p)
      ∧ ∀ p, FirstEnd s p → ∃ es' size rejection r'',
          Delivers r' (es' ++ [.dataEnd size rejection]) r'' ∧ ∀ e ∈ es', e.isEnd = false := by
  have hph : InPhase maxSize r.events s (r.events ++ es) r' := by
    rw [hs]
    exact hrun.inPhase (streaming_startData hr.bounded h₀) ((unfinished_append_iff es).mpr hes)
  refine ⟨?_, ?_, ?_⟩
  · intro size rejection r'' hn
    obtain ⟨c, hscan, hmode, -, hsize, hrej, hbody⟩ := hph.dataEnd hn
    obtain ⟨body, hsplit, hfirst, hout, hbad⟩ := (scan_dataStep_spec s).2 c r''.pending hscan
    have htake : s.take (body.length + 3 - 3) = body := by
      rw [hsplit, append_assoc, Nat.add_sub_cancel, take_left]
    refine ⟨body.length + 3, hfirst, fun q hq => hq.unique hfirst, hmode, ?_, ?_, ?_, ?_⟩
    · rw [hsplit]
      exact (drop_left' (by simp)).symm
    · rw [htake, hsize, hout]
    · rw [htake, hrej, hsize, ← hbad, Bool.not_eq_true]
    · rw [htake, ← hout]
      exact hbody
  · intro r'' hn
    have h := hph.next
    rw [hn] at h
    obtain ⟨hstr, hpend⟩ := h
    obtain ⟨consumed, c, hcons, hscan, -⟩ := hstr.core
    rw [hpend, append_nil] at hcons
    exact ⟨hstr.isOpen.mode, (scan_dataStep_spec s).1 c (hcons ▸ hscan)⟩
  · intro p hp
    exact hph.delivers hp hes

/-- "a<CRLF>.<CRLF>Q" pushed in two chunks that cut the terminator. -/
theorem data_framing_exact_cut_terminator : ∃ r₀ r' r'', startData {} (some 100) = .ok r₀
      ∧ Run r₀ [97, 13, 10, 46, 13, 10, 81] [.data [97, 13, 10]] r'
      ∧ r'.next = (some (.dataEnd 3 none), r'')
      ∧ ∃ p, FirstEnd [97, 13, 10, 46, 13, 10, 81] p
          ∧ r''.pending = [97, 13, 10, 46, 13, 10, 81].drop p := by
  have hstart : Run { mode := .data, maxSize := some 100 } [] [] _ := .start
  have hrun := Run.next ((hstart.push [97, 13, 10, 46]).push [13, 10, 81]) rfl
  obtain ⟨p, hp, -, -, hpend, -⟩ :=
    (@data_framing_exact (some 100) [97, 13, 10, 46, 13, 10, 81] {} _
    _ _ [.data [97, 13, 10]] (.new _) rfl hrun (by decide) rfl).1 3 none _ rfl
  exact ⟨_, _, _, rfl, hrun, rfl, p, hp, hpend⟩

end Runs

end Postroom.Smtp
