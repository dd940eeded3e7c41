/-
The events do not depend on how the input was cut.

The parser's `process` is followed slice by slice (`agrees_pieces`), a session is
the process with two counters beside it, and of the options a slice can only see
those that are not the slice size. Together: for two ways of writing the same
message, neither of which loses a delimiter at a cut, the events are the same once
adjacent body events are joined (`parse_chunking_invariant`). The condition on the
cuts cannot be left out (`parse_depends_on_cut`).
-/
import Postroom.Lib.Strings
import Postroom.Mime.Padding

set_option autoImplicit false

namespace Postroom.Mime

open Lib Emits List

section

variable {rt : Runtime} {o : ParseOptions} {s : MimeParser} {before : Bytes}

/-! ## Cutting one slice in two -/

/-- The parser after this much input, however it was cut. -/
abbrev HasRead (before : Bytes) (s : MimeParser) : Prop :=
  Reading (couldBeWithin none) (openLine before) s

theorem hasRead_unlimited (h : HasRead before s) (buf : Bytes) :
    HasRead (before ++ buf) (process rt o (couldBeWithin none) buf s).1 := by
  rw [HasRead, openLine_append]
  exact reading_feed (l := ⟨rt, o, couldBeWithin none, processNested rt o _ 2⟩) judge_unlimited
    (resumes_processNested judge_unlimited _) buf h

/-- `process` gives a line up where the unlimited one would go on keeping it. -/
theorem process_eq_giveUp (h : HasRead before s) {buf : Bytes} (hbuf : buf ≠ []) :
    process rt o couldBeDelimiter buf s
      = (process rt o (couldBeWithin none) buf >> giveUp couldBeDelimiter) s :=
  processNested_strict judge_unlimited couldBeWithin_of_couldBeDelimiter NESTING hbuf h.toSteady
    (.inl (by decide))

theorem process_nil : process rt o couldBeDelimiter [] = Emits.skip := rfl

theorem hasRead_process (h : HasRead before s) (buf : Bytes) :
    HasRead (before ++ buf) (process rt o couldBeDelimiter buf s).1 := by
  by_cases hbuf : buf = []
  · rw [hbuf, process_nil, append_nil]
    exact h
  · rw [process_eq_giveUp h hbuf, andThen_fst]
    exact (hasRead_unlimited h buf).giveUp (lf_notMem_openLine _)

/-- Giving the open line up makes no difference, unless it would have become a
delimiter. -/
theorem agrees_giveUp (h : HasRead before s) {after : Bytes} (hafter : after ≠ [])
    (hcut : losesDelimiter s (openLine before) after = false) :
    Agrees (process rt o couldBeDelimiter after)
      (giveUp couldBeDelimiter >> process rt o couldBeDelimiter after) s := by
  obtain ⟨x, rest, rfl⟩ := exists_cons_of_ne_nil hafter
  by_cases hg : s.top.mode ≠ .headers ∧ s.atLineStart = true ∧ s.carry ≠ []
      ∧ couldBeDelimiter s.delimiters s.carry = false
  · have hfire : giveUp couldBeDelimiter s = (clear >> releaseCandidate s.carry) s := if_pos hg
    obtain ⟨hm, hs, hc, hno⟩ := hg
    have hkept := h.kept hm hs
    obtain ⟨hd, -⟩ := h.candidate hm hc
    have hlf : s.carry.getLast? ≠ some LF := by
      rw [hkept]
      exact fun he => lf_notMem_openLine _ (mem_of_getLast? he)
    have habandon :
        Agrees (Loop.feed ⟨rt, o, couldBeDelimiter, processNested rt o couldBeDelimiter 2⟩
        (x :: rest)) _ s :=
      (h.lineStart hm hs hd).agrees_abandon hc hlf x rest
      (fun _ => by
        -- a longer line is given up all the more
        by_contra hyes
        rw [Bool.not_eq_false] at hyes
        exact Bool.false_ne_true (hno.symm.trans (couldBeWithin_initial _ _ _ _ hyes)))
      (fun hend => by
        by_contra hmatch
        rw [hkept] at hno hmatch
        have hlost : losesDelimiter s (openLine before) (x :: rest) = true := by
          simp only [losesDelimiter, Bool.and_eq_true, decide_eq_true_eq, Bool.not_eq_true']
          exact ⟨⟨⟨hm, hno⟩, hend⟩, Option.isSome_iff_ne_none.mpr hmatch⟩
        exact Bool.false_ne_true (hcut.symm.trans hlost))
    refine AgreeAt.trans habandon (AgreeAt.of_eq ?_)
    rw [andThen_apply, andThen_apply (giveUp couldBeDelimiter), hfire]
    rfl
  · have hskip : giveUp couldBeDelimiter s = (s, []) := if_neg hg
    refine AgreeAt.of_eq ?_
    rw [andThen_apply, hskip]
    rfl

/-- **One cut.** -/
theorem agrees_cut (h : HasRead before s) (a b : Bytes)
    (hcut : losesDelimiter (process rt o couldBeDelimiter a s).1 (openLine (before ++ a)) b
      = false) :
    Agrees (process rt o couldBeDelimiter (a ++ b))
      (process rt o couldBeDelimiter a >> process rt o couldBeDelimiter b) s := by
  by_cases ha : a = []
  · rw [ha, process_nil, skip_andThen]
    exact AgreeAt.refl _ _
  by_cases hb : b = []
  · rw [hb, process_nil, andThen_skip, append_nil]
    exact AgreeAt.refl _ _
  have hmid : HasRead (before ++ a) (process rt o (couldBeWithin none) a s).1 :=
    hasRead_unlimited h a
  have hwhole : process rt o couldBeDelimiter (a ++ b) s = _ := process_eq_giveUp h (by simp [ha])
  have hfirst : process rt o couldBeDelimiter a s = _ := process_eq_giveUp h ha
  have hsecond : process rt o couldBeDelimiter b _ = _ := process_eq_giveUp hmid hb
  have hlax : Agrees (process rt o (couldBeWithin none) (a ++ b))
      (process rt o (couldBeWithin none) a >> process rt o (couldBeWithin none) b) s :=
    feed_append (l := ⟨rt, o, couldBeWithin none, processNested rt o _ 2⟩) judge_unlimited
      (resumes_processNested judge_unlimited _) a b h.toSteady
  rw [hfirst, andThen_fst, losesDelimiter_giveUp] at hcut
  refine (AgreeAt.of_eq hwhole).trans (hlax.before.trans ?_)
  rw [andThen_assoc]
  refine (AgreeAt.after (AgreeAt.of_eq hsecond.symm)).trans ?_
  refine (AgreeAt.after (agrees_giveUp hmid hb hcut)).trans ?_
  rw [← andThen_assoc]
  exact (AgreeAt.before (AgreeAt.of_eq hfirst)).symm

/-- No delimiter is lost at the beginning of any of the pieces, when the parser `s` has
read the octets `before` and then reads the pieces one by one. -/
def fairFrom (rt : Runtime) (o : ParseOptions) : MimeParser → Bytes → List Bytes → Bool
  | _, _, [] => true
  | s, before, p :: ps =>
    !losesDelimiter s (openLine before) (p :: ps).flatten
      && fairFrom rt o (process rt o couldBeDelimiter p s).1 (before ++ p) ps

theorem fairFrom_head {pieces : List Bytes} (h : fairFrom rt o s before pieces = true) :
    losesDelimiter s (openLine before) pieces.flatten = false := by
  cases pieces with
  | nil => exact losesDelimiter_end s _
  | cons p ps =>
    rw [fairFrom, Bool.and_eq_true, Bool.not_eq_true'] at h
    exact h.1

/-- **Any cuts.** By induction on the pieces. -/
theorem agrees_pieces (h : HasRead before s) (pieces : List Bytes)
    (hcuts : fairFrom rt o s before pieces = true) :
    Agrees (readAll (process rt o couldBeDelimiter) pieces)
      (process rt o couldBeDelimiter pieces.flatten) s := by
  induction pieces generalizing before s with
  | nil =>
    rw [flatten_nil, process_nil, readAll_nil]
    exact AgreeAt.refl _ _
  | cons p ps ih =>
    rw [fairFrom, Bool.and_eq_true] at hcuts
    have hrest := ih (hasRead_process h p) hcuts.2
    rw [readAll_cons, flatten_cons]
    exact hrest.after.trans (agrees_cut h p ps.flatten (fairFrom_head hcuts.2)).symm

end

/-! ## The slice size -/

section Slices

variable (rt : Runtime) (o : ParseOptions) (n : ℕ)

theorem finishHeaders_slices : finishHeaders rt { o with sliceBytes := n } = finishHeaders rt o :=
  rfl

theorem finishOpen_slices (k : ℕ) : finishOpen rt { o with sliceBytes := n } k
    = finishOpen rt o k := by
  induction k with
  | zero => rfl
  | succ k ih => rw [finishOpen, finishOpen, ih, finishHeaders_slices]

theorem closeDown_slices (frameIndex : Option ℕ) (k : ℕ) :
    closeDown rt { o with sliceBytes := n } frameIndex k = closeDown rt o frameIndex k := by
  induction k with
  | zero => rfl
  | succ k ih =>
    have hpop : popTop { o with sliceBytes := n } = popTop o := rfl
    rw [closeDown, closeDown, ih, closeTop, closeTop, finishOpen_slices, hpop]

theorem closeParts_slices (frameIndex : Option ℕ) :
    closeParts rt { o with sliceBytes := n } frameIndex = closeParts rt o frameIndex := by
  unfold closeParts
  simp only [closeDown_slices]

theorem onDelimiter_slices (m : Match) : onDelimiter rt { o with sliceBytes := n } m
    = onDelimiter rt o m := by
  have henter : enterDelimiter { o with sliceBytes := n } m = enterDelimiter o m := rfl
  rw [onDelimiter, onDelimiter, closeParts_slices, henter]

theorem bodyLine_slices (line eol : Bytes) : bodyLine rt { o with sliceBytes := n } line eol
    = bodyLine rt o line eol := by
  unfold bodyLine
  simp only [onDelimiter_slices]

theorem headerLine_slices (reprocess : Bytes → Step) (line eol : Bytes) :
    headerLine rt { o with sliceBytes := n } reprocess line eol
      = headerLine rt o reprocess line eol := by
  have hbreak : ∀ message next, breakHeaders rt { o with sliceBytes := n } message next
      = breakHeaders rt o message next := fun _ _ => rfl
  have htext : headerText rt { o with sliceBytes := n } reprocess line eol
    = headerText rt o reprocess line eol := rfl
  unfold headerLine
  simp only [onDelimiter_slices, hbreak, htext, finishHeaders_slices]

theorem headerBytes_slices (reprocess : Bytes → Step) (seg : Bytes) :
    headerBytes rt { o with sliceBytes := n } reprocess seg = headerBytes rt o reprocess seg := by
  have hend : endHeaderLine rt { o with sliceBytes := n } reprocess
    = endHeaderLine rt o reprocess := by
    unfold endHeaderLine
    simp only [headerLine_slices]
  have hkeep : keepHeader { o with sliceBytes := n } seg = keepHeader o seg := rfl
  rw [headerBytes, headerBytes, hend, hkeep]

theorem process_slices (couldBe : List (Bytes × ℕ) → Bytes → Bool) :
    process rt { o with sliceBytes := n } couldBe = process rt o couldBe := by
  have htake : ∀ seg, takeCandidate rt { o with sliceBytes := n } couldBe seg
    = takeCandidate rt o couldBe seg := by
    intro seg
    unfold takeCandidate
    simp only [bodyLine_slices]
  have hloop : ∀ reprocess k buf, loop rt { o with sliceBytes := n } couldBe reprocess k buf
      = loop rt o couldBe reprocess k buf := by
    intro reprocess k
    induction k with
    | zero => exact fun _ => rfl
    | succ k ih =>
      intro buf
      rw [loop, loop]
      simp only [ih, headerBytes_slices, htake]
  have hnested : ∀ k, processNested rt { o with sliceBytes := n } couldBe k
    = processNested rt o couldBe k := by
    intro k
    induction k with
    | zero => rfl
    | succ k ih =>
      funext buf
      rw [processNested, processNested, ih, hloop]
  funext buf
  rw [process, process, hnested]

theorem endParser_slices : endParser rt { o with sliceBytes := n } = endParser rt o := by
  have hline : endLine rt { o with sliceBytes := n } = endLine rt o := by
    unfold endLine
    simp only [process_slices, headerLine_slices, bodyLine_slices]
  rw [endParser, endParser, hline, closeParts_slices]
end Slices

/-! ## What can be seen of a session -/

/-- Put a body event in front, joined to one of the same part. -/
def consBody (part : PartInfo) (chunk : Bytes) : List MimeEvent → List MimeEvent
  | .body part' chunk' :: more =>
    if part = part' then .body part (chunk ++ chunk') :: more
    else .body part chunk :: .body part' chunk' :: more
  | more => .body part chunk :: more

/-- Adjacent body events of one part as one event. -/
def joinBodies : List MimeEvent → List MimeEvent
  | [] => []
  | .body part chunk :: rest =>
    if chunk = [] then joinBodies rest else consBody part chunk (joinBodies rest)
  | e :: rest => e :: joinBodies rest

/-- Without the peak, and without the slice size in the bound. -/
def ParseStats.forget (o : ParseOptions) (stats : ParseStats) : ParseStats :=
  { stats with maxRetainedBytes := 0, retainedBound := stats.retainedBound - max 1 o.sliceBytes }

def MimeEvent.forget (o : ParseOptions) : MimeEvent → MimeEvent
  | .done stats => .done (stats.forget o)
  | e => e

/-- The events of a parse with these options, but for how the bodies were cut and
how much was held meanwhile. The statistics come last. -/
def seen (o : ParseOptions) (events : List MimeEvent) : List MimeEvent :=
  joinBodies (events.dropLast ++ (events.getLast?.map (MimeEvent.forget o)).toList)

theorem consBody_consBody (part : PartInfo) (a b : Bytes) (events : List MimeEvent) :
    consBody part a (consBody part b events) = consBody part (a ++ b) events := by
  have hjoin : ∀ chunk more, consBody part a (.body part chunk :: more)
      = .body part (a ++ chunk) :: more :=
    fun _ _ => if_pos rfl
  match events with
  | [] => exact hjoin b []
  | .body part' chunk' :: more =>
    by_cases hsame : part = part'
    · have hcons : ∀ c, consBody part c (.body part' chunk' :: more)
          = .body part (c ++ chunk') :: more :=
        fun _ => if_pos hsame
      rw [hcons, hcons, hjoin, append_assoc]
    · have hcons : ∀ c, consBody part c (.body part' chunk' :: more)
          = .body part c :: .body part' chunk' :: more :=
        fun _ => if_neg hsame
      rw [hcons, hcons, hjoin]
  | .headers p :: more => exact hjoin b (.headers p :: more)
  | .endPart p size :: more => exact hjoin b (.endPart p size :: more)
  | .warning w :: more => exact hjoin b (.warning w :: more)
  | .done stats :: more => exact hjoin b (.done stats :: more)

theorem joinBodies_octets (events : List MimeEvent) :
    joinBodies (events.flatMap MimeEvent.octets) = joinBodies events := by
  have hbody : ∀ part chunk rest, joinBodies ((chunk.map fun b => MimeEvent.body part [b]) ++ rest)
      = joinBodies (.body part chunk :: rest) := by
    intro part chunk rest
    induction chunk with
    | nil => rfl
    | cons b chunk ih =>
      have hone : joinBodies
          (.body part [b] :: ((chunk.map fun b => MimeEvent.body part [b]) ++ rest))
          = consBody part [b] (joinBodies ((chunk.map fun b => MimeEvent.body part [b]) ++ rest)) :=
        if_neg (cons_ne_nil _ _)
      rw [map_cons, cons_append, hone, ih, joinBodies, joinBodies, if_neg (cons_ne_nil b chunk)]
      split_ifs with hnil
      · rw [hnil]
      · rw [consBody_consBody]
        rfl
  induction events with
  | nil => rfl
  | cons e events ih =>
    rw [flatMap_cons]
    cases e with
    | body part chunk =>
      rw [MimeEvent.octets, hbody, joinBodies, joinBodies, ih]
    | headers part => exact congrArg (MimeEvent.headers part :: ·) ih
    | endPart part size => exact congrArg (MimeEvent.endPart part size :: ·) ih
    | warning w => exact congrArg (MimeEvent.warning w :: ·) ih
    | done stats => exact congrArg (MimeEvent.done stats :: ·) ih

section Sessions

variable (rt : Runtime) (o : ParseOptions)

/-- A session is the process, with what was read counted beside it. -/
theorem readAll_writeSlice (pieces : List Bytes) (t : Session) :
    (readAll (writeSlice rt o) pieces t).1.parser
      = (readAll (process rt o couldBeDelimiter) pieces t.parser).1
      ∧ (readAll (writeSlice rt o) pieces t).2
        = (readAll (process rt o couldBeDelimiter) pieces t.parser).2
      ∧ (readAll (writeSlice rt o) pieces t).1.bytesIn = t.bytesIn + pieces.flatten.length := by
  induction pieces generalizing t with
  | nil => exact ⟨rfl, rfl, rfl⟩
  | cons p ps ih =>
    obtain ⟨hparser, hout, hcount⟩ := ih (writeSlice rt o p t).1
    rw [readAll_cons, readAll_cons, andThen_apply, andThen_apply]
    refine ⟨hparser, ?_, ?_⟩
    · rw [hout]
      rfl
    · rw [hcount, flatten_cons, length_append, ← Nat.add_assoc]
      rfl

theorem flatten_slicesFrom (n : ℕ) (hn : 0 < n) (fuel : ℕ) (buf : Bytes)
    (hfuel : buf.length ≤ fuel) :
    (slicesFrom n fuel buf).flatten = buf := by
  induction fuel generalizing buf with
  | zero =>
    rw [length_eq_zero_iff.mp (Nat.le_zero.mp hfuel)]
    rfl
  | succ fuel ih =>
    rw [slicesFrom]
    split_ifs with hnil
    · rw [hnil]
      rfl
    · have hlen : (buf.drop n).length ≤ fuel := by
        rw [length_drop]
        omega
      rw [flatten_cons, ih _ hlen, take_append_drop]

theorem flatten_slices (chunks : List Bytes) :
    (chunks.flatMap (slices o)).flatten = chunks.flatten := by
  induction chunks with
  | nil => rfl
  | cons c cs ih =>
    have hc : (slices o c).flatten = c := flatten_slicesFrom _ (by omega) _ c le_rfl
    rw [flatMap_cons, flatten_append, ih, hc, flatten_cons]

/-- No delimiter is lost where a slice ends. -/
def FairCuts (chunks : List Bytes) : Prop := fairFrom rt o {} [] (chunks.flatMap (slices o)) = true

instance (chunks : List Bytes) : Decidable (FairCuts rt o chunks) :=
  inferInstanceAs (Decidable (_ = true))

theorem hasRead_new : HasRead [] ({} : MimeParser) :=
  AtStart.reading ⟨rfl, rfl, rfl, fun _ he => absurd he (by simp)⟩

theorem fairFrom_slices (n : ℕ) (pieces : List Bytes) (before : Bytes) (s : MimeParser) :
    fairFrom rt { o with sliceBytes := n } s before pieces = fairFrom rt o s before pieces := by
  induction pieces generalizing before s with
  | nil => rfl
  | cons p ps ih => rw [fairFrom, fairFrom, ih, process_slices]

/-- The events of a parse, from where the parser is at the end of the input and
the events up to there. -/
def report (bytesIn peak bound : ℕ) (run : MimeParser × List MimeEvent) : List MimeEvent :=
  run.2 ++ (endParser rt o run.1).2
    ++ [.done {
      bytesIn := bytesIn, parts := (endParser rt o run.1).1.parts, warnings :=
      (endParser rt o run.1).1.warnings
      maxRetainedBytes := peak, retainedBound := bound }]

theorem parse_eq (chunks : List Bytes) :
    ∃ peak, parse rt o chunks = report rt o chunks.flatten.length peak (retainedBound o)
      (readAll (process rt o couldBeDelimiter) (chunks.flatMap (slices o)) {}) := by
  obtain ⟨hparser, hout, hcount⟩ := readAll_writeSlice rt o (chunks.flatMap (slices o)) {}
  refine ⟨max (readAll (writeSlice rt o) (chunks.flatMap (slices o)) {}).1.peak
    (endParser rt o (readAll (process rt o couldBeDelimiter) (chunks.flatMap (slices o))
    {}).1).1.retainedBytes, ?_⟩
  rw [parse, readAll_write, andThen_snd, hout, endSession, hparser, hcount, flatten_slices, report,
    append_assoc,
    Nat.zero_add]

theorem seen_report (bytesIn peak bound : ℕ) (run : MimeParser × List MimeEvent) :
    seen o (report rt o bytesIn peak bound run) =
      joinBodies (report rt o bytesIn 0 (bound - max 1 o.sliceBytes) run) := by
  rw [seen, report, dropLast_concat, getLast?_concat]
  rfl

/-- Of a run only the octets matter. -/
theorem joinBodies_report {run run' : MimeParser × List MimeEvent} (hstate : run.1 = run'.1)
    (hout : run.2.flatMap MimeEvent.octets = run'.2.flatMap MimeEvent.octets)
    (bytesIn peak bound : ℕ) :
    joinBodies (report rt o bytesIn peak bound run)
      = joinBodies (report rt o bytesIn peak bound run') := by
  rw [← joinBodies_octets, ← joinBodies_octets (report rt o bytesIn peak bound run'), report,
    report,
    flatMap_append, flatMap_append, flatMap_append, flatMap_append, hstate, hout]

/-- The cuts of a fair parse cannot be seen. -/
theorem seen_parse (n : ℕ) (chunks : List Bytes)
    (hfair : FairCuts rt { o with sliceBytes := n } chunks) :
    seen { o with sliceBytes := n } (parse rt { o with sliceBytes := n } chunks) =
      joinBodies (report rt o chunks.flatten.length 0 (retainedBound { o with sliceBytes := 1 } - 1)
        (process rt o couldBeDelimiter chunks.flatten {})) := by
  rw [FairCuts, fairFrom_slices] at hfair
  have hagree : Agrees (readAll (process rt o couldBeDelimiter) _) _ ({} : MimeParser) :=
    agrees_pieces hasRead_new _ hfair
  have hreport : report rt { o with sliceBytes := n } = report rt o := by
    unfold report
    rw [endParser_slices]
  have hbound : retainedBound { o with sliceBytes := n } - max 1 n
    = retainedBound { o with sliceBytes := 1 } - 1 := by
    unfold retainedBound
    dsimp only
    omega
  rw [flatten_slices] at hagree
  obtain ⟨peak, hparse⟩ := parse_eq rt { o with sliceBytes := n } chunks
  rw [hparse, seen_report, hbound, hreport, process_slices]
  exact joinBodies_report rt o hagree.1 hagree.2 _ _ _

end Sessions

/-- **The events do not depend on the cuts.** For every message, every two ways
of writing it and every two slice sizes: if no delimiter is lost where a slice ends,
the same events are seen. -/
theorem parse_chunking_invariant (rt : Runtime) (o : ParseOptions) (n₁ n₂ : ℕ)
    (chunks₁ chunks₂ : List Bytes)
    (hsame : chunks₁.flatten = chunks₂.flatten)
    (h₁ : FairCuts rt { o with sliceBytes := n₁ } chunks₁)
    (h₂ : FairCuts rt { o with sliceBytes := n₂ } chunks₂) :
    seen { o with sliceBytes := n₁ } (parse rt { o with sliceBytes := n₁ } chunks₁)
      = seen { o with sliceBytes := n₂ } (parse rt { o with sliceBytes := n₂ } chunks₂) := by
  rw [seen_parse rt o n₁ chunks₁ h₁, seen_parse rt o n₂ chunks₂ h₂, hsame]

/-- A platform that knows ASCII and Latin-1. -/
def asciiRuntime : Runtime where
  utf8 := fun bytes => if bytes.all (· < 0x80) then some (bytes.map fun b => Char.ofNat b.toNat)
    else none
  toUtf8 := fun text => text.map fun c => UInt8.ofNat c.toNat
  decodeBytes := fun bytes _ => bytes.map fun b => Char.ofNat b.toNat
  decodeEncodedWords := fun text => text
  lowerOther := fun c => [c]

/-- A multipart message up to its first delimiter. -/
def upToDelimiter : Bytes := ascii "Content-Type: multipart/mixed; boundary=b\r\n\r\n--b"

/-- The rest of it, with one part. -/
def afterDelimiter : Bytes := ascii "\r\n\r\nhi there\r\n--b--\r\n"

/-- Behind 300 blanks of a line that only looks like a delimiter, or every seven
octets: the same. -/
theorem parse_chunking_invariant_small :
    let padded := upToDelimiter ++ ascii "\r\n\r\n--c" ++ List.replicate 300 SP
    seen { sliceBytes := 65536 } (parse asciiRuntime { sliceBytes := 65536 }
      [padded, afterDelimiter])
      = seen { sliceBytes := 7 } (parse asciiRuntime { sliceBytes := 7 }
        [padded ++ afterDelimiter]) :=
  parse_chunking_invariant asciiRuntime {} 65536 7 [_, afterDelimiter] [_ ++ afterDelimiter]
    (by decide +kernel) (by decide +kernel) (by decide +kernel)

/-- Behind 300 blanks after the delimiter: the part is lost. -/
theorem parse_depends_on_cut : let padded := upToDelimiter ++ List.replicate 300 SP
    seen {} (parse asciiRuntime {} [padded ++ afterDelimiter])
      ≠ seen {} (parse asciiRuntime {} [padded, afterDelimiter]) := by
  decide +kernel

end Postroom.Mime
