/-
`apps/delivery/src/client/dot-stuff.ts`: the DATA encoder of the outbound client,
and its round trip through the inbound reader.

The encoder is CRLF-normalising and dot-stuffing, one octet at a time, with a CR
carried from chunk to chunk. The reader's byte machine (`Smtp.dataStep`) is run
over what the encoder writes; `encoder_tracks` says that the two keep step, so
that at the end the machine stops on the last octet with the normalised message.
Everything about chunks on the reading side is `Smtp.DataFraming`.
-/
import Postroom.Smtp.DataFraming

set_option autoImplicit false

namespace Postroom.Delivery

open Lib Smtp List

/-! ## The encoder -/

structure DotStuffer where
  atLineStart : Bool := true
  pendingCR : Bool := false
  ended : Bool := false
  deriving DecidableEq, Repr

namespace DotStuffer

/-- One turn of `push`'s loop: the state after `b` and the octets written. -/
def pushByte (d : DotStuffer) (b : UInt8) : DotStuffer × List UInt8 :=
  let brk := if d.pendingCR then CRLF else []
  let d' := if d.pendingCR then { d with pendingCR := false, atLineStart := true } else d
  if d.pendingCR ∧ b = LF then (d', brk)
  else if b = CR then ({ d' with pendingCR := true }, brk)
  else if b = LF then ({ d' with atLineStart := true }, brk ++ CRLF)
  else
    ({ d' with atLineStart := false },
      brk ++ (if d'.atLineStart ∧ b = DOT then [DOT] else []) ++ [b])

def pushLoop : DotStuffer → List UInt8 → DotStuffer × List UInt8
  | d, [] => (d, [])
  | d, b :: rest =>
    let (d₁, out) := d.pushByte b
    let (d₂, outs) := pushLoop d₁ rest
    (d₂, out ++ outs)

/-- Encode one chunk. The output buffer has `2 * length + 2` octets, and a write
past its end would be lost. -/
def push (d : DotStuffer) (chunk : List UInt8) : Except String (DotStuffer × List UInt8) :=
  if d.ended then .error "DotStuffer: push after end"
  else
    let (d', out) := d.pushLoop chunk
    .ok (d', out.take (chunk.length * 2 + 2))

/-- The octets that finish the body. -/
def «end» (d : DotStuffer) : Except String (DotStuffer × List UInt8) :=
  if d.ended then .error "DotStuffer: end called twice"
  else
    let brk := if d.pendingCR then CRLF else []
    let atLineStart := d.atLineStart || d.pendingCR
    .ok ({ d with ended := true, atLineStart := atLineStart },
      brk ++ (if atLineStart then [] else CRLF) ++ [DOT, CR, LF])

/-- The outputs of `push` over some chunks, one after the other. -/
def pushAll : DotStuffer → List (List UInt8) → Except String (DotStuffer × List UInt8)
  | d, [] => .ok (d, [])
  | d, chunk :: chunks => do
    let (d₁, out) ← d.push chunk
    let (d₂, outs) ← pushAll d₁ chunks
    .ok (d₂, out ++ outs)

/-- Everything a fresh encoder writes for a message given in chunks. -/
def wire (chunks : List (List UInt8)) : Except String (List UInt8) := do
  let (d, out) ← pushAll {} chunks
  let (_, tail) ← d.end
  .ok (out ++ tail)

end DotStuffer

/-! ## What it should write -/

/-- Every CR, LF and CRLF becomes CRLF; an LF right after a CR belongs to that
CR's line break. -/
def normalizeFrom : Bool → List UInt8 → List UInt8
  | _, [] => []
  | afterCR, b :: rest =>
    if b = LF ∧ afterCR then normalizeFrom false rest
    else if b = CR then CRLF ++ normalizeFrom true rest
    else if b = LF then CRLF ++ normalizeFrom false rest
    else b :: normalizeFrom false rest

/-- Empty, or ending in a line break. -/
def EndsLine (m : List UInt8) : Prop := m = [] ∨ m.getLast? = some CR ∨ m.getLast? = some LF

instance (m : List UInt8) : Decidable (EndsLine m) := inferInstanceAs (Decidable (_ ∨ _ ∨ _))

/-- The message as it should arrive. -/
def normalize (m : List UInt8) : List UInt8 :=
  normalizeFrom false m ++ if EndsLine m then [] else CRLF

example : normalize [97, 13, 46, 10, 10, 98] = [97, 13, 10, 46, 13, 10, 13, 10, 98, 13, 10] := by
  decide

/-! ## How the normal form grows -/

/-- Whether the last octet was a CR, given whether the one before the list was. -/
def lastCR : Bool → List UInt8 → Bool
  | a, [] => a
  | _, b :: rest => lastCR (decide (b = CR)) rest

theorem normalizeFrom_append (a : Bool) (t u : List UInt8) :
    normalizeFrom a (t ++ u) = normalizeFrom a t ++ normalizeFrom (lastCR a t) u := by
  induction t generalizing a with
  | nil => rfl
  | cons b t ih =>
    rw [cons_append, normalizeFrom, normalizeFrom, lastCR]
    by_cases hlf : b = LF
    · subst hlf
      by_cases ha : a = true
      · simp [ha, ih]
      · simp [ha, ih]
    by_cases hcr : b = CR
    · simp [hcr, ih]
    · simp [hlf, hcr, ih]

theorem lastCR_snoc (a : Bool) (t : List UInt8) (b : UInt8) :
    lastCR a (t ++ [b]) = decide (b = CR) := by
  induction t generalizing a with
  | nil => rfl
  | cons x t ih => exact ih _

theorem lastCR_iff (t : List UInt8) : lastCR false t = true ↔ t.getLast? = some CR := by
  rcases eq_nil_or_concat t with rfl | ⟨u, x, rfl⟩
  · simp [lastCR]
  · rw [concat_eq_append, lastCR_snoc]
    simp

theorem normalizeFrom_singleton (a : Bool) (b : UInt8) : normalizeFrom a [b]
      = if b = LF ∧ a then [] else if b = CR ∨ b = LF then CRLF else [b] := by
  simp only [normalizeFrom, append_nil]
  by_cases hcr : b = CR
  · simp [hcr]
  · simp [hcr]

theorem endsLine_snoc (t : List UInt8) (b : UInt8) : EndsLine (t ++ [b]) ↔ b = CR ∨ b = LF := by
  simp [EndsLine]

/-! ## The machine reads what the encoder writes -/

variable {c : DataCore} {t : List UInt8} {d : DotStuffer} {b : UInt8}

/-- A line break read anywhere but behind a held octet. -/
theorem scan_CRLF (h : c.ds = .lineStart ∨ c.ds = .mid) :
    scan dataStep c CRLF = .more { c with ds := .lineStart, out := c.out ++ CRLF } := by
  rcases h with h | h <;> simp [scan, CRLF, dataStep, h, DataCore.put]

/-- A stuffed octet that is neither CR, LF nor NUL. -/
theorem scan_stuffed {atLineStart : Bool}
    (h : c.ds = if atLineStart then .lineStart else .mid) (hcr : b ≠ CR) (hlf : b ≠ LF)
    (hnul : b ≠ NUL) : scan dataStep c ((if atLineStart ∧ b = DOT then [DOT] else []) ++ [b])
      = .more { c with ds := .mid, out := c.out ++ [b] } := by
  by_cases hstart : atLineStart = true
  · by_cases hdot : b = DOT
    · simp [scan, dataStep, h, hstart, hdot, DataCore.put]
    · simp [scan, dataStep, h, hstart, hdot, DataCore.put, hcr, hlf, hnul]
  · simp [scan, dataStep, h, hstart, DataCore.put, hcr, hlf, hnul]

/-- The encoder after `t` and the machine after what it wrote. A pending CR is a
line break the machine has not seen. -/
structure Tracks (t : List UInt8) (d : DotStuffer) (c : DataCore) : Prop where
  ended : d.ended = false
  ds : c.ds = if d.atLineStart then .lineStart else .mid
  bad : c.bad = false
  out : c.out ++ (if d.pendingCR then CRLF else []) = normalizeFrom false t
  pendingCR : d.pendingCR = lastCR false t
  atLineStart : d.pendingCR = false → (d.atLineStart = true ↔ EndsLine t)

theorem tracks_nil : Tracks [] {} {} := by
  refine ⟨rfl, rfl, rfl, rfl, rfl, ?_⟩
  simp [EndsLine]

/-- Writing the line break of a pending CR. -/
theorem Tracks.flush (h : Tracks t d c) : scan dataStep c (if d.pendingCR then CRLF else [])
      = .more { c with ds := if d.atLineStart || d.pendingCR then .lineStart else .mid,
                       out := normalizeFrom false t } := by
  have hds := h.ds
  have hout := h.out
  by_cases hp : d.pendingCR = true
  · have hc : c.ds = .lineStart ∨ c.ds = .mid := by
      rw [hds]
      by_cases ha : d.atLineStart = true <;> simp [ha]
    rw [if_pos hp] at hout ⊢
    rw [scan_CRLF hc, hout]
    simp [hp]
  · rw [if_neg hp, append_nil] at hout
    rw [if_neg hp, scan_nil, ← hout]
    simp only [Bool.not_eq_true] at hp
    rw [hp, Bool.or_false, ← hds]

/-- The encoder with the line break of a pending CR written. -/
def DotStuffer.flushed (d : DotStuffer) : DotStuffer :=
  { d with pendingCR := false, atLineStart := d.atLineStart || d.pendingCR }

/-- `pushByte` case by case, behind the flushed line break. -/
theorem pushByte_eq (d : DotStuffer) (b : UInt8) : d.pushByte b
      = if d.pendingCR ∧ b = LF then (d.flushed, if d.pendingCR then CRLF else [])
        else if b = CR then ({ d.flushed with pendingCR := true }, if d.pendingCR then CRLF else [])
        else if b = LF then
          ({ d.flushed with atLineStart := true }, (if d.pendingCR then CRLF else []) ++ CRLF) else
          ({ d.flushed with atLineStart := false }, (if d.pendingCR then CRLF else [])
              ++ ((if d.flushed.atLineStart ∧ b = DOT then [DOT] else []) ++ [b])) := by
  unfold DotStuffer.pushByte DotStuffer.flushed
  cases hp : d.pendingCR
  · simp [hp]
  · simp

/-- **The step lemma**: one octet pushed, some octets written and read. -/
theorem Tracks.pushByte (h : Tracks t d c) (hnul : b ≠ NUL) :
    ∃ c', scan dataStep c (d.pushByte b).2 = .more c' ∧ Tracks (t ++ [b]) (d.pushByte b).1 c' := by
  have hflush := h.flush
  have hlast : lastCR false (t ++ [b]) = decide (b = CR) := lastCR_snoc false t b
  have hends := endsLine_snoc t b
  have hnorm : normalizeFrom false (t ++ [b]) = normalizeFrom false t
      ++ normalizeFrom d.pendingCR [b] := by
    rw [normalizeFrom_append, h.pendingCR]
  rw [normalizeFrom_singleton] at hnorm
  rw [pushByte_eq]
  by_cases hcrlf : d.pendingCR = true ∧ b = LF
  · -- the LF of a CRLF: its line break was the pending CR's
    obtain ⟨hp, rfl⟩ := hcrlf
    rw [if_pos ⟨hp, rfl⟩]
    refine ⟨_, hflush, h.ended, ?_, h.bad, ?_, ?_, ?_⟩
    · rfl
    · rw [hnorm]
      simp [hp, DotStuffer.flushed]
    · rw [hlast]
      simp [DotStuffer.flushed]
    · rw [hends]
      simp [hp, DotStuffer.flushed]
  rw [if_neg hcrlf]
  by_cases hcr : b = CR
  · -- a CR is kept until the next octet
    rw [if_pos hcr]
    refine ⟨_, hflush, h.ended, rfl, h.bad, ?_, ?_, ?_⟩
    · rw [hnorm]
      simp [hcr]
    · rw [hlast]
      simp [hcr]
    · simp
  rw [if_neg hcr]
  by_cases hlf : b = LF
  · -- a bare LF
    rw [if_pos hlf]
    have hds : ∀ a : Bool, (if a then DataState.lineStart else .mid) = .lineStart
        ∨ (if a then DataState.lineStart else .mid) = .mid := by
      intro a
      cases a <;> simp
    refine ⟨_, (scan_append_of_more _ hflush).trans (scan_CRLF (hds _)), h.ended, rfl, h.bad, ?_,
      ?_, ?_⟩
    · rw [if_neg (fun hb => hcrlf ⟨hb.2, hb.1⟩), if_pos (.inr hlf)] at hnorm
      rw [hnorm]
      simp [DotStuffer.flushed]
    · rw [hlast]
      simp [hcr, DotStuffer.flushed]
    · rw [hends]
      simp [hlf]
  · -- text
    rw [if_neg hlf]
    refine ⟨_, (scan_append_of_more _ hflush).trans (scan_stuffed rfl hcr hlf hnul), h.ended, rfl,
      h.bad, ?_, ?_, ?_⟩
    · rw [if_neg (fun hb => hcrlf ⟨hb.2, hb.1⟩), if_neg (by simp [hcr, hlf])] at hnorm
      rw [hnorm]
      simp [DotStuffer.flushed]
    · rw [hlast]
      simp [hcr, DotStuffer.flushed]
    · rw [hends]
      simp [hcr, hlf]

/-- **A chunk**: the loop of `push`. -/
theorem Tracks.pushLoop (chunk : List UInt8) (h : Tracks t d c) (hnul : NUL ∉ chunk) :
    ∃ c', scan dataStep c (d.pushLoop chunk).2 = .more c'
      ∧ Tracks (t ++ chunk) (d.pushLoop chunk).1 c' := by
  induction chunk generalizing t d c with
  | nil => exact ⟨c, rfl, by rw [append_nil]; exact h⟩
  | cons b rest ih =>
    rw [mem_cons, not_or] at hnul
    obtain ⟨c1, hscan, h1⟩ := h.pushByte (Ne.symm hnul.1)
    obtain ⟨c2, hscan', h2⟩ := ih h1 hnul.2
    refine ⟨c2, (scan_append_of_more _ hscan).trans hscan', ?_⟩
    rw [append_assoc, singleton_append] at h2
    exact h2

/-! ## The output buffer is large enough -/

/-- The octets a pending CR will still need. -/
def DotStuffer.owed (d : DotStuffer) : ℕ := if d.pendingCR then 2 else 0

theorem pushByte_length (d : DotStuffer) (b : UInt8) :
    (d.pushByte b).2.length + (d.pushByte b).1.owed ≤ d.owed + 2 := by
  unfold DotStuffer.pushByte DotStuffer.owed
  cases hp : d.pendingCR <;> simp only [CRLF] <;> split_ifs <;> simp_all

theorem pushLoop_length (d : DotStuffer) (chunk : List UInt8) :
    (d.pushLoop chunk).2.length + (d.pushLoop chunk).1.owed ≤ d.owed + chunk.length * 2 := by
  induction chunk generalizing d with
  | nil => simp [DotStuffer.pushLoop]
  | cons b rest ih =>
    have h1 := pushByte_length d b
    have h2 := ih (d.pushByte b).1
    simp only [DotStuffer.pushLoop, length_append, length_cons]
    omega

/-- `push` never loses an octet at the end of its buffer. -/
theorem push_eq (hd : d.ended = false) (chunk : List UInt8) :
    d.push chunk = .ok (d.pushLoop chunk) := by
  have hlen := pushLoop_length d chunk
  have htake : (d.pushLoop chunk).2.take (chunk.length * 2 + 2) = (d.pushLoop chunk).2 := by
    have howed : d.owed ≤ 2 := by
      unfold DotStuffer.owed
      split_ifs <;> omega
    exact take_of_length_le (by omega)
  rw [DotStuffer.push, hd, if_neg (by simp)]
  dsimp only
  rw [htake]

/-- **All chunks.** -/
theorem Tracks.pushAll (chunks : List (List UInt8)) (h : Tracks t d c)
    (hnul : NUL ∉ chunks.flatten) :
    ∃ d' out c', d.pushAll chunks = .ok (d', out) ∧ scan dataStep c out = .more c'
      ∧ Tracks (t ++ chunks.flatten) d' c' := by
  induction chunks generalizing t d c with
  | nil => exact ⟨d, [], c, rfl, rfl, by simpa using h⟩
  | cons chunk chunks ih =>
    rw [flatten_cons, mem_append, not_or] at hnul
    obtain ⟨c1, hscan, h1⟩ := h.pushLoop chunk hnul.1
    obtain ⟨d', out, c', hall, hscan', h'⟩ := ih h1 hnul.2
    refine ⟨d', (d.pushLoop chunk).2 ++ out, c', ?_, ?_, ?_⟩
    · simp only [DotStuffer.pushAll, push_eq h.ended chunk]
      exact congrArg (fun x => x >>= fun p => .ok (p.1, (d.pushLoop chunk).2 ++ p.2)) hall
    · exact (scan_append_of_more _ hscan).trans hscan'
    · rw [flatten_cons, ← append_assoc]
      exact h'

/-- **The end of the message**: the machine stops on the last octet written. -/
theorem Tracks.end (h : Tracks t d c) :
    ∃ d' tail c', d.end = .ok (d', tail) ∧ scan dataStep c tail = .stop c' []
      ∧ c'.out = normalize t ∧ c'.bad = false := by
  have hflush := h.flush
  have hstop : ∀ c0 : DataCore, c0.ds = .lineStart →
      scan dataStep c0 [DOT, CR, LF] = .stop { c0 with ds := .dotCR } [] := by
    intro c0 h₀
    simp [scan, dataStep, h₀]
  have hline : (d.atLineStart || d.pendingCR) = true ↔ EndsLine t := by
    by_cases hp : d.pendingCR = true
    · have hlast : t.getLast? = some CR := (lastCR_iff t).mp (h.pendingCR ▸ hp)
      simp [hp, EndsLine, hlast]
    · simp only [Bool.not_eq_true] at hp
      rw [hp, Bool.or_false]
      exact h.atLineStart hp
  rw [DotStuffer.end, h.ended, if_neg (by simp)]
  refine ⟨_, _, { c with ds := .dotCR, out := normalize t }, rfl, ?_, rfl, h.bad⟩
  · rw [append_assoc, scan_append_of_more _ hflush, normalize]
    by_cases hl : EndsLine t
    · rw [hline.mpr hl, if_pos rfl, if_pos rfl, if_pos hl, nil_append, append_nil]
      exact hstop _ rfl
    · have hf : (d.atLineStart || d.pendingCR) = false := by
        rw [← Bool.not_eq_true, hline]
        exact hl
      rw [hf, if_neg (by simp), if_neg (by simp), if_neg hl,
        scan_append_of_more _ (scan_CRLF (.inr rfl))]
      exact hstop _ rfl

/-- The machine reads everything a fresh encoder writes for `m`, and stops there. -/
theorem scan_wire {chunks : List (List UInt8)} (hnul : NUL ∉ chunks.flatten) :
    ∃ wire c, DotStuffer.wire chunks = .ok wire ∧ scan dataStep {} wire = .stop c []
      ∧ c.out = normalize chunks.flatten ∧ c.bad = false := by
  obtain ⟨d, out, c, hall, hscan, h⟩ := tracks_nil.pushAll chunks hnul
  obtain ⟨d', tail, c', hend, hstop, hout, hbad⟩ := h.end
  refine ⟨out ++ tail, c', ?_, ?_, hout, hbad⟩
  · simp only [DotStuffer.wire, hall]
    exact congrArg (fun x => x >>= fun p => .ok (out ++ p.2)) hend
  · rw [scan_append_of_more _ hscan, hstop]

/-! ## The round trip -/

/-- A clean body stays clean with the terminator behind it. -/
theorem not_bare_of_terminated {body : List UInt8} (h : ¬ Spoiled body) :
    ¬ BareCR (body ++ [DOT, CR, LF]) ∧ ¬ BareLF (body ++ [DOT, CR, LF]) := by
  have hsplit : body ++ [DOT, CR, LF] = ((body ++ [DOT]) ++ [CR]) ++ [LF] := by simp
  rw [Spoiled, bareCR_iff] at h
  simp only [not_or] at h
  obtain ⟨⟨hknown, hlast⟩, hlf, -⟩ := h
  rw [hsplit]
  refine ⟨?_, ?_⟩
  · rw [bareCR_iff, knownBareCR_snoc, knownBareCR_snoc, knownBareCR_snoc]
    simp [hknown, hlast]
  · rw [bareLF_snoc, bareLF_snoc, bareLF_snoc]
    simp [hlf]

/-- **DATA round trip.** What the encoder writes for `m` in any chunks, received in
any chunks, is delivered as the normalised `m` with one data-end, which comes with
the last octet; and no stricter or laxer receiver could end it earlier, since the
octets on the wire hold no bare CR, no bare LF and no earlier terminator. -/
theorem dotStuffer_roundTrip {m : List UInt8} {chunks : List (List UInt8)}
    (hm : chunks.flatten = m) (hnul : NUL ∉ m) : ∃ wire, DotStuffer.wire chunks = .ok wire
      ∧ ¬ BareCR wire ∧ ¬ BareLF wire ∧ (∀ q < wire.length, ¬ EndsAt wire q)
      ∧ ∀ (r r₀ : SmtpLineReader) (maxSize : Option ℕ), r.Reachable →
        r.startData maxSize = .ok r₀ → r.pending = [] →
        SmtpLineReader.fits maxSize (normalize m).length →
        ∀ (w₁ w₂ : List UInt8) (es : List LineReaderEvent) (r' : SmtpLineReader),
          wire = w₁ ++ w₂ → Run r₀ w₁ (r.events ++ es) r' → (∀ e ∈ es, e.isEnd = false) →
          (∀ size rejection r'', r'.next = (some (.dataEnd size rejection), r'') →
            w₂ = [] ∧ rejection = none ∧ size = (normalize m).length ∧ bodyOf es = normalize m
              ∧ r''.next.1 = none)
          ∧ (w₂ = [] → ∃ es' size rejection r'',
              Delivers r' (es' ++ [.dataEnd size rejection]) r'' ∧ ∀ e ∈ es', e.isEnd = false) := by
  subst hm
  obtain ⟨wire, c, hwire, hscan, hout, hbad⟩ := scan_wire hnul
  obtain ⟨body, hsplit, hfirst, -, hspoil⟩ := (scan_dataStep_spec wire).2 c [] hscan
  have hclean : ¬ Spoiled body := by
    rw [← hspoil, hbad]
    simp
  rw [append_nil] at hsplit
  have hlen : wire.length = body.length + 3 := by
    rw [hsplit]
    simp
  obtain ⟨hcr, hlf⟩ := not_bare_of_terminated hclean
  rw [← hsplit] at hcr hlf
  refine ⟨wire, hwire, hcr, hlf, fun q hq => hfirst.2.2 q (hlen ▸ hq), ?_⟩
  intro r r₀ maxSize hr h₀ hpend hfit w₁ w₂ es r' hw hrun hes
  have hph : InPhase maxSize r.events w₁ (r.events ++ es) r' := by
    have hstart := streaming_startData hr.bounded h₀
    rw [hpend] at hstart
    exact hrun.inPhase hstart ((unfinished_append_iff es).mpr hes)
  refine ⟨?_, ?_⟩
  · intro size rejection r'' hn
    obtain ⟨c', hscan', -, hev, hsize, hrej, hbody⟩ := hph.dataEnd hn
    -- the machine stops once: on `w₁`, so on all of `wire`
    have hboth : scan dataStep {} wire = .stop c' (r''.pending ++ w₂) := by
      rw [hw, scan_append_of_stop _ hscan']
    rw [hscan] at hboth
    injection hboth with hc hrest
    subst hc
    obtain ⟨hp'', hw₂⟩ := append_eq_nil_iff.mp hrest.symm
    have hnone : rejection = none := hrej.mpr ⟨hbad, hout ▸ hfit⟩
    have hb : r''.Bounded := by
      have hx := hph.next
      rw [hn] at hx
      rcases hx.1 with hx | hx
      · exact hx.bounded
      · exact hx.bounded
    exact ⟨hw₂, hnone, by rw [hsize, hout], by rw [hbody hnone, hout],
      SmtpLineReader.next_eq_none hb hev hp''⟩
  · intro hw₂
    rw [hw₂, append_nil] at hw
    rw [← hw] at hph
    exact hph.delivers hfirst hes

/-- A lone CR and a leading dot, cut after the CR, read back in one piece. -/
theorem dotStuffer_roundTrip_cut_break :
    ∃ wire r₀ r' r'', DotStuffer.wire [[97, 13], [46]] = .ok wire ∧ ¬ BareCR wire
      ∧ SmtpLineReader.startData {} (some 6) = .ok r₀
      ∧ Run r₀ wire [.data [97, 13, 10], .data [46, 13, 10]] r'
      ∧ r'.next = (some (.dataEnd 6 none), r'')
      ∧ bodyOf [.data [97, 13, 10], .data [46, 13, 10]] = normalize [97, 13, 46] := by
  obtain ⟨wire, hwire, hcr, -, -, hread⟩ :=
    @dotStuffer_roundTrip [97, 13, 46] [[97, 13], [46]] rfl (by decide)
  have hw : [97, 13, 10, 46, 46, 13, 10, 46, 13, 10] = wire := by
    have h : DotStuffer.wire [[97, 13], [46]] = .ok [97, 13, 10, 46, 46, 13, 10, 46, 13, 10] := rfl
    exact Except.ok.inj (h.symm.trans hwire)
  subst hw
  have hstart : Run { mode := .data, maxSize := some 6 } [] [] _ := .start
  have hrun := ((hstart.push [97, 13, 10, 46, 46, 13, 10, 46, 13, 10]).next rfl).next rfl
  have h := (hread {} _ (some 6) (.new _) rfl rfl (by decide) _ [] _ _ (by simp) hrun
    (by decide)).1 6 none _ rfl
  exact ⟨_, _, _, _, hwire, hcr, rfl, hrun, rfl, h.2.2.2.1⟩

end Postroom.Delivery
