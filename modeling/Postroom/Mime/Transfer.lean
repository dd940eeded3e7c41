/-
`packages/mime/src/transfer.ts`: the streaming transfer decoders.

Each decoder is a machine that reads one octet at a time and emits decoded
octets; the `i--` of the source, which reads an octet again as ordinary text
after an escape has failed, is the ordinary step taken after the escape's.

Two facts leave this module. A decoder cannot see where its input was cut
(`write_append`): that is why body events may be joined. And it never holds more
than `MAX_HELD_WS + 2` octets (`carried_le`), which is its share of the parser's
memory bound.
-/
import Mathlib.Algebra.GroupWithZero.Nat
import Postroom.Lib.Emits
import Postroom.Mime.Header

set_option autoImplicit false

namespace Postroom.Mime

open Lib

def CR : UInt8 := 0x0d
def LF : UInt8 := 0x0a
def SP : UInt8 := 0x20
def HTAB : UInt8 := 0x09
def EQ : UInt8 := 0x3d

/-! ## Base64 -/

/-- The `B64` table: the RFC 2045 alphabet and, leniently, the URL-safe one. -/
def b64Value (c : UInt8) : Option ℕ :=
  let n := c.toNat
  if 0x41 ≤ n && n ≤ 0x5a then some (n - 0x41)
  else if 0x61 ≤ n && n ≤ 0x7a then some (n - 0x61 + 26)
  else if 0x30 ≤ n && n ≤ 0x39 then some (n - 0x30 + 52)
  else if n = 0x2b || n = 0x2d then some 62
  else if n = 0x2f || n = 0x5f then some 63
  else none

structure Base64Decoder where
  acc : ℕ := 0
  n : ℕ := 0
  bad : Bool := false
  deriving DecidableEq

/-- `flushPartial`: what an incomplete quantum of `n` characters decodes to. -/
def flushPartial (acc n : ℕ) : Bytes :=
  if n = 2 then [UInt8.ofNat (acc / 2 ^ 4)]
  else if n = 3 then [UInt8.ofNat (acc / 2 ^ 10), UInt8.ofNat (acc / 2 ^ 2)]
  else []

def Base64Decoder.step (c : UInt8) : Emits Base64Decoder UInt8 := fun d =>
  match b64Value c with
  | some v =>
    let acc := (d.acc * 64 + v) % 2 ^ 24
    if d.n + 1 = 4 then
      ({ d with acc := 0, n := 0 },
        [UInt8.ofNat (acc / 2 ^ 16), UInt8.ofNat (acc / 2 ^ 8), UInt8.ofNat acc])
    else ({ d with acc := acc, n := d.n + 1 }, [])
  | none =>
    if c = EQ then
      -- six bits cannot make an octet
      ({ acc := 0, n := 0, bad := d.bad || d.n = 1 }, flushPartial d.acc d.n)
    else if c = CR || c = LF || c = SP || c = HTAB then (d, [])
    else ({ d with bad := true }, [])

def Base64Decoder.finish : Emits Base64Decoder UInt8 := fun d =>
  ({ acc := 0, n := 0, bad := d.bad || d.n = 1 }, flushPartial d.acc d.n)

/-! ## Quoted-printable -/

inductive Qp where
  | normal
  /-- After `=`. -/
  | eq
  /-- After `=` and one hexadecimal digit, with its value and its octet. -/
  | eqHex (hex : ℕ) (hexByte : UInt8)
  /-- After `=` and white space. -/
  | eqWs
  /-- After `=` and a CR. -/
  | eqCr
  deriving DecidableEq

/-- Longest run of trailing white space held back. -/
def MAX_HELD_WS : ℕ := 1024

structure QuotedPrintableDecoder where
  state : Qp := .normal
  ws : Bytes := []
  bad : Bool := false
  deriving DecidableEq

namespace QuotedPrintableDecoder

/-- An octet of ordinary text. -/
def stepNormal (c : UInt8) : Emits QuotedPrintableDecoder UInt8 := fun d =>
  if c = SP || c = HTAB then
    if MAX_HELD_WS ≤ d.ws.length then ({ d with ws := [c] }, d.ws)
    else ({ d with ws := d.ws ++ [c] }, [])
  -- trailing white space on a line is transport padding
  else if c = CR || c = LF then ({ d with ws := [] }, [c])
  else if c = EQ then ({ d with ws := [], state := .eq }, d.ws)
  else ({ d with ws := [] }, d.ws ++ [c])

/-- A failed escape is kept literally. -/
def keepLiteral (literal : Bytes) : Emits QuotedPrintableDecoder UInt8 := fun d =>
  ({ d with state := .normal, bad := true }, literal)

/-- A `=` and the white space after it turn out not to be a soft break. -/
def keepWs : Emits QuotedPrintableDecoder UInt8 := fun d =>
  ({ state := .normal, ws := [], bad := true }, EQ :: d.ws)

def step (c : UInt8) : Emits QuotedPrintableDecoder UInt8 := fun d =>
  match d.state with
  | .normal => stepNormal c d
  | .eq =>
    match hexValue c.toNat with
    | some h => ({ d with state := .eqHex h c }, [])
    | none =>
      if c = CR then ({ d with state := .eqCr }, [])
      else if c = LF then ({ d with state := .normal }, [])
      else if c = SP || c = HTAB then ({ d with ws := d.ws ++ [c], state := .eqWs }, [])
      else (keepLiteral [EQ] >> stepNormal c) d
  | .eqHex hex hexByte =>
    match hexValue c.toNat with
    | some h => ({ d with state := .normal }, [UInt8.ofNat (16 * hex + h)])
    | none => (keepLiteral [EQ, hexByte] >> stepNormal c) d
  | .eqWs =>
    if c = SP || c = HTAB then
      if MAX_HELD_WS ≤ d.ws.length then ({ (keepWs d).1 with ws := [c] }, (keepWs d).2)
      else ({ d with ws := d.ws ++ [c] }, [])
    else if c = CR then ({ d with ws := [], state := .eqCr }, [])
    else if c = LF then ({ d with ws := [], state := .normal }, [])
    else (keepWs >> stepNormal c) d
  | .eqCr =>
    -- a soft break even without its LF
    if c = LF then ({ d with state := .normal }, []) else stepNormal c { d with state := .normal }

def finish : Emits QuotedPrintableDecoder UInt8 := fun d =>
  match d.state with
  | .eq => ({ state := .normal, ws := [], bad := true }, [EQ])
  | .eqHex _ hexByte => ({ state := .normal, ws := [], bad := true }, [EQ, hexByte])
  | _ => ({ d with state := .normal, ws := [] }, [])

end QuotedPrintableDecoder

/-! ## Any decoder -/

inductive TransferDecoder where
  | base64 (d : Base64Decoder)
  | quotedPrintable (d : QuotedPrintableDecoder)
  | identity
  deriving DecidableEq

namespace TransferDecoder

def step (c : UInt8) : Emits TransferDecoder UInt8
  | .base64 d => (.base64 (Base64Decoder.step c d).1, (Base64Decoder.step c d).2)
  | .quotedPrintable d =>
    (.quotedPrintable (QuotedPrintableDecoder.step c d).1, (QuotedPrintableDecoder.step c d).2)
  | .identity => (.identity, [c])

/-- `write(chunk)`. -/
def write : Bytes → Emits TransferDecoder UInt8
  | [] => Emits.skip
  | c :: cs => step c >> write cs

/-- `end()`. -/
def finish : Emits TransferDecoder UInt8
  | .base64 d => (.base64 (Base64Decoder.finish d).1, (Base64Decoder.finish d).2)
  | .quotedPrintable d =>
    (.quotedPrintable (QuotedPrintableDecoder.finish d).1, (QuotedPrintableDecoder.finish d).2)
  | .identity => (.identity, [])

/-- Octets held back. -/
def carried : TransferDecoder → ℕ
  | .base64 d => d.n
  | .quotedPrintable d => d.ws.length + if d.state = .normal then 0 else 2
  | .identity => 0

def malformed : TransferDecoder → Bool
  | .base64 d => d.bad
  | .quotedPrintable d => d.bad
  | .identity => false

end TransferDecoder

def isKnownEncoding (encoding : Text) : Bool :=
  [ "7bit", "8bit", "binary", "base64", "quoted-printable" ].any fun e => e.toList == encoding

def createTransferDecoder (encoding : Text) : TransferDecoder :=
  if encoding = "base64".toList then .base64 {}
  else if encoding = "quoted-printable".toList then .quotedPrintable {}
  else .identity

/-! ## Chunking -/

/-- **A decoder cannot see where its input was cut.** -/
theorem TransferDecoder.write_append (a b : Bytes) :
    TransferDecoder.write (a ++ b) = (TransferDecoder.write a >> TransferDecoder.write b) := by
  induction a with
  | nil => rfl
  | cons c cs ih =>
    rw [List.cons_append, TransferDecoder.write, TransferDecoder.write, ih, Emits.andThen_assoc]

/-! ## What a decoder holds -/

/-- The white space held back is within its cap, and none is held right after a `=`. -/
def QuotedPrintableDecoder.Held (d : QuotedPrintableDecoder) : Prop :=
  d.ws.length ≤ MAX_HELD_WS ∧ (d.state = .eq → d.ws = [])

/-- A quantum has at most three characters open; white space is within its cap. -/
def TransferDecoder.Held : TransferDecoder → Prop
  | .base64 d => d.n < 4
  | .quotedPrintable d => d.Held
  | .identity => True

theorem Base64Decoder.step_held (c : UInt8) (d : Base64Decoder) (h : d.n < 4) :
    (Base64Decoder.step c d).1.n < 4 := by
  unfold Base64Decoder.step
  split
  · split_ifs
    · exact Nat.zero_lt_succ 3
    · dsimp only
      omega
  · split_ifs
    · exact Nat.zero_lt_succ 3
    · exact h
    · exact h

namespace QuotedPrintableDecoder

theorem stepNormal_held (c : UInt8) (d : QuotedPrintableDecoder) (hn : d.state = .normal) :
    (stepNormal c d).1.Held := by
  have hmax : 1 ≤ MAX_HELD_WS := by decide
  unfold stepNormal
  split_ifs with hws hfull _ _
  · exact ⟨hmax, fun he => absurd (hn.symm.trans he) (by decide)⟩
  · refine ⟨?_, fun he => absurd (hn.symm.trans he) (by decide)⟩
    rw [List.length_append]
    exact Nat.lt_of_not_le hfull
  · exact ⟨Nat.zero_le _, fun _ => rfl⟩
  · exact ⟨Nat.zero_le _, fun _ => rfl⟩
  · exact ⟨Nat.zero_le _, fun _ => rfl⟩

theorem step_held (c : UInt8) (d : QuotedPrintableDecoder) (h : d.Held) : (step c d).1.Held := by
  have hmax : 1 ≤ MAX_HELD_WS := by decide
  unfold step
  cases hst : d.state with
  | normal => exact stepNormal_held c d hst
  | eq =>
    -- the white space that follows a `=` is the first that is held
    have hnil : d.ws = [] := h.2 hst
    dsimp only
    split
    · exact ⟨h.1, fun he => Qp.noConfusion he⟩
    · split_ifs
      · exact ⟨h.1, fun he => Qp.noConfusion he⟩
      · exact ⟨h.1, fun he => Qp.noConfusion he⟩
      · refine ⟨?_, fun he => Qp.noConfusion he⟩
        rw [hnil]
        exact hmax
      · exact stepNormal_held c _ rfl
  | eqHex hex hexByte =>
    dsimp only
    split
    · exact ⟨h.1, fun he => Qp.noConfusion he⟩
    · exact stepNormal_held c _ rfl
  | eqWs =>
    dsimp only
    split_ifs with hws hfull _ _
    · exact ⟨hmax, fun he => Qp.noConfusion he⟩
    · refine ⟨?_, fun he => Qp.noConfusion he⟩
      rw [List.length_append]
      exact Nat.lt_of_not_le hfull
    · exact ⟨Nat.zero_le _, fun _ => rfl⟩
    · exact ⟨Nat.zero_le _, fun _ => rfl⟩
    · exact stepNormal_held c _ rfl
  | eqCr =>
    dsimp only
    split_ifs
    · exact ⟨h.1, fun he => Qp.noConfusion he⟩
    · exact stepNormal_held c _ rfl

end QuotedPrintableDecoder

namespace TransferDecoder

theorem keeps_step (c : UInt8) : Emits.Keeps Held (step c) := by
  intro d h
  cases d with
  | base64 d => exact Base64Decoder.step_held c d h
  | quotedPrintable d => exact QuotedPrintableDecoder.step_held c d h
  | identity => exact trivial

theorem keeps_write (chunk : Bytes) : Emits.Keeps Held (write chunk) := by
  induction chunk with
  | nil => exact Emits.Keeps.skip
  | cons c cs ih => exact (keeps_step c).andThen ih

theorem held_create (encoding : Text) : (createTransferDecoder encoding).Held := by
  unfold createTransferDecoder
  split_ifs
  · exact Nat.zero_lt_succ 3
  · exact ⟨Nat.zero_le _, fun _ => rfl⟩
  · exact trivial

/-- **A decoder holds an escape and a capped run of white space at most.** -/
theorem carried_le (d : TransferDecoder) (h : d.Held) : d.carried ≤ MAX_HELD_WS + 2 := by
  have hmax : MAX_HELD_WS = 1024 := rfl
  cases d with
  | base64 d =>
    have hn : d.n < 4 := h
    rw [carried]
    omega
  | quotedPrintable d =>
    have hws : d.ws.length ≤ MAX_HELD_WS := h.1
    rw [carried]
    split_ifs
    · omega
    · omega
  | identity => exact Nat.zero_le _

end TransferDecoder

end Postroom.Mime
