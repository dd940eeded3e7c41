/-
Blobs as they stand on disk: a stream of sealed segments.

`createEncryptStream` and `createDecryptStream` are Node transforms. A call of
`transform` or `flush` pushes what it has and then calls back, with an error or
without one; an error destroys the stream, so nothing is called after it. Here each
is a step on the closure's variables that pushes bytes (`Push`), and a stream's whole
run is `feedAll` of its chunks and then one `flush`.

AES-256-GCM is what `node:crypto` gives: a cipher that makes a ciphertext as long as
the plaintext and a tag of `TAG_BYTES`, and a decipher that gives the plaintext back
or throws.
-/
import Mathlib.Algebra.GroupWithZero.Nat
import Postroom.Lib.Segments

set_option autoImplicit false

namespace Postroom.Crypto

open Lib List

abbrev Bytes := List UInt8

def TAG_BYTES : ℕ := 16

def FORMAT_DEK_STREAM : UInt8 := 0x21

def SEGMENT_BYTES : ℕ := 64 * 1024

def PREFIX_BYTES : ℕ := 7

def STREAM_HEADER_BYTES : ℕ := 1 + PREFIX_BYTES

def MAX_SEGMENTS : ℕ := 0xffffffff

/-- `RangeError` and `DecryptError`. -/
inductive Thrown where
  | range (message : String)
  | decrypt (message : String)
  deriving DecidableEq, Repr

structure DecryptError where
  message : String
  deriving DecidableEq, Repr

/-! ## AES-256-GCM -/

/-- The cipher and the decipher of `node:crypto`, by key, nonce and associated data. -/
structure Aes256Gcm where
  cipher : Bytes → Bytes → Bytes → Bytes → Bytes × Bytes
  decipher : Bytes → Bytes → Bytes → Bytes → Bytes → Option Bytes
  ciphertext_length : ∀ key nonce aad plaintext, (cipher key nonce aad plaintext).1.length
    = plaintext.length
  tag_length : ∀ key nonce aad plaintext, (cipher key nonce aad plaintext).2.length = TAG_BYTES

variable (gcm : Aes256Gcm) (key : Bytes)

def gcmSeal (nonce aad plaintext : Bytes) : Bytes :=
  (gcm.cipher key nonce aad plaintext).1 ++ (gcm.cipher key nonce aad plaintext).2

def gcmOpen (nonce aad sealed : Bytes) : Except Thrown Bytes :=
  if sealed.length < TAG_BYTES then .error (.decrypt "ciphertext too short")
  else
    let ct := sealed.take (sealed.length - TAG_BYTES)
    let tag := sealed.drop (sealed.length - TAG_BYTES)
    match gcm.decipher key nonce aad ct tag with
    | none => .error (.decrypt "authentication failed")
    | some plaintext => .ok plaintext

/-! ## The format -/

/-- `writeUInt32BE`. -/
def uint32be (index : ℕ) : Bytes :=
  [UInt8.ofNat (index / 2 ^ 24), UInt8.ofNat (index / 2 ^ 16), UInt8.ofNat (index / 2 ^ 8),
    UInt8.ofNat index]

/-- The twelve bytes `noncePrefix || uint32be(index) || lastFlag`. -/
def nonceBytes (noncePrefix : Bytes) (index : ℕ) (last : Bool) : Bytes :=
  noncePrefix ++ uint32be index ++ [if last then 1 else 0]

def segmentNonce (noncePrefix : Bytes) (index : ℕ) (last : Bool) : Except Thrown Bytes :=
  if MAX_SEGMENTS < index then .error (.range "stream too long for its segment counter")
  else .ok (nonceBytes noncePrefix index last)

/-- Size of the ciphertext for a plaintext of `plainBytes`. -/
def encryptedSize (plainBytes : ℕ) : ℕ :=
  -- `Math.ceil(plainBytes / SEGMENT_BYTES)`
  let segments := max 1 ((plainBytes + SEGMENT_BYTES - 1) / SEGMENT_BYTES)
  STREAM_HEADER_BYTES + plainBytes + segments * TAG_BYTES

def header (noncePrefix : Bytes) : Bytes := FORMAT_DEK_STREAM :: noncePrefix

def segAad (noncePrefix aad : Bytes) : Bytes := header noncePrefix ++ aad

/-! ## Encrypting -/

structure EncryptState where
  pending : Bytes := []
  index : ℕ := 0
  headerSent : Bool := false

def sendHeader (noncePrefix : Bytes) (st : EncryptState) : Push UInt8 Thrown EncryptState :=
  if st.headerSent then pure st
  else do
    Push.push (header noncePrefix)
    pure { st with headerSent := true }

/-- `this.push(gcmSeal(key, segmentNonce(prefix, index, last), segAad, plain))`. -/
def sealSegment (noncePrefix aad : Bytes) (segment : Segment UInt8) : Push UInt8 Thrown Unit := do
  let nonce ← Push.lift (segmentNonce noncePrefix segment.index segment.last)
  Push.push (gcmSeal gcm key nonce (segAad noncePrefix aad) segment.body)

def EncryptStream.transform (noncePrefix aad : Bytes) (st : EncryptState) (chunk : Bytes) :
    Push UInt8 Thrown EncryptState := do
  let st ← sendHeader noncePrefix st
  -- strictly more than a segment: a full one may still turn out to be the last
  let rest ← drain SEGMENT_BYTES
    (fun index plain => sealSegment gcm key noncePrefix aad ⟨index, false, plain⟩)
    (st.pending ++ chunk) st.index
  pure { st with pending := rest.1, index := rest.2 }

def EncryptStream.flush (noncePrefix aad : Bytes) (st : EncryptState) : Push UInt8 Thrown Unit := do
  let st ← sendHeader noncePrefix st
  sealSegment gcm key noncePrefix aad ⟨st.index, true, st.pending⟩

/-- A whole run of `createEncryptStream`, with the random prefix it drew. -/
def encryptStream (noncePrefix aad : Bytes) (chunks : List Bytes) : Push UInt8 Thrown Unit :=
  Push.feedAll (EncryptStream.transform gcm key noncePrefix aad) {} chunks
    >>= EncryptStream.flush gcm key noncePrefix aad

/-! ## Decrypting -/

structure DecryptState where
  pending : Bytes := []
  noncePrefix : Option Bytes := none
  index : ℕ := 0

/-- `readHeader` answered `true` if there is a prefix afterwards. -/
def readHeader (st : DecryptState) : Except Thrown DecryptState :=
  match st.noncePrefix with
  | some _ => .ok st
  | none =>
    if st.pending.length < STREAM_HEADER_BYTES then .ok st
    else if st.pending.head? ≠ some FORMAT_DEK_STREAM then .error (.decrypt "unknown stream format")
    else .ok { st with
      pending := st.pending.drop STREAM_HEADER_BYTES
      noncePrefix := some ((st.pending.take STREAM_HEADER_BYTES).drop 1) }

/-- `this.push(gcmOpen(key, segmentNonce(prefix, index, last), segAad, sealed))`. -/
def openSegment (aad noncePrefix : Bytes) (segment : Segment UInt8) : Push UInt8 Thrown Unit := do
  let nonce ← Push.lift (segmentNonce noncePrefix segment.index segment.last)
  let plain ← Push.lift (gcmOpen gcm key nonce (segAad noncePrefix aad) segment.body)
  Push.push plain

/-- The body of the `try` in `transform`. -/
def DecryptStream.take (aad : Bytes) (st : DecryptState) (chunk : Bytes) :
    Push UInt8 Thrown DecryptState := do
  let st ← Push.lift (readHeader { st with pending := st.pending ++ chunk })
  match st.noncePrefix with
  | none => pure st
  | some noncePrefix => do
      let rest ← drain (SEGMENT_BYTES + TAG_BYTES)
        (fun index sealed => openSegment gcm key aad noncePrefix ⟨index, false, sealed⟩) st.pending
          st.index
      pure { st with pending := rest.1, index := rest.2 }

/-- The body of the `try` in `flush`. -/
def DecryptStream.finish (aad : Bytes) (st : DecryptState) : Push UInt8 Thrown Unit := do
  let st ← Push.lift (readHeader st)
  match st.noncePrefix with
  | none => Push.fail (.decrypt "stream truncated: no header")
  | some noncePrefix =>
    if st.pending.length < TAG_BYTES then Push.fail (.decrypt "stream truncated")
    else openSegment gcm key aad noncePrefix ⟨st.index, true, st.pending⟩

/-- The `catch` of both. -/
def asDecryptError : Thrown → DecryptError
  | .decrypt message => ⟨message⟩
  | .range _ => ⟨"stream authentication failed"⟩

def DecryptStream.transform (aad : Bytes) (st : DecryptState) (chunk : Bytes) :
    Push UInt8 DecryptError DecryptState :=
  Push.mapError asDecryptError (DecryptStream.take gcm key aad st chunk)

def DecryptStream.flush (aad : Bytes) (st : DecryptState) : Push UInt8 DecryptError Unit :=
  Push.mapError asDecryptError (DecryptStream.finish gcm key aad st)

/-- A whole run of `createDecryptStream`. -/
def decryptStream (aad : Bytes) (chunks : List Bytes) : Push UInt8 DecryptError Unit :=
  Push.feedAll (DecryptStream.transform gcm key aad) {} chunks >>= DecryptStream.flush gcm key aad

/-! ## What the chunks come to -/

variable (noncePrefix aad : Bytes)

theorem segment_pos : 0 < SEGMENT_BYTES := by decide

theorem sealedSegment_pos : 0 < SEGMENT_BYTES + TAG_BYTES := by decide

theorem feedAll_encrypt (r : Bytes × ℕ) (cs : List Bytes) :
    Push.feedAll (EncryptStream.transform gcm key noncePrefix aad) ⟨r.1, r.2, true⟩ cs
      = Push.feedAll (fun r c => drain SEGMENT_BYTES
          (fun index plain => sealSegment gcm key noncePrefix aad ⟨index, false, plain⟩)
          (r.1 ++ c) r.2) r cs
        >>= fun r => pure ⟨r.1, r.2, true⟩ := by
  induction cs generalizing r with
  | nil => rfl
  | cons c cs ih =>
    have hstep : EncryptStream.transform gcm key noncePrefix aad ⟨r.1, r.2, true⟩ c
        = drain SEGMENT_BYTES (fun index plain =>
          sealSegment gcm key noncePrefix aad ⟨index, false, plain⟩)
            (r.1 ++ c) r.2 >>= fun r => pure ⟨r.1, r.2, true⟩ := rfl
    rw [Push.feedAll, Push.feedAll, hstep, bind_assoc, bind_assoc]
    refine bind_congr fun r' => ?_
    rw [pure_bind, ih r']

/-- The header goes first, and then the segments of the whole input, however it
was cut. -/
theorem encryptStream_eq (chunks : List Bytes) : encryptStream gcm key noncePrefix aad chunks
      = Push.push (header noncePrefix) >>= fun _ =>
          forM (segments SEGMENT_BYTES chunks.flatten 0) (sealSegment gcm key noncePrefix aad) := by
  rw [← drain_flush segment_pos]
  rcases chunks with _ | ⟨c, cs⟩
  · rw [flatten_nil, drain_short (Nat.zero_le _), encryptStream, Push.feedAll]
    simp only [EncryptStream.flush, sendHeader, Bool.false_eq_true, if_false, bind_assoc, pure_bind]
  · have hfirst : encryptStream gcm key noncePrefix aad (c :: cs)
        = Push.push (header noncePrefix) >>= fun _ =>
          Push.feedAll (EncryptStream.transform gcm key noncePrefix aad) ⟨[], 0, true⟩ (c :: cs)
            >>= EncryptStream.flush gcm key noncePrefix aad := by
      rw [encryptStream, Push.feedAll, Push.feedAll]
      simp only [EncryptStream.transform, sendHeader, Bool.false_eq_true, if_false, if_true,
        bind_assoc, pure_bind]
    have hchunks := feedAll_drain segment_pos ([], 0) c cs
      (f := fun index plain => sealSegment gcm key noncePrefix aad ⟨index, false, plain⟩)
    rw [hfirst, feedAll_encrypt gcm key noncePrefix aad ([], 0), hchunks, nil_append, bind_assoc]
    simp only [EncryptStream.flush, sendHeader, if_true, pure_bind]

/-- What `transform` and `flush` do with a segment once the header is read. -/
def openOrTruncated (segment : Segment UInt8) : Push UInt8 Thrown Unit :=
  if segment.last ∧ segment.body.length < TAG_BYTES then Push.fail (.decrypt "stream truncated")
  else openSegment gcm key aad noncePrefix segment

/-- What the decryptor makes of the whole input. -/
def decryptWhole (x : Bytes) : Push UInt8 Thrown Unit :=
  if x.length < STREAM_HEADER_BYTES then Push.fail (.decrypt "stream truncated: no header")
  else if x.head? ≠ some FORMAT_DEK_STREAM then Push.fail (.decrypt "unknown stream format")
  else forM (segments (SEGMENT_BYTES + TAG_BYTES) (x.drop STREAM_HEADER_BYTES) 0)
    (openOrTruncated gcm key ((x.take STREAM_HEADER_BYTES).drop 1) aad)

theorem feedAll_decrypt (r : Bytes × ℕ) (cs : List Bytes) :
    Push.feedAll (DecryptStream.take gcm key aad) ⟨r.1, some noncePrefix, r.2⟩ cs
      = Push.feedAll (fun r c => drain (SEGMENT_BYTES + TAG_BYTES)
          (fun index sealed => openOrTruncated gcm key noncePrefix aad ⟨index, false, sealed⟩)
          (r.1 ++ c) r.2) r cs
        >>= fun r => pure ⟨r.1, some noncePrefix, r.2⟩ := by
  induction cs generalizing r with
  | nil => rfl
  | cons c cs ih =>
    have hstep : DecryptStream.take gcm key aad ⟨r.1, some noncePrefix, r.2⟩ c
        = drain (SEGMENT_BYTES + TAG_BYTES)
            (fun index sealed => openOrTruncated gcm key noncePrefix aad ⟨index, false, sealed⟩)
              (r.1 ++ c) r.2
          >>= fun r => pure ⟨r.1, some noncePrefix, r.2⟩ := by
      rfl
    rw [Push.feedAll, Push.feedAll, hstep, bind_assoc, bind_assoc]
    refine bind_congr fun r' => ?_
    rw [pure_bind, ih r']

theorem finish_opened (r : Bytes × ℕ) :
    DecryptStream.finish gcm key aad ⟨r.1, some noncePrefix, r.2⟩
      = openOrTruncated gcm key noncePrefix aad ⟨r.2, true, r.1⟩ := by
  unfold openOrTruncated
  simp only [true_and]
  rfl

/-- Once the header is read, the segments of what follows are opened in turn. -/
theorem decrypt_opened (pending : Bytes) (cs : List Bytes) : ((drain (SEGMENT_BYTES + TAG_BYTES)
          (fun index sealed => openSegment gcm key aad noncePrefix ⟨index, false, sealed⟩) pending 0
        >>= fun r => pure (⟨r.1, some noncePrefix, r.2⟩ : DecryptState))
      >>= fun st => Push.feedAll (DecryptStream.take gcm key aad) st cs)
      >>= DecryptStream.finish gcm key aad
      = forM (segments (SEGMENT_BYTES + TAG_BYTES) (pending ++ cs.flatten) 0)
          (openOrTruncated gcm key noncePrefix aad) := by
  have hopen : (fun index sealed => openSegment gcm key aad noncePrefix ⟨index, false, sealed⟩)
      = fun index sealed => openOrTruncated gcm key noncePrefix aad ⟨index, false, sealed⟩ := by
    simp only [openOrTruncated, Bool.false_eq_true, false_and, if_false]
  have hchunks := feedAll_drain sealedSegment_pos ([], 0) pending cs
    (f := fun index sealed => openOrTruncated gcm key noncePrefix aad ⟨index, false, sealed⟩)
  rw [Push.feedAll, nil_append, nil_append, flatten_cons] at hchunks
  rw [← drain_flush sealedSegment_pos, ← hchunks, hopen]
  simp only [bind_assoc, pure_bind, feedAll_decrypt, finish_opened]

theorem decryptStream_take (p : Bytes) (hp : p.length < STREAM_HEADER_BYTES) (cs : List Bytes) :
    (Push.feedAll (DecryptStream.take gcm key aad) ⟨p, none, 0⟩ cs
      >>= DecryptStream.finish gcm key aad)
      = decryptWhole gcm key aad (p ++ cs.flatten) := by
  induction cs generalizing p with
  | nil =>
    rw [Push.feedAll, pure_bind, flatten_nil, append_nil, decryptWhole, if_pos hp,
      DecryptStream.finish]
    simp only [readHeader, if_pos hp, Push.lift_ok, pure_bind]
  | cons c cs ih =>
    rw [Push.feedAll, flatten_cons, ← append_assoc]
    by_cases hshort : (p ++ c).length < STREAM_HEADER_BYTES
    · have hstep : DecryptStream.take gcm key aad ⟨p, none, 0⟩ c = pure ⟨p ++ c, none, 0⟩ := by
        rw [DecryptStream.take]
        simp only [readHeader, if_pos hshort, Push.lift_ok, pure_bind]
      rw [hstep, pure_bind]
      exact ih (p ++ c) hshort
    · -- the header is complete: it is the first eight bytes of the whole input
      have hlen : STREAM_HEADER_BYTES ≤ (p ++ c).length := Nat.le_of_not_lt hshort
      have hpos : 0 < (p ++ c).length := Nat.lt_of_lt_of_le (by decide) hlen
      have hhead : (p ++ c ++ cs.flatten).head? = (p ++ c).head? := by
        rw [head?_append_of_ne_nil _ (ne_nil_of_length_pos hpos)]
      rw [decryptWhole, if_neg (by rw [length_append]; omega), hhead,
        take_append_of_le_length hlen, drop_append_of_le_length hlen, DecryptStream.take]
      by_cases hformat : (p ++ c).head? ≠ some FORMAT_DEK_STREAM
      · simp only [readHeader, if_neg hshort, if_pos hformat, Push.lift_error, Push.fail_bind]
      · rw [if_neg hformat, ← decrypt_opened]
        simp only [readHeader, if_neg hshort, if_neg hformat, Push.lift_ok, pure_bind]

/-- The decryptor does not see where its input was cut. -/
theorem decryptStream_eq (chunks : List Bytes) :
    decryptStream gcm key aad chunks = Push.mapError asDecryptError
    (decryptWhole gcm key aad chunks.flatten) := by
  have h := decryptStream_take gcm key aad [] (by decide) chunks
  rw [nil_append] at h
  rw [← h, Push.mapError_bind, ← Push.feedAll_mapError]
  rfl

end Postroom.Crypto
