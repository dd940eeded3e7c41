/-
What a stream of sealed segments is good for.

The two halves share one picture: the segments of a plaintext are sealed under
nonces that name the stream, the segment's number and whether it is the last. So
what was sealed opens again in its place, and, for a cipher that opens nothing but
what was sealed, nothing else does.

The counter has four bytes. A plaintext of more than `MAX_SEGMENTS + 1` segments,
which is 256 TiB, is refused by the encryptor; all below is about shorter ones.
-/
import Mathlib.Data.List.Nodup
import Postroom.Crypto.Stream

set_option autoImplicit false

namespace Postroom.Crypto

open Lib List

/-! ## Nonces -/

theorem uint32be_inj {i j : ℕ} (hi : i ≤ MAX_SEGMENTS) (hj : j ≤ MAX_SEGMENTS)
    (h : uint32be i = uint32be j) : i = j := by
  unfold MAX_SEGMENTS at hi hj
  simp only [uint32be, List.cons.injEq, and_true, ← UInt8.toNat_inj, UInt8.toNat_ofNat'] at h
  omega

/-- A nonce names its stream, its number and its flag. -/
theorem nonceBytes_inj {p q : Bytes} (hlen : p.length = q.length) {i j : ℕ} (hi : i ≤ MAX_SEGMENTS)
    (hj : j ≤ MAX_SEGMENTS) {l m : Bool} (h : nonceBytes p i l = nonceBytes q j m) :
    p = q ∧ i = j ∧ l = m := by
  obtain ⟨h, hflag⟩ := append_inj' h rfl
  obtain ⟨hp, hindex⟩ := append_inj h hlen
  refine ⟨hp, uint32be_inj hi hj hindex, ?_⟩
  cases l <;> cases m <;> simp at hflag ⊢

theorem segmentNonce_of_le (noncePrefix : Bytes) {index : ℕ} (h : index ≤ MAX_SEGMENTS)
    (last : Bool) :
    segmentNonce noncePrefix index last = .ok (nonceBytes noncePrefix index last) :=
  if_neg (by omega)

theorem gcmSeal_length (gcm : Aes256Gcm) (key nonce aad plaintext : Bytes) :
    (gcmSeal gcm key nonce aad plaintext).length = plaintext.length + TAG_BYTES := by
  rw [gcmSeal, length_append, gcm.ciphertext_length, gcm.tag_length]

/-! ## What was sent -/

/-- One stream made under the key. -/
structure Sent where
  noncePrefix : Bytes
  aad : Bytes
  plaintext : Bytes
  prefix_length : noncePrefix.length = PREFIX_BYTES
  short : plaintext.length ≤ (MAX_SEGMENTS + 1) * SEGMENT_BYTES

/-- A call of `gcmSeal` under the key. -/
structure SealCall where
  nonce : Bytes
  aad : Bytes
  plaintext : Bytes

variable {seg : Segment UInt8}

namespace Sent

def segments (s : Sent) : List (Segment UInt8) := Lib.segments SEGMENT_BYTES s.plaintext 0

/-- The calls the encryptor makes for the stream. -/
def sealCalls (s : Sent) : List SealCall :=
  s.segments.map fun seg =>
    ⟨nonceBytes s.noncePrefix seg.index seg.last, segAad s.noncePrefix s.aad, seg.body⟩

variable (gcm : Aes256Gcm) (key : Bytes) (s : Sent)

/-- A segment as it stands in the ciphertext. -/
def sealedBody (seg : Segment UInt8) : Bytes :=
  gcmSeal gcm key (nonceBytes s.noncePrefix seg.index seg.last)
    (segAad s.noncePrefix s.aad) seg.body

def ciphertext : Bytes := header s.noncePrefix ++ s.segments.flatMap (s.sealedBody gcm key)

theorem segmented : Segmented SEGMENT_BYTES 0 s.segments := segmented_segments segment_pos _ _

theorem content_eq : content s.segments = s.plaintext := content_segments segment_pos _ _

theorem segments_length : s.segments.length = max 1
    ((s.plaintext.length + SEGMENT_BYTES - 1) / SEGMENT_BYTES) := by
  rw [s.segmented.length_eq segment_pos, s.content_eq]

theorem index_le (h : seg ∈ s.segments) : seg.index ≤ MAX_SEGMENTS := by
  have hbounds := s.segmented.index_bounds seg h
  have hcount : s.segments.length ≤ MAX_SEGMENTS + 1 := by
    have hshort := s.short
    rw [s.segments_length, Nat.max_le]
    refine ⟨by omega, ?_⟩
    rw [Nat.div_le_iff_le_mul_add_pred segment_pos, Nat.mul_comm]
    have hpos := segment_pos
    omega
  omega

/-- The encryptor makes these calls, and its output is their results after the
header. -/
theorem encrypt_eq (chunks : List Bytes) (h : chunks.flatten = s.plaintext) :
    encryptStream gcm key s.noncePrefix s.aad chunks = ⟨s.ciphertext gcm key, .ok ()⟩ := by
  have hseal : ∀ seg ∈ s.segments,
      sealSegment gcm key s.noncePrefix s.aad seg = Push.push (s.sealedBody gcm key seg) := by
    intro seg hseg
    rw [sealSegment, segmentNonce_of_le _ (s.index_le hseg), Push.lift_ok, pure_bind, sealedBody]
  rw [encryptStream_eq, h]
  have hrun := forM_push hseal
  rw [segments] at hrun
  rw [hrun, Push.push_bind]
  rfl

theorem header_length : (header s.noncePrefix).length = STREAM_HEADER_BYTES := by
  rw [header, length_cons, s.prefix_length, STREAM_HEADER_BYTES, Nat.add_comm]

theorem ciphertext_length : (s.ciphertext gcm key).length = encryptedSize s.plaintext.length := by
  have hbody : ∀ segs : List (Segment UInt8),
      (segs.flatMap (s.sealedBody gcm key)).length = (content segs).length
        + segs.length * TAG_BYTES := by
    intro segs
    induction segs with
    | nil => rfl
    | cons seg segs ih =>
      rw [flatMap_cons, length_append, ih, sealedBody, gcmSeal_length, content_cons, length_append,
        length_cons, Nat.add_mul]
      omega
  rw [ciphertext, length_append, hbody, s.content_eq, s.header_length, s.segments_length,
    encryptedSize]
  omega

/-- The decryptor finds the sealed segments again. -/
theorem segments_ciphertext : Lib.segments (SEGMENT_BYTES + TAG_BYTES)
    (s.segments.flatMap (s.sealedBody gcm key)) 0
    = s.segments.map fun seg => ⟨seg.index, seg.last, s.sealedBody gcm key seg⟩ := by
  refine (segmented_segments sealedSegment_pos _ _).unique
    (s.segmented.map_body fun seg => gcmSeal_length gcm key _ _ seg.body) ?_
  rw [content_segments sealedSegment_pos, content, flatMap_map]

end Sent

/-! ## An ideal cipher -/

/-- Under the key, `gcmOpen` opens what the streams sealed, with the nonce and the
associated data it was sealed with, and nothing else. -/
structure Ideal (gcm : Aes256Gcm) (key : Bytes) (sent : List Sent) : Prop where
  opens : ∀ s ∈ sent, ∀ c ∈ s.sealCalls,
    gcmOpen gcm key c.nonce c.aad (gcmSeal gcm key c.nonce c.aad c.plaintext) = .ok c.plaintext
  only : ∀ nonce aad sealed plaintext, gcmOpen gcm key nonce aad sealed = .ok plaintext →
    ∃ s ∈ sent, ⟨nonce, aad, plaintext⟩ ∈ s.sealCalls ∧ sealed = gcmSeal gcm key nonce aad plaintext

section Ideal

variable {gcm : Aes256Gcm} {key : Bytes} {sent : List Sent}

section

variable (hideal : Ideal gcm key sent) {s : Sent}
include hideal

theorem Ideal.open_sealed (hs : s ∈ sent) (hseg : seg ∈ s.segments) :
    openOrTruncated gcm key s.noncePrefix s.aad ⟨seg.index, seg.last, s.sealedBody gcm key seg⟩
      = Push.push seg.body := by
  have hlen : ¬ (s.sealedBody gcm key seg).length < TAG_BYTES := by
    rw [Sent.sealedBody, gcmSeal_length]
    omega
  have hopen := hideal.opens s hs _ (mem_map_of_mem hseg)
  rw [openOrTruncated, if_neg (by simp only [hlen, and_false, not_false_eq_true]), openSegment]
  rw [segmentNonce_of_le _ (s.index_le hseg), Push.lift_ok, pure_bind, Sent.sealedBody, hopen,
    Push.lift_ok, pure_bind]

theorem Ideal.decrypt_ciphertext (hs : s ∈ sent) :
    decryptWhole gcm key s.aad (s.ciphertext gcm key) = ⟨s.plaintext, .ok ()⟩ := by
  have hheader := s.header_length
  have htake : (s.ciphertext gcm key).take STREAM_HEADER_BYTES = header s.noncePrefix :=
    take_left' hheader
  have hdrop : (s.ciphertext gcm key).drop STREAM_HEADER_BYTES
      = s.segments.flatMap (s.sealedBody gcm key) :=
    drop_left' hheader
  rw [decryptWhole, if_neg, if_neg, htake, hdrop, s.segments_ciphertext]
  · have hnp : (header s.noncePrefix).drop 1 = s.noncePrefix := rfl
    rw [hnp]
    have hall : ∀ segs : List (Segment UInt8), (∀ seg ∈ segs, seg ∈ s.segments) →
        forM (segs.map fun seg => (⟨seg.index, seg.last, s.sealedBody gcm key seg⟩ : Segment UInt8))
          (openOrTruncated gcm key s.noncePrefix s.aad) = ⟨content segs, .ok ()⟩ := by
      intro segs hsegs
      induction segs with
      | nil => rfl
      | cons seg segs ih =>
        rw [map_cons, forM_cons, hideal.open_sealed hs (hsegs seg mem_cons_self),
          ih fun t ht => hsegs t (mem_cons_of_mem _ ht)]
        rfl
    rw [hall s.segments fun _ h => h, s.content_eq]
  · rw [Sent.ciphertext, header]
    simp
  · rw [Sent.ciphertext, length_append, hheader]
    omega

/-- A segment opens only as one of the segments of the one stream that has its
prefix. -/
theorem Ideal.open_cases {noncePrefix : Bytes}
    (hlen : noncePrefix.length = PREFIX_BYTES) (aad : Bytes) (y : Segment UInt8) :
    (∃ e, openOrTruncated gcm key noncePrefix aad y = Push.fail e) ∨
      ∃ s ∈ sent, s.noncePrefix = noncePrefix ∧ s.aad = aad
        ∧ ∃ seg ∈ s.segments, seg.index = y.index
        ∧ seg.last = y.last ∧ y.body = s.sealedBody gcm key seg
        ∧ openOrTruncated gcm key noncePrefix aad y = Push.push seg.body := by
  unfold openOrTruncated
  by_cases htrunc : y.last ∧ y.body.length < TAG_BYTES
  · rw [if_pos htrunc]
    exact .inl ⟨_, rfl⟩
  rw [if_neg htrunc, openSegment]
  by_cases hindex : MAX_SEGMENTS < y.index
  · rw [segmentNonce, if_pos hindex]
    exact .inl ⟨_, rfl⟩
  rw [segmentNonce_of_le _ (by omega), Push.lift_ok, pure_bind]
  rcases hopen : gcmOpen gcm key (nonceBytes noncePrefix y.index y.last)
    (segAad noncePrefix aad) y.body with e | plain
  · exact .inl ⟨e, rfl⟩
  · right
    obtain ⟨s, hs, hcall, hsealed⟩ := hideal.only _ _ _ _ hopen
    obtain ⟨seg, hseg, hcall⟩ := mem_map.mp hcall
    rw [SealCall.mk.injEq] at hcall
    obtain ⟨hnonce, haad, rfl⟩ := hcall
    obtain ⟨rfl, hi, hl⟩ := nonceBytes_inj (s.prefix_length.trans hlen.symm) (s.index_le hseg)
      (by omega) hnonce
    refine ⟨s, hs, rfl, append_cancel_left haad, seg, hseg, hi, hl, ?_, ?_⟩
    · rw [hsealed, ← hnonce, ← haad, Sent.sealedBody]
    · rw [Push.lift_ok, pure_bind]

/-- What is not a ciphertext of the key is never read to its end. -/
theorem Ideal.decrypt_forged (hdistinct : (sent.map Sent.noncePrefix).Nodup) (aad c : Bytes)
    (hc : ∀ s ∈ sent, s.ciphertext gcm key ≠ c) :
    ∃ e, (decryptWhole gcm key aad c).ended = .error e ∧ ((decryptWhole gcm key aad c).pushed = []
      ∨ ∃ s ∈ sent, ∃ k, k * SEGMENT_BYTES ≤ s.plaintext.length
        ∧ (decryptWhole gcm key aad c).pushed = s.plaintext.take (k * SEGMENT_BYTES)) := by
  unfold decryptWhole
  by_cases hshort : c.length < STREAM_HEADER_BYTES
  · rw [if_pos hshort]
    exact ⟨_, rfl, .inl rfl⟩
  rw [if_neg hshort]
  by_cases hformat : c.head? ≠ some FORMAT_DEK_STREAM
  · rw [if_pos hformat]
    exact ⟨_, rfl, .inl rfl⟩
  rw [if_neg hformat]
  rw [not_not] at hformat
  generalize hnp : (c.take STREAM_HEADER_BYTES).drop 1 = noncePrefix
  have hlen : noncePrefix.length = PREFIX_BYTES := by
    rw [← hnp, length_drop, length_take, Nat.min_eq_left (by omega)]
    rfl
  have hheader : c.take STREAM_HEADER_BYTES = header noncePrefix := by
    obtain ⟨rest, rfl⟩ := head?_eq_some_iff.mp hformat
    rw [← hnp]
    rfl
  have hys := segmented_segments sealedSegment_pos (c.drop STREAM_HEADER_BYTES) 0
  generalize hydef : segments (SEGMENT_BYTES + TAG_BYTES) (c.drop STREAM_HEADER_BYTES) 0 = ys at hys
  by_cases hstream : ∃ s ∈ sent, s.noncePrefix = noncePrefix ∧ s.aad = aad
  · -- the header is that of a stream of ours: its segments are all that can open
    obtain ⟨s, hs, rfl, rfl⟩ := hstream
    have hf : ∀ y : Segment UInt8, 0 ≤ y.index →
        (∃ e, openOrTruncated gcm key s.noncePrefix s.aad y = Push.fail e) ∨
          ∃ seg ∈ s.segments, seg.index = y.index ∧ seg.last = y.last
            ∧ y.body = s.sealedBody gcm key seg
            ∧ openOrTruncated gcm key s.noncePrefix s.aad y = Push.push seg.body := by
      intro y _
      rcases hideal.open_cases hlen s.aad y with hfail | ⟨t, ht, hprefix, -, hseg⟩
      · exact .inl hfail
      · obtain rfl : t = s := inj_on_of_nodup_map hdistinct ht hs hprefix
        exact .inr hseg
    rcases forM_opens s.segmented hys hf with ⟨e, k, hk, hrun⟩ | hall
    · rw [s.content_eq] at hk hrun
      rw [hrun]
      exact ⟨e, rfl, .inr ⟨s, hs, k, hk, rfl⟩⟩
    · refine absurd ?_ (hc s hs)
      have hcontent := content_segments sealedSegment_pos (c.drop STREAM_HEADER_BYTES) 0
      rw [hydef, hall, content, flatMap_map] at hcontent
      rw [Sent.ciphertext, ← hheader]
      exact (congrArg (c.take STREAM_HEADER_BYTES ++ ·) hcontent).trans (take_append_drop _ c)
  · -- it is not: nothing opens, and there is at least one segment to open
    have hfail : ∀ y : Segment UInt8, ∃ e, openOrTruncated gcm key noncePrefix aad y
        = Push.fail e := by
      intro y
      rcases hideal.open_cases hlen aad y with hfail | ⟨s, hs, hprefix, haad, -⟩
      · exact hfail
      · exact absurd ⟨s, hs, hprefix, haad⟩ hstream
    obtain ⟨y, ys', rfl⟩ : ∃ y ys', ys = y :: ys' := by
      cases hys with
      | last hx | more hx hmore hss => exact ⟨_, _, rfl⟩
    obtain ⟨e, he⟩ := hfail y
    rw [forM_cons, he]
    exact ⟨e, rfl, .inl rfl⟩

end

/-! ## The result -/

/-- **Encrypted streams are lossless and cannot be altered unnoticed.** Every
stream made under the key comes back whole, in whatever chunks its plaintext and its
ciphertext arrive, and is as long as `encryptedSize` says. Anything else ends in a
`DecryptError`, and before it only whole segments of one plaintext come out. -/
theorem encrypted_streams_sound (hdistinct : (sent.map Sent.noncePrefix).Nodup)
    (hideal : Ideal gcm key sent) :
    (∀ s ∈ sent, ∀ plainChunks : List Bytes, plainChunks.flatten = s.plaintext →
      ∃ c, encryptStream gcm key s.noncePrefix s.aad plainChunks = ⟨c, .ok ()⟩
        ∧ c.length = encryptedSize s.plaintext.length
        ∧ ∀ cipherChunks : List Bytes, cipherChunks.flatten = c →
            decryptStream gcm key s.aad cipherChunks = ⟨s.plaintext, .ok ()⟩)
    ∧ ∀ c : Bytes, (∀ s ∈ sent, ∀ plainChunks : List Bytes, plainChunks.flatten = s.plaintext →
        (encryptStream gcm key s.noncePrefix s.aad plainChunks).pushed ≠ c) →
      ∀ (aad : Bytes) (cipherChunks : List Bytes), cipherChunks.flatten = c →
        ∃ e : DecryptError, (decryptStream gcm key aad cipherChunks).ended = .error e
          ∧ ((decryptStream gcm key aad cipherChunks).pushed = []
            ∨ ∃ s ∈ sent, ∃ k, k * SEGMENT_BYTES ≤ s.plaintext.length
              ∧ (decryptStream gcm key aad cipherChunks).pushed = s.plaintext.take
              (k * SEGMENT_BYTES)) := by
  refine ⟨fun s hs plainChunks hplain => ?_, fun c hc aad cipherChunks hcipher => ?_⟩
  · refine ⟨_, s.encrypt_eq gcm key plainChunks hplain, s.ciphertext_length gcm key,
      fun cipherChunks hcipher => ?_⟩
    rw [decryptStream_eq, hcipher, hideal.decrypt_ciphertext hs]
    rfl
  · have hne : ∀ s ∈ sent, s.ciphertext gcm key ≠ c := by
      intro s hs
      have h := hc s hs [s.plaintext] (by simp)
      rwa [s.encrypt_eq gcm key [s.plaintext] (by simp)] at h
    obtain ⟨e, hended, hpushed⟩ := hideal.decrypt_forged hdistinct aad c hne
    refine ⟨asDecryptError e, ?_, ?_⟩
    · rw [decryptStream_eq, hcipher, Push.mapError, hended]
      rfl
    · rw [decryptStream_eq, hcipher]
      exact hpushed

end Ideal

/-! ## A cipher that remembers -/

/-- It hands the plaintext through under a tag of zeroes, and opens the calls it is
told of. -/
def rememberingGcm (calls : List SealCall) : Aes256Gcm where
  cipher _ _ _ plaintext := (plaintext, List.replicate TAG_BYTES 0)
  decipher _ nonce aad ct tag :=
    if (∃ c ∈ calls, c.nonce = nonce ∧ c.aad = aad ∧ c.plaintext = ct)
      ∧ tag = List.replicate TAG_BYTES 0 then some ct
    else none
  ciphertext_length _ _ _ _ := rfl
  tag_length _ _ _ _ := length_replicate

theorem gcmOpen_remembering (calls : List SealCall) (key nonce aad plaintext : Bytes) :
    gcmOpen (rememberingGcm calls) key nonce aad (plaintext ++ List.replicate TAG_BYTES 0)
      = if ∃ c ∈ calls, c.nonce = nonce ∧ c.aad = aad ∧ c.plaintext = plaintext then .ok plaintext
        else .error (.decrypt "authentication failed") := by
  have hlen : (plaintext ++ List.replicate TAG_BYTES (0 : UInt8)).length - TAG_BYTES
      = plaintext.length := by
    rw [length_append, length_replicate, Nat.add_sub_cancel]
  rw [gcmOpen, if_neg (by rw [length_append, length_replicate]; omega), hlen]
  rw [take_left, drop_left]
  by_cases hcall : ∃ c ∈ calls, c.nonce = nonce ∧ c.aad = aad ∧ c.plaintext = plaintext
  · simp only [rememberingGcm, hcall, and_self, if_true]
  · simp only [rememberingGcm, hcall, false_and, if_false]

theorem ideal_remembering (key : Bytes) (sent : List Sent) :
    Ideal (rememberingGcm (sent.flatMap Sent.sealCalls)) key sent where
  opens s hs c hc := by
    have hcall : ∃ c' ∈ sent.flatMap Sent.sealCalls,
        c'.nonce = c.nonce ∧ c'.aad = c.aad ∧ c'.plaintext = c.plaintext :=
      ⟨c, mem_flatMap.mpr ⟨s, hs, hc⟩, rfl, rfl, rfl⟩
    exact (gcmOpen_remembering _ key _ _ _).trans (if_pos hcall)
  only nonce aad sealed plaintext hopen := by
    unfold gcmOpen at hopen
    by_cases hshort : sealed.length < TAG_BYTES
    · rw [if_pos hshort] at hopen
      cases hopen
    rw [if_neg hshort] at hopen
    dsimp only [rememberingGcm] at hopen
    split_ifs at hopen with hcall
    · obtain ⟨⟨c, hc, rfl, rfl, hplain⟩, htag⟩ := hcall
      obtain rfl : sealed.take (sealed.length - TAG_BYTES) = plaintext := by
        simpa using hopen
      obtain ⟨s, hs, hcs⟩ := mem_flatMap.mp hc
      refine ⟨s, hs, hplain ▸ hcs, ?_⟩
      show sealed = sealed.take (sealed.length - TAG_BYTES) ++ List.replicate TAG_BYTES 0
      rw [← htag, take_append_drop]

/-- A letter of one segment and a byte. -/
def letter : Bytes := List.replicate SEGMENT_BYTES 0x68 ++ [0x69]

theorem letter_length : letter.length = SEGMENT_BYTES + 1 := by
  rw [letter, length_append, length_replicate, length_singleton]

/-- Two streams under one key: a letter of two segments, and an empty one. -/
def letterAndEmpty : List Sent :=
  [⟨[1, 2, 3, 4, 5, 6, 7], [0x61], letter, rfl, by rw [letter_length]; decide⟩,
   ⟨[7, 6, 5, 4, 3, 2, 1], [0x62], [], rfl, by decide⟩]

/-- The letter comes back from its two segments; without the second one it is refused. -/
theorem encrypted_streams_sound_two :
    let gcm := rememberingGcm (letterAndEmpty.flatMap Sent.sealCalls)
    let key := List.replicate 32 0
    ∃ c, encryptStream gcm key [1, 2, 3, 4, 5, 6, 7] [0x61]
        [List.replicate SEGMENT_BYTES 0x68, [0x69]] = ⟨c, .ok ()⟩
      ∧ c.length = STREAM_HEADER_BYTES + letter.length + 2 * TAG_BYTES
      ∧ decryptStream gcm key [0x61] [[], c] = ⟨letter, .ok ()⟩
      ∧ ∃ e, (decryptStream gcm key [0x61]
          [c.take (STREAM_HEADER_BYTES + SEGMENT_BYTES + TAG_BYTES)]).ended = .error e := by
  intro gcm key
  have hsound := encrypted_streams_sound (by decide) (ideal_remembering key letterAndEmpty)
  obtain ⟨c, hc, hsize, hdecrypt⟩ := hsound.1 _ mem_cons_self
    [List.replicate SEGMENT_BYTES 0x68, [0x69]] (by simp [letter])
  rw [letter_length] at hsize
  refine ⟨c, hc, ?_, hdecrypt [[], c] (by simp), ?_⟩
  · rw [hsize, letter_length]
    rfl
  -- no stream was sent that is as long as the header and one whole segment
  have hcut : ∀ s ∈ letterAndEmpty, ∀ chunks : List Bytes, chunks.flatten = s.plaintext →
      (encryptStream gcm key s.noncePrefix s.aad chunks).pushed
        ≠ c.take (STREAM_HEADER_BYTES + SEGMENT_BYTES + TAG_BYTES) := by
    intro s hs chunks hchunks heq
    obtain ⟨c', hc', hsize', -⟩ := hsound.1 s hs chunks hchunks
    have hlen := congrArg List.length heq
    rw [hc', hsize', length_take, hsize] at hlen
    simp only [letterAndEmpty, mem_cons, not_mem_nil, or_false] at hs
    rcases hs with rfl | rfl
    · rw [letter_length] at hlen
      exact absurd hlen (by decide)
    · exact absurd hlen (by decide)
  obtain ⟨e, he, -⟩ := hsound.2 _ hcut [0x61] [_] flatten_singleton
  exact ⟨e, he⟩

/-! ## The counter -/

/-- A plaintext with more segments than the counter can number is refused. -/
theorem encryptStream_too_long (gcm : Aes256Gcm) (key noncePrefix aad : Bytes) (chunks : List Bytes)
    (h : (MAX_SEGMENTS + 1) * SEGMENT_BYTES < chunks.flatten.length) :
    (encryptStream gcm key noncePrefix aad chunks).ended
      = .error (.range "stream too long for its segment counter") := by
  have hss := segmented_segments segment_pos chunks.flatten 0
  have hcount : MAX_SEGMENTS + 1 < (segments SEGMENT_BYTES chunks.flatten 0).length := by
    rw [hss.length_eq segment_pos, content_segments segment_pos]
    refine Nat.lt_of_lt_of_le ?_ (Nat.le_max_right _ _)
    rw [Nat.lt_div_iff_mul_lt segment_pos]
    have hpos := segment_pos
    omega
  obtain ⟨seg, hseg, hindex⟩ := hss.exists_index (MAX_SEGMENTS + 1) hcount
  rw [encryptStream_eq, Push.push_bind]
  refine forM_fail (fun seg _ => ?_) ⟨seg, hseg, ?_⟩
  · rw [sealSegment, segmentNonce]
    by_cases hbig : MAX_SEGMENTS < seg.index
    · rw [if_pos hbig]
      exact .inr rfl
    · rw [if_neg hbig]
      exact .inl ⟨_, rfl⟩
  · rw [sealSegment, segmentNonce, if_pos (by omega)]
    rfl

/-- One byte over 256 TiB. -/
theorem tooLong_refused :
    (encryptStream (rememberingGcm []) (List.replicate 32 0) (List.replicate 7 0) []
      [List.replicate ((MAX_SEGMENTS + 1) * SEGMENT_BYTES + 1) 0]).ended
      = .error (.range "stream too long for its segment counter") := by
  refine encryptStream_too_long _ _ _ _ _ ?_
  rw [flatten_singleton, length_replicate]
  exact Nat.lt_succ_self _

end Postroom.Crypto
