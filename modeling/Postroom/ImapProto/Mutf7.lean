/-
Modified UTF-7 mailbox names (packages/imap-proto/src/mutf7.ts).

A name is a string of UTF-16 units, lone surrogates included. Printable ASCII stands for
itself except "&", which is "&-"; a maximal run of other units is its octets in
base64, between "&" and "-". The decoder refuses every other way to write a name, so
that it and the encoder are inverse to each other.
-/
import Postroom.Lib.Sextets

set_option autoImplicit false

namespace Postroom.ImapProto

open Lib List

/-- A string, as its UTF-16 units. -/
abbrev Units := List UInt16

def B64 : Units :=
  "ABCDEFGHIJKLMNOPQRSTUVWXYZabcdefghijklmnopqrstuvwxyz0123456789+,".toList.map fun c =>
    UInt16.ofNat c.toNat

def AMP : UInt16 := 0x26

def DASH : UInt16 := 0x2d

def isDirect (unit : UInt16) : Bool := 0x20 ≤ unit && unit ≤ 0x7e

/-! ## Encoding -/

def octets (units : Units) : List ℕ := units.flatMap fun u => [u.toNat / 256, u.toNat % 256]

/-- The letters of some sextets. -/
def letters (vs : List ℕ) : Units := vs.flatMap fun v => B64[v]?.toList

def encodeRun (units : Units) : Units := AMP :: letters (pack (octets units)) ++ [DASH]

/-- `run` holds the units whose run has not ended. -/
def encodeFrom (run : Units) : Units → Units
  | [] => if 0 < run.length then encodeRun run else []
  | unit :: name =>
    if isDirect unit then
      (if 0 < run.length then encodeRun run else []) ++ (if unit = AMP then [AMP, DASH] else [unit])
        ++ encodeFrom [] name
    else encodeFrom (run ++ [unit]) name

def encodeMailboxName (name : Units) : Units := encodeFrom [] name

/-! ## Decoding -/

/-- The units of the octets, none of them direct. -/
def unitsOf : List ℕ → Option Units
  | b0 :: b1 :: rest =>
    let unit := UInt16.ofNat (b0 * 256 + b1)
    if isDirect unit then none else (unitsOf rest).map (unit :: ·)
  | _ => some []

def decodeRun (body : Units) : Option Units :=
  (body.mapM fun c => B64.idxOf? c).bind fun vs =>
    let buffer := vs.foldl BitBuffer.push ⟨0, 0, []⟩
    if ¬buffer.Complete ∨ buffer.bytes.length % 2 ≠ 0 then none else unitsOf buffer.bytes

/-- What stands before the first dash, and what after it. -/
def cutAtDash : Units → Option (Units × Units)
  | [] => none
  | c :: rest => if c = DASH then some ([], rest) else (cutAtDash rest).map fun p => (c :: p.1, p.2)

theorem cutAtDash_eq (w body rest : Units) :
    cutAtDash w = some (body, rest) ↔ w = body ++ DASH :: rest ∧ DASH ∉ body := by
  induction w generalizing body with
  | nil => simp [cutAtDash]
  | cons c w ih =>
    rw [cutAtDash]
    split_ifs with hc
    · cases body with
      | nil => simp [hc]
      | cons d body => simp +contextual [hc, eq_comm]
    · cases body with
      | nil => simp [hc]
      | cons d body =>
        have := ih body
        simp only [Option.map_eq_some_iff, Prod.exists, Prod.mk.injEq, List.cons.injEq, cons_append,
          mem_cons]
        constructor
        · rintro ⟨b, r, h, ⟨rfl, rfl⟩, rfl⟩
          obtain ⟨rfl, hno⟩ := this.mp h
          exact ⟨⟨rfl, rfl⟩, fun h => h.elim (fun h => hc h.symm) hno⟩
        · rintro ⟨⟨rfl, hw⟩, hno⟩
          exact ⟨body, rest, this.mpr ⟨hw, fun h => hno (.inr h)⟩, ⟨rfl, rfl⟩, rfl⟩

def decodeFrom (afterRun : Bool) : Units → Option Units
  | [] => some []
  | c :: wire =>
    if isDirect c = false then none
    else if c ≠ AMP then (decodeFrom false wire).map (c :: ·)
    else match h : cutAtDash wire with
      | none => none
      | some (body, rest) =>
        have : rest.length < wire.length := by
          rw [((cutAtDash_eq _ _ _).mp h).1, length_append, length_cons]
          omega
        if body = [] then (decodeFrom false rest).map (AMP :: ·)
        -- two adjacent runs would be a second spelling of one
        else if afterRun then none
        else (decodeRun body).bind fun units => (decodeFrom true rest).map (units ++ ·)
termination_by wire => wire.length
decreasing_by all_goals (simp only [length_cons]; omega)

def decodeMailboxName (wire : Units) : Option Units := decodeFrom false wire

/-! ## A run -/

/-- Each sextet has a letter, whose index is the sextet; the dash is no letter. -/
theorem B64_spec : B64.length = 64 ∧ (∀ v < 64, B64[v]?.bind (B64.idxOf? ·) = some v)
    ∧ DASH ∉ B64 := by
  decide +kernel

theorem dash_notMem_letters (vs : List ℕ) : DASH ∉ letters vs := by
  intro h
  obtain ⟨v, -, hc⟩ := mem_flatMap.mp h
  exact B64_spec.2.2 (mem_of_getElem? (Option.mem_toList.mp hc))

theorem letters_cons {v : ℕ} {c : UInt16} (h : B64[v]? = some c) (vs : List ℕ) :
    letters (v :: vs) = c :: letters vs := by
  unfold letters
  rw [flatMap_cons, h]
  rfl

theorem mapM_letters (vs : List ℕ) (h : ∀ v ∈ vs, v < 64) :
    ((letters vs).mapM fun c => B64.idxOf? c) = some vs := by
  induction vs with
  | nil => rfl
  | cons v vs ih =>
    obtain ⟨hv, hvs⟩ := forall_mem_cons.mp h
    obtain ⟨c, hc, hidx⟩ := Option.bind_eq_some_iff.mp (B64_spec.2.1 v hv)
    rw [letters_cons hc, mapM_cons, hidx, ih hvs]
    rfl

theorem letters_of_mapM (body : Units) (vs : List ℕ)
    (h : (body.mapM fun c => B64.idxOf? c) = some vs) :
    letters vs = body ∧ ∀ v ∈ vs, v < 64 := by
  induction body generalizing vs with
  | nil =>
    obtain rfl : [] = vs := Option.some.inj h
    exact ⟨rfl, nofun⟩
  | cons c body ih =>
    rw [mapM_cons] at h
    obtain ⟨v, hv, h⟩ := Option.bind_eq_some_iff.mp h
    obtain ⟨rest, hrest, h⟩ := Option.bind_eq_some_iff.mp h
    obtain rfl : v :: rest = vs := Option.some.inj h
    obtain ⟨hlt, hc, -⟩ := findIdx?_eq_some_iff_getElem.mp hv
    obtain ⟨hletters, hall⟩ := ih rest hrest
    rw [letters_cons (List.getElem?_eq_some_iff.mpr ⟨hlt, eq_of_beq hc⟩), hletters]
    exact ⟨rfl, forall_mem_cons.mpr ⟨B64_spec.1 ▸ hlt, hall⟩⟩

theorem octets_lt (units : Units) : ∀ b ∈ octets units, b < 256 := by
  intro b hb
  obtain ⟨u, -, hb⟩ := mem_flatMap.mp hb
  have := u.toNat_lt
  simp only [mem_cons, not_mem_nil, or_false] at hb
  omega

theorem octets_cons (u : UInt16) (units : Units) :
    octets (u :: units) = u.toNat / 256 :: u.toNat % 256 :: octets units := rfl

theorem octets_even (units : Units) : (octets units).length % 2 = 0 := by
  induction units with
  | nil => rfl
  | cons u units ih =>
    rw [octets_cons, length_cons, length_cons]
    omega

theorem unitsOf_octets (units units' : Units) :
    unitsOf (octets units) = some units' ↔ units = units' ∧ ∀ u ∈ units, isDirect u = false := by
  induction units generalizing units' with
  | nil => simp [octets, unitsOf]
  | cons u units ih =>
    have hu : UInt16.ofNat (u.toNat / 256 * 256 + u.toNat % 256) = u := by
      rw [Nat.div_add_mod', UInt16.ofNat_toNat]
    rw [octets_cons, unitsOf, hu]
    cases hd : isDirect u <;> simp [hd, Option.map_eq_some_iff, ih, and_right_comm]

/-- Octets in pairs are the octets of units. -/
theorem exists_octets : ∀ bytes : List ℕ, (∀ b ∈ bytes, b < 256) → bytes.length % 2 = 0 →
    ∃ units, octets units = bytes
  | [], _, _ => ⟨[], rfl⟩
  | [_], _, hlen => absurd hlen Nat.one_ne_zero
  | b0 :: b1 :: bytes, h, hlen => by
    have hb0 := h b0 (by simp)
    have hb1 := h b1 (by simp)
    obtain ⟨units, hunits⟩ := exists_octets bytes (fun b hb => h b (by simp [hb])) (by
      rw [length_cons, length_cons] at hlen
      omega)
    have hnat : (UInt16.ofNat (b0 * 256 + b1)).toNat = b0 * 256 + b1 :=
      UInt16.toNat_ofNat_of_lt' (show b0 * 256 + b1 < 65536 by omega)
    refine ⟨UInt16.ofNat (b0 * 256 + b1) :: units, ?_⟩
    rw [octets_cons, hnat, hunits]
    congr 2 <;> omega

/-- **A run.** What the decoder takes for units that are not direct is their one
spelling. -/
theorem decodeRun_iff (body units : Units) :
    decodeRun body = some units ↔ letters (pack (octets units)) = body
      ∧ ∀ u ∈ units, isDirect u = false := by
  unfold decodeRun
  constructor
  · intro h
    obtain ⟨vs, hvs, hunits⟩ := Option.bind_eq_some_iff.mp h
    obtain ⟨rfl, hlt⟩ := letters_of_mapM body vs hvs
    dsimp only at hunits
    split_ifs at hunits with hbad
    rw [not_or, not_not, not_not] at hbad
    have hread := BitBuffer.holds_foldl hlt
    obtain ⟨units', hoctets⟩ := exists_octets _ hread.bytes hbad.2
    rw [← hoctets, unitsOf_octets] at hunits
    obtain ⟨rfl, hdirect⟩ := hunits
    rw [hoctets, hread.pack_bytes hlt hbad.1]
    exact ⟨rfl, hdirect⟩
  · rintro ⟨rfl, hdirect⟩
    obtain ⟨hcomplete, hbytes⟩ := BitBuffer.foldl_pack (octets_lt units)
    rw [mapM_letters _ (pack_lt _), Option.bind_some]
    dsimp only
    rw [hbytes, if_neg]
    · exact (unitsOf_octets units units).mpr ⟨rfl, hdirect⟩
    · rw [not_or, not_not, not_not]
      exact ⟨hcomplete, octets_even units⟩

/-! ## Names -/

theorem decodeFrom_amp (afterRun : Bool) {body : Units} (rest : Units) (h : DASH ∉ body) :
    decodeFrom afterRun (AMP :: (body ++ DASH :: rest)) =
      if body = [] then (decodeFrom false rest).map (AMP :: ·) else if afterRun then none
      else (decodeRun body).bind fun units => (decodeFrom true rest).map (units ++ ·) := by
  have hcut := (cutAtDash_eq (body ++ DASH :: rest) _ _).mpr ⟨rfl, h⟩
  rw [decodeFrom, if_neg (by decide), if_neg (by decide)]
  split
  · simp_all
  · rename_i hsome
    rw [hcut] at hsome
    cases hsome
    rfl

theorem encodeFrom_run (run : Units) {units : Units} (h : ∀ u ∈ units, isDirect u = false)
    (name : Units) :
    encodeFrom run (units ++ name) = encodeFrom (run ++ units) name := by
  induction units generalizing run with
  | nil => rw [nil_append, append_nil]
  | cons u units ih =>
    obtain ⟨hu, hunits⟩ := forall_mem_cons.mp h
    rw [cons_append, encodeFrom, hu, if_neg Bool.false_ne_true, ih _ hunits, append_assoc,
      singleton_append]

theorem encodeFrom_direct {u : UInt16} (hu : isDirect u = true) (run name : Units) :
    encodeFrom run (u :: name) = encodeFrom run [] ++ (if u = AMP then [AMP, DASH] else [u])
      ++ encodeFrom [] name := by
  conv_lhs => rw [encodeFrom, if_pos hu]
  rfl

/-- A run ends where a direct unit follows, or the name ends. -/
theorem encodeFrom_pending {run : Units} (hrun : run ≠ []) {name : Units}
    (h : ∀ u ∈ name.head?, isDirect u = true) :
    encodeFrom run name = encodeRun run ++ encodeFrom [] name := by
  have hend : encodeFrom run [] = encodeRun run := if_pos (length_pos_iff.mpr hrun)
  cases name with
  | nil => rw [hend, show encodeFrom [] [] = [] from rfl, append_nil]
  | cons u name =>
    rw [encodeFrom_direct (h u rfl), encodeFrom_direct (h u rfl), hend, append_assoc, append_assoc]
    rfl

/-- The decoder returns a name only from its encoding. Right after a run, it begins with
a direct unit. -/
theorem encode_of_decodeFrom {afterRun : Bool} {wire name : Units}
    (h : decodeFrom afterRun wire = some name) :
    encodeFrom [] name = wire ∧ (afterRun = true → ∀ u ∈ name.head?, isDirect u = true) := by
  fun_induction decodeFrom afterRun wire generalizing name with
  | case1 =>
    obtain rfl : [] = name := Option.some.inj h
    exact ⟨rfl, nofun⟩
  | case2 => cases h
  | case3 _ c wire hdirect hamp ih =>
    obtain ⟨rest, hrest, rfl⟩ := Option.map_eq_some_iff.mp h
    rw [Bool.not_eq_false] at hdirect
    rw [encodeFrom_direct hdirect, (ih hrest).1, if_neg hamp]
    exact ⟨rfl, fun _ u hu => Option.some.inj hu ▸ hdirect⟩
  | case4 => cases h
  | case5 _ c wire _ hamp rest hcut _ ih =>
    obtain ⟨name, hname, rfl⟩ := Option.map_eq_some_iff.mp h
    rw [not_not] at hamp
    rw [encodeFrom_direct rfl, (ih hname).1, if_pos rfl, hamp, ((cutAtDash_eq _ _ _).mp hcut).1]
    exact ⟨rfl, fun _ u hu => Option.some.inj hu ▸ rfl⟩
  | case6 => cases h
  | case7 _ c wire _ hamp body rest hcut _ hbody hafter ih =>
    obtain ⟨units, hunits, h⟩ := Option.bind_eq_some_iff.mp h
    obtain ⟨name, hname, rfl⟩ := Option.map_eq_some_iff.mp h
    obtain ⟨hletters, hplain⟩ := (decodeRun_iff body units).mp hunits
    obtain ⟨hwire, hhead⟩ := ih hname
    have hne : units ≠ [] := by
      rintro rfl
      exact hbody hletters.symm
    rw [not_not] at hamp
    rw [encodeFrom_run [] hplain, nil_append, encodeFrom_pending hne (hhead rfl), hwire, encodeRun,
      hletters, hamp,
      ((cutAtDash_eq _ _ _).mp hcut).1, append_assoc]
    exact ⟨rfl, fun h => absurd h hafter⟩

theorem exists_run (name : Units) : ∃ run rest, name = run ++ rest ∧ (∀ u ∈ run, isDirect u = false)
    ∧ ∀ u ∈ rest.head?, isDirect u = true := by
  induction name with
  | nil => exact ⟨[], [], rfl, nofun, nofun⟩
  | cons u name ih =>
    cases hu : isDirect u with
    | true => exact ⟨[], u :: name, rfl, nofun, fun v hv => Option.some.inj hv ▸ hu⟩
    | false =>
      obtain ⟨run, rest, rfl, hrun, hrest⟩ := ih
      exact ⟨u :: run, rest, rfl, forall_mem_cons.mpr ⟨hu, hrun⟩, hrest⟩

/-- The encoding of a name is decoded, right after a run if it does not begin with one. -/
theorem decode_encodeFrom (name : Units) (afterRun : Bool)
    (hafter : afterRun = true → ∀ u ∈ name.head?, isDirect u = true) :
    decodeFrom afterRun (encodeFrom [] name) = some name := by
  induction hn : name.length using Nat.strongRecOn generalizing name afterRun with
  | ind n ih =>
    subst hn
    obtain ⟨run, rest, rfl, hrun, hrest⟩ := exists_run name
    cases run with
    | nil =>
      cases rest with
      | nil => rw [append_nil, show encodeFrom [] [] = [] from rfl, decodeFrom]
      | cons u rest =>
        have hu := hrest u rfl
        have hname := ih rest.length (Nat.lt_succ_self _) rest false nofun rfl
        rw [nil_append, encodeFrom_direct hu, show encodeFrom [] [] = [] from rfl, nil_append]
        split_ifs with hamp
        · have hdash := decodeFrom_amp afterRun (encodeFrom [] rest) (not_mem_nil (a := DASH))
          rw [if_pos rfl, hname] at hdash
          rw [hamp]
          exact hdash
        · rw [singleton_append, decodeFrom, if_neg (Bool.not_eq_false _ ▸ hu), if_pos hamp, hname]
          rfl
    | cons u run =>
      have hname := ih rest.length (by rw [length_append, length_cons]; omega) rest true
        (fun _ => hrest) rfl
      have hfirst : afterRun ≠ true := fun h =>
        Bool.false_ne_true ((hrun u (by simp)).symm.trans (hafter h u rfl))
      have hne : letters (pack (octets (u :: run))) ≠ [] := by
        intro hnil
        have hdecoded : decodeRun [] = some (u :: run) := (decodeRun_iff _ _).mpr ⟨hnil, hrun⟩
        cases hdecoded.symm.trans (show decodeRun [] = some [] from rfl)
      rw [encodeFrom_run [] hrun, nil_append, encodeFrom_pending (cons_ne_nil _ _) hrest, encodeRun,
        cons_append, cons_append, append_assoc, singleton_append,
        decodeFrom_amp _ _ (dash_notMem_letters _), if_neg hne, if_neg hfirst,
        (decodeRun_iff _ _).mpr ⟨rfl, hrun⟩,
        Option.bind_some, hname]
      rfl

/-- **Every mailbox name has exactly one wire spelling**, its encoding. -/
theorem mailboxName_one_spelling (wire name : Units) :
    decodeMailboxName wire = some name ↔ encodeMailboxName name = wire := by
  constructor
  · intro h
    exact (encode_of_decodeFrom h).1
  · rintro rfl
    exact decode_encodeFrom name false nofun

end Postroom.ImapProto
