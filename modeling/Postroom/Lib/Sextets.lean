/-
Octets packed into sextets, and read back through a buffer of bits.

Three octets make four sextets. A last group of one or two octets makes two or three,
and the bits of its last sextet that no octet fills are zero. The reader takes a
sextet at a time and gives an octet whenever it has eight bits; what it has read is
complete when less than a sextet is left over and the bits left are zero.

A list of digits is read as a number, most significant first. Packing multiplies it by
the power of two that fills the last sextet, reading divides by it, and a list is
known by its length and its number (`value_inj`): so the two are inverse to each
other. The buffer holds the last 24 bits of the number, enough for the next octet.
-/
import Mathlib.Data.Nat.Digits.Defs
import Mathlib.Data.List.Induction
import Mathlib.Tactic.IntervalCases

set_option autoImplicit false

namespace Postroom.Lib

open List

/-! ## Digits -/

/-- The number with these digits, most significant first. -/
def value (b : ℕ) (l : List ℕ) : ℕ := Nat.ofDigits b l.reverse

theorem value_append (b : ℕ) (l m : List ℕ) :
    value b (l ++ m) = value b l * b ^ m.length + value b m := by
  unfold value
  rw [reverse_append, Nat.ofDigits_append, length_reverse, Nat.add_comm, Nat.mul_comm]

theorem value_singleton (b d : ℕ) : value b [d] = d := Nat.ofDigits_singleton

theorem value_inj {b : ℕ} (hb : 1 < b) {l m : List ℕ} (hlen : l.length = m.length)
    (hl : ∀ d ∈ l, d < b)
    (hm : ∀ d ∈ m, d < b) (h : value b l = value b m) : l = m := by
  refine reverse_inj.mp (Nat.ofDigits_inj_of_len_eq hb ?_ ?_ ?_ h)
  · rw [length_reverse, length_reverse, hlen]
  · exact fun d hd => hl d (mem_reverse.mp hd)
  · exact fun d hd => hm d (mem_reverse.mp hd)

/-! ## Packing -/

/-- The first `k` sextets of 24 bits. -/
def sextets (n k : ℕ) : List ℕ := [n / 2 ^ 18 % 64, n / 2 ^ 12 % 64, n / 2 ^ 6 % 64, n % 64].take k

def pack : List ℕ → List ℕ
  | [] => []
  | [b0] => sextets (b0 * 2 ^ 16) 2
  | [b0, b1] => sextets (b0 * 2 ^ 16 + b1 * 2 ^ 8) 3
  | b0 :: b1 :: b2 :: rest => sextets (b0 * 2 ^ 16 + b1 * 2 ^ 8 + b2) 4 ++ pack rest

theorem sextets_lt (n k : ℕ) : ∀ v ∈ sextets n k, v < 64 := by
  intro v hv
  have hmem := mem_of_mem_take hv
  simp only [mem_cons, not_mem_nil, or_false] at hmem
  omega

theorem pack_lt : ∀ bs : List ℕ, ∀ v ∈ pack bs, v < 64
  | [] => nofun
  | [_] => sextets_lt _ _
  | [_, _] => sextets_lt _ _
  | _ :: _ :: _ :: bs => forall_mem_append.mpr ⟨sextets_lt _ _, pack_lt bs⟩

theorem value_sextets {n k : ℕ} (hn : n < 2 ^ 24) (hk : k ≤ 4) :
    value 64 (sextets n k) = n / 64 ^ (4 - k) := by
  interval_cases k <;> simp [value, sextets, Nat.ofDigits_cons] <;> omega

/-- The packing of some octets is their number, with `p` zero bits to fill the last sextet. -/
theorem value_pack : ∀ bs : List ℕ, (∀ b ∈ bs, b < 256) →
    ∃ p < 6, 6 * (pack bs).length = 8 * bs.length + p ∧ value 64 (pack bs) = value 256 bs * 2 ^ p
  | [], _ => ⟨0, by decide, rfl, rfl⟩
  | [b0], h => by
    have hb0 := h b0 (by simp)
    refine ⟨4, by decide, rfl, ?_⟩
    rw [pack, value_sextets (by omega) (by decide)]
    simp [value]
    omega
  | [b0, b1], h => by
    have hb0 := h b0 (by simp)
    have hb1 := h b1 (by simp)
    refine ⟨2, by decide, rfl, ?_⟩
    rw [pack, value_sextets (by omega) (by decide)]
    simp [value, Nat.ofDigits_cons]
    omega
  | b0 :: b1 :: b2 :: bs, h => by
    have hb0 := h b0 (by simp)
    have hb1 := h b1 (by simp)
    have hb2 := h b2 (by simp)
    obtain ⟨p, hp, hlen, hval⟩ := value_pack bs fun b hb => h b (by simp [hb])
    have hpow : 64 ^ (pack bs).length = 256 ^ bs.length * 2 ^ p := by
      rw [show 64 = 2 ^ 6 from rfl, show 256 = 2 ^ 8 from rfl,
        ← Nat.pow_mul, ← Nat.pow_mul, ← Nat.pow_add, hlen]
    have hgroup : value 256 [b0, b1, b2] = b0 * 2 ^ 16 + b1 * 2 ^ 8 + b2 := by
      simp [value, Nat.ofDigits_cons]
      omega
    refine ⟨p, hp, ?_, ?_⟩
    · simp [pack, sextets]
      omega
    · rw [pack, value_append, value_sextets (by omega) (by decide), hval, hpow,
        show b0 :: b1 :: b2 :: bs = [b0, b1, b2] ++ bs from rfl, value_append, hgroup, Nat.add_mul,
        Nat.mul_assoc]
      simp

/-! ## Reading -/

structure BitBuffer where
  bits : ℕ
  nbits : ℕ
  bytes : List ℕ

namespace BitBuffer

def push (s : BitBuffer) (v : ℕ) : BitBuffer :=
  let bits := (s.bits * 64 + v) % 2 ^ 24
  let nbits := s.nbits + 6
  if 8 ≤ nbits then ⟨bits, nbits - 8, s.bytes ++ [bits / 2 ^ (nbits - 8) % 256]⟩
    else ⟨bits, nbits, s.bytes⟩

/-- Nothing is left over but zero bits that fill the last sextet. -/
def Complete (s : BitBuffer) : Prop := s.nbits < 6 ∧ s.bits % 2 ^ s.nbits = 0

instance (s : BitBuffer) : Decidable s.Complete := inferInstanceAs (Decidable (_ ∧ _))

/-- The buffer after some sextets. -/
structure Holds (vs : List ℕ) (s : BitBuffer) : Prop where
  bits : s.bits = value 64 vs % 2 ^ 24
  nbits : s.nbits < 8
  length : 6 * vs.length = 8 * s.bytes.length + s.nbits
  value : value 256 s.bytes = value 64 vs / 2 ^ s.nbits
  bytes : ∀ b ∈ s.bytes, b < 256

variable {vs : List ℕ} {s : BitBuffer}

theorem Holds.push (h : Holds vs s) {v : ℕ} (hv : v < 64) : Holds (vs ++ [v]) (s.push v) := by
  obtain ⟨bits, nbits, bytes⟩ := s
  obtain ⟨hbits, hnbits, hlen, hvalue, hbytes⟩ := h
  dsimp only at hbits hnbits hlen hvalue hbytes
  have hnext : Lib.value 64 (vs ++ [v]) = Lib.value 64 vs * 64 + v := value_append 64 vs [v]
  have hroom : 6 * (vs ++ [v]).length = 8 * bytes.length + nbits + 6 := by
    rw [length_append, length_singleton]
    omega
  unfold BitBuffer.push
  dsimp only
  split_ifs with hfull
  · constructor <;> dsimp only
    · omega
    · omega
    · rw [hroom, length_append, length_singleton]
      omega
    · rw [hnext, value_append, hvalue, hbits, value_singleton, length_singleton]
      interval_cases nbits <;> omega
    · exact forall_mem_append.mpr ⟨hbytes, forall_mem_singleton.mpr (Nat.mod_lt _ (by decide))⟩
  · constructor <;> dsimp only
    · omega
    · omega
    · omega
    · rw [hnext, hvalue]
      interval_cases nbits <;> omega
    · exact hbytes

theorem holds_foldl (h : ∀ v ∈ vs, v < 64) : Holds vs (vs.foldl BitBuffer.push ⟨0, 0, []⟩) := by
  induction vs using List.reverseRecOn with
  | nil => exact ⟨rfl, by decide, rfl, rfl, nofun⟩
  | append_singleton vs v ih =>
    obtain ⟨hvs, hv⟩ := forall_mem_append.mp h
    rw [foldl_append]
    exact (ih hvs).push (hv v (mem_singleton.mpr rfl))

/-- What has been packed is read back. -/
theorem foldl_pack {bs : List ℕ} (h : ∀ b ∈ bs, b < 256) :
    ((pack bs).foldl BitBuffer.push ⟨0, 0, []⟩).Complete
      ∧ ((pack bs).foldl BitBuffer.push ⟨0, 0, []⟩).bytes = bs := by
  have hread := holds_foldl (pack_lt bs)
  set s := (pack bs).foldl BitBuffer.push ⟨0, 0, []⟩
  obtain ⟨p, hp, hlen, hval⟩ := value_pack bs h
  obtain ⟨hnbits, hlength⟩ : s.nbits = p ∧ s.bytes.length = bs.length := by
    have := hread.length
    have := hread.nbits
    omega
  refine ⟨⟨by omega, ?_⟩, ?_⟩
  · rw [hread.bits, hval, hnbits, Nat.mod_mod_of_dvd _ (Nat.pow_dvd_pow 2 (by omega)),
      Nat.mul_mod_left]
  · refine value_inj (by decide) hlength hread.bytes h ?_
    rw [hread.value, hval, hnbits, Nat.mul_div_cancel _ (Nat.two_pow_pos p)]

/-- What is complete is packed, and from its octets. -/
theorem Holds.pack_bytes (h : Holds vs s) (hvs : ∀ v ∈ vs, v < 64) (hc : s.Complete) :
    pack s.bytes = vs := by
  obtain ⟨p, hp, hlen, hval⟩ := value_pack s.bytes h.bytes
  obtain ⟨hsix, hzero⟩ := hc
  obtain ⟨hnbits, hlength⟩ : s.nbits = p ∧ (pack s.bytes).length = vs.length := by
    have := h.length
    omega
  rw [h.bits, Nat.mod_mod_of_dvd _ (Nat.pow_dvd_pow 2 (by omega))] at hzero
  refine value_inj (by decide) hlength (pack_lt _) hvs ?_
  rw [hval, h.value, ← hnbits, Nat.div_mul_cancel (Nat.dvd_of_mod_eq_zero hzero)]

end BitBuffer

end Postroom.Lib
