/-
Sequence sets (packages/imap-proto/src/sequence.ts).

A set is `$`, the result a SEARCH saved, or a list of ranges whose ends are
numbers or `*`, in either order. It names sequence numbers or UIDs; what `*`
stands for is the caller's.
-/
import Mathlib.Data.List.Sort

set_option autoImplicit false

namespace Postroom.Imap

inductive SeqNumber
  | number (n : ℕ)
  | star
  deriving DecidableEq, Repr

structure SeqRange where
  from_ : SeqNumber
  to_ : SeqNumber
  deriving DecidableEq, Repr

inductive SequenceSet
  | saved
  | set (ranges : List SeqRange)
  deriving DecidableEq, Repr

/-- `r === '*' ? max : r`. -/
def SeqNumber.resolve (max : ℕ) : SeqNumber → ℕ
  | .number n => n
  | .star => max

/-- Both ends of a range in order, the lower one at least 1; nothing for `0:0`. -/
def SeqRange.resolve (max : ℕ) (r : SeqRange) : Option (ℕ × ℕ) :=
  let a := r.from_.resolve max
  let b := r.to_.resolve max
  let lo := Nat.max 1 (Nat.min a b)
  let hi := Nat.max a b
  if lo ≤ hi then some (lo, hi) else none

/-- The merging loop; `out` is what it has put out, last first. -/
def normalizeSequenceSet.merge (out : List (ℕ × ℕ)) : List (ℕ × ℕ) → List (ℕ × ℕ)
  | [] => out.reverse
  | (lo, hi) :: rest =>
    match out with
    | last :: out' =>
      if lo ≤ last.2 + 1 then
        normalizeSequenceSet.merge ((last.1, Nat.max last.2 hi) :: out') rest
      else normalizeSequenceSet.merge ((lo, hi) :: out) rest
    | [] => normalizeSequenceSet.merge [(lo, hi)] rest

/-- Inclusive [lo, hi] pairs, ascending and disjoint, never containing 0. -/
def normalizeSequenceSet (set : SequenceSet) (max : ℕ) : List (ℕ × ℕ) :=
  match set with
  | .saved => []
  | .set ranges =>
    normalizeSequenceSet.merge []
      ((ranges.filterMap (SeqRange.resolve max)).insertionSort fun x y => x.1 ≤ y.1)

/-- Whether `n` is in the set, with `*` meaning `max`. -/
def sequenceSetHas (set : SequenceSet) (n max : ℕ) : Bool :=
  match set with
  | .saved => false
  | .set ranges =>
    ranges.any fun r =>
      let a := r.from_.resolve max
      let b := r.to_.resolve max
      Nat.min a b ≤ n ∧ n ≤ Nat.max a b

/-- The loop of `sequenceSetFromNumbers` over the sorted numbers; `start` to `prev`
is the range that is open. -/
def sequenceSetFromNumbers.go (start prev : ℕ) : List ℕ → List SeqRange
  | [] => [⟨.number start, .number prev⟩]
  | n :: rest =>
    if n = prev + 1 then sequenceSetFromNumbers.go start n rest
    else ⟨.number start, .number prev⟩ :: sequenceSetFromNumbers.go n n rest

/-- The most compact set naming exactly these numbers. -/
def sequenceSetFromNumbers (numbers : List ℕ) : SequenceSet :=
  match (numbers.dedup.filter fun n => 0 < n).insertionSort (· ≤ ·) with
  | [] => .set []
  | n :: rest => .set (sequenceSetFromNumbers.go n n rest)

end Postroom.Imap
