/-
Numbers written in decimal.
-/
import Mathlib.Data.Nat.Digits.Lemmas

set_option autoImplicit false

namespace Postroom.Lib

def digitChar (d : ℕ) : Char := Char.ofNat (48 + d)

/-- A number in decimal, without leading zeros. -/
def decimal (n : ℕ) : List Char := if n = 0 then ['0'] else (Nat.digits 10 n).reverse.map digitChar

/-- The number a text of digits stands for. -/
def bigInt (digits : List Char) : ℕ := digits.foldl (fun n c => 10 * n + (c.toNat - 48)) 0

theorem digitChar_toNat {d : ℕ} (h : d < 10) : (digitChar d).toNat - 48 = d := by
  have hall : ∀ d < 10, (digitChar d).toNat - 48 = d := by decide
  exact hall d h

/-- A number is read back. -/
theorem bigInt_decimal (n : ℕ) : bigInt (decimal n) = n := by
  unfold decimal
  split
  · rename_i h
    rw [h]
    rfl
  · -- the digits are read from the front, so the fold goes over them from the back
    have hfold : ∀ ds : List ℕ, (∀ d ∈ ds, d < 10) →
        (ds.map digitChar).foldr (fun c n => 10 * n + (c.toNat - 48)) 0 = Nat.ofDigits 10 ds := by
      intro ds hds
      induction ds with
      | nil => rfl
      | cons d ds ih =>
        rw [List.map_cons, List.foldr_cons, ih fun x hx => hds x (List.mem_cons_of_mem _ hx),
          Nat.ofDigits_cons,
          digitChar_toNat (hds d List.mem_cons_self), Nat.add_comm]
    rw [bigInt, List.map_reverse, List.foldl_reverse,
      hfold _ fun d hd => Nat.digits_lt_base (by decide) hd,
      Nat.ofDigits_digits]

theorem decimal_injective : Function.Injective decimal :=
  Function.LeftInverse.injective bigInt_decimal

end Postroom.Lib
