/-!
# Numerals

The number that digits stand for in a base. Where only numbers up to a limit are
wanted, `value?` stops counting above it, so that a long numeral costs no more
than a look at its digits; `value?_eq` says that nothing else changes.
-/

namespace ExprLang
namespace Numeral

/-- A number with one more digit. -/
def shift (base n digit : Nat) : Nat :=
  base * n + digit

/-- A number with one more digit, unless it is above the limit already. -/
def shiftWithin (limit base n digit : Nat) : Nat :=
  if n ≤ limit then shift base n digit else n

/-- The number with these digits in a base. -/
def value (base : Nat) (digits : List Nat) : Nat :=
  digits.foldl (shift base) 0

/-- The number with these digits in a base, or another one above the limit. -/
def valueWithin (limit base : Nat) (digits : List Nat) : Nat :=
  digits.foldl (shiftWithin limit base) 0

/-- The number with these digits in a base, if it is at most `limit`. -/
def value? (limit base : Nat) (digits : List Nat) : Option Nat :=
  let n := valueWithin limit base digits
  if n ≤ limit then some n else none

/-- Digits behind equal numbers, or behind two above the limit, lead to such numbers. -/
theorem foldl_shiftWithin (limit base : Nat) (pos : 0 < base) (digits : List Nat) (m n : Nat)
    (start : m = n ∨ limit < m ∧ limit < n) :
    digits.foldl (shiftWithin limit base) m = digits.foldl (shift base) n ∨
      limit < digits.foldl (shiftWithin limit base) m ∧
        limit < digits.foldl (shift base) n := by
  induction digits generalizing m n with
  | nil => exact start
  | cons digit digits ih =>
      have grows : n ≤ base * n := Nat.le_mul_of_pos_left n pos
      apply ih
      by_cases small : m ≤ limit
      · obtain rfl : m = n := by omega
        exact Or.inl (if_pos small)
      · rw [shiftWithin, if_neg small, shift]
        exact Or.inr (by omega)

theorem value?_eq (limit base : Nat) (pos : 0 < base) (digits : List Nat) :
    value? limit base digits =
      if value base digits ≤ limit then some (value base digits) else none := by
  have result : valueWithin limit base digits = value base digits ∨
      limit < valueWithin limit base digits ∧ limit < value base digits :=
    foldl_shiftWithin limit base pos digits 0 0 (Or.inl rfl)
  rcases result with same | ⟨within, exact⟩
  · rw [value?, same]
  · rw [value?, if_neg (Nat.not_le.2 within), if_neg (Nat.not_le.2 exact)]

end Numeral
end ExprLang
