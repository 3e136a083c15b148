/-!
# Decimal digits

Powers of ten, digits with zeros in front, and the number of digits that a
fraction has before the point. `length_paddedDigits` gives the number of digits
that padding leaves.
-/

namespace ExprLang
namespace Decimal

/-- A power of ten. -/
def tenTo (exponent : Nat) : Nat := Nat.pow 10 exponent

/-- Decimal digits with zeros in front, at least `count` of them. -/
def paddedDigits (count n : Nat) : List Char :=
  let digits := Nat.toDigits 10 n
  List.replicate (count - digits.length) '0' ++ digits

theorem length_paddedDigits (count n : Nat) :
    (paddedDigits count n).length = max count (Nat.toDigits 10 n).length := by
  simp only [paddedDigits, List.length_append, List.length_replicate]
  omega

/--
The number of digits of the fraction `num / den` before the point; for a
fraction below one, minus the number of zeros that follow the point.
-/
def magnitude (num den : Nat) : Int :=
  if den ≤ num then
    (Nat.toDigits 10 (num / den)).length
  else
    1 - ((Nat.toDigits 10 ((den - 1) / num)).length : Int)

end Decimal
end ExprLang
