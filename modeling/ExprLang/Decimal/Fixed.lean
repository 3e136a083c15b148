import ExprLang.Binary64
import ExprLang.Decimal.Digits

/-!
# Decimals with a fixed number of places

The exact value of a number, rounded to a given number of places after the
point; a half goes to the even neighbour.
-/

namespace ExprLang
namespace Decimal

/-- The natural number nearest to `num / den`, a half going to the even one. -/
def roundHalfEven (num den : Nat) : Nat :=
  let whole := num / den
  let twice := 2 * (num % den)
  if twice < den then whole
  else if den < twice then whole + 1
  else if whole % 2 = 0 then whole
  else whole + 1

/--
The value `mantissa * 2 ^ exponent` with `places` digits after the point. A
value with a negative exponent has that many places and no more, so the digits
beyond them are zeros.
-/
def fixedMagnitude (mantissa : Nat) (exponent : Int) (places : Nat) : List Char :=
  let exact := min places (-exponent).toNat
  let (num, den) := Binary64.ratio mantissa exponent
  let digits := paddedDigits (exact + 1) (roundHalfEven (num * tenTo exact) den)
  let whole := digits.take (digits.length - exact)
  if places = 0 then
    whole
  else
    whole ++ '.' :: (digits.drop whole.length ++ List.replicate (places - exact) '0')

/-- A number with `places` digits after the point. The sign stays, also on a zero. -/
def fixed (x : Float) (places : Nat) : String :=
  match Binary64.parts x with
  | .nan => "NaN"
  | .infinite negative => if negative then "-inf" else "inf"
  | .finite negative m e =>
      let magnitude := fixedMagnitude m e places
      String.ofList (if negative then '-' :: magnitude else magnitude)

end Decimal
end ExprLang
