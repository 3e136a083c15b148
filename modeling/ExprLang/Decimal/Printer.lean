import ExprLang.Decimal.Shortest

/-!
# Writing floating-point numbers

Two written forms with the shortest digits that read back:

* `plain`: always positional, a whole number without a point;
* `detailed`: a whole number with `.0`, and an exponent outside the range in
  which positions are easily read.
-/

namespace ExprLang
namespace Decimal

/-- The digits of `digits * 10 ^ exponent` in their positions. -/
def Scaled.positional (d : Scaled) : List Char :=
  let digits := Nat.toDigits 10 d.digits
  if 0 ≤ d.exponent then
    digits ++ List.replicate d.exponent.toNat '0'
  else
    let places := (-d.exponent).toNat
    if places < digits.length then
      digits.take (digits.length - places) ++ '.' :: digits.drop (digits.length - places)
    else
      '0' :: '.' :: (List.replicate (places - digits.length) '0' ++ digits)

/-- One digit before the point, the others behind it, and the power of ten. -/
def Scaled.exponential (d : Scaled) : List Char :=
  let digits := Nat.toDigits 10 d.digits
  let power := d.exponent + (digits.length - 1 : Nat)
  let fraction := if digits.length ≤ 1 then [] else '.' :: digits.drop 1
  digits.take 1 ++ fraction ++ 'e' :: (toString power).toList

/-- The digits in their positions, and `.0` behind a whole number. -/
def Scaled.pointed (d : Scaled) : List Char :=
  if 0 ≤ d.exponent then d.positional ++ ['.', '0'] else d.positional

/-- From `10 ^ -4` on the detailed form writes positions. -/
def positionalFrom : Int := -4

/-- From `10 ^ 16` on the detailed form writes an exponent. -/
def exponentFrom : Int := 16

/-- Positions or an exponent, by the power of ten of the first digit. -/
def Scaled.detailed (d : Scaled) : List Char :=
  let power := d.exponent + ((Nat.toDigits 10 d.digits).length - 1 : Nat)
  if positionalFrom ≤ power ∧ power < exponentFrom then d.pointed else d.exponential

/-- Writes a number with `form` for finite values other than zero and `zero` for zeros. -/
def renderWith (form : Scaled → List Char) (zero : List Char) (x : Float) : String :=
  match Binary64.parts x with
  | .nan => "NaN"
  | .infinite negative => if negative then "-inf" else "inf"
  | .finite negative m e =>
      let magnitude := if m = 0 then zero else form (shortest m e)
      String.ofList (if negative then '-' :: magnitude else magnitude)

/-- The positional form. -/
def plain (x : Float) : String :=
  renderWith Scaled.positional ['0'] x

/-- The form that tells a floating-point number from an integer. -/
def detailed (x : Float) : String :=
  renderWith Scaled.detailed ['0', '.', '0'] x

end Decimal
end ExprLang
