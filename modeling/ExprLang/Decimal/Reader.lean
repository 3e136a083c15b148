import ExprLang.Numeral

/-!
# Reading numbers

Integers with an optional sign, and decimals with an optional sign, point and
exponent. A reader takes the whole text or nothing.

* `readNat?`, `readInt64?`: integers within a range;
* `readFloat?`: decimals, rounded to the nearest floating-point number, and the
  words for the values that have no digits.
-/

namespace ExprLang
namespace Decimal

/-- The value of a decimal digit. -/
def digitValue (c : Char) : Nat :=
  c.toNat - '0'.toNat

/-- Are there digits and nothing else, at least one? -/
def isDigits (text : List Char) : Bool :=
  !text.isEmpty && text.all Char.isDigit

/-- Digits that stand for a number up to `limit`. -/
def readDigits? (limit : Nat) (text : List Char) : Option Nat :=
  if isDigits text then Numeral.value? limit 10 (text.map digitValue) else none

/-- Splits off a sign: whether it was a minus, and the rest. -/
def splitSign : List Char → Bool × List Char
  | '-' :: rest => (true, rest)
  | '+' :: rest => (false, rest)
  | text => (false, text)

/-- A natural number up to `limit`, a plus in front allowed. -/
def readNat? (limit : Nat) (text : List Char) : Option Nat :=
  readDigits? limit <|
    match text with
    | '+' :: rest => rest
    | _ => text

/-- The integer as a 64-bit one, if it is in range. -/
def fits? (n : Int) : Option Int64 :=
  if Int64.minValue.toInt ≤ n ∧ n ≤ Int64.maxValue.toInt then some (Int64.ofInt n) else none

/-- The largest magnitude of a 64-bit integer, which only a negative one has. -/
def magnitudeLimit : Nat := 0x8000000000000000

/-- A 64-bit integer with an optional sign. -/
def readInt64? (text : List Char) : Option Int64 :=
  let (negative, digits) := splitSign text
  (readDigits? magnitudeLimit digits).bind fun n => fits? (if negative then -(n : Int) else n)

/-- Infinity. -/
def infinity : Float := Float.ofBits 0x7FF0000000000000

/-- The number nearest to `n * 10 ^ exponent`. -/
def scaled (n : Nat) (exponent : Int) : Float :=
  if 0 ≤ exponent then
    Float.ofScientific n false exponent.toNat
  else
    Float.ofScientific n true (-exponent).toNat

/-- Number of digits that are read one by one. -/
def countedDigits : Nat := 800

/--
Digits without those behind the limit, and how many places less that makes. One
digit stands for all that are left out unless these are zeros: a number halfway
between two floating-point numbers has fewer digits, so that it does not matter
how much follows.
-/
def shorten (digits : List Char) : List Char × Nat :=
  let rest := digits.drop countedDigits
  if rest.all (· == '0') then
    (digits.take countedDigits, rest.length)
  else
    (digits.take countedDigits ++ ['1'], rest.length - 1)

/--
The number nearest to `digits * 10 ^ exponent`. Far outside the range of finite
numbers the power of ten is not computed.
-/
def nearest (digits : List Char) (exponent : Int) : Float :=
  let significant := digits.dropWhile (· == '0')
  let places := exponent + significant.length
  if significant.isEmpty then
    0.0
  else if 400 < places then
    infinity
  else if places < -400 then
    0.0
  else
    let (kept, left) := shorten significant
    scaled (Numeral.value 10 (kept.map digitValue)) (exponent + left)

/-- From here on an exponent grows no further. -/
def exponentLimit : Nat := 0x10000

/-- The exponent with these digits. Those behind one that reaches the limit do not count. -/
def exponentOf (digits : List Char) : Nat :=
  digits.foldl (fun n c => if n < exponentLimit then 10 * n + digitValue c else n) 0

/-- Splits an exponent off a decimal: the text in front of it and its value. -/
def splitExponent? (text : List Char) : Option (List Char × Int) :=
  let significand := text.takeWhile fun c => c != 'e' && c != 'E'
  match text.drop significand.length with
  | [] => some (significand, 0)
  | _ :: written =>
      let (negative, digits) := splitSign written
      let exponent := exponentOf digits
      if isDigits digits then
        some (significand, if negative then -(exponent : Int) else exponent)
      else
        none

/-- The words that stand for numbers without digits, in any case. -/
def readWord? (text : List Char) : Option Float :=
  match text.map Char.toLower with
  | ['i', 'n', 'f'] | ['i', 'n', 'f', 'i', 'n', 'i', 't', 'y'] => some infinity
  | ['n', 'a', 'n'] => some (Float.ofBits 0x7FF8000000000000)
  | _ => none

/-- A decimal without a sign: digits on at least one side of an optional point. -/
def readMagnitude? (text : List Char) : Option Float :=
  (splitExponent? text).bind fun (significand, exponent) =>
    let whole := significand.takeWhile (· != '.')
    let fraction := (significand.drop whole.length).drop 1
    let digits := whole ++ fraction
    if isDigits digits then some (nearest digits (exponent - fraction.length)) else none

/-- The floating-point number nearest to a written one. -/
def readFloat? (text : List Char) : Option Float :=
  let (negative, rest) := splitSign text
  ((readWord? rest).orElse fun _ => readMagnitude? rest).map fun x =>
    if negative then -x else x

end Decimal
end ExprLang
