import ExprLang.Binary64
import ExprLang.Decimal.Digits

/-!
# Shortest decimals

For a positive value `mantissa * 2 ^ exponent` of a 64-bit floating-point
number, the decimal with the fewest digits among those that read back as this
number, and of these the one nearest to the value. A number owns the interval
of reals that round to it; its ends belong to it iff the mantissa is even.

For 1, 2, ... digits the two neighbours of the value on the grid of decimals
with that many digits are tried, in exact arithmetic. The first grid on which
one of them lies in the interval wins.
-/

namespace ExprLang
namespace Decimal

/-- The decimal number `digits * 10 ^ exponent`. -/
structure Scaled where
  digits : Nat
  exponent : Int
  deriving DecidableEq, Inhabited

/-- The interval that rounds to a number, with its middle the number itself. -/
structure Interval where
  low : Nat
  middle : Nat
  high : Nat
  /-- Do the ends belong to it? -/
  closed : Bool

namespace Interval

/--
The interval of `mantissa * 2 ^ exponent` in quarters of the last bit. Below a
power of two the numbers are twice as close, save at the least exponent.
-/
def ofParts (mantissa : Nat) (exponent : Int) : Interval :=
  let halved := mantissa == Binary64.fractionWeight && Binary64.leastExponent < exponent
  { low := 4 * mantissa - (if halved then 1 else 2)
    middle := 4 * mantissa
    high := 4 * mantissa + 2
    closed := mantissa % 2 == 0 }

/-- Does `point` lie in the interval, whose bounds are taken `scale` times? -/
def covers (interval : Interval) (scale point : Nat) : Bool :=
  if interval.closed then
    interval.low * scale ≤ point && point ≤ interval.high * scale
  else
    interval.low * scale < point && point < interval.high * scale

end Interval

/--
Tries the grid of step `10 ^ step`: of the value's two neighbours the one in
the interval, the nearer one if both are, and the upper one on a tie.
-/
def gridPoint? (interval : Interval) (num den : Nat) (step : Int) : Option Nat :=
  let unit := if 0 ≤ step then tenTo step.toNat * den else den
  let scale := if 0 ≤ step then num else num * tenTo (-step).toNat
  let value := interval.middle * scale
  let below := value / unit
  match interval.covers scale (below * unit), interval.covers scale ((below + 1) * unit) with
  | true, true =>
      if 2 * value < (2 * below + 1) * unit then some below else some (below + 1)
  | true, false => some below
  | false, true => some (below + 1)
  | false, false => none

/-- No 64-bit number needs more digits. -/
def digitLimit : Nat := 17

/-- The first grid point found from `count` digits on, for `left` more digits. -/
def search (interval : Interval) (num den : Nat) (size : Int) : (left count : Nat) → Scaled
  | 0, count => ⟨interval.middle * num / den, size - count⟩
  | left + 1, count =>
      match gridPoint? interval num den (size - count) with
      | some digits => ⟨digits, size - count⟩
      | none => search interval num den size left (count + 1)

/-- Moves one final zero of the digits into the exponent. -/
def Scaled.trim (d : Scaled) : Scaled :=
  if d.digits % 10 = 0 then ⟨d.digits / 10, d.exponent + 1⟩ else d

/-- The shortest decimal that reads back as `mantissa * 2 ^ exponent`. -/
def shortest (mantissa : Nat) (exponent : Int) : Scaled :=
  let interval := Interval.ofParts mantissa exponent
  let (num, den) := Binary64.ratio 1 (exponent - 2)
  let size := magnitude (interval.middle * num) den
  (search interval num den size digitLimit 1).trim

end Decimal
end ExprLang
