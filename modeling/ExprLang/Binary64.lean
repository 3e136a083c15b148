/-!
# Binary floating-point numbers

Takes a 64-bit floating-point number apart into a sign and an exact value
`mantissa * 2 ^ exponent`, and puts exactly representable values together
again. On top of that:

* `ratio`, `floorNat`, `roundNat`: the exact value as a fraction and its two
  nearest natural numbers;
* `remainder`: what is left of a number after taking away a multiple of another
  one, which is always exact.
-/

namespace ExprLang
namespace Binary64

/-- A floating-point number as what it stands for. -/
inductive Parts where
  | nan
  | infinite (negative : Bool)
  /-- The number `± mantissa * 2 ^ exponent`. -/
  | finite (negative : Bool) (mantissa : Nat) (exponent : Int)
  deriving Inhabited

/-- Number of bits of the stored fraction. -/
def fractionBits : Nat := 52

/-- The weight of the bit in front of the stored fraction. -/
def fractionWeight : Nat := 1 <<< fractionBits

/-- The weight of the sign among the 64 bits. -/
def signWeight : Nat := 1 <<< 63

/-- The least exponent, that of the numbers next to zero. -/
def leastExponent : Int := -1074

/-- The parts of a number, read off its 64 bits. -/
def parts (x : Float) : Parts :=
  let bits := x.toBits.toNat
  let negative := bits / signWeight == 1
  let scale := bits / fractionWeight % 2048
  let fraction := bits % fractionWeight
  if scale = 2047 then
    if fraction = 0 then .infinite negative else .nan
  else if scale = 0 then
    .finite negative fraction leastExponent
  else
    .finite negative (fraction + fractionWeight) (leastExponent + (scale - 1 : Nat))

/--
The number `± mantissa * 2 ^ exponent`, where the value is one that has a
64-bit form: the mantissa is shifted to its 53 bits, or to the least exponent.
-/
def ofExact (negative : Bool) (mantissa : Nat) (exponent : Int) : Float :=
  let sign := if negative then signWeight else 0
  if mantissa = 0 then
    Float.ofBits (UInt64.ofNat sign)
  else
    let target := max (exponent + (mantissa.log2 : Int) - fractionBits) leastExponent
    let shifted :=
      if exponent ≤ target then
        mantissa >>> (target - exponent).toNat
      else
        mantissa <<< (exponent - target).toNat
    if shifted < fractionWeight then
      Float.ofBits (UInt64.ofNat (sign + shifted))
    else
      let scale := (target - leastExponent).toNat + 1
      Float.ofBits (UInt64.ofNat (sign + scale * fractionWeight + (shifted - fractionWeight)))

/-- The value `mantissa * 2 ^ exponent` as numerator and denominator. -/
def ratio (mantissa : Nat) (exponent : Int) : Nat × Nat :=
  if 0 ≤ exponent then
    (mantissa <<< exponent.toNat, 1)
  else
    (mantissa, 1 <<< (-exponent).toNat)

/-- The greatest natural number that is at most `mantissa * 2 ^ exponent`. -/
def floorNat (mantissa : Nat) (exponent : Int) : Nat :=
  let (num, den) := ratio mantissa exponent
  num / den

/-- The natural number nearest to `mantissa * 2 ^ exponent`, a half going up. -/
def roundNat (mantissa : Nat) (exponent : Int) : Nat :=
  let (num, den) := ratio mantissa exponent
  (2 * num + den) / (2 * den)

/-- The number that is not a number. -/
def nan : Float := Float.ofBits 0x7FF8000000000000

/--
The remainder of `x` under truncating division by `y`: it has the sign of `x`
and is smaller than `y`. A zero or an infinity where none can be makes it no
number; an infinite `y` leaves `x` as it is.
-/
def remainder (x y : Float) : Float :=
  match parts x, parts y with
  | .finite negative m e, .finite _ n f =>
      if n = 0 then
        nan
      else
        let low := min e f
        ofExact negative ((m <<< (e - low).toNat) % (n <<< (f - low).toNat)) low
  | .finite .., .infinite _ => x
  | _, _ => nan

/-- Is the number zero, of either sign? -/
def isZero (x : Float) : Bool :=
  x == 0.0

end Binary64
end ExprLang
