import ExprLang.Decimal.Reader
import ExprLang.Value.Basic

/-!
# Numbers and truth

Integers and floating-point numbers are the numeric values; no other value
becomes a number. A value is true or false in two ways: as an operand of the
logical operators, and as a condition, where only booleans, strings and numbers
can hold.
-/

namespace ExprLang

/-- A numeric value. -/
inductive Number where
  | int (value : Int64)
  | float (value : Float)
  deriving Inhabited

namespace Number

/-- The nearest floating-point number. -/
def toFloat : Number → Float
  | int n => Float.ofInt n.toInt
  | float x => x

/-- Is the number zero? -/
def isZero : Number → Bool
  | int n => n == 0
  | float x => Binary64.isZero x

end Number

namespace Value

/-- A value as a number. -/
def number? : Value → Option Number
  | int n => some (.int n)
  | float x => some (.float x)
  | _ => none

/-- An integer if it has 64 bits, as a value. -/
def ofInt? (n : Int) : Option Value :=
  (Decimal.fits? n).map int

/-- Is the value true as an operand of a logical operator? -/
def isTruthy (value : Value) : Bool :=
  match value with
  | null => false
  | bool b => b
  | str s => !s.isEmpty
  | int n => !(Number.int n).isZero
  | float x => !(Number.float x).isZero
  | _ => true

/-- Does the value hold as a condition? -/
def conditionHolds (value : Value) : Bool :=
  match value with
  | bool b => b
  | str s => !s.isEmpty
  | int n => !(Number.int n).isZero
  | float x => !(Number.float x).isZero
  | _ => false

/-- What holds as a condition is true. -/
theorem isTruthy_of_conditionHolds {value : Value} (h : value.conditionHolds = true) :
    value.isTruthy = true := by
  cases value <;> simp_all [conditionHolds, isTruthy]

end Value
end ExprLang
