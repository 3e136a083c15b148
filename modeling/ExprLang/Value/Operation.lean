import ExprLang.Value.Format

/-!
# Operators on values

What the binary operators other than the member ones make of two values, and
`not`. Integers stay integers as long as the result has 64 bits and the operator
is not `/`; else the operands are taken as floating-point numbers.
-/

namespace ExprLang
namespace Operation

section Arithmetic

/-- The power of an integer, if it has 64 bits. -/
def power? (base : Int) (exponent : Nat) : Option Value :=
  if base.natAbs ≤ 1 then
    Value.ofInt? (if exponent = 0 then 1 else if exponent % 2 = 0 then base * base else base)
  else if exponent < 64 then
    Value.ofInt? (base.pow exponent)
  else
    none

/-- The largest exponent of an integer power. -/
def exponentLimit : Int := 0xFFFFFFFF

/-- The result of an operator on integers, if it is an integer of 64 bits. -/
def onIntegers? (op : Operator) (a b : Int) : Option Value :=
  match op with
  | .add => Value.ofInt? (a + b)
  | .subtract => Value.ofInt? (a - b)
  | .multiply => Value.ofInt? (a * b)
  | .modulus =>
      if b = 0 ∨ (Decimal.fits? (a.tdiv b)).isNone then none else Value.ofInt? (a.tmod b)
  | .power => if 0 ≤ b ∧ b ≤ exponentLimit then power? a b.toNat else none
  | _ => none

/-- The result of an operator on floating-point numbers; `zero` says whether the right one is. -/
def onFloats (op : Operator) (zero : Bool) (x y : Float) : Except ResolveError Value :=
  match op with
  | .add => .ok (.float (x + y))
  | .subtract => .ok (.float (x - y))
  | .multiply => .ok (.float (x * y))
  | .divide => if zero then .error .divisionByZero else .ok (.float (x / y))
  | .modulus => if zero then .error .modulusByZero else .ok (.float (Binary64.remainder x y))
  | .power => .ok (.float (Float.pow x y))
  | _ => .error (.notBinary op)

/-- The result of an arithmetic operator on numbers. -/
def arithmetic (op : Operator) (a b : Number) : Except ResolveError Value :=
  let exact :=
    match a, b with
    | .int x, .int y => onIntegers? op x.toInt y.toInt
    | _, _ => none
  match exact with
  | some value => .ok value
  | none => onFloats op b.isZero a.toFloat b.toFloat

/-- Both operands as numbers; the left one is looked at first. -/
def numbers (op : Operator) (left right : Value) : Except ResolveError (Number × Number) :=
  match left.number?, right.number? with
  | some a, some b => .ok (a, b)
  | none, _ => .error (.notNumeric op left.typeName)
  | some _, none => .error (.notNumeric op right.typeName)

/-- An arithmetic operator on values that have to be numbers. -/
def numeric (op : Operator) (left right : Value) : Except ResolveError Value :=
  (numbers op left right).bind fun (a, b) => arithmetic op a b

end Arithmetic

section Strings

/-- The longest string that repetition makes, in characters. -/
def repetitionLimit : Nat := 0x1000000

/-- The first characters of a string. -/
def firstChars (s : String) : (count : Nat) → String
  | 0 => ""
  | count + 1 => String.ofList (s.toList.take (count + 1))

/-- The number of characters that a fraction of a copy has. -/
def fractionLength (times : Float) (whole length : Nat) : Nat :=
  match Binary64.parts ((times - Float.ofNat whole) * Float.ofNat length) with
  | .finite false m e => Binary64.roundNat m e
  | _ => 0

/--
So many copies of a string, and of the last one a part if the number has a
fraction. A number that is not positive gives the empty string.
-/
def repetition (s : String) (times : Float) : Except ResolveError String :=
  match Binary64.parts times with
  | .nan => .ok ""
  | .infinite negative =>
      if negative || s.isEmpty then .ok "" else .error (.repetitionTooLarge repetitionLimit)
  | .finite negative m e =>
      let whole := Binary64.floorNat m e
      if negative || m == 0 || s.isEmpty then
        .ok ""
      else if repetitionLimit < whole * s.length then
        .error (.repetitionTooLarge repetitionLimit)
      else
        .ok (Nat.repeat (· ++ s) whole "" ++ firstChars s (fractionLength times whole s.length))

/-- Repeats a string as often as the other operand says, which has to be a number. -/
def repeatBy (s : String) (count left right : Value) : Except ResolveError Value :=
  match count.number? with
  | none => .error (.typeMismatch .multiply left.typeName right.typeName)
  | some n => (repetition s n.toFloat).map Value.str

/-- Fills a pattern with the items of a list, or with any other value as the only argument. -/
def formatWith (pattern : String) (argument : Value) : Except ResolveError Value :=
  let args :=
    match argument with
    | .list items => items
    | single => [single]
  (Format.format pattern args).map Value.str

end Strings

section Comparison

/-- The order of two floating-point numbers; none if one of them is no number. -/
def compareFloats (x y : Float) : Option Ordering :=
  if x < y then some .lt
  else if y < x then some .gt
  else if x == y then some .eq
  else none

/-- Is the operator one of the two that do not order values? -/
def isEquality : Operator → Bool
  | .equal | .notEqual => true
  | _ => false

/-- Why two values without an order cannot be compared. -/
def incomparable (op : Operator) (left right : Value) : ResolveError :=
  if left.typeName = right.typeName then
    .notOrdered op left.typeName
  else
    .typeMismatch op left.typeName right.typeName

/-- The order of two values, as far as an operator asks for it. -/
def order (op : Operator) (left right : Value) : Except ResolveError (Option Ordering) :=
  match left, right with
  | .int a, .int b => .ok (some (compare a.toInt b.toInt))
  | .int a, .float y => .ok (compareFloats (Number.int a).toFloat y)
  | .float x, .int b => .ok (compareFloats x (Number.int b).toFloat)
  | .float x, .float y => .ok (compareFloats x y)
  | .str a, .str b => .ok (some (compare a b))
  | .bool a, .bool b =>
      if isEquality op then .ok (some (compare a b)) else .error (incomparable op left right)
  | .null, .null =>
      if isEquality op then .ok (some .eq) else .error (incomparable op left right)
  | _, _ => .error (incomparable op left right)

/-- Does a comparison hold for two values in this order? -/
def holds (op : Operator) (order : Option Ordering) : Bool :=
  match op with
  | .less => order == some .lt
  | .greater => order == some .gt
  | .lessEq => order == some .lt || order == some .eq
  | .greaterEq => order == some .gt || order == some .eq
  | .equal => order == some .eq
  | .notEqual => order != some .eq
  | _ => false

/-- The result of a comparison. -/
def comparison (op : Operator) (left right : Value) : Except ResolveError Value :=
  (order op left right).map fun order => .bool (holds op order)

end Comparison

/-- The sum of numbers, or the joined texts if one of the values is a string. -/
def add (left right : Value) : Except ResolveError Value :=
  match left.number?, right.number? with
  | some a, some b => arithmetic .add a b
  | _, _ =>
      match left, right with
      | .str _, _ | _, .str _ => .ok (.str (left.display ++ right.display))
      | _, _ => .error (.typeMismatch .add left.typeName right.typeName)

/-- The product of numbers, or a repeated string. -/
def multiply (left right : Value) : Except ResolveError Value :=
  match left, right with
  | .str s, other => repeatBy s other left right
  | other, .str s => repeatBy s other left right
  | _, _ => numeric .multiply left right

/-- The remainder of numbers, or a filled pattern. -/
def modulus (left right : Value) : Except ResolveError Value :=
  match left with
  | .str pattern => formatWith pattern right
  | _ => numeric .modulus left right

/-- The result of a binary operator on two values. -/
def binary (op : Operator) (left right : Value) : Except ResolveError Value :=
  match op with
  | .add => add left right
  | .multiply => multiply left right
  | .modulus => modulus left right
  | .subtract | .divide | .power => numeric op left right
  | .and => .ok (.bool (left.isTruthy && right.isTruthy))
  | .or => .ok (.bool (left.isTruthy || right.isTruthy))
  | _ => if op.isComparison then comparison op left right else .error (.notBinary op)

/-- Turns a boolean over and leaves any other value as it is. -/
def negate : Value → Value
  | .bool b => .bool !b
  | value => value

end Operation
end ExprLang
