import ExprLang.Literal

/-!
# Values

What terms resolve to. Objects belong to a host and are known here by reference
only; two of them are the same if their references are. Floating-point numbers
are compared as numbers, so the two zeros are the same and no number equals the
value that is none.
-/

namespace ExprLang

/-- A reference to an object of a host. -/
structure ObjectRef where
  index : Nat
  deriving DecidableEq, Inhabited

/-- A value. -/
inductive Value where
  | null
  | bool (value : Bool)
  | int (value : Int64)
  | float (value : Float)
  | str (value : String)
  | list (items : List Value)
  | object (ref : ObjectRef)
  /-- A member that could not be read and may be called: it waits for its arguments. -/
  | invocation (target : ObjectRef) (name : String)
  /-- Source text that failed to resolve, or was left alone. -/
  | unresolved (text : String)
  deriving Inhabited

namespace Value

/-- The name of a value's type. -/
def typeName : Value → String
  | null => "null"
  | bool _ => "bool"
  | int _ => "int"
  | float _ => "float"
  | str _ => "string"
  | list _ => "list"
  | object _ => "object"
  | invocation _ _ => "invocation"
  | unresolved _ => "unresolved"

/-- Is it null? -/
def isNull : Value → Bool
  | null => true
  | _ => false

/-- Is it source text without a value? -/
def isUnresolved : Value → Bool
  | unresolved _ => true
  | _ => false

/-- The text of a string. -/
def text? : Value → Option String
  | str s => some s
  | _ => none

/-- The value of a literal. -/
def ofLiteral : Literal → Value
  | .int n => int n
  | .float x => float x
  | .bool b => bool b
  | .str s => str s

/-- No value is null, one value stands for itself, more of them are a list. -/
def collapse : List Value → Value
  | [] => null
  | [value] => value
  | values => list values

mutual

/-- Are two values the same? -/
def same : Value → Value → Bool
  | null, null => true
  | bool a, bool b => a == b
  | int a, int b => a == b
  | float a, float b => a == b
  | str a, str b => a == b
  | list as, list bs => sameAll as bs
  | object a, object b => a = b
  | invocation a x, invocation b y => a = b && x == y
  | unresolved a, unresolved b => a == b
  | _, _ => false

/-- Are the values of two lists the same, one by one? -/
def sameAll : List Value → List Value → Bool
  | [], [] => true
  | a :: as, b :: bs => same a b && sameAll as bs
  | _, _ => false

end

/-- Is it the boolean `True`? -/
def isTrue : Value → Bool
  | bool b => b
  | _ => false

section Lemmas

theorem collapse_singleton (value : Value) : collapse [value] = value := rfl

theorem isTrue_iff (value : Value) : value.isTrue = true ↔ value = bool true := by
  cases value <;> simp [isTrue]

end Lemmas

end Value
end ExprLang
