/-!
# Operators

The fixed list of operators. For each of them: its symbol, the tier that says
how tightly it binds, how it takes its operands, and the name of the rule set
that an application of it gets.
-/

namespace ExprLang

/-- How an operator takes the terms around it. -/
inductive OperatorShape where
  /-- One operand on each side. -/
  | binary
  /-- One operand behind it. -/
  | prefixed
  /-- A condition, a case and, after `else`, another case. -/
  | conditional
  deriving DecidableEq, Inhabited

/-- The operators, in the order in which they are listed. -/
inductive Operator where
  | member
  | pointee
  | scopeResolution
  | nullConditional
  | conditional
  | maybe
  | not
  | power
  | multiply
  | divide
  | modulus
  | add
  | subtract
  | less
  | greater
  | lessEq
  | greaterEq
  | equal
  | notEqual
  | and
  | or
  deriving DecidableEq, Inhabited

namespace Operator

/-- Every operator once. -/
def all : List Operator :=
  [member, pointee, scopeResolution, nullConditional, conditional, maybe, not,
    power, multiply, divide, modulus, add, subtract,
    less, greater, lessEq, greaterEq, equal, notEqual, and, or]

/-- The operator as it is written. -/
def symbol : Operator → String
  | member => "."
  | pointee => "->"
  | scopeResolution => "::"
  | nullConditional => "?."
  | conditional => "if"
  | maybe => "maybe"
  | not => "not"
  | power => "^^"
  | multiply => "*"
  | divide => "/"
  | modulus => "%"
  | add => "+"
  | subtract => "-"
  | less => "<"
  | greater => ">"
  | lessEq => "<="
  | greaterEq => ">="
  | equal => "=="
  | notEqual => "!="
  | and => "&&"
  | or => "||"

/-- The tier of an operator: those of a lower tier bind tighter. -/
def precedence : Operator → Nat
  | member | conditional => 10
  | pointee => 11
  | scopeResolution => 12
  | nullConditional => 13
  | power => 20
  | multiply => 30
  | divide => 31
  | modulus => 32
  | add => 40
  | subtract => 41
  | less => 60
  | greater => 61
  | lessEq => 62
  | greaterEq => 63
  | equal => 70
  | notEqual => 71
  | and => 110
  | or => 120
  | maybe => 210
  | not => 220

/-- How the operator takes its operands. -/
def shape : Operator → OperatorShape
  | conditional => .conditional
  | maybe | not => .prefixed
  | _ => .binary

/-- Name of the rule set that an application of the operator gets. -/
def contextName : Operator → String
  | member | pointee | scopeResolution | nullConditional => "membership operator"
  | conditional => "if statement"
  | maybe => "maybe modifier"
  | not => "not modifier"
  | power => "power"
  | multiply => "product"
  | divide => "quotient"
  | modulus => "modulus"
  | add => "sum"
  | subtract => "difference"
  | less => "less than"
  | greater => "greater than"
  | lessEq => "less than or equal"
  | greaterEq => "greater than or equal"
  | equal => "equal"
  | notEqual => "not equal"
  | and => "logical and"
  | or => "logical or"

/-- Is the operator recognised inside a word? The keywords are not. -/
def isBreaking : Operator → Bool
  | conditional | maybe | not => false
  | _ => true

/-- Does the operator read a member? -/
def isMember : Operator → Bool
  | member | pointee | scopeResolution | nullConditional => true
  | _ => false

/-- Does the operator compare? -/
def isComparison : Operator → Bool
  | less | greater | lessEq | greaterEq | equal | notEqual => true
  | _ => false

/-- The operator written `symbol`. -/
def ofSymbol? (symbol : String) : Option Operator :=
  all.find? fun op => op.symbol == symbol

theorem mem_all (op : Operator) : op ∈ all := by
  cases op <;> decide

/-- Member operators stand between two operands. -/
theorem shape_of_isMember {op : Operator} (h : op.isMember = true) : op.shape = .binary := by
  cases op <;> simp_all [isMember, shape]

/-- The keywords are the operators that do not stand between two operands. -/
theorem isBreaking_iff_shape (op : Operator) : op.isBreaking = true ↔ op.shape = .binary := by
  cases op <;> simp [isBreaking, shape]

end Operator
end ExprLang
