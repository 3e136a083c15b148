import ExprLang.Diagnostics.Log
import ExprLang.Forest.Content
import ExprLang.Grouping.Path

/-!
# Grouping one operator

An operator takes a run of tokens around its own token, and each operand in the
run has to be there: a marker of the list's owner, another operator or a
separator is none. If all are there the run becomes an operator node, else the
first one that is missing is reported and the operator stays as it is.
-/

namespace ExprLang

/-- The part that an operand plays. -/
inductive OperandRole where
  | left
  | right
  | only
  | condition
  | trueCase
  | falseCase
  deriving DecidableEq, Inhabited

/-- The name of an operand in reports. -/
def OperandRole.name : OperandRole → String
  | left => "left operand"
  | right => "right operand"
  | only => "operand"
  | condition => "condition"
  | trueCase => "true case"
  | falseCase => "false case"

/-- Why an operator is not grouped. -/
inductive GroupingFault where
  | missingOperand (role : OperandRole) (symbol : String)
  | unexpectedSeparator (separator : String) (role : OperandRole) (symbol : String)
  deriving DecidableEq, Inhabited

/-- The wording of a fault. -/
def GroupingFault.message : GroupingFault → String
  | missingOperand role symbol => "missing " ++ role.name ++ " for '" ++ symbol ++ "'"
  | unexpectedSeparator separator role symbol =>
      "unexpected separator '" ++ separator ++ "' where " ++ role.name ++ " of '" ++ symbol ++
        "' was expected"

/-- The run of tokens that an operator takes, and the operands in it. -/
structure Extent where
  /-- Slot of the first token of the run. -/
  first : Nat
  /-- Number of tokens of the run. -/
  count : Nat
  /-- Place of the operator in the run. -/
  marker : Nat
  /-- Places of the operands in the run. -/
  operands : List (Nat × OperandRole)
  deriving DecidableEq, Inhabited

/-- A forest whose operators are being grouped. -/
structure Grouping where
  forest : Forest
  log : Log
  /-- Offsets of the operators that were grouped or rejected. -/
  finished : List Nat := []

namespace Grouping

/-- The text between the two cases of a conditional. -/
def elseText : List Char := ['e', 'l', 's', 'e']

/-- Is a token the plain text `else`? -/
def isElse (forest : Forest) (token : Token) : Bool :=
  token.kind = .text && forest.tokenText token == elseText

/--
The run of an operator in a slot of a node; none for a binary operator with
nothing in front of it.
-/
def extent? (forest : Forest) (owner : NodeId) (slot : Nat) (op : Operator) : Option Extent :=
  match op.shape with
  | .binary =>
      if slot = 0 then
        none
      else
        some ⟨slot - 1, 3, 1, [(0, .left), (2, .right)]⟩
  | .prefixed => some ⟨slot, 2, 0, [(1, .only)]⟩
  | .conditional =>
      let hasElse := (forest.token? owner (slot + 3)).any (isElse forest)
      if hasElse then
        some ⟨slot, 5, 0, [(1, .condition), (2, .trueCase), (4, .falseCase)]⟩
      else
        some ⟨slot, 3, 0, [(1, .condition), (2, .trueCase)]⟩

/-- Is a token an operator that is not grouped? -/
def isRawOperator (table : RuleSetTable) (token : Token) : Bool :=
  match token.kind with
  | .delimiter id => (table.delimiter id).isOperator
  | _ => false

/-- The text of a separator. -/
def separatorText? (table : RuleSetTable) (token : Token) : Option String :=
  match token.kind with
  | .delimiter id =>
      let delimiter := table.delimiter id
      if delimiter.isSeparator then some (String.ofList delimiter.text) else none
  | _ => none

/-- What is wrong with the token in the place of an operand. -/
def operandFault? (table : RuleSetTable) (owner : NodeId) (symbol : String) (role : OperandRole) :
    Option Token → Option GroupingFault
  | none => some (.missingOperand role symbol)
  | some token =>
      if token.isMarkerOf owner || isRawOperator table token then
        some (.missingOperand role symbol)
      else
        (separatorText? table token).map fun separator =>
          .unexpectedSeparator separator role symbol

/-- The first fault among the operands of a run. -/
def extentFault? (table : RuleSetTable) (forest : Forest) (owner : NodeId) (symbol : String)
    (extent : Extent) : Option GroupingFault :=
  extent.operands.findSome? fun (place, role) =>
    operandFault? table owner symbol role (forest.token? owner (extent.first + place))

variable (grouping : Grouping)

/-- Leaves an operator as it is and reports why. -/
def reject (owner : NodeId) (slot : Nat) (fault : GroupingFault) : Grouping :=
  let token := (grouping.forest.token? owner slot).getD default
  { grouping with log := grouping.log.report .structural token.span fault.message }

/-- Makes a run an operator node. -/
def apply (table : RuleSetTable) (owner : NodeId) (path : OperatorPath) (extent : Extent) :
    Grouping :=
  let rules := (table.find? path.operator.contextName).getD (grouping.forest.header owner).rules
  let application : OperatorApplication :=
    { rules := rules
      operator := path.operator
      delimiter := path.delimiter
      marker := extent.marker }
  match grouping.forest.collapse? owner extent.first extent.count application with
  | some (_, forest) => { grouping with forest := forest }
  | none => grouping

/-- The operator at an offset is not taken again. -/
def finish (offset : Nat) : Grouping :=
  { grouping with finished := offset :: grouping.finished }

/-- Groups the operator of a path, which stands in a slot of a node, or rejects it. -/
def groupOperator (table : RuleSetTable) (owner : NodeId) (slot : Nat) (path : OperatorPath) :
    Grouping :=
  let symbol := String.ofList (table.delimiter path.delimiter).text
  match extent? grouping.forest owner slot path.operator with
  | none => (grouping.finish path.offset).reject owner slot (.missingOperand .left symbol)
  | some extent =>
      match extentFault? table grouping.forest owner symbol extent with
      | some fault => (grouping.finish path.offset).reject owner slot fault
      | none => (grouping.finish path.offset).apply table owner path extent

end Grouping
end ExprLang
