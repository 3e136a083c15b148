import ExprLang.Forest.Tree
import ExprLang.RuleSet.Table

/-!
# Paths to operators

The place of an operator delimiter in a forest, as the slots that lead to it from
the root. A path can be followed again in a changed forest; it then leads to the
same operator or nowhere.

Operators are taken in this order: those of deeper lists first, in one list those
of a lower tier first, and in one tier from right to left.
-/

namespace ExprLang

/-- The place of an operator delimiter, and which operator it is. -/
structure OperatorPath where
  /-- The operator's own slot, then that of the node it stands in, up to the root. -/
  slots : List Nat
  /-- Number of slots. -/
  depth : Nat
  offset : Nat
  delimiter : DelimiterId
  operator : Operator
  precedence : Nat
  deriving DecidableEq, Inhabited

namespace OperatorPath

/-- Is an operator taken before another one, or in the same place of the order? -/
def precedes (a b : OperatorPath) : Bool :=
  if a.depth ≠ b.depth then b.depth < a.depth
  else if a.precedence ≠ b.precedence then a.precedence < b.precedence
  else b.offset ≤ a.offset

/-- Operators in the order in which they are taken. -/
def sort (paths : List OperatorPath) : List OperatorPath :=
  paths.mergeSort precedes

/-- The path of a token, if it is an operator that is not among the `finished` offsets. -/
def ofToken? (table : RuleSetTable) (finished slots : List Nat) (depth : Nat) (token : Token) :
    Option OperatorPath :=
  match token.kind with
  | .delimiter id =>
      if finished.contains token.span.start then
        none
      else
        (table.delimiter id).operator?.map fun (op, precedence) =>
          { slots := slots
            depth := depth
            offset := token.span.start
            delimiter := id
            operator := op
            precedence := precedence }
  | _ => none

section Search

variable (table : RuleSetTable) (finished : List Nat)

mutual

/-- The paths of the operators in a tree at `slot`, in front of the paths `later`. -/
def inTree (above : List Nat) (depth slot : Nat) (later : List OperatorPath) :
    Tree → List OperatorPath
  | .leaf token => (ofToken? table finished (slot :: above) depth token).toList ++ later
  | .branch _ _ _ children => inTrees (slot :: above) (depth + 1) 0 later children

/-- The paths of the operators in trees from `slot` on, in front of the paths `later`. -/
def inTrees (above : List Nat) (depth slot : Nat) (later : List OperatorPath) :
    List Tree → List OperatorPath
  | [] => later
  | tree :: rest => inTree above depth slot (inTrees above depth (slot + 1) later rest) tree

end

/-- The paths of all operators in a forest that are not finished. -/
def findAll (forest : Forest) : List OperatorPath :=
  inTrees table finished [] 1 0 [] forest.trees

end Search

section Walk

variable (forest : Forest)

/-- Follows slots from a node down to the node that owns the last one. -/
def follow? : (slots : List Nat) → NodeId → Option (NodeId × Nat)
  | [], _ => none
  | [slot], owner => some (owner, slot)
  | slot :: slots, owner =>
      match forest.token? owner slot with
      | some ⟨_, .node child⟩ => if child = owner then none else follow? slots child
      | _ => none

/-- The owner and the slot of a path's operator; none if the path leads to another token. -/
def walk? (path : OperatorPath) : Option (NodeId × Nat) :=
  (follow? forest path.slots.reverse Forest.root).filter fun (owner, slot) =>
    match forest.token? owner slot with
    | some token => token.kind = .delimiter path.delimiter && token.span.start == path.offset
    | none => false

end Walk

end OperatorPath
end ExprLang
