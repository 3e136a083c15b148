import ExprLang.Forest.Tree

/-!
# Terms

What a grouped forest says, as a tree of terms: names, literals, groups and
operators with their operands. Markers are gone, and so are the comments between
the items of a group.

Member operators are associative here: a chain of them is one term, with its
first operand and the links that follow it, however it was grouped.
-/

namespace ExprLang

/-- A member operator with the token behind it. -/
structure Link where
  operator : Operator
  span : Span
  /-- Is the token plain text? -/
  isName : Bool
  deriving DecidableEq, Inhabited

/-- A term, with the part of the source that it is written in. -/
inductive Term where
  /-- Plain text. -/
  | name (span : Span)
  | literal (span : Span) (value : Literal)
  | delimiter (span : Span) (id : DelimiterId)
  /-- A context with its items. -/
  | group (span : Span) (rules : RuleSetId) (contextClass : ContextClass) (items : List Term)
  /-- Member operators in a row; `op` is the one that was grouped last. -/
  | chain (span : Span) (op : Operator) (first : Term) (links : List Link)
  | binary (span : Span) (op : Operator) (left right : Term)
  | prefixed (span : Span) (op : Operator) (operand : Term)
  | ifThen (span : Span) (condition trueCase : Term)
  | ifThenElse (span : Span) (condition trueCase falseCase : Term)
  deriving Inhabited

namespace Term

/-- The part of the source that a term is written in. -/
def span : Term → Span
  | name span => span
  | literal span _ => span
  | delimiter span _ => span
  | group span _ _ _ => span
  | chain span _ _ _ => span
  | binary span _ _ _ => span
  | prefixed span _ _ => span
  | ifThen span _ _ => span
  | ifThenElse span _ _ _ => span

/-- Is it plain text? -/
def isName : Term → Bool
  | name _ => true
  | _ => false

/-- Is it a comment? -/
def isComment : Term → Bool
  | group _ _ contextClass _ => contextClass.has .comment
  | _ => false

section Chains

/-- The first operand of a chain; any other term is its own. -/
def chainHead : Term → Term
  | chain _ _ first _ => first
  | term => term

/-- The links of a chain; any other term has none. -/
def chainLinks : Term → List Link
  | chain _ _ _ links => links
  | _ => []

/-- Two terms joined by a member operator: one chain, in the order of the source. -/
def member (span : Span) (op : Operator) (left right : Term) : Term :=
  let head := right.chainHead
  chain span op left.chainHead
    (left.chainLinks ++ ⟨op, head.span, head.isName⟩ :: right.chainLinks)

end Chains

section Reading

/-- The term of an operator with its operands; none if it has not the operands of its shape. -/
def ofOperator? (span : Span) (op : Operator) (operands : List Term) : Option Term :=
  match op.shape, operands with
  | .binary, [left, right] =>
      some (if op.isMember then member span op left right else binary span op left right)
  | .prefixed, [operand] => some (prefixed span op operand)
  | .conditional, [condition, trueCase] => some (ifThen span condition trueCase)
  | .conditional, [condition, trueCase, _, falseCase] =>
      some (ifThenElse span condition trueCase falseCase)
  | _, _ => none

/-- The items of a context: of a text literal all of them, else all but comments. -/
def itemsOf (contextClass : ContextClass) (items : List Term) : List Term :=
  if contextClass.has .textLiteral then items else items.filter fun item => !item.isComment

/-- The term of a node, from those of its tokens. -/
def ofNode (span : Span) (node : Node) (items : List Term) : Term :=
  match node.operator.bind fun op => ofOperator? span op items with
  | some term => term
  | none => group span node.rules node.contextClass (itemsOf node.contextClass items)

/-- The term of a token that is no nested node; a marker is no term. -/
def ofToken? (forest : Forest) (token : Token) : Option Term :=
  match token.kind with
  | .text => some (name token.span)
  | .literal id => some (literal token.span (forest.literal id))
  | .delimiter id => some (delimiter token.span id)
  | .node _ => none

mutual

/-- The term of a tree. -/
def ofTree? (forest : Forest) : Tree → Option Term
  | .leaf token => ofToken? forest token
  | .branch token _ node children => some (ofNode token.span node (ofTrees forest children))

/-- The terms of trees in a row. -/
def ofTrees (forest : Forest) : List Tree → List Term
  | [] => []
  | tree :: rest => (ofTree? forest tree).toList ++ ofTrees forest rest

end

end Reading

section Lemmas

variable (span inner : Span) (op second : Operator) (a b c : Term)

/-- How a chain is grouped makes no difference to its first operand and its links. -/
theorem member_assoc :
    (member span op a (member inner second b c)).chainHead =
        (member span second (member inner op a b) c).chainHead ∧
      (member span op a (member inner second b c)).chainLinks =
        (member span second (member inner op a b) c).chainLinks := by
  simp [member, chainHead, chainLinks]

end Lemmas

end Term

/-- The terms of a forest, without the comments between them. -/
def Forest.terms (forest : Forest) : List Term :=
  Term.itemsOf (forest.header root).contextClass (Term.ofTrees forest forest.trees)

end ExprLang
