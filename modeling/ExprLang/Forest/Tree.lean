import ExprLang.Forest.Basic

/-!
# The forest as trees

A view of a forest without numbers of nodes to follow: the tokens of a node as
trees, in which a nested node carries the trees of its own tokens. What walks
through a forest is a recursion on this view.
-/

namespace ExprLang

/-- A token with everything below it. -/
inductive Tree where
  /-- A text, a literal, a delimiter, or a marker of the list's owner. -/
  | leaf (token : Token)
  /-- A nested node. -/
  | branch (token : Token) (id : NodeId) (node : Node) (children : List Tree)
  deriving Inhabited

namespace Tree

/-- The token of a tree. -/
def token : Tree → Token
  | leaf token => token
  | branch token _ _ _ => token

mutual

/-- The tokens without nested nodes, from left to right. -/
def leaves : Tree → List Token
  | leaf token => [token]
  | branch _ _ _ children => leavesOf children

/-- The leaves of trees in a row. -/
def leavesOf : List Tree → List Token
  | [] => []
  | tree :: rest => leaves tree ++ leavesOf rest

end

end Tree

namespace Forest

variable (forest : Forest)

/-- The tokens of a node as trees, `limit` levels deep. -/
def treesWithin : (limit : Nat) → NodeId → List Tree
  | 0, _ => []
  | limit + 1, owner =>
      (forest.tokens owner).toList.map fun token =>
        match token.kind with
        | .node id =>
            if id = owner then
              .leaf token
            else
              .branch token id (forest.node id) (treesWithin limit id)
        | _ => .leaf token

/-- The tokens of the root as trees. Nodes are nested no deeper than there are nodes. -/
def trees : List Tree :=
  forest.treesWithin forest.nodes.size root

end Forest
end ExprLang
