import ExprLang.Forest.Content
import ExprLang.Forest.Tree

/-!
# Outlines

A forest as text, one token a line, with the tokens of a node indented below it.
-/

namespace ExprLang
namespace Forest

variable (forest : Forest) (ruleName : RuleSetId → String)

/-- The indentation of a level. -/
def indentation : (level : Nat) → String
  | 0 => ""
  | level + 1 => "  " ++ indentation level

/-- A line of the outline: a label with the span it is about. -/
def outlineLine (level : Nat) (label : String) (span : Span) : String :=
  indentation level ++ label ++ " @" ++ span.render ++ "\n"

/-- The label of a token that is no nested node. -/
def leafLabel (token : Token) : String :=
  let quoted := Text.quote (forest.tokenText token)
  match token.kind with
  | .text => "text " ++ quoted
  | .delimiter _ => "delimiter " ++ quoted
  | .literal id => "literal " ++ (forest.literal id).describe
  | .node _ => "boundary " ++ quoted

mutual

/-- Adds the lines of a tree. -/
def outlineTree (level : Nat) (out : String) : Tree → String
  | .leaf token => out ++ outlineLine level (forest.leafLabel token) token.span
  | .branch token _ node children =>
      let label := ruleName node.rules ++ " " ++ Text.quote (forest.tokenText token)
      outlineTrees (level + 1) (out ++ outlineLine level label node.span) children

/-- Adds the lines of trees in a row. -/
def outlineTrees (level : Nat) (out : String) : List Tree → String
  | [] => out
  | tree :: rest => outlineTrees level (outlineTree level out tree) rest

end

/-- The outline of a forest, below a line for its root. -/
def outline : String :=
  let node := forest.header root
  forest.outlineTrees ruleName 1 (outlineLine 0 (ruleName node.rules) node.span) forest.trees

end Forest
end ExprLang
