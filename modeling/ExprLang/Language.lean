import ExprLang.Resolution.Evaluation

/-!
# The language

The stages with the built-in grammars, and the first word of a text.
-/

namespace ExprLang
namespace Language

/-- The rule set of the whole language. -/
def startRules : RuleSetId :=
  Grammar.builtin.startRules

/-- A text in the whole language. -/
def input (source : String) : LexInput :=
  ⟨Grammar.builtin, .ofString source, startRules⟩

/--
The text of the first token of a text. The lexer reads no further than up to the
end of that token.
-/
def firstWord? (source : String) : Option String :=
  let input := input source
  let state := input.runWhile (fun progress => progress.topLevel = 0) input.start
  let forest := (input.run state).forest
  forest.topLevel[0]?.map fun token => String.ofList (forest.tokenText token)

end Language
end ExprLang
