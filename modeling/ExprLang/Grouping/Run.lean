import ExprLang.Grouping.Application
import ExprLang.Lexer

/-!
# Grouping all operators

The operators of a forest are collected, sorted, and grouped one after the other.
Grouping shifts the slots to its right; when a path leads nowhere any more, the
operators that are left are collected anew. Each round groups or rejects at least
its first operator, so there are no more rounds than operators.
-/

namespace ExprLang

namespace Grouping

/-- Groups the operators of paths in order, up to the first path that leads nowhere. -/
def takePaths (table : RuleSetTable) : List OperatorPath → Grouping → Grouping
  | [], grouping => grouping
  | path :: paths, grouping =>
      match OperatorPath.walk? grouping.forest path with
      | none => grouping
      | some (owner, slot) => takePaths table paths (grouping.groupOperator table owner slot path)

/-- Takes up to `count` rounds, and none when no operator is left. -/
def runRounds (table : RuleSetTable) : (count : Nat) → Grouping → Grouping
  | 0, grouping => grouping
  | count + 1, grouping =>
      match OperatorPath.findAll table grouping.finished grouping.forest with
      | [] => grouping
      | paths => runRounds table count (takePaths table (OperatorPath.sort paths) grouping)

/-- Groups or rejects every operator. -/
def run (table : RuleSetTable) (grouping : Grouping) : Grouping :=
  let operators := OperatorPath.findAll table grouping.finished grouping.forest
  runRounds table operators.length grouping

end Grouping

/-- The forest with its operators grouped, and the problems with them added to its log. -/
def LexOutput.group (table : RuleSetTable) (lexed : LexOutput) : LexOutput :=
  let grouping := Grouping.run table { forest := lexed.forest, log := lexed.log }
  ⟨grouping.forest, grouping.log⟩

/-- Reads a text and groups its operators. -/
def LexInput.parse (input : LexInput) : LexOutput :=
  input.lex.group input.table

end ExprLang
