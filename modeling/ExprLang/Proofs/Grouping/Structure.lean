import ExprLang.Proofs.Forest.Leaves
import ExprLang.Proofs.Grouping.Step
import ExprLang.Proofs.Lexing.Nesting
import ExprLang.Proofs.Lexing.Reading

/-!
# Grouping keeps the tree

A lexed forest is a tree, and each operator that is grouped leaves it one, with the same
leaves in the same order. So does the whole run, whichever operators it rejects.

Main results:
* `arranged_groupOperator`, `arranged_run`: one step, and the whole run;
* `isTree_group`: the lexed forest and the grouped one.
-/

namespace ExprLang

namespace Grouping

variable {table : RuleSetTable} {grouping : Grouping} {owner : NodeId} {slot : Nat}
  {path : OperatorPath} {token : Token}

/-- Grouping one operator leaves every node in its place. -/
theorem arranged_groupOperator (ha : grouping.forest.Arranged)
    (htoken : grouping.forest.token? owner slot = some token) (hdelimiter : token.IsDelimiter) :
    (grouping.groupOperator table owner slot path).forest.Arranged := by
  rcases groupOperator_cases table path ha.packed htoken hdelimiter with
    ⟨fault, heq⟩ | ⟨first, count, application, before, left, right, after, hc, -, heq⟩
  · rw [heq]
    exact ha
  · rw [heq]
    exact ha.collapse hc

/-- A run leaves every node in its place and keeps the spans of the leaves. -/
theorem arranged_run (table : RuleSetTable) (grouping : Grouping)
    (ha : grouping.forest.Arranged) :
    (run table grouping).forest.Arranged ∧
      (Tree.leavesOf (run table grouping).forest.trees).map Token.span =
        (Tree.leavesOf grouping.forest.trees).map Token.span := by
  refine run_preserves_forest (P := fun forest => forest.Arranged ∧
    (Tree.leavesOf forest.trees).map Token.span =
      (Tree.leavesOf grouping.forest.trees).map Token.span) (fun _ h => h.1.packed) ?_ ⟨ha, rfl⟩
  rintro forest owner first count application before left right after mark ⟨harranged, hleaves⟩ hc
  exact ⟨harranged.collapse hc, (Forest.leafSpans_collapse harranged hc).trans hleaves⟩

end Grouping

namespace LexInput

/--
Both the lexed forest and the grouped one are trees, and grouping keeps the spans of the
leaves in their order.
-/
theorem isTree_group (input : LexInput) (calls : List LexCall) (table : RuleSetTable) :
    (input.finish calls).forest.IsTree ∧
      ((input.finish calls).group table).forest.IsTree ∧
      (Tree.leavesOf ((input.finish calls).group table).forest.trees).map Token.span =
        (Tree.leavesOf (input.finish calls).forest.trees).map Token.span := by
  have ha : (input.finish calls).forest.Arranged := (lexed_final input calls).arranged
  obtain ⟨hrun, hleaves⟩ := Grouping.arranged_run table
    ⟨(input.finish calls).forest, (input.finish calls).log, []⟩ ha
  exact ⟨ha.isTree, hrun.isTree, hleaves⟩

end LexInput
end ExprLang
