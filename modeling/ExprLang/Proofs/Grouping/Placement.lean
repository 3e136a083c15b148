import ExprLang.Proofs.Grouping.Layout
import ExprLang.Proofs.Lexing.Placement

/-!
# Where the grouping reports

The token of a new node covers the source from the first token of its run to the last one, so that
it is a part of the source as these are. Reports are about operators that are rejected, at their
tokens.

Main definitions:
* `Forest.InParts`: a forest whose tokens are parts of a source.

Main results:
* `Forest.InParts.collapse`, `Grouping.inParts_groupOperator`: one step;
* `LexInput.inParts_group`: the whole run.
-/

namespace ExprLang

/-- Every token is a part of the source. -/
def Forest.InParts (source : Source) (forest : Forest) : Prop :=
  ∀ id, ∀ token ∈ forest.tokenList id, source.IsPart token.span

namespace Forest

variable {source : Source} {forest : Forest} {owner : NodeId} {first count : Nat}
  {application : OperatorApplication} {before left right after : List Token} {mark : Token}

theorem inParts_of_arena (h : ∀ token ∈ forest.arena.toList, source.IsPart token.span) :
    forest.InParts source := by
  intro id token hmem
  exact h token (mem_of_mem_extract hmem)

/-- A run of parts of the source is one. -/
theorem InParts.isPart_runSpan (h : forest.InParts source) (hp : forest.Packed)
    (hs : forest.Splits owner first count application.marker before left mark right after) :
    source.IsPart (runSpan (forest.markedRun owner first count application.marker)) := by
  have hne : (left ++ mark :: right).map Token.span ≠ [] := by simp
  have hrun : ∀ span ∈ (left ++ mark :: right).map Token.span, source.IsPart span := by
    intro span hspan
    obtain ⟨token, hmem, rfl⟩ := List.mem_map.mp hspan
    refine h owner token ?_
    rw [hs.list_eq]
    exact List.mem_append_left _ (List.mem_append_right _ hmem)
  rw [collapsedToken_span hp hs hne]
  exact (hrun _ (List.head_mem hne)).merge (hrun _ (List.getLast_mem hne))

/-- Grouping keeps every token a part of the source. -/
theorem InParts.collapse (h : forest.InParts source) (hp : forest.Packed)
    (hs : forest.Splits owner first count application.marker before left mark right after) :
    (forest.collapse owner first count application).InParts source := by
  have hold : ∀ token ∈ before ++ (left ++ mark :: right) ++ after, source.IsPart token.span :=
    fun token hmem => h owner token (hs.list_eq ▸ hmem)
  intro id token hmem
  by_cases hnew : id = forest.nextId
  · subst hnew
    rw [tokenList_collapse_nextId hp hs] at hmem
    rcases List.mem_append.mp hmem with hmem | hmem
    · exact hold token (by simp [hmem])
    · rcases List.mem_cons.mp hmem with rfl | hmem
      · exact hold mark (by simp)
      · exact hold token (by simp [hmem])
  · by_cases hid : id = owner
    · subst hid
      rw [tokenList_collapse_owner hp hs] at hmem
      rcases List.mem_append.mp hmem with hmem | hmem
      · exact hold token (by simp [hmem])
      · rcases List.mem_cons.mp hmem with rfl | hmem
        · exact h.isPart_runSpan hp hs
        · exact hold token (by simp [hmem])
    · rw [tokenList_collapse_of_ne hp (hs.hasRun hp) hnew hid] at hmem
      exact h id token hmem

end Forest

namespace Grouping

variable {source : Source} {table : RuleSetTable} {grouping : Grouping}

/-- Tokens are parts of the source, and so is what each report is about. -/
structure InParts (source : Source) (grouping : Grouping) : Prop where
  arranged : grouping.forest.Arranged
  forest : grouping.forest.InParts source
  log : grouping.log.IsPlaced source

/-- An operator is rejected at its token, or gets a node from the first token of its run on. -/
theorem inParts_groupOperator (h : grouping.InParts source) {owner : NodeId} {slot : Nat}
    {path : OperatorPath} {token : Token}
    (htoken : grouping.forest.token? owner slot = some token) (hdelimiter : token.IsDelimiter) :
    (grouping.groupOperator table owner slot path).InParts source := by
  have harranged : (grouping.groupOperator table owner slot path).forest.Arranged :=
    arranged_groupOperator h.arranged htoken hdelimiter
  rcases groupOperator_cases table path h.arranged.packed htoken hdelimiter with
    ⟨fault, heq⟩ | ⟨first, count, application, before, left, right, after, hc, -, heq⟩
  · rw [heq] at harranged ⊢
    exact ⟨harranged, h.forest,
      h.log.report _ (h.forest owner token (Forest.mem_tokenList_of_token? htoken)) _⟩
  · rw [heq] at harranged ⊢
    exact ⟨harranged, h.forest.collapse h.arranged.packed hc.toSplits, h.log⟩

theorem inParts_run (table : RuleSetTable) (h : grouping.InParts source) :
    (run table grouping).InParts source := by
  refine run_preserves (P := fun g => g.InParts source) ?_ h
  intro g owner slot path token hg htoken hkind _
  exact inParts_groupOperator hg htoken ⟨path.delimiter, hkind⟩

end Grouping

/-- Tokens and reports of a lexed forest whose operators are grouped. -/
theorem LexInput.inParts_group {input : LexInput} (htable : input.table = Grammar.builtin)
    (hsize : input.source.size < Span.offsetCount) (calls : List LexCall) (table : RuleSetTable) :
    ((input.finish calls).group table).forest.InParts input.source ∧
      ((input.finish calls).group table).log.IsPlaced input.source := by
  have hfinal := inParts_final htable hsize calls
  have hlexed : Grouping.InParts input.source
      { forest := (input.finish calls).forest, log := (input.finish calls).log } :=
    ⟨(lexed_final input calls).arranged, Forest.inParts_of_arena hfinal.arena, hfinal.log⟩
  have hrun := Grouping.inParts_run table hlexed
  exact ⟨hrun.forest, hrun.log⟩

end ExprLang
