import ExprLang.Proofs.Forest.Leaves
import ExprLang.Proofs.Grouping.Outcome
import ExprLang.Resolution.Evaluation

/-!
# Terms without operators that are left

An operator that was not grouped is a delimiter in the terms of a forest, and there is a
report about it. So a parse without a report gives terms in which no operator is left.

Main results:
* `isGrouped_terms`: the terms of a forest whose lists hold no operator;
* `isGrouped_parse`: the terms of a text that is parsed without a report.
-/

namespace ExprLang

/-- No operator that was not grouped is in the term. -/
inductive Term.IsGrouped (table : RuleSetTable) : Term → Prop
  | name (span : Span) : IsGrouped table (.name span)
  | literal (span : Span) (value : Literal) : IsGrouped table (.literal span value)
  | delimiter (span : Span) {id : DelimiterId} (h : (table.delimiter id).isOperator = false) :
      IsGrouped table (.delimiter span id)
  | group (span : Span) (rules : RuleSetId) (contextClass : ContextClass) {items : List Term}
      (h : ∀ item ∈ items, IsGrouped table item) :
      IsGrouped table (.group span rules contextClass items)
  | chain (span : Span) (op : Operator) (links : List Link) {first : Term}
      (h : IsGrouped table first) : IsGrouped table (.chain span op first links)
  | binary (span : Span) (op : Operator) {left right : Term} (hleft : IsGrouped table left)
      (hright : IsGrouped table right) : IsGrouped table (.binary span op left right)
  | prefixed (span : Span) (op : Operator) {operand : Term} (h : IsGrouped table operand) :
      IsGrouped table (.prefixed span op operand)
  | ifThen (span : Span) {condition trueCase : Term} (hcondition : IsGrouped table condition)
      (htrue : IsGrouped table trueCase) : IsGrouped table (.ifThen span condition trueCase)
  | ifThenElse (span : Span) {condition trueCase falseCase : Term}
      (hcondition : IsGrouped table condition) (htrue : IsGrouped table trueCase)
      (hfalse : IsGrouped table falseCase) :
      IsGrouped table (.ifThenElse span condition trueCase falseCase)

namespace Term

variable {table : RuleSetTable}

theorem IsGrouped.chainHead {term : Term} (h : term.IsGrouped table) :
    term.chainHead.IsGrouped table := by
  cases h with
  | chain span op links hfirst => exact hfirst
  | name span => exact .name span
  | literal span value => exact .literal span value
  | delimiter span hid => exact .delimiter span hid
  | group span rules contextClass hitems => exact .group span rules contextClass hitems
  | binary span op hleft hright => exact .binary span op hleft hright
  | prefixed span op hoperand => exact .prefixed span op hoperand
  | ifThen span hcondition htrue => exact .ifThen span hcondition htrue
  | ifThenElse span hcondition htrue hfalse => exact .ifThenElse span hcondition htrue hfalse

/-- An operator with operands is grouped if they are. -/
theorem isGrouped_of_ofOperator? {span : Span} {op : Operator} {operands : List Term} {term : Term}
    (h : ofOperator? span op operands = some term)
    (hoperands : ∀ operand ∈ operands, operand.IsGrouped table) : term.IsGrouped table := by
  unfold ofOperator? at h
  split at h
  · rename_i left right _
    obtain rfl := Option.some.inj h
    have hleft := hoperands left (by simp)
    have hright := hoperands right (by simp)
    split
    · exact .chain span op _ hleft.chainHead
    · exact .binary span op hleft hright
  · rename_i operand _
    obtain rfl := Option.some.inj h
    exact .prefixed span op (hoperands operand (by simp))
  · rename_i condition trueCase _
    obtain rfl := Option.some.inj h
    exact .ifThen span (hoperands condition (by simp)) (hoperands trueCase (by simp))
  · rename_i condition trueCase other falseCase _
    obtain rfl := Option.some.inj h
    exact .ifThenElse span (hoperands condition (by simp)) (hoperands trueCase (by simp))
      (hoperands falseCase (by simp))
  · cases h

theorem mem_of_mem_itemsOf {contextClass : ContextClass} {items : List Term} {term : Term}
    (h : term ∈ itemsOf contextClass items) : term ∈ items := by
  unfold itemsOf at h
  split at h
  · exact h
  · exact List.mem_of_mem_filter h

theorem isGrouped_ofNode (span : Span) (node : Node) {items : List Term}
    (hitems : ∀ item ∈ items, item.IsGrouped table) : (ofNode span node items).IsGrouped table := by
  unfold ofNode
  split
  · rename_i term hterm
    obtain ⟨op, -, hop⟩ := Option.bind_eq_some_iff.mp hterm
    exact isGrouped_of_ofOperator? hop hitems
  · refine .group _ _ _ ?_
    intro item hitem
    exact hitems item (mem_of_mem_itemsOf hitem)

theorem isGrouped_ofToken? {forest : Forest} {token : Token} {term : Term}
    (h : ofToken? forest token = some term)
    (hraw : Grouping.isRawOperator table token = false) : term.IsGrouped table := by
  unfold ofToken? at h
  split at h
  · rw [← Option.some.inj h]
    exact .name _
  · rw [← Option.some.inj h]
    exact .literal _ _
  · rename_i id hkind
    rw [← Option.some.inj h]
    refine .delimiter _ ?_
    unfold Grouping.isRawOperator at hraw
    rw [hkind] at hraw
    exact hraw
  · cases h

mutual

/-- The term of a tree is grouped if no leaf is an operator. -/
theorem isGrouped_ofTree? (forest : Forest) : ∀ tree : Tree,
    (∀ leaf ∈ tree.leaves, Grouping.isRawOperator table leaf = false) →
      ∀ term ∈ ofTree? forest tree, term.IsGrouped table
  | .leaf token, hraw, term, hterm =>
      isGrouped_ofToken? hterm (hraw token List.mem_cons_self)
  | .branch token _ node children, hraw, term, hterm => by
      obtain rfl := Option.some.inj hterm
      exact isGrouped_ofNode _ _ (isGrouped_ofTrees forest children hraw)

theorem isGrouped_ofTrees (forest : Forest) : ∀ trees : List Tree,
    (∀ leaf ∈ Tree.leavesOf trees, Grouping.isRawOperator table leaf = false) →
      ∀ term ∈ ofTrees forest trees, term.IsGrouped table
  | [], _, _, hterm => absurd hterm List.not_mem_nil
  | tree :: rest, hraw, term, hterm => by
      rcases List.mem_append.mp hterm with hterm | hterm
      · exact isGrouped_ofTree? forest tree
          (fun leaf hleaf => hraw leaf (List.mem_append_left _ hleaf)) term
          (Option.mem_toList.mp hterm)
      · exact isGrouped_ofTrees forest rest
          (fun leaf hleaf => hraw leaf (List.mem_append_right _ hleaf)) term hterm

end

end Term

namespace Forest

variable {forest : Forest}

/-- The terms of a forest are grouped if no list holds an operator. -/
theorem isGrouped_terms {table : RuleSetTable}
    (h : ∀ id, ∀ token ∈ forest.tokenList id, Grouping.isRawOperator table token = false) :
    ∀ term ∈ forest.terms, term.IsGrouped table := by
  intro term hterm
  refine Term.isGrouped_ofTrees forest forest.trees ?_ term (Term.mem_of_mem_itemsOf hterm)
  intro leaf hleaf
  obtain ⟨id, hmem, -⟩ := exists_mem_tokenList_of_mem_leaves hleaf
  exact h id leaf hmem

end Forest

/-- A text that is parsed without a report has no operator that is left in its terms. -/
theorem LexInput.isGrouped_parse (input : LexInput) (hlog : input.parse.log.entries.toList = []) :
    ∀ term ∈ input.parse.forest.terms, term.IsGrouped input.table := by
  have hs := Grouping.sound_ofLexed input []
  have hnone := (Grouping.run_eq_queue input.table hs).2
  obtain ⟨reports, h⟩ := Grouping.accounted_run input.table hs rfl
  have hreports : reports = [] := (List.append_eq_nil_iff.mp (h.entries_eq.symm.trans hlog)).2
  refine Forest.isGrouped_terms ?_
  intro id token hmem
  by_contra hraw
  obtain ⟨report, hreport, -⟩ :=
    (h.rejected_of_mem hs hnone hmem (Bool.not_eq_false _ ▸ hraw)).report
  rw [hreports] at hreport
  cases hreport

end ExprLang
