import ExprLang.Proofs.Grouping.OperatorNodes
import ExprLang.Proofs.Grouping.Structure
import ExprLang.Resolution.Evaluation

/-!
# The terms of nodes

In an arranged forest a node's items are the terms of its tokens, its markers left out, and the
term of a nested node does not depend on where in the forest it is read. A node of an operator
is read as a term of this operator, as it has the operands that the operator takes.

Main definitions:
* `itemTerms`, `nodeTerm`, `tokenTerm?`: what a node and a token are read as.

Main results:
* `itemTerms_eq`: the items of a node, token by token;
* `nodeTerm_of_context`, `nodeTerm_of_operator`: the two kinds of nodes;
* `Arranged.node_induction`: induction on how nodes are nested.
-/

namespace ExprLang

theorem Term.ofTrees_eq_filterMap (forest : Forest) (trees : List Tree) :
    Term.ofTrees forest trees = trees.filterMap (Term.ofTree? forest) := by
  induction trees with
  | nil => rfl
  | cons tree rest ih =>
      rw [Term.ofTrees, ih, List.filterMap_cons]
      cases Term.ofTree? forest tree with
      | none => rfl
      | some term => rfl

theorem Term.ofOperator?_prefixed {op : Operator} (h : op.shape = .prefixed) (span : Span)
    (operand : Term) :
    Term.ofOperator? span op [operand] = some (.prefixed span op operand) := by
  unfold Term.ofOperator?
  rw [h]

/-- An operator with as many operands as it takes is a term. -/
theorem Term.exists_ofOperator? {op : Operator} {operands : List Term}
    (h : op.shape.Admits operands.length) (span : Span) :
    ∃ term, Term.ofOperator? span op operands = some term := by
  unfold Term.ofOperator?
  cases hshape : op.shape with
  | binary =>
      rw [hshape] at h
      obtain ⟨left, right, rfl⟩ := List.length_eq_two.mp h
      exact ⟨_, rfl⟩
  | prefixed =>
      rw [hshape] at h
      obtain ⟨operand, rfl⟩ := List.length_eq_one_iff.mp h
      exact ⟨_, rfl⟩
  | conditional =>
      rw [hshape] at h
      rcases h with h | h
      · obtain ⟨condition, trueCase, rfl⟩ := List.length_eq_two.mp h
        exact ⟨_, rfl⟩
      · match operands, h with
        | [condition, trueCase, _, falseCase], _ => exact ⟨_, rfl⟩

namespace Forest

section Reading

variable (forest : Forest)

/-- The terms of the tokens of a node. -/
def itemTerms (id : NodeId) : List Term :=
  Term.ofTrees forest (forest.treesWithin forest.nodes.size id)

/-- The term of a node. -/
def nodeTerm (id : NodeId) : Term :=
  Term.ofNode (forest.header id).span (forest.node id) (forest.itemTerms id)

/-- The term of a token in the list of `owner`; a marker is none. -/
def tokenTerm? (owner : NodeId) (token : Token) : Option Term :=
  match token.kind with
  | .node id => if id = owner then none else some (forest.nodeTerm id)
  | _ => Term.ofToken? forest token

end Reading

variable {forest : Forest} {owner : NodeId}

theorem terms_eq : forest.terms =
    Term.itemsOf (forest.header root).contextClass (forest.itemTerms root) := rfl

theorem tokenTerm?_of_marker {token : Token} (h : token.isMarkerOf owner = true) :
    forest.tokenTerm? owner token = none := by
  have hkind : token.kind = .node owner := by simpa [Token.isMarkerOf] using h
  unfold tokenTerm?
  rw [hkind]
  exact if_pos rfl

/-- Every token that is no marker is a term. -/
theorem exists_tokenTerm? {token : Token} (h : token.isMarkerOf owner = false) :
    ∃ term, forest.tokenTerm? owner token = some term := by
  unfold tokenTerm? Term.ofToken?
  cases hkind : token.kind with
  | text => exact ⟨_, rfl⟩
  | delimiter id => exact ⟨_, rfl⟩
  | literal id => exact ⟨_, rfl⟩
  | node id =>
      refine ⟨forest.nodeTerm id, if_neg ?_⟩
      rintro rfl
      simp [Token.isMarkerOf, hkind] at h

/-- The items of a node are the terms of its tokens. -/
theorem itemTerms_eq (ha : forest.Arranged) (howner : owner.index < forest.nodes.size) :
    forest.itemTerms owner = (forest.tokenList owner).filterMap (forest.tokenTerm? owner) := by
  obtain ⟨slots, hleads⟩ := ha.led owner howner
  obtain ⟨n, hsize⟩ : ∃ n, forest.nodes.size = n + 1 := ⟨forest.nodes.size - 1, by omega⟩
  unfold itemTerms
  rw [Term.ofTrees_eq_filterMap, hsize, treesWithin, List.filterMap_map]
  refine List.filterMap_congr ?_
  intro token hmem
  simp only [Function.comp_apply, tokenTerm?]
  cases hkind : token.kind with
  | node id =>
      by_cases hid : id = owner
      · simp only [if_pos hid, Term.ofTree?, Term.ofToken?, hkind]
      · -- one level less is deep enough below a nested node
        obtain ⟨slot, hslot⟩ := exists_token?_of_mem hmem
        have hdeep : forest.treesWithin (n + 1) id = forest.treesWithin n id :=
          (hleads.child hslot hkind hid).treesWithin_eq ha (by rw [List.length_cons]; omega)
            (Nat.le_succ n)
        obtain ⟨-, -, hspan⟩ := ha.nested owner token id hmem hkind hid
        simp only [if_neg hid]
        rw [Term.ofTree?, nodeTerm, itemTerms, hspan, hsize, hdeep]
  | text => rfl
  | delimiter id => rfl
  | literal id => rfl

theorem index_lt_of_operator {id : NodeId} {op : Operator}
    (h : (forest.header id).operator = some op) : id.index < forest.nodes.size := by
  by_contra hlt
  rw [header_of_size_le forest (Nat.le_of_not_lt hlt)] at h
  cases h

/-- A node has as many items as tokens that are no marker. -/
theorem length_itemTerms (ha : forest.Arranged) (howner : owner.index < forest.nodes.size) :
    (forest.itemTerms owner).length = (forest.contentList owner).length := by
  rw [itemTerms_eq ha howner, contentList]
  induction forest.tokenList owner with
  | nil => rfl
  | cons token rest ih =>
      cases hmarker : token.isMarkerOf owner with
      | true =>
          rw [List.filterMap_cons_none (tokenTerm?_of_marker hmarker),
            List.filter_cons_of_neg (by simp [hmarker])]
          exact ih
      | false =>
          obtain ⟨term, hterm⟩ : ∃ term, forest.tokenTerm? owner token = some term :=
            exists_tokenTerm? hmarker
          rw [List.filterMap_cons_some hterm, List.filter_cons_of_pos (by simp [hmarker])]
          exact congrArg (· + 1) ih

/-- A context is read as a group of its items. -/
theorem nodeTerm_of_context {id : NodeId} (h : (forest.header id).operator = none) :
    forest.nodeTerm id =
      .group (forest.header id).span (forest.header id).rules (forest.header id).contextClass
        (Term.itemsOf (forest.header id).contextClass (forest.itemTerms id)) := by
  have hnode : (forest.node id).operator = none := h
  unfold nodeTerm Term.ofNode
  rw [hnode, Option.bind_none]
  rfl

/-- A node of an operator is read as the operator with its operands. -/
theorem nodeTerm_of_operator (ha : forest.Arranged) {table : RuleSetTable}
    (ho : Grouping.Operated table forest) {id : NodeId} {op : Operator}
    (hid : (forest.header id).operator = some op) :
    Term.ofOperator? (forest.header id).span op (forest.itemTerms id) =
      some (forest.nodeTerm id) := by
  have hadmits := (ho id op hid).admits
  rw [← length_itemTerms ha (index_lt_of_operator hid)] at hadmits
  obtain ⟨term, hterm⟩ := Term.exists_ofOperator? hadmits (forest.header id).span
  have hnode : (forest.node id).operator = some op := hid
  unfold nodeTerm Term.ofNode
  rw [hnode, Option.bind_some, hterm]

/-- What holds of a node if it holds of the nodes in its list holds of all nodes. -/
theorem Arranged.node_induction (ha : forest.Arranged) {P : NodeId → Prop}
    (hstep : ∀ id, id.index < forest.nodes.size →
      (∀ token ∈ forest.tokenList id, ∀ child, token.kind = .node child → child ≠ id → P child) →
        P id) {id : NodeId} (hid : id.index < forest.nodes.size) : P id := by
  obtain ⟨slots, hleads⟩ := ha.led id hid
  -- the nodes below are reached by longer paths, of which there are none without end
  generalize hbelow : forest.nodes.size - slots.length = below
  induction below using Nat.strong_induction_on generalizing id slots with
  | _ below ih =>
      refine hstep id hid fun token hmem child hkind hne => ?_
      obtain ⟨slot, hslot⟩ := exists_token?_of_mem hmem
      have hchild := hleads.child hslot hkind hne
      have hlt := hleads.length_lt ha.wellNested
      refine ih (forest.nodes.size - (slots.length + 1)) (by omega) (hchild.index_lt ha.wellNested) _ hchild ?_
      rw [List.length_cons]

end Forest

namespace LexInput

variable (input : LexInput)

/-- In the forest of a parsed text every node has its place. -/
theorem arranged_parse : input.parse.forest.Arranged :=
  (Grouping.arranged_run input.table _ (lexed_final input []).arranged).1

variable {input} {id : NodeId} {op : Operator}

/-- The node of a prefixed operator is read as the operator with one operand. -/
theorem nodeTerm_of_prefixed (hid : (input.parse.forest.header id).operator = some op)
    (hshape : op.shape = .prefixed) :
    ∃ operand, input.parse.forest.nodeTerm id =
      .prefixed (input.parse.forest.header id).span op operand := by
  have hterm := Forest.nodeTerm_of_operator input.arranged_parse input.operated_parse hid
  have hadmits := (input.operated_parse id op hid).admits
  rw [hshape, ← Forest.length_itemTerms input.arranged_parse (Forest.index_lt_of_operator hid)]
    at hadmits
  obtain ⟨operand, hitems⟩ := List.length_eq_one_iff.mp hadmits
  rw [hitems, Term.ofOperator?_prefixed hshape] at hterm
  exact ⟨operand, (Option.some.inj hterm).symm⟩

end LexInput
end ExprLang
