import ExprLang.Proofs.Grouping.Outcome

/-!
# The nodes of operators

The lexer makes contexts only, and every node that is made for an operator has the operands
of the operator's shape beside its marker. They are no operators themselves, so that nothing
is taken out of such a list later on.

Main results:
* `Lexed.operator_eq_none`: a lexed forest has no operator node;
* `Operated.collapse`: what a new node adds;
* `operated_parse`, `contextClass_of_operator`: the operator nodes of a parsed text.
-/

namespace ExprLang

/-- Can operators of this shape have so many operands, the text `else` included? -/
def OperatorShape.Admits : OperatorShape → Nat → Prop
  | .binary, count => count = 2
  | .prefixed, count => count = 1
  | .conditional, count => count = 2 ∨ count = 4

/-- Grouping makes no other node than the new one an operator, and takes none back. -/
theorem Forest.operator_collapse {forest : Forest} {id owner : NodeId}
    (hid : id ≠ forest.nextId) (howner : owner.index < forest.nodes.size) (first count : Nat)
    (application : OperatorApplication) :
    ((forest.collapse owner first count application).header id).operator =
      (forest.header id).operator := by
  rw [Forest.header_collapse forest hid howner]

/-- The tokens in the list of a node that are none of its markers. -/
def Forest.contentList (forest : Forest) (id : NodeId) : List Token :=
  (forest.tokenList id).filter fun token => !token.isMarkerOf id

/-- A list keeps the tokens that are no marker. -/
theorem filter_isMarkerOf_eq_self {id : NodeId} {tokens : List Token}
    (h : ∀ t ∈ tokens, t.kind ≠ .node id) :
    tokens.filter (fun token => !token.isMarkerOf id) = tokens := by
  rw [List.filter_eq_self]
  intro t ht
  simp [Token.isMarkerOf, h t ht]

section Lexing

variable {input : LexInput} {forest : Forest}

theorem Draft.operator_eq_none {frames : List Frame} {reach : Nat}
    (draft : Draft input forest frames reach) (id : NodeId) :
    (forest.header id).operator = none := by
  induction draft with
  | start =>
      obtain ⟨i⟩ := id
      cases i with
      | zero => rfl
      | succ i => rfl
  | skip _ _ _ ih => exact ih
  | leaf _ _ _ _ _ ih => exact ih
  | value _ _ ih => exact ih
  | opened _ _ _ _ _ ih =>
      rw [Forest.header_openNode]
      split
      · rfl
      · exact ih
  | closed _ _ ih =>
      rw [Forest.header_closeNode]
      split
      · rename_i hid
        rw [← hid.1]
        exact ih
      · exact ih

/-- A lexed forest has no operator node. -/
theorem Lexed.operator_eq_none {stop : Nat} (h : Lexed input forest stop) (id : NodeId) :
    (forest.header id).operator = none := by
  cases h with
  | intro hdraft =>
      rw [Forest.header_closeNode]
      split
      · rename_i hid
        rw [← hid.1]
        exact hdraft.operator_eq_none id
      · exact hdraft.operator_eq_none id

end Lexing

namespace Grouping

/-- The list of an operator's node: as many operands as it takes, and no operator among them. -/
structure HasOperands (table : RuleSetTable) (forest : Forest) (id : NodeId) (op : Operator) :
    Prop where
  admits : op.shape.Admits (forest.contentList id).length
  grouped : ∀ t ∈ forest.tokenList id, isRawOperator table t = false

/-- Every operator node of a forest has its operands. -/
def Operated (table : RuleSetTable) (forest : Forest) : Prop :=
  ∀ id op, (forest.header id).operator = some op → HasOperands table forest id op

variable {table : RuleSetTable} {forest : Forest} {owner : NodeId} {first count : Nat}
  {application : OperatorApplication} {before left right after : List Token} {mark : Token}

/-- A list of an operator has one token more than operands. -/
theorem OperatorList.admits {marker : Token} {shape : OperatorShape}
    (h : OperatorList table forest owner marker shape (left ++ marker :: right)) :
    shape.Admits (left ++ right).length := by
  have hlength : (left ++ right).length + 1 = (left ++ marker :: right).length := by
    simp only [List.length_append, List.length_cons]
    omega
  generalize left ++ marker :: right = tokens at h hlength
  unfold OperatorShape.Admits
  cases h with
  | binary => simpa using hlength
  | prefixed => simpa using hlength
  | ifThen =>
      left
      simpa using hlength
  | ifThenElse =>
      right
      simpa using hlength

/-- The operator that takes its run is in no list of an operator node, so that these stay. -/
theorem Operated.tokenList_collapse (h : Operated table forest) (hp : forest.Packed)
    (hs : forest.Splits owner first count application.marker before left mark right after)
    (hop : isRawOperator table mark = true) {id : NodeId} {op : Operator}
    (hnew : id ≠ forest.nextId) (hid : (forest.header id).operator = some op) :
    (forest.collapse owner first count application).tokenList id = forest.tokenList id := by
  refine Forest.tokenList_collapse_of_ne hp (hs.hasRun hp) hnew ?_
  rintro rfl
  rw [(h id op hid).grouped mark hs.mem_mark] at hop
  cases hop

/-- The new node has its operands, and the other operator nodes keep theirs. -/
theorem Operated.collapse (h : Operated table forest) (ha : forest.Arranged)
    (hc : forest.Collapsible owner first count application.marker before left mark right after)
    (hop : isRawOperator table mark = true)
    (hraw : ∀ t ∈ left ++ right, isRawOperator table t = false)
    (hlist : ∀ marker, OperatorList table forest owner marker application.operator.shape
      (left ++ marker :: right)) :
    Operated table (forest.collapse owner first count application) := by
  have hs := hc.toSplits
  intro id op hid
  by_cases hnew : id = forest.nextId
  · subst hnew
    rw [Forest.header_collapse_nextId forest hs.owner_lt] at hid
    obtain rfl := Option.some.inj hid
    have htokens := Forest.tokenList_collapse_nextId ha.packed hs
    have hold : ∀ t ∈ left ++ right, t.kind ≠ .node forest.nextId := fun t ht hkind =>
      ha.ne_nextId (hs.mem_run ht) hkind rfl
    have hcontent : (forest.collapse owner first count application).contentList forest.nextId =
        left ++ right := by
      unfold Forest.contentList
      rw [htokens, List.filter_append, List.filter_cons_of_neg (by simp [Token.isMarkerOf]),
        ← List.filter_append]
      exact filter_isMarkerOf_eq_self hold
    constructor
    · rw [hcontent]
      exact (hlist mark).admits
    · intro t ht
      rw [htokens] at ht
      rcases List.mem_append.mp ht with hleft | hbehind
      · exact hraw t (List.mem_append_left _ hleft)
      · rcases List.mem_cons.mp hbehind with rfl | hright
        · rfl
        · exact hraw t (List.mem_append_right _ hright)
  · rw [Forest.operator_collapse hnew hs.owner_lt] at hid
    have hold := h id op hid
    have htokens := h.tokenList_collapse ha.packed hs hop hnew hid
    constructor
    · unfold Forest.contentList
      rw [htokens]
      exact hold.admits
    · rw [htokens]
      exact hold.grouped

/-- Grouping one operator keeps it that every operator node has its operands. -/
theorem operated_groupOperator (table : RuleSetTable) {grouping : Grouping} {slot : Nat}
    {token : Token} {id : DelimiterId} (path : OperatorPath) (hs : grouping.Sound)
    (h : Operated table grouping.forest) (htoken : grouping.forest.token? owner slot = some token)
    (hkind : token.kind = .delimiter id) (hraw : isRawOperator table token = true) :
    Operated table (grouping.groupOperator table owner slot path).forest := by
  rcases groupOperator_extent_cases table path hs.arranged.packed htoken ⟨id, hkind⟩ with
    ⟨fault, heq⟩ | ⟨symbol, extent, rules, before, left, right, after, hextent, hfault, hc, hrun,
      heq⟩
  · rw [heq]
    exact h
  · rw [heq]
    exact h.collapse hs.arranged hc hraw hrun
      fun _ => operatorList_of_extent hextent hfault hc.toSplits

/-- Grouping keeps it that every operator node has its operands. -/
theorem operated_run (table : RuleSetTable) {grouping : Grouping} (hs : grouping.Sound)
    (h : Operated table grouping.forest) : Operated table (run table grouping).forest := by
  suffices hboth : (run table grouping).Sound ∧ Operated table (run table grouping).forest from
    hboth.2
  refine run_induction (P := fun g => g.Sound ∧ Operated table g.forest) (fun _ hg => hg.1) ?_
    ⟨hs, h⟩
  rintro g owner slot token depth path paths ⟨hsound, hoperated⟩ - htoken hpath
  obtain ⟨id, op, precedence, hkind, -, hop, rfl⟩ := OperatorPath.ofToken?_eq_some.mp hpath
  exact ⟨sound_groupOperator table _ hsound htoken ⟨id, hkind⟩,
    operated_groupOperator table _ hsound hoperated htoken hkind
      (isRawOperator_of_isOperator ⟨id, precedence, hkind, hop⟩)⟩

/-- Grouping makes nodes of one class. -/
theorem contextClass_run (table : RuleSetTable) {grouping : Grouping}
    (ha : grouping.forest.Arranged)
    (h : ∀ id op, (grouping.forest.header id).operator = some op →
      (grouping.forest.header id).contextClass = .ofFlags [.operator]) :
    ∀ id op, ((run table grouping).forest.header id).operator = some op →
      ((run table grouping).forest.header id).contextClass = .ofFlags [.operator] := by
  refine (run_preserves_forest (P := fun forest => forest.Arranged ∧
    ∀ id op, (forest.header id).operator = some op →
      (forest.header id).contextClass = .ofFlags [.operator]) (fun _ h => h.1.packed) ?_
    ⟨ha, h⟩).2
  rintro forest owner first count application before left right after mark ⟨ha, h⟩ hc
  refine ⟨ha.collapse hc, fun id op hop => ?_⟩
  by_cases hid : id = forest.nextId
  · rw [hid, Forest.header_collapse_nextId forest hc.owner_lt]
  · rw [Forest.header_collapse forest hid hc.owner_lt] at hop ⊢
    exact h id op hop

end Grouping

/-- Every operator node of a parsed text has its operands. -/
theorem LexInput.operated_parse (input : LexInput) :
    Grouping.Operated input.table input.parse.forest := by
  refine Grouping.operated_run input.table (Grouping.sound_ofLexed input []) ?_
  intro id op hid
  have hnone := (input.lexed_final []).operator_eq_none id
  cases hid.symm.trans hnone

/-- The node of an operator has a class of its own. -/
theorem LexInput.contextClass_of_operator {input : LexInput} {id : NodeId} {op : Operator}
    (h : (input.parse.forest.header id).operator = some op) :
    (input.parse.forest.header id).contextClass = .ofFlags [.operator] := by
  have hlexed := lexed_final input []
  refine Grouping.contextClass_run input.table hlexed.arranged ?_ id op h
  intro id op hid
  cases hid.symm.trans (hlexed.operator_eq_none id)

end ExprLang
