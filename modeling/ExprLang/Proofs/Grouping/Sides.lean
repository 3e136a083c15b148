import ExprLang.Proofs.Grouping.Layout
import ExprLang.Proofs.Grouping.OperatorNodes

/-!
# The two sides of an operator

A node that is made for an operator between two operands has three tokens, its left operand,
its marker and its right operand, and it covers the source from the first one to the last one.
The list of such a node has no operator left in it, so that later steps of the grouping leave
it as it is.

Main definitions:
* `Forest.Sided`: every node of an operator between two operands is such a node.

Main results:
* `Sided.collapse`: what a new node adds;
* `sided_parse`: the forest of a parsed text.
-/

namespace ExprLang

/-- The list of a node between two operands, and the part of the source that it covers. -/
structure Forest.HasSides (forest : Forest) (id : NodeId) (left marker right : Token) : Prop where
  list_eq : forest.tokenList id = [left, marker, right]
  left_ne : left.kind ≠ .node id
  marker_eq : marker.kind = .node id
  right_ne : right.kind ≠ .node id
  span_eq : (forest.header id).span = ⟨left.span.start, right.span.stop⟩

/-- Every node of an operator between two operands has these on its sides. -/
def Forest.Sided (forest : Forest) : Prop :=
  ∀ id op, (forest.header id).operator = some op → op.shape = .binary →
    ∃ left marker right, forest.HasSides id left marker right

namespace Grouping

variable {table : RuleSetTable} {forest : Forest} {owner : NodeId} {slot first count : Nat}
  {application : OperatorApplication} {before left right after : List Token} {mark : Token}

/-- An operator between two operands takes one token on each side. -/
theorem sides_of_extent {op : Operator} {extent : Extent}
    (hextent : extent? forest owner slot op = some extent) (hshape : op.shape = .binary)
    (hs : forest.Splits owner extent.first extent.count extent.marker before left mark right
      after) :
    ∃ l r, left = [l] ∧ right = [r] := by
  have hcount := hs.count_eq
  have hmarker := hs.marker_eq
  unfold extent? at hextent
  rw [hshape] at hextent
  simp only at hextent
  split at hextent
  · cases hextent
  · obtain rfl := Option.some.inj hextent
    obtain ⟨l, rfl⟩ := List.length_eq_one_iff.mp hmarker.symm
    simp only [List.length_singleton] at hcount
    obtain ⟨r, rfl⟩ := List.length_eq_one_iff.mp (show right.length = 1 by omega)
    exact ⟨l, r, rfl, rfl⟩

/-- The new node has its operands on its sides, and the other nodes keep theirs. -/
theorem Sided.collapse (h : forest.Sided) (ha : forest.Arranged) (hl : forest.Laid)
    (ho : Operated table forest)
    (hc : forest.Collapsible owner first count application.marker before left mark right after)
    (hop : isRawOperator table mark = true)
    (hsides : application.operator.shape = .binary → ∃ l r, left = [l] ∧ right = [r]) :
    (forest.collapse owner first count application).Sided := by
  have hs := hc.toSplits
  intro id op hid hshape
  by_cases hnew : id = forest.nextId
  · subst hnew
    rw [Forest.header_collapse_nextId forest hs.owner_lt] at hid
    obtain rfl := Option.some.inj hid
    obtain ⟨l, r, rfl, rfl⟩ := hsides hshape
    have hold : ∀ t ∈ [l] ++ [r], t.kind ≠ .node forest.nextId := fun t ht hkind =>
      ha.ne_nextId (hs.mem_run ht) hkind rfl
    refine ⟨l, { mark with kind := .node forest.nextId }, r, ?_⟩
    constructor
    · rw [Forest.tokenList_collapse_nextId ha.packed hs]
      rfl
    · exact hold l (by simp)
    · rfl
    · exact hold r (by simp)
    · have hne : ([l] ++ mark :: [r]).map Token.span ≠ [] := by simp
      have hrow := hl.rows owner hs.owner_lt
      rw [hs.list_eq, List.map_append, List.map_append] at hrow
      have hrun := hrow.sublist ((List.sublist_append_right _ _).trans
        (List.sublist_append_left _ _))
      rw [Forest.header_collapse_nextId forest hs.owner_lt]
      exact (Forest.collapsedToken_span ha.packed hs hne).trans (hrun.within hne).2
  · rw [Forest.operator_collapse hnew hs.owner_lt] at hid
    obtain ⟨l, marker, r, hold⟩ := h id op hid hshape
    refine ⟨l, marker, r, ?_, hold.left_ne, hold.marker_eq, hold.right_ne, ?_⟩
    · rw [ho.tokenList_collapse ha.packed hs hop hnew hid]
      exact hold.list_eq
    · rw [Forest.header_collapse forest hnew hs.owner_lt]
      exact hold.span_eq

/-- Grouping keeps the operands on the sides of their operators. -/
theorem sided_run (table : RuleSetTable) {grouping : Grouping} (hs : grouping.Sound)
    (hl : grouping.forest.Laid) (ho : Operated table grouping.forest)
    (h : grouping.forest.Sided) : (run table grouping).forest.Sided := by
  suffices hall : (run table grouping).Sound ∧ (run table grouping).forest.Laid ∧
      Operated table (run table grouping).forest ∧ (run table grouping).forest.Sided from
    hall.2.2.2
  refine run_induction (P := fun g => g.Sound ∧ g.forest.Laid ∧ Operated table g.forest ∧
    g.forest.Sided) (fun _ hg => hg.1) ?_ ⟨hs, hl, ho, h⟩
  rintro g owner slot token depth path paths ⟨hsound, hlaid, hoperated, hsided⟩ - htoken hpath
  obtain ⟨id, op, precedence, hkind, -, hop, rfl⟩ := OperatorPath.ofToken?_eq_some.mp hpath
  have hraw := isRawOperator_of_isOperator ⟨id, precedence, hkind, hop⟩
  refine ⟨sound_groupOperator table _ hsound htoken ⟨id, hkind⟩,
    laid_groupOperator hsound.arranged.packed hlaid htoken ⟨id, hkind⟩,
    operated_groupOperator table _ hsound hoperated htoken hkind hraw, ?_⟩
  rcases groupOperator_extent_cases table ⟨[], depth, token.span.start, id, op, precedence⟩
    hsound.arranged.packed htoken ⟨id, hkind⟩ with
    ⟨fault, heq⟩ | ⟨symbol, extent, rules, before, left, right, after, hextent, -, hc, -, heq⟩
  · rw [heq]
    exact hsided
  · rw [heq]
    exact Sided.collapse hsided hsound.arranged hlaid hoperated hc hraw
      fun hshape => sides_of_extent hextent hshape hc.toSplits

end Grouping

/-- Every operator between two operands of a parsed text has these on its sides. -/
theorem LexInput.sided_parse (input : LexInput) : input.parse.forest.Sided := by
  have hnone := (input.lexed_final []).operator_eq_none
  refine Grouping.sided_run input.table (Grouping.sound_ofLexed input [])
    (input.lexed_final []).laid ?_ ?_
  · exact fun id op hid => absurd (hid.symm.trans (hnone id)) (by simp)
  · exact fun id op hid => absurd (hid.symm.trans (hnone id)) (by simp)

end ExprLang
