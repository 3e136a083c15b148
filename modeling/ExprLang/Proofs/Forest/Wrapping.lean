import ExprLang.Proofs.Forest.Regrouping
import ExprLang.Proofs.Lexing.Lookahead

/-!
# A forest inside another one

A source in parentheses has one node more than the source without them: below the root there is
a group, and in its list the tokens of the root stand between the delimiters of the group. All
other lists are the same, one offset and one node further on. Grouping keeps this when the same
run is taken in both forests.

Main definitions:
* `Span.shifted`, `NodeId.shifted`, `Token.shifted`: one offset, and one node further on;
* `Forest.Listed`: a list between markers;
* `Forest.Wrapped`: a forest, and the same one inside a group.

Main results:
* `Wrapped.leads`: nodes are reached by paths that are longer by one;
* `Wrapped.collapse`: the same run is taken in both forests.
-/

namespace ExprLang

section Shifting

/-- The span one offset further on. -/
def Span.shifted (span : Span) : Span :=
  ⟨span.start + 1, span.stop + 1⟩

/-- The next node. -/
def NodeId.shifted (id : NodeId) : NodeId :=
  ⟨id.index + 1⟩

/-- The payload of a token when nodes have the next numbers. -/
def TokenKind.shifted : TokenKind → TokenKind
  | text => text
  | node id => node id.shifted
  | delimiter id => delimiter id
  | literal id => literal id

/-- The token one offset, and its node one node further on. -/
def Token.shifted (token : Token) : Token :=
  ⟨token.span.shifted, token.kind.shifted⟩

theorem Span.shifted_merge (a b : Span) : (a.merge b).shifted = a.shifted.merge b.shifted := by
  simp only [shifted, merge, Nat.add_min_add_right, Nat.add_max_add_right]

theorem NodeId.shifted_inj {a b : NodeId} : a.shifted = b.shifted ↔ a = b := by
  obtain ⟨i⟩ := a
  obtain ⟨j⟩ := b
  simp [shifted]

theorem NodeId.shifted_ne_root (id : NodeId) : id.shifted ≠ Forest.root :=
  fun h => Nat.succ_ne_zero id.index (congrArg NodeId.index h)

variable {token : Token} {id : NodeId}

theorem Token.kind_shifted (token : Token) : token.shifted.kind = token.kind.shifted := rfl

theorem TokenKind.shifted_eq_node {kind : TokenKind} :
    kind.shifted = .node id.shifted ↔ kind = .node id := by
  cases kind with
  | node id' => simp [shifted, NodeId.shifted_inj]
  | text => simp [shifted]
  | delimiter _ => simp [shifted]
  | literal _ => simp [shifted]

theorem Token.isDelimiter_shifted : token.shifted.IsDelimiter ↔ token.IsDelimiter := by
  unfold IsDelimiter
  rw [Token.kind_shifted]
  cases token.kind <;> simp [TokenKind.shifted]

end Shifting

namespace Forest

/-- A list in which shifted tokens stand between markers of the node. -/
structure Listed (id : NodeId) (tokens : List Token) (front back list : List Token) : Prop where
  markers : ∀ t ∈ front ++ back, t.kind = .node id.shifted
  list_eq : list = front ++ tokens.map Token.shifted ++ back

/-- The second forest is the first one inside a group. -/
structure Wrapped (forest outer : Forest) : Prop where
  enclosed : Enclosed forest.source outer.source
  size : outer.nodes.size = forest.nodes.size + 1
  literals : outer.literals = forest.literals
  listed : ∀ id, ∃ front back, Listed id (forest.tokenList id) front back
    (outer.tokenList id.shifted)
  outermost : ∃ token, outer.tokenList root = [token] ∧ token.kind = .node root.shifted
  header : ∀ id, id ≠ root → id.index < forest.nodes.size →
    (outer.header id.shifted).rules = (forest.header id).rules ∧
      (outer.header id.shifted).contextClass = (forest.header id).contextClass ∧
      (outer.header id.shifted).operator = (forest.header id).operator ∧
      (outer.header id.shifted).span = (forest.header id).span.shifted

section Slots

variable {tokens front back list : List Token} {id : NodeId}

/-- What stands behind the markers in front: a shifted token, a marker, or nothing. -/
theorem Listed.getElem? (h : Listed id tokens front back list) (slot : Nat) :
    (∃ t, tokens[slot]? = some t ∧ list[front.length + slot]? = some t.shifted) ∨
      (tokens[slot]? = none ∧
        ∀ t, list[front.length + slot]? = some t → t.kind = .node id.shifted) := by
  rw [h.list_eq, List.append_assoc, List.getElem?_append_right (Nat.le_add_right _ _),
    Nat.add_sub_cancel_left]
  by_cases hslot : slot < tokens.length
  · left
    refine ⟨tokens[slot], List.getElem?_eq_getElem hslot, ?_⟩
    rw [List.getElem?_append_left (by simpa using hslot), List.getElem?_map,
      List.getElem?_eq_getElem hslot, Option.map_some]
  · right
    refine ⟨List.getElem?_eq_none (Nat.le_of_not_lt hslot), fun t ht => h.markers t ?_⟩
    rw [List.getElem?_append_right (by simpa using Nat.le_of_not_lt hslot)] at ht
    exact List.mem_append_right _ (List.mem_of_getElem? ht)

/-- A token of the list is a marker or a shifted token. -/
theorem Listed.mem_cases (h : Listed id tokens front back list) {t : Token} (ht : t ∈ list) :
    t.kind = .node id.shifted ∨ ∃ s ∈ tokens, t = s.shifted := by
  rw [h.list_eq] at ht
  rcases List.mem_append.mp ht with ht | hback
  · rcases List.mem_append.mp ht with hfront | ht
    · exact Or.inl (h.markers t (List.mem_append_left _ hfront))
    · obtain ⟨s, hs, rfl⟩ := List.mem_map.mp ht
      exact Or.inr ⟨s, hs, rfl⟩
  · exact Or.inl (h.markers t (List.mem_append_right _ hback))

/-- In a list of a forest and in the same list between markers tokens stand at a fixed distance. -/
theorem Listed.token? {forest outer : Forest}
    (h : Listed id (forest.tokenList id) front back (outer.tokenList id.shifted)) {slot : Nat}
    {token : Token} (htoken : forest.token? id slot = some token) :
    outer.token? id.shifted (front.length + slot) = some token.shifted := by
  rw [← getElem?_tokenList] at htoken ⊢
  rcases h.getElem? slot with ⟨t, ht, hshifted⟩ | ⟨hnone, -⟩
  · rw [hshifted, Option.some.inj (htoken.symm.trans ht)]
  · rw [htoken] at hnone
    cases hnone

end Slots

namespace Wrapped

variable {forest outer : Forest}

section Nesting

/-- A path to a node leads through the group. -/
theorem leads (h : Wrapped forest outer) {slots : List Nat} {id : NodeId}
    (hleads : Leads forest slots id) :
    ∃ slots', Leads outer slots' id.shifted ∧ slots'.length = slots.length + 1 := by
  induction hleads with
  | root =>
      obtain ⟨token, hlist, hkind⟩ := h.outermost
      have htoken : outer.token? root 0 = some token := by
        rw [← getElem?_tokenList, hlist]
        rfl
      exact ⟨[0], Leads.root.child htoken hkind (NodeId.shifted_ne_root _), rfl⟩
  | @child slots owner slot token id _ htoken hkind hne ih =>
      obtain ⟨slots', hleads', hlength⟩ := ih
      obtain ⟨front, back, hlisted⟩ := h.listed owner
      refine ⟨(front.length + slot) :: slots',
        hleads'.child (hlisted.token? htoken) ?_ fun heq => hne ?_, ?_⟩
      · rw [Token.kind_shifted, hkind]
        rfl
      · exact NodeId.shifted_inj.mp heq
      · rw [List.length_cons, List.length_cons, hlength]

end Nesting

section Collapse

variable {owner : NodeId} {first count : Nat} {application : OperatorApplication}
  {before left right after front back : List Token} {mark : Token}

theorem nextId (h : Wrapped forest outer) : outer.nextId = forest.nextId.shifted := by
  unfold Forest.nextId NodeId.shifted
  rw [h.size]

/-- The same run in the outer forest. -/
theorem splits {marker : Nat}
    (hs : forest.Splits owner first count marker before left mark right after)
    (hlisted : Listed owner (forest.tokenList owner) front back (outer.tokenList owner.shifted)) :
    outer.Splits owner.shifted (front.length + first) count marker
      (front ++ before.map Token.shifted) (left.map Token.shifted) mark.shifted
      (right.map Token.shifted) (after.map Token.shifted ++ back) where
  list_eq := by
    rw [hlisted.list_eq, hs.list_eq]
    simp
  first_eq := by
    rw [hs.first_eq]
    simp
  count_eq := by
    rw [hs.count_eq]
    simp
  marker_eq := by
    rw [hs.marker_eq]
    simp

theorem runSpan_map_shifted {run : Array Token} (hne : run ≠ #[]) :
    runSpan (run.map Token.shifted) = (runSpan run).shifted := by
  have hpos : 0 < run.size := Array.size_pos_iff.mpr hne
  have hfirst : (run.map Token.shifted).getD 0 default = (run.getD 0 default).shifted := by
    simp [Array.getD, hpos]
  have hlast : (run.map Token.shifted).back?.getD default = (run.back?.getD default).shifted := by
    rw [Array.back?_map, Array.back?_eq_getElem?,
      Array.getElem?_eq_getElem (show run.size - 1 < run.size by omega)]
    rfl
  rw [runSpan, runSpan, hfirst, hlast, Span.shifted_merge]
  rfl

/-- The span of the new node. -/
theorem runSpan_markedRun (h : Wrapped forest outer) (hp : forest.Packed) (hp' : outer.Packed)
    (hs : forest.Splits owner first count application.marker before left mark right after)
    (hlisted : Listed owner (forest.tokenList owner) front back (outer.tokenList owner.shifted)) :
    runSpan (outer.markedRun owner.shifted (front.length + first) count application.marker) =
      (runSpan (forest.markedRun owner first count application.marker)).shifted := by
  have hmarked := toList_markedRun hp hs
  have hrun : outer.markedRun owner.shifted (front.length + first) count application.marker =
      (forest.markedRun owner first count application.marker).map Token.shifted := by
    apply Array.toList_inj.mp
    rw [toList_markedRun hp' (splits hs hlisted), Array.toList_map, hmarked, List.map_append,
      List.map_cons, h.nextId]
    rfl
  rw [hrun]
  refine runSpan_map_shifted fun hempty => ?_
  rw [hempty] at hmarked
  simp at hmarked

/-- The same run is taken in both forests. -/
theorem collapse (h : Wrapped forest outer) (hp : forest.Packed) (hp' : outer.Packed)
    (hs : forest.Splits owner first count application.marker before left mark right after)
    (hlisted : Listed owner (forest.tokenList owner) front back (outer.tokenList owner.shifted)) :
    Wrapped (forest.collapse owner first count application)
      (outer.collapse owner.shifted (front.length + first) count application) := by
  have hs' := splits hs hlisted
  have hspan := h.runSpan_markedRun hp hp' hs hlisted
  have howner := hs.owner_lt
  have hroot : root ≠ outer.nextId := by
    rw [h.nextId]
    exact fun heq => NodeId.shifted_ne_root _ heq.symm
  refine ⟨h.enclosed, ?_, h.literals, ?_, ?_, ?_⟩
  · rw [size_collapse, size_collapse, h.size]
  · intro id
    by_cases hnew : id = forest.nextId
    · subst hnew
      refine ⟨[], [], by simp, ?_⟩
      rw [← h.nextId, tokenList_collapse_nextId hp hs, tokenList_collapse_nextId hp' hs']
      simp only [List.map_append, List.map_cons, List.nil_append, List.append_nil, h.nextId]
      rfl
    · have hnew' : id.shifted ≠ outer.nextId := by
        rw [h.nextId]
        exact fun heq => hnew (NodeId.shifted_inj.mp heq)
      by_cases hid : id = owner
      · subst hid
        refine ⟨front, back, hlisted.markers, ?_⟩
        rw [tokenList_collapse_owner hp hs, tokenList_collapse_owner hp' hs', hspan, h.nextId]
        simp only [List.map_append, List.map_cons, List.append_assoc, List.cons_append]
        rfl
      · have hid' : id.shifted ≠ owner.shifted := fun heq => hid (NodeId.shifted_inj.mp heq)
        rw [tokenList_collapse_of_ne hp (hs.hasRun hp) hnew hid,
          tokenList_collapse_of_ne hp' (hs'.hasRun hp') hnew' hid']
        exact h.listed id
  · rw [tokenList_collapse_of_ne hp' (hs'.hasRun hp') hroot
      fun heq => NodeId.shifted_ne_root _ heq.symm]
    exact h.outermost
  · intro id hid hlt
    rw [size_collapse] at hlt
    by_cases hnew : id = forest.nextId
    · subst hnew
      rw [← h.nextId, header_collapse_nextId outer hs'.owner_lt,
        header_collapse_nextId forest howner]
      exact ⟨rfl, rfl, rfl, hspan⟩
    · have hnew' : id.shifted ≠ outer.nextId := by
        rw [h.nextId]
        exact fun heq => hnew (NodeId.shifted_inj.mp heq)
      rw [header_collapse outer hnew' hs'.owner_lt, header_collapse forest hnew howner]
      exact h.header id hid (index_lt_of_ne_nextId hlt hnew)

end Collapse

end Wrapped

end Forest
end ExprLang
