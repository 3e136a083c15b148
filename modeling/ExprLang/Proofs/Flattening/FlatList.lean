import ExprLang.Proofs.Flattening.Visits

/-!
# Flat lists

A flat list has the tokens of the nodes that the policy leads to, level by level and in the order of
the text within a level. No span is listed twice, and nothing is lost by that: a token that is left
out because of its span is a marker that is all there is in its node. Where a node is one unit or
left out, nothing in it is listed.

Main definitions:
* `Forest.FlatList`: what a flat list is.

Main results:
* `Forest.Formed.eq_of_span_eq`: places with one span are one, or the lower one fills its node;
* `Forest.Formed.flatList`, `LexInput.flatList_group`: flat lists of lexed and of grouped forests.
-/

namespace ExprLang
namespace Forest

/-- The tokens of a forest in a flat list, each with the node in whose list it is. -/
structure FlatList (forest : Forest) (policy : Node → Inclusion)
    (places : List (NodeId × Token)) : Prop where
  /-- A queue that starts with the root runs empty, and the flat list is what is listed then. -/
  terminates : ∃ turns, ((forest.visitFirst policy)^[turns] { next := #[root] }).next = #[] ∧
    ((forest.visitFirst policy)^[turns] { next := #[root] }).listed.toList = forest.flatten policy
  tokens : forest.flatten policy = places.map Prod.snd
  /-- Every listed token is in the list of a node that is entered together with all around it. -/
  walked : ∀ place ∈ places, place.2 ∈ forest.tokenList place.1 ∧ forest.Walked policy place.1
  /-- The list goes from level to level, and on one level from left to right. -/
  ordered : places.Pairwise fun p q =>
    forest.depth p.1 < forest.depth q.1 ∨
      forest.depth p.1 = forest.depth q.1 ∧ p.2.span.stop ≤ q.2.span.start
  distinct : ((forest.flatten policy).map Token.span).Nodup
  /-- Texts, delimiters and literals are listed once wherever their nodes are entered. -/
  complete : ∀ owner, forest.Walked policy owner → ∀ token ∈ forest.tokenList owner,
    (∀ id, token.kind ≠ .node id) → (forest.flatten policy).count token = 1
  /-- Nested nodes are listed as the policy says. -/
  nested : ∀ owner, forest.Walked policy owner → ∀ token ∈ forest.tokenList owner, ∀ id ≠ owner,
    token.kind = .node id →
      (token ∈ forest.flatten policy ↔ (policy (forest.node id)).listsToken = true)
  /-- Of what is in a node that is not entered, nothing is listed but the node's own token. -/
  hidden : ∀ owner, ¬ forest.Walked policy owner → ∀ token ∈ forest.tokenList owner,
    token ∈ forest.flatten policy → token = ⟨(forest.header owner).span, .node owner⟩

namespace Formed

variable {forest : Forest} {policy : Node → Inclusion} {level level' : Nat} {owner id : NodeId}
  {token : Token} {place place' : NodeId × Token}

section Places

/-- Places with one span are one, or the lower one fills its node. -/
theorem eq_of_span_eq (h : forest.Formed) (hplace : place ∈ forest.placesAt policy level)
    (hplace' : place' ∈ forest.placesAt policy level') (heq : place.2.span = place'.2.span) :
    place = place' ∨ level < level' ∧ forest.fills place' = true ∨
      level' < level ∧ forest.fills place = true := by
  rcases Nat.lt_trichotomy level level' with hlt | rfl | hgt
  · exact .inr (.inl ⟨hlt, (h.fills_iff hplace').mpr ⟨level, hlt, place, hplace, heq⟩⟩)
  · have horder := h.inOrder_placesAt policy level
    have hpos := horder.nonempty place.2.span (List.mem_map_of_mem hplace)
    left
    refine horder.eq_of_overlap hplace hplace' ?_ ?_
    · rw [← heq]
      exact hpos
    · rw [← heq]
      exact hpos
  · exact .inr (.inr ⟨hgt, (h.fills_iff hplace).mpr ⟨level', hgt, place', hplace', heq.symm⟩⟩)

/-- A token in the list of a walked node is on the level of the node's depth. -/
theorem mem_placesAt_depth (h : forest.Formed) (hwalked : forest.Walked policy owner)
    (htoken : token ∈ forest.tokenList owner) :
    (owner, token) ∈ forest.placesAt policy (forest.depth owner) :=
  mem_placesAt.mpr
    ⟨h.mem_nodesAt_iff.mpr ⟨forest.index_lt_of_mem_tokenList htoken, rfl, hwalked⟩, htoken⟩

/-- A policy that enters all nodes leads to all of them. -/
theorem walked_of_forall (hpolicy : ∀ node, (policy node).entersNode = true) (owner : NodeId) :
    forest.Walked policy owner := fun _ id _ _ => hpolicy (forest.node id)

/-- A token of two lists is a marker that fills one of the nodes, and nested in the other one. -/
theorem fills_of_mem_two (h : forest.Formed) {other : NodeId}
    (htoken : token ∈ forest.tokenList owner) (htoken' : token ∈ forest.tokenList other)
    (hne : owner ≠ other) :
    (forest.header owner).parent = some other ∧ token = ⟨(forest.header owner).span, .node owner⟩ ∨
      (forest.header other).parent = some owner := by
  have hwalked : ∀ id, forest.Walked (fun _ => .full) id := walked_of_forall fun _ => rfl
  have hplace := h.mem_placesAt_depth (hwalked owner) htoken
  have hplace' := h.mem_placesAt_depth (hwalked other) htoken'
  rcases h.eq_of_span_eq hplace hplace' rfl with heq | ⟨-, hfills⟩ | ⟨-, hfills⟩
  · exact absurd (congrArg Prod.fst heq) hne
  · have hkind := h.kind_of_fills hplace' hfills
    exact .inr (h.arranged.nested owner token other htoken hkind hne.symm).2.1
  · have hkind := h.kind_of_fills hplace hfills
    obtain ⟨-, hparent, hspan⟩ := h.arranged.nested other token owner htoken' hkind hne
    refine .inl ⟨hparent, ?_⟩
    rw [← hspan, ← hkind]

end Places

section Listed

theorem mem_listing : place ∈ forest.listing policy level ↔
    place ∈ forest.placesAt policy level ∧ forest.lists policy place = true ∧
      forest.fills place = false := by
  rw [listing, List.mem_filter, Bool.and_eq_true, Bool.not_eq_true']

theorem depth_of_mem_listing (h : forest.Formed) (hplace : place ∈ forest.listing policy level) :
    forest.depth place.1 = level :=
  (h.mem_nodesAt_iff.mp (mem_placesAt.mp (mem_listing.mp hplace).1).1).2.1

/-- Listed places with one span are one. -/
theorem eq_of_mem_listing (h : forest.Formed) (hplace : place ∈ forest.listing policy level)
    (hplace' : place' ∈ forest.listing policy level') (heq : place.2.span = place'.2.span) :
    place = place' := by
  obtain ⟨hmem, -, hfills⟩ := mem_listing.mp hplace
  obtain ⟨hmem', -, hfills'⟩ := mem_listing.mp hplace'
  rcases h.eq_of_span_eq hmem hmem' heq with hsame | ⟨-, hfill⟩ | ⟨-, hfill⟩
  · exact hsame
  · exact absurd (hfills'.symm.trans hfill) Bool.false_ne_true
  · exact absurd (hfills.symm.trans hfill) Bool.false_ne_true

/-- A token in the list of a walked node is in the flat list if it does not fill the node. -/
theorem mem_flatten_iff (h : forest.Formed) :
    token ∈ forest.flatten policy ↔ ∃ owner, forest.Walked policy owner ∧
      token ∈ forest.tokenList owner ∧ forest.lists policy (owner, token) = true ∧
        forest.fills (owner, token) = false := by
  rw [h.flatten_eq, List.mem_map]
  constructor
  · rintro ⟨⟨owner, token⟩, hmem, rfl⟩
    obtain ⟨level, -, hlisted⟩ := List.mem_flatMap.mp hmem
    obtain ⟨hplace, hlists, hfills⟩ := mem_listing.mp hlisted
    obtain ⟨howner, htoken⟩ := mem_placesAt.mp hplace
    exact ⟨owner, (h.mem_nodesAt_iff.mp howner).2.2, htoken, hlists, hfills⟩
  · rintro ⟨owner, hwalked, htoken, hlists, hfills⟩
    have hplace := h.mem_placesAt_depth hwalked htoken
    refine ⟨(owner, token), List.mem_flatMap.mpr ⟨forest.depth owner, ?_, ?_⟩, rfl⟩
    · have hlt := h.level_lt (mem_placesAt.mp hplace).1
      have hle := h.size_le_tokenCount
      exact List.mem_range.mpr (by omega)
    · exact mem_listing.mpr ⟨hplace, hlists, hfills⟩

end Listed

section Results

/-- The places of a flat list stand level by level, and on one level from left to right. -/
theorem pairwise_listing (h : forest.Formed) (policy : Node → Inclusion) (levels : Nat) :
    ((List.range levels).flatMap (forest.listing policy)).Pairwise fun p q =>
      forest.depth p.1 < forest.depth q.1 ∨
        forest.depth p.1 = forest.depth q.1 ∧ p.2.span.stop ≤ q.2.span.start := by
  refine List.pairwise_flatMap.mpr ⟨fun level _ => ?_, ?_⟩
  · have horder := List.pairwise_map.mp (h.inOrder_placesAt policy level).ordered
    refine (horder.sublist List.filter_sublist).imp_of_mem ?_
    intro p q hp hq hle
    exact .inr ⟨(h.depth_of_mem_listing hp).trans (h.depth_of_mem_listing hq).symm, hle⟩
  · refine List.pairwise_lt_range.imp ?_
    intro level level' hlt p hp q hq
    rw [h.depth_of_mem_listing hp, h.depth_of_mem_listing hq]
    exact .inl hlt

/-- No span is listed twice. -/
theorem nodup_spans (h : forest.Formed) (policy : Node → Inclusion) :
    ((forest.flatten policy).map Token.span).Nodup := by
  rw [h.flatten_eq, List.map_map]
  refine List.pairwise_map.mpr ((h.pairwise_listing policy _).imp_of_mem ?_)
  rintro p q hp hq hpq heq
  obtain ⟨level, -, hp⟩ := List.mem_flatMap.mp hp
  obtain ⟨level', -, hq⟩ := List.mem_flatMap.mp hq
  obtain rfl := h.eq_of_mem_listing hp hq heq
  have hpos := (h.inOrder_placesAt policy level).nonempty p.2.span
    (List.mem_map_of_mem (mem_listing.mp hp).1)
  omega

/-- The flat list of a forest that is as it should be. -/
theorem flatList (h : forest.Formed) (policy : Node → Inclusion) :
    ∃ places, forest.FlatList policy places := by
  refine ⟨_, ?terminates, h.flatten_eq policy, ?walked, h.pairwise_listing policy _,
    h.nodup_spans policy, ?complete, ?nested, ?hidden⟩
  case terminates => exact h.exists_visitFirst policy
  case walked =>
    rintro ⟨owner, token⟩ hmem
    obtain ⟨level, -, hlisted⟩ := List.mem_flatMap.mp hmem
    obtain ⟨howner, htoken⟩ := mem_placesAt.mp (mem_listing.mp hlisted).1
    exact ⟨htoken, (h.mem_nodesAt_iff.mp howner).2.2⟩
  case complete =>
    intro owner hwalked token htoken hkind
    have hlists : forest.lists policy (owner, token) = true := by
      unfold lists
      split
      · rename_i id hnode
        exact absurd hnode (hkind id)
      · rfl
    have hfills : forest.fills (owner, token) = false := Bool.eq_false_iff.mpr fun hfill =>
      hkind owner (h.kind_of_fills (h.mem_placesAt_depth hwalked htoken) hfill)
    have hnodup : (forest.flatten policy).Nodup := (h.nodup_spans policy).of_map
    exact List.count_eq_one_of_mem hnodup
      (h.mem_flatten_iff.mpr ⟨owner, hwalked, htoken, hlists, hfills⟩)
  case nested =>
    intro owner hwalked token htoken id hne hkind
    have hplace := h.mem_placesAt_depth hwalked htoken
    have hlists : forest.lists policy (owner, token) = (policy (forest.node id)).listsToken := by
      simp [lists, hkind, hne]
    have hfills : forest.fills (owner, token) = false := Bool.eq_false_iff.mpr fun hfill =>
      hne (TokenKind.node.inj (hkind.symm.trans (h.kind_of_fills hplace hfill)))
    constructor
    · intro hmem
      obtain ⟨other, hother, htoken', hlists', hfills'⟩ := h.mem_flatten_iff.mp hmem
      rcases h.eq_of_span_eq hplace (h.mem_placesAt_depth hother htoken') rfl with
        heq | ⟨-, hfill⟩ | ⟨-, hfill⟩
      · rw [← hlists, heq]
        exact hlists'
      · exact absurd (hfills'.symm.trans hfill) Bool.false_ne_true
      · exact absurd (hfills.symm.trans hfill) Bool.false_ne_true
    · intro hlisted
      exact h.mem_flatten_iff.mpr ⟨owner, hwalked, htoken, hlists.trans hlisted, hfills⟩
  case hidden =>
    intro owner hwalked token htoken hmem
    obtain ⟨other, hother, htoken', -, -⟩ := h.mem_flatten_iff.mp hmem
    have hne : owner ≠ other := by
      rintro rfl
      exact hwalked hother
    rcases h.fills_of_mem_two htoken htoken' hne with ⟨-, hfill⟩ | hparent
    · exact hfill
    · -- the other node is nested in this one, and would not be entered either
      have hroot : other ≠ root := by
        rintro rfl
        rw [h.arranged.parent_root] at hparent
        cases hparent
      exact absurd ((walked_iff_of_parent hparent hroot).mp hother).2 hwalked

end Results

end Formed
end Forest

/-- The flat lists of a lexed forest and of the grouped one. -/
theorem LexInput.flatList_group (input : LexInput) (calls : List LexCall) (table : RuleSetTable)
    (policy : Node → Inclusion) :
    (∃ places, (input.finish calls).forest.FlatList policy places) ∧
      ∃ places, ((input.finish calls).group table).forest.FlatList policy places := by
  obtain ⟨hlexed, hgrouped⟩ := input.formed_group calls table
  exact ⟨hlexed.flatList policy, hgrouped.flatList policy⟩

end ExprLang
