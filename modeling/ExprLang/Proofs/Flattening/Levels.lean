import ExprLang.Forest.Flatten
import ExprLang.Proofs.Grouping.Markers

/-!
# The levels of a forest

Level by level a policy leads into the nodes of a forest: to those in the list of the root that it
enters, from there to those in their lists, and so on. The tokens of one level stand side by side in
the text. A token of a lower level is within the tokens through which the nodes were entered, and
really shorter than each of them, unless it is the only token of its node, which then is a marker.

Main definitions:
* `Forest.nodesAt`, `Forest.placesAt`: the nodes that are entered at a level, and their tokens;
* `Forest.Walked`: the policy enters a node and all nodes around it.

Main results:
* `Forest.Formed.inOrder_placesAt`: the tokens of a level are in order;
* `Forest.Formed.marker_of_span_eq`: which tokens have the span of one on a higher level;
* `Forest.Formed.mem_nodesAt_iff`: the nodes of a level are those of its depth that are walked;
* `Forest.Formed.nodesAt_eq_nil`: there are no more levels than nodes.
-/

namespace ExprLang

theorem InOrder.nodup {whole : Span} {spans : List Span} (h : InOrder whole spans) :
    spans.Nodup := by
  refine h.ordered.imp_of_mem ?_
  rintro s _ hs - hle rfl
  exact absurd (h.nonempty s hs) hle.not_gt

/-- Two members that share a byte are one. -/
theorem InOrder.eq_of_overlap {α : Type} {items : List α} {span : α → Span} {whole : Span}
    (h : InOrder whole (items.map span)) {a b : α} (ha : a ∈ items) (hb : b ∈ items)
    (hfirst : (span a).start < (span b).stop) (hsecond : (span b).start < (span a).stop) :
    a = b := by
  have hapart : items.Pairwise fun a b =>
      (span a).stop ≤ (span b).start ∨ (span b).stop ≤ (span a).start :=
    (List.pairwise_map.mp h.ordered).imp Or.inl
  have hsymm : Std.Symm fun a b : α =>
      (span a).stop ≤ (span b).start ∨ (span b).stop ≤ (span a).start := ⟨fun _ _ => Or.symm⟩
  by_contra hne
  have hdisjoint := hapart.forall ha hb hne
  omega

/-- If one of them covers the whole span, there are no others. -/
theorem InOrder.eq_singleton {α : Type} {items : List α} {span : α → Span} {whole : Span}
    (h : InOrder whole (items.map span)) {a : α} (ha : a ∈ items) (hspan : span a = whole) :
    items = [a] := by
  have hall : ∀ b ∈ items, b = a := by
    intro b hb
    have hpos := h.nonempty _ (List.mem_map_of_mem hb)
    have hinside := h.inside _ (List.mem_map_of_mem hb)
    refine h.eq_of_overlap hb ha ?_ ?_
    · rw [hspan]
      omega
    · rw [hspan]
      omega
  have hreplicate := List.eq_replicate_of_mem hall
  have hnodup : items.Nodup := h.nodup.of_map
  rw [hreplicate, List.nodup_replicate] at hnodup
  have hlength := List.length_pos_of_mem ha
  rw [hreplicate, Nat.le_antisymm hnodup hlength]
  rfl

namespace Forest

/-- The tokens of a node, each with the node. -/
def row (forest : Forest) (owner : NodeId) : List (NodeId × Token) :=
  (forest.tokenList owner).map fun token => (owner, token)

/-- The node that a token in the list of another one stands for, if the policy enters it. -/
def entered? (forest : Forest) (policy : Node → Inclusion) (place : NodeId × Token) :
    Option NodeId :=
  match place.2.kind with
  | .node id =>
      if id ≠ place.1 ∧ (policy (forest.node id)).entersNode = true then some id else none
  | _ => none

/-- The tokens of a level, each with the node in whose list it is. -/
def placesAt (forest : Forest) (policy : Node → Inclusion) : (level : Nat) → List (NodeId × Token)
  | 0 => forest.row root
  | level + 1 =>
      ((placesAt forest policy level).filterMap (forest.entered? policy)).flatMap forest.row

/-- The nodes whose tokens are on a level. -/
def nodesAt (forest : Forest) (policy : Node → Inclusion) : (level : Nat) → List NodeId
  | 0 => [root]
  | level + 1 => (forest.placesAt policy level).filterMap (forest.entered? policy)

/-- The policy enters the node and all nodes around it; the root is always entered. -/
def Walked (forest : Forest) (policy : Node → Inclusion) (owner : NodeId) : Prop :=
  ∀ links id, forest.ancestor? links owner = some id → id ≠ root →
    (policy (forest.node id)).entersNode = true

section Places

variable {forest : Forest} {policy : Node → Inclusion} {level : Nat} {owner id : NodeId}
  {token : Token} {place : NodeId × Token}

theorem entered?_eq_some :
    forest.entered? policy place = some id ↔
      place.2.kind = .node id ∧ id ≠ place.1 ∧ (policy (forest.node id)).entersNode = true := by
  unfold entered?
  split
  · rename_i child hkind
    rw [hkind]
    constructor
    · intro h
      split_ifs at h with hchild
      cases h
      exact ⟨rfl, hchild⟩
    · rintro ⟨heq, hchild⟩
      cases heq
      exact if_pos hchild
  · rename_i hkind
    constructor
    · intro h
      cases h
    · rintro ⟨heq, -⟩
      exact absurd heq (hkind id)

theorem placesAt_eq_flatMap (level : Nat) :
    forest.placesAt policy level = (forest.nodesAt policy level).flatMap forest.row := by
  cases level with
  | zero => exact (List.flatMap_singleton _ _).symm
  | succ level => rfl

theorem mem_placesAt :
    (owner, token) ∈ forest.placesAt policy level ↔
      owner ∈ forest.nodesAt policy level ∧ token ∈ forest.tokenList owner := by
  rw [placesAt_eq_flatMap, List.mem_flatMap]
  constructor
  · rintro ⟨id, hid, hmem⟩
    obtain ⟨t, ht, heq⟩ := List.mem_map.mp hmem
    cases heq
    exact ⟨hid, ht⟩
  · rintro ⟨howner, htoken⟩
    exact ⟨owner, howner, List.mem_map_of_mem htoken⟩

/-- A node is entered from a token on the level above. -/
theorem mem_nodesAt_succ :
    id ∈ forest.nodesAt policy (level + 1) ↔
      ∃ owner token, (owner, token) ∈ forest.placesAt policy level ∧ token.kind = .node id ∧
        id ≠ owner ∧ (policy (forest.node id)).entersNode = true := by
  rw [nodesAt, List.mem_filterMap]
  constructor
  · rintro ⟨⟨owner, token⟩, hmem, hentered⟩
    exact ⟨owner, token, hmem, entered?_eq_some.mp hentered⟩
  · rintro ⟨owner, token, hmem, hentered⟩
    exact ⟨(owner, token), hmem, entered?_eq_some.mpr hentered⟩

end Places

namespace Formed

variable {forest : Forest} {policy : Node → Inclusion} {level : Nat} {owner id : NodeId}
  {token : Token}

section Order

theorem nested (h : forest.Formed) (hmem : (owner, token) ∈ forest.placesAt policy level)
    (hkind : token.kind = .node id) (hne : id ≠ owner) :
    id.index < forest.nodes.size ∧ (forest.header id).parent = some owner ∧
      token.span = (forest.header id).span :=
  h.arranged.nested owner token id (mem_placesAt.mp hmem).2 hkind hne

theorem index_lt_of_mem_nodesAt (h : forest.Formed) (hid : id ∈ forest.nodesAt policy level) :
    id.index < forest.nodes.size := by
  cases level with
  | zero =>
    rw [List.mem_singleton.mp hid]
    exact h.arranged.size_pos
  | succ level =>
    obtain ⟨owner, token, hmem, hkind, hne, -⟩ := mem_nodesAt_succ.mp hid
    exact (h.nested hmem hkind hne).1

theorem ne_root_of_mem_nodesAt_succ (h : forest.Formed)
    (hid : id ∈ forest.nodesAt policy (level + 1)) : id ≠ root := by
  obtain ⟨owner, token, hmem, hkind, -, -⟩ := mem_nodesAt_succ.mp hid
  rintro rfl
  exact h.arranged.unmarked owner token (mem_placesAt.mp hmem).2 hkind

/-- The tokens of a level are in order: a list stands in the place of the token of its node. -/
theorem inOrder_placesAt (h : forest.Formed) (policy : Node → Inclusion) (level : Nat) :
    InOrder (forest.header root).span
      ((forest.placesAt policy level).map fun place => place.2.span) := by
  have hrow : ∀ id, id.index < forest.nodes.size →
      InOrder (forest.header id).span ((forest.row id).map fun place => place.2.span) := by
    intro id hid
    rw [row, List.map_map]
    exact h.laid.rows id hid
  induction level with
  | zero => exact hrow root h.arranged.size_pos
  | succ level ih =>
    rw [placesAt, List.filterMap_eq_flatMap_toList, List.flatMap_assoc, List.map_flatMap]
    refine ih.flatMap ?_
    rintro ⟨owner, token⟩ hmem
    cases hentered : forest.entered? policy (owner, token) with
    | none => exact ⟨nofun, List.Pairwise.nil, nofun⟩
    | some id =>
      obtain ⟨hkind, hne, -⟩ := entered?_eq_some.mp hentered
      obtain ⟨hid, -, hspan⟩ := h.nested hmem hkind hne
      rw [Option.toList_some, List.flatMap_singleton, hspan]
      exact hrow id hid

end Order

section Depth

/-- Around a node there is a token on every level above its own. -/
theorem exists_around (h : forest.Formed) {below : Nat}
    (hid : id ∈ forest.nodesAt policy (level + below + 1)) :
    ∃ place ∈ forest.placesAt policy level,
      place.2.span.start ≤ (forest.header id).span.start ∧
        (forest.header id).span.stop ≤ place.2.span.stop := by
  obtain ⟨owner, token, hmem, hkind, hne, -⟩ := mem_nodesAt_succ.mp hid
  obtain ⟨-, -, hspan⟩ := h.nested hmem hkind hne
  induction below generalizing id owner token with
  | zero =>
    refine ⟨_, hmem, ?_⟩
    rw [hspan]
    exact ⟨le_rfl, le_rfl⟩
  | succ below ih =>
    obtain ⟨howner, htoken⟩ := mem_placesAt.mp hmem
    obtain ⟨outer, around, hmem', hkind', hne', -⟩ := mem_nodesAt_succ.mp howner
    obtain ⟨-, -, hspan'⟩ := h.nested hmem' hkind' hne'
    obtain ⟨place, hplace, hstart, hstop⟩ := ih howner outer around hmem' hkind' hne' hspan'
    have hinside := (h.laid.rows owner (h.index_lt_of_mem_nodesAt howner)).inside token.span
      (List.mem_map_of_mem htoken)
    rw [hspan] at hinside
    exact ⟨place, hplace, hstart.trans hinside.1, hinside.2.trans hstop⟩

/--
If a token of a lower level has the span of one above it, then it is all that is in its list, and
is a marker.
-/
theorem marker_of_span_eq (h : forest.Formed) {below : Nat} {other : NodeId × Token}
    (hplace : (owner, token) ∈ forest.placesAt policy (level + below + 1))
    (hother : other ∈ forest.placesAt policy level) (heq : other.2.span = token.span) :
    token.kind = .node owner ∧ token.span = (forest.header owner).span := by
  obtain ⟨howner, htoken⟩ := mem_placesAt.mp hplace
  have hindex := h.index_lt_of_mem_nodesAt howner
  have hrow := h.laid.rows owner hindex
  have hinside := hrow.inside token.span (List.mem_map_of_mem htoken)
  have hpos := hrow.nonempty token.span (List.mem_map_of_mem htoken)
  obtain ⟨around, haround, hstart, hstop⟩ := h.exists_around howner
  obtain rfl : other = around := by
    refine (h.inOrder_placesAt policy level).eq_of_overlap hother haround ?_ ?_
    · rw [heq]
      omega
    · rw [heq]
      omega
  rw [heq] at hstart hstop
  have hstarts : token.span.start = (forest.header owner).span.start := by omega
  have hstops : token.span.stop = (forest.header owner).span.stop := by omega
  have hspan : token.span = (forest.header owner).span := congrArg₂ Span.mk hstarts hstops
  -- the marker of the node is in the same list, and there is no room for another token
  obtain ⟨marker, hmarker, hkind⟩ :=
    h.marked owner hindex (h.ne_root_of_mem_nodesAt_succ howner)
  rw [hrow.eq_singleton htoken hspan] at hmarker
  obtain rfl := List.mem_singleton.mp hmarker
  exact ⟨hkind, hspan⟩

theorem walked_root (h : forest.Formed) (policy : Node → Inclusion) :
    forest.Walked policy root := by
  intro links id hid hne
  cases links with
  | zero => exact absurd (Option.some.inj hid).symm hne
  | succ links =>
    rw [ancestor?, h.arranged.parent_root] at hid
    cases hid

/-- A node is walked if the policy enters it and the node around it is walked. -/
theorem walked_iff_of_parent (hparent : (forest.header id).parent = some owner)
    (hne : id ≠ root) :
    forest.Walked policy id ↔
      (policy (forest.node id)).entersNode = true ∧ forest.Walked policy owner := by
  have hancestor : ∀ links, forest.ancestor? (links + 1) id = forest.ancestor? links owner := by
    intro links
    rw [ancestor?, hparent, Option.bind_some]
  constructor
  · intro hwalked
    exact ⟨hwalked 0 id rfl hne, fun links other hother => hwalked (links + 1) other
      ((hancestor links).trans hother)⟩
  · rintro ⟨hentered, hwalked⟩ links other hother
    cases links with
    | zero =>
      cases hother
      exact fun _ => hentered
    | succ links => exact hwalked links other ((hancestor links).symm.trans hother)

/-- A node of a level is reached by a path of its length, and it is walked. -/
theorem leads_of_mem_nodesAt (h : forest.Formed) (hid : id ∈ forest.nodesAt policy level) :
    (∃ slots, Leads forest slots id ∧ slots.length = level) ∧ forest.Walked policy id := by
  induction level generalizing id with
  | zero =>
    rw [List.mem_singleton.mp hid]
    exact ⟨⟨[], .root, rfl⟩, h.walked_root policy⟩
  | succ level ih =>
    obtain ⟨owner, token, hmem, hkind, hne, hentered⟩ := mem_nodesAt_succ.mp hid
    obtain ⟨-, hparent, -⟩ := h.nested hmem hkind hne
    obtain ⟨howner, htoken⟩ := mem_placesAt.mp hmem
    obtain ⟨⟨slots, hleads, hlength⟩, hwalked⟩ := ih howner
    obtain ⟨slot, hslot⟩ := exists_token?_of_mem htoken
    refine ⟨⟨slot :: slots, hleads.child hslot hkind hne, ?_⟩, ?_⟩
    · rw [List.length_cons, hlength]
    · exact (walked_iff_of_parent hparent (h.ne_root_of_mem_nodesAt_succ hid)).mpr
        ⟨hentered, hwalked⟩

/-- A walked node is on the level of its path. -/
theorem mem_nodesAt_of_leads (h : forest.Formed) {slots : List Nat} (hleads : Leads forest slots id)
    (hwalked : forest.Walked policy id) : id ∈ forest.nodesAt policy slots.length := by
  induction hleads with
  | root => exact List.mem_singleton_self _
  | @child slots owner slot token id path htoken hkind hne ih =>
    have hmem := mem_tokenList_of_token? htoken
    obtain ⟨-, hparent, -⟩ := h.arranged.nested _ _ _ hmem hkind hne
    have hroot : id ≠ root := by
      rintro rfl
      exact h.arranged.unmarked _ _ hmem hkind
    obtain ⟨hentered, howner⟩ := (walked_iff_of_parent hparent hroot).mp hwalked
    exact mem_nodesAt_succ.mpr
      ⟨owner, token, mem_placesAt.mpr ⟨ih howner, hmem⟩, hkind, hne, hentered⟩

/-- The nodes of a level are those of its depth that are walked. -/
theorem mem_nodesAt_iff (h : forest.Formed) :
    id ∈ forest.nodesAt policy level ↔
      id.index < forest.nodes.size ∧ forest.depth id = level ∧ forest.Walked policy id := by
  constructor
  · intro hid
    obtain ⟨⟨slots, hleads, hlength⟩, hwalked⟩ := h.leads_of_mem_nodesAt hid
    exact ⟨h.index_lt_of_mem_nodesAt hid, (hleads.depth_eq h.arranged).trans hlength, hwalked⟩
  · rintro ⟨hindex, hdepth, hwalked⟩
    obtain ⟨slots, hleads⟩ := h.arranged.led id hindex
    rw [← hdepth, hleads.depth_eq h.arranged]
    exact h.mem_nodesAt_of_leads hleads hwalked

theorem level_lt (h : forest.Formed) (hid : id ∈ forest.nodesAt policy level) :
    level < forest.nodes.size := by
  obtain ⟨⟨slots, hleads, rfl⟩, -⟩ := h.leads_of_mem_nodesAt hid
  exact hleads.length_lt h.arranged.wellNested

/-- There are no more levels than nodes. -/
theorem nodesAt_eq_nil (h : forest.Formed) (policy : Node → Inclusion)
    (hlevel : forest.nodes.size ≤ level) : forest.nodesAt policy level = [] :=
  List.eq_nil_iff_forall_not_mem.mpr fun _ hid => (h.level_lt hid).not_ge hlevel

end Depth

end Formed
end Forest
end ExprLang
