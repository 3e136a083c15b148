import ExprLang.Proofs.Flattening.Levels

/-!
# Visiting the levels

A visit of a token adds it to the list and the node that it stands for to the next level, if the
policy says so, but only when its span was not met before. A token that is met with the span of an
earlier one is the only token of its node and a marker, so nothing of the next level is lost. The
nodes of all levels may as well be kept in one queue: what is added while a level is visited comes
behind it.

Main definitions:
* `Forest.listing`: the tokens of a level that are listed;
* `Forest.Reached`: what is listed and met when a level is next;
* `Forest.visitFirst`: visits the first node of a queue.

Main results:
* `Forest.foldl_visitPlace`: visiting tokens in a row;
* `Forest.Formed.reached`: the state before each level;
* `Forest.Formed.flatten_eq`: a flat list is the listed tokens of all levels;
* `Forest.Formed.exists_visitFirst`: the queue runs empty, with the same list.
-/

namespace ExprLang
namespace Forest

open Function

/-- Is a token put on the list, or the node that it stands for? -/
def lists (forest : Forest) (policy : Node → Inclusion) (place : NodeId × Token) : Bool :=
  match place.2.kind with
  | .node id => id = place.1 || (policy (forest.node id)).listsToken
  | _ => true

/-- Does a token of a nested node have the span of the node? -/
def fills (forest : Forest) (place : NodeId × Token) : Bool :=
  place.1 ≠ root && place.2.span = (forest.header place.1).span

/-- The listed tokens of a level, each with the node in whose list it is. -/
def listing (forest : Forest) (policy : Node → Inclusion) (level : Nat) : List (NodeId × Token) :=
  (forest.placesAt policy level).filter fun place =>
    forest.lists policy place && !forest.fills place

/-- Visits a token in the list of a node. -/
def visitPlace (forest : Forest) (policy : Node → Inclusion) (state : Flattening)
    (place : NodeId × Token) : Flattening :=
  forest.visitToken policy place.1 state place.2

/-- Visits all nodes of the next level. -/
def visitLevel (forest : Forest) (policy : Node → Inclusion) (state : Flattening) : Flattening :=
  state.next.foldl (forest.visitNode policy) { state with next := #[] }

/-- Visits the first node of the queue; the nodes that it leads to come last. -/
def visitFirst (forest : Forest) (policy : Node → Inclusion) (state : Flattening) : Flattening :=
  match state.next.toList with
  | [] => state
  | owner :: rest => forest.visitNode policy { state with next := rest.toArray } owner

section Visits

variable {forest : Forest} {policy : Node → Inclusion} {state : Flattening}
  {place : NodeId × Token}

theorem visitPlace_of_mem (h : place.2.span ∈ state.seen) :
    forest.visitPlace policy state place = state := by
  rw [visitPlace, visitToken, if_pos (List.contains_iff_mem.mpr h)]

/-- A token with a new span is listed and leads to the next level as the policy says. -/
theorem visitPlace_of_not_mem (policy : Node → Inclusion) (h : place.2.span ∉ state.seen) :
    (forest.visitPlace policy state place).seen = place.2.span :: state.seen ∧
      (forest.visitPlace policy state place).listed.toList =
        state.listed.toList ++ (if forest.lists policy place then [place.2] else []) ∧
      (forest.visitPlace policy state place).next.toList =
        state.next.toList ++ (forest.entered? policy place).toList := by
  have hnew : ¬ state.seen.contains place.2.span = true := fun hmem =>
    h (List.contains_iff_mem.mp hmem)
  rw [visitPlace, visitToken, if_neg hnew]
  unfold lists entered?
  cases place.2.kind with
  | node id =>
    by_cases hid : id = place.1
    · simp [hid]
    · cases hlists : (policy (forest.node id)).listsToken <;>
        cases henters : (policy (forest.node id)).entersNode <;>
          simp [hid, hlists, henters]
  | text | delimiter _ | literal _ => simp

/-- A token whose span was met before adds nothing, since it fills its node and leads nowhere. -/
theorem visitPlace_spec (hseen : place.2.span ∈ state.seen ↔ forest.fills place = true)
    (hfills : forest.fills place = true → forest.entered? policy place = none) :
    (forest.visitPlace policy state place).listed.toList = state.listed.toList ++
        (if forest.lists policy place && !forest.fills place then [place.2] else []) ∧
      (forest.visitPlace policy state place).next.toList =
        state.next.toList ++ (forest.entered? policy place).toList ∧
      ∀ span, span ∈ (forest.visitPlace policy state place).seen ↔
        span ∈ state.seen ∨ place.2.span = span := by
  by_cases hmem : place.2.span ∈ state.seen
  · have hfill := hseen.mp hmem
    rw [visitPlace_of_mem hmem, hfill, hfills hfill]
    refine ⟨by simp, by simp, fun span => ⟨.inl, ?_⟩⟩
    rintro (hold | rfl)
    · exact hold
    · exact hmem
  · have hfill : forest.fills place = false :=
      Bool.eq_false_iff.mpr fun hfill => hmem (hseen.mpr hfill)
    obtain ⟨hafter, hlisted, hnext⟩ := visitPlace_of_not_mem policy hmem
    refine ⟨?_, hnext, fun span => ?_⟩
    · rw [hlisted, hfill, Bool.not_false, Bool.and_true]
    · rw [hafter, List.mem_cons, or_comm, eq_comm]

/-- Tokens in a row with different spans are visited one by one. -/
theorem foldl_visitPlace (places : List (NodeId × Token)) (state : Flattening)
    (hdistinct : (places.map fun place => place.2.span).Nodup)
    (hseen : ∀ place ∈ places, place.2.span ∈ state.seen ↔ forest.fills place = true)
    (hfills : ∀ place ∈ places, forest.fills place = true → forest.entered? policy place = none) :
    (places.foldl (forest.visitPlace policy) state).listed.toList = state.listed.toList ++
        (places.filter fun place => forest.lists policy place && !forest.fills place).map
          Prod.snd ∧
      (places.foldl (forest.visitPlace policy) state).next.toList =
        state.next.toList ++ places.filterMap (forest.entered? policy) ∧
      ∀ span, span ∈ (places.foldl (forest.visitPlace policy) state).seen ↔
        span ∈ state.seen ∨ ∃ place ∈ places, place.2.span = span := by
  induction places generalizing state with
  | nil => simp
  | cons place places ih =>
    obtain ⟨hfirst, hrest⟩ := List.nodup_cons.mp hdistinct
    obtain ⟨hlisted, hnext, hafter⟩ := visitPlace_spec (hseen place List.mem_cons_self)
      (hfills place List.mem_cons_self)
    -- the spans behind the first one are as new as before
    have hseen' : ∀ other ∈ places,
        other.2.span ∈ (forest.visitPlace policy state place).seen ↔
          forest.fills other = true := by
      intro other hother
      rw [hafter, ← hseen other (List.mem_cons_of_mem _ hother), or_iff_left]
      intro heq
      exact hfirst (List.mem_map.mpr ⟨other, hother, heq.symm⟩)
    obtain ⟨hlisted', hnext', hafter'⟩ := ih (forest.visitPlace policy state place) hrest hseen'
      fun other hother => hfills other (List.mem_cons_of_mem _ hother)
    rw [List.foldl_cons]
    refine ⟨?_, ?_, fun span => ?_⟩
    · rw [hlisted', hlisted, List.append_assoc, List.filter_cons]
      split_ifs <;> rfl
    · rw [hnext', hnext, List.append_assoc, List.filterMap_cons]
      cases forest.entered? policy place <;> rfl
    · rw [hafter', hafter, or_assoc]
      simp only [List.mem_cons, exists_eq_or_imp]

theorem visitNode_eq_foldl (forest : Forest) (policy : Node → Inclusion) (state : Flattening)
    (owner : NodeId) :
    forest.visitNode policy state owner =
      (forest.row owner).foldl (forest.visitPlace policy) state := by
  rw [visitNode, ← Array.foldl_toList, row, List.foldl_map]
  rfl

/-- Visiting a level is visiting all tokens of its nodes. -/
theorem visitLevel_eq_foldl (forest : Forest) (policy : Node → Inclusion) (state : Flattening) :
    forest.visitLevel policy state = (state.next.toList.flatMap forest.row).foldl
      (forest.visitPlace policy) { state with next := #[] } := by
  rw [visitLevel, ← Array.foldl_toList, List.foldl_flatMap]
  exact congrArg (fun visit => List.foldl visit _ _)
    (funext fun state => funext fun owner => visitNode_eq_foldl forest policy state owner)

/-- Visiting at most so many levels, no matter if there are as many. -/
theorem visitLevels_eq_iterate (forest : Forest) (policy : Node → Inclusion) (limit : Nat)
    (state : Flattening) :
    forest.visitLevels policy limit state = (forest.visitLevel policy)^[limit] state := by
  induction limit generalizing state with
  | zero => rfl
  | succ limit ih =>
    rw [visitLevels]
    split_ifs with hempty
    · obtain ⟨listed, seen, next⟩ := state
      obtain rfl : next = #[] := Array.isEmpty_iff.mp hempty
      exact (iterate_fixed (f := forest.visitLevel policy) rfl (limit + 1)).symm
    · rw [ih, iterate_succ_apply]
      rfl

end Visits

/-- What is listed, met and next after some levels. -/
structure Reached (forest : Forest) (policy : Node → Inclusion) (level : Nat)
    (state : Flattening) : Prop where
  listed : state.listed.toList =
    ((List.range level).flatMap (forest.listing policy)).map Prod.snd
  next : state.next.toList = forest.nodesAt policy level
  seen : ∀ span, span ∈ state.seen ↔
    ∃ above < level, ∃ place ∈ forest.placesAt policy above, place.2.span = span

namespace Formed

variable {forest : Forest} {policy : Node → Inclusion} {level : Nat} {state : Flattening}
  {place : NodeId × Token}

/-- The tokens that fill their nodes are those with the span of a token above. -/
theorem fills_iff (h : forest.Formed) (hplace : place ∈ forest.placesAt policy level) :
    forest.fills place = true ↔
      ∃ above < level, ∃ other ∈ forest.placesAt policy above, other.2.span = place.2.span := by
  obtain ⟨owner, token⟩ := place
  constructor
  · intro hfills
    simp only [fills, Bool.and_eq_true, decide_eq_true_eq] at hfills
    obtain ⟨hroot, hspan⟩ := hfills
    have howner := (mem_placesAt.mp hplace).1
    cases level with
    | zero => exact absurd (List.mem_singleton.mp howner) hroot
    | succ level =>
      obtain ⟨outer, around, hmem, hkind, hne, -⟩ := mem_nodesAt_succ.mp howner
      exact ⟨level, Nat.lt_succ_self level, (outer, around), hmem,
        (h.nested hmem hkind hne).2.2.trans hspan.symm⟩
  · rintro ⟨above, habove, other, hother, heq⟩
    obtain ⟨below, rfl⟩ := Nat.exists_eq_add_of_lt habove
    have hspan := (h.marker_of_span_eq hplace hother heq).2
    have hroot := h.ne_root_of_mem_nodesAt_succ (mem_placesAt.mp hplace).1
    simp [fills, hroot, hspan]

/-- A token that fills its node is a marker. -/
theorem kind_of_fills (h : forest.Formed) (hplace : place ∈ forest.placesAt policy level)
    (hfills : forest.fills place = true) : place.2.kind = .node place.1 := by
  obtain ⟨above, habove, other, hother, heq⟩ := (h.fills_iff hplace).mp hfills
  obtain ⟨below, rfl⟩ := Nat.exists_eq_add_of_lt habove
  exact (h.marker_of_span_eq hplace hother heq).1

/-- The visit of a level leads to the next one. -/
theorem reached_visitLevel (h : forest.Formed) (hr : forest.Reached policy level state) :
    forest.Reached policy (level + 1) (forest.visitLevel policy state) := by
  have hdistinct := (h.inOrder_placesAt policy level).nodup
  have hseen : ∀ place ∈ forest.placesAt policy level,
      place.2.span ∈ state.seen ↔ forest.fills place = true :=
    fun place hplace => (hr.seen place.2.span).trans (h.fills_iff hplace).symm
  have hfills : ∀ place ∈ forest.placesAt policy level, forest.fills place = true →
      forest.entered? policy place = none := by
    intro place hplace hfill
    have hkind := h.kind_of_fills hplace hfill
    rw [Option.eq_none_iff_forall_ne_some]
    intro id hid
    obtain ⟨hnode, hne, -⟩ := entered?_eq_some.mp hid
    exact hne (TokenKind.node.inj (hnode.symm.trans hkind))
  obtain ⟨hlisted, hnext, hafter⟩ :=
    foldl_visitPlace _ { state with next := #[] } hdistinct hseen hfills
  rw [visitLevel_eq_foldl, hr.next, ← placesAt_eq_flatMap]
  refine ⟨?_, ?_, fun span => ?_⟩
  · rw [hlisted, hr.listed, List.range_succ, List.flatMap_append, List.map_append,
      List.flatMap_singleton]
    rfl
  · rw [hnext]
    rfl
  · rw [hafter, hr.seen]
    constructor
    · rintro (⟨above, habove, hplace⟩ | hplace)
      · exact ⟨above, Nat.lt_succ_of_lt habove, hplace⟩
      · exact ⟨level, Nat.lt_succ_self level, hplace⟩
    · rintro ⟨above, habove, hplace⟩
      rcases Nat.lt_succ_iff_lt_or_eq.mp habove with hlt | rfl
      · exact .inl ⟨above, hlt, hplace⟩
      · exact .inr hplace

/-- The state before each level. -/
theorem reached (h : forest.Formed) (policy : Node → Inclusion) (level : Nat) :
    forest.Reached policy level ((forest.visitLevel policy)^[level] { next := #[root] }) := by
  induction level with
  | zero => exact ⟨rfl, rfl, fun span => by simp⟩
  | succ level ih =>
    rw [iterate_succ_apply']
    exact h.reached_visitLevel ih

/-- Every node but the root has a token, so there are at most one more nodes than tokens. -/
theorem size_le_tokenCount (h : forest.Formed) : forest.nodes.size ≤ forest.tokenCount + 1 := by
  have hrange : ∀ id, id.index < forest.nodes.size → id ≠ root →
      1 ≤ (forest.header id).range.length := by
    intro id hid hroot
    obtain ⟨marker, hmem, -⟩ := h.marked id hid hroot
    rw [← length_tokenList forest h.arranged.packed]
    exact List.length_pos_of_mem hmem
  have hcount : forest.tokenCount =
      (forest.nodes.toList.map fun node => node.range.length).sum := by
    rw [tokenCount, ← Array.foldl_toList, List.sum_eq_foldl, List.foldl_map]
  have hnodes : ∀ i, forest.nodes.toList[i]? = forest.nodes[i]? := fun i => Array.getElem?_toList
  have hsize : forest.nodes.toList.length = forest.nodes.size := Array.length_toList
  rw [hcount]
  cases hlist : forest.nodes.toList with
  | nil =>
    rw [← hsize, hlist]
    exact Nat.zero_le _
  | cons first rest =>
    rw [hlist] at hnodes hsize
    have hpos : ∀ count ∈ rest.map fun node => node.range.length, 1 ≤ count := by
      intro count hcount
      obtain ⟨node, hnode, rfl⟩ := List.mem_map.mp hcount
      obtain ⟨i, hi⟩ := List.mem_iff_getElem?.mp hnode
      have hheader : forest.header ⟨i + 1⟩ = node := by
        rw [header, Array.getD_eq_getD_getElem?, ← hnodes, List.getElem?_cons_succ, hi]
        rfl
      have hlt := (List.getElem?_eq_some_iff.mp hi).1
      rw [← hheader]
      refine hrange ⟨i + 1⟩ ?_ ?_
      · rw [← hsize]
        exact Nat.succ_lt_succ hlt
      · intro heq
        exact absurd (congrArg NodeId.index heq) (Nat.succ_ne_zero i)
    have hsum := List.length_le_sum_of_one_le _ hpos
    rw [List.length_map] at hsum
    rw [← hsize, List.length_cons, List.map_cons, List.sum_cons]
    omega

/-- A flat list is the listed tokens of as many levels as there are nodes. -/
theorem flatten_eq (h : forest.Formed) (policy : Node → Inclusion) :
    forest.flatten policy =
      ((List.range (forest.tokenCount + 1)).flatMap (forest.listing policy)).map Prod.snd := by
  rw [flatten, visitLevels_eq_iterate]
  exact (h.reached policy (forest.tokenCount + 1)).listed

end Formed

section Queue

variable {forest : Forest} {policy : Node → Inclusion}

/-- The state with nodes in front of the queue. -/
def Flattening.queued (state : Flattening) (waiting : List NodeId) : Flattening :=
  { state with next := waiting.toArray ++ state.next }

/-- What waits in front of the queue does not matter for a visit. -/
theorem visitNode_queued (state : Flattening) (waiting : List NodeId) (owner : NodeId) :
    forest.visitNode policy (state.queued waiting) owner =
      (forest.visitNode policy state owner).queued waiting := by
  have htoken : ∀ (state : Flattening) (token : Token),
      forest.visitToken policy owner (state.queued waiting) token =
        (forest.visitToken policy owner state token).queued waiting := by
    intro state token
    unfold visitToken Flattening.queued
    simp only
    split_ifs
    · rfl
    · split
      · split_ifs <;> simp
      · rfl
  rw [visitNode, visitNode, ← Array.foldl_toList, ← Array.foldl_toList]
  induction (forest.tokens owner).toList generalizing state with
  | nil => rfl
  | cons token tokens ih => rw [List.foldl_cons, List.foldl_cons, htoken, ih]

theorem visitFirst_queued (state : Flattening) (owner : NodeId) (waiting : List NodeId) :
    forest.visitFirst policy (state.queued (owner :: waiting)) =
      (forest.visitNode policy state owner).queued waiting := by
  have hnext : (state.queued (owner :: waiting)).next.toList =
      owner :: (waiting ++ state.next.toList) := by
    simp [Flattening.queued]
  have harray : (waiting ++ state.next.toList).toArray = waiting.toArray ++ state.next :=
    Array.toList_inj.mp (by simp)
  rw [visitFirst, hnext, ← visitNode_queued]
  simp only [harray, Flattening.queued]

/-- The nodes of a queue are visited one by one, before those that are added meanwhile. -/
theorem iterate_visitFirst (forest : Forest) (policy : Node → Inclusion) (waiting : List NodeId)
    (state : Flattening) :
    (forest.visitFirst policy)^[waiting.length] (state.queued waiting) =
      waiting.foldl (forest.visitNode policy) state := by
  induction waiting generalizing state with
  | nil => simp [Flattening.queued]
  | cons owner waiting ih =>
    rw [List.length_cons, iterate_succ_apply, visitFirst_queued, ih, List.foldl_cons]

/-- A level is visited by as many turns of the queue as it has nodes. -/
theorem visitLevel_eq_iterate (state : Flattening) :
    forest.visitLevel policy state = (forest.visitFirst policy)^[state.next.size] state := by
  have hstate : ({ state with next := #[] } : Flattening).queued state.next.toList = state := by
    simp [Flattening.queued]
  have hturns := iterate_visitFirst forest policy state.next.toList { state with next := #[] }
  rw [hstate, Array.length_toList] at hturns
  rw [hturns, visitLevel, ← Array.foldl_toList]

/-- The queue runs empty, and then the list is that of the levels. -/
theorem Formed.exists_visitFirst (h : forest.Formed) (policy : Node → Inclusion) :
    ∃ turns, ((forest.visitFirst policy)^[turns] { next := #[root] }).next = #[] ∧
      ((forest.visitFirst policy)^[turns] { next := #[root] }).listed.toList =
        forest.flatten policy := by
  have hlevels : ∀ level, ∃ turns, (forest.visitLevel policy)^[level] { next := #[root] } =
      (forest.visitFirst policy)^[turns] { next := #[root] } := by
    intro level
    induction level with
    | zero => exact ⟨0, rfl⟩
    | succ level ih =>
      obtain ⟨turns, hturns⟩ := ih
      rw [iterate_succ_apply', hturns, visitLevel_eq_iterate, ← iterate_add_apply]
      exact ⟨_, rfl⟩
  obtain ⟨turns, hturns⟩ := hlevels (forest.tokenCount + 1)
  have hnext := (h.reached policy (forest.tokenCount + 1)).next
  rw [h.nodesAt_eq_nil policy h.size_le_tokenCount] at hnext
  refine ⟨turns, ?_, ?_⟩
  · rw [← hturns]
    exact Array.toList_eq_nil_iff.mp hnext
  · rw [← hturns, flatten, visitLevels_eq_iterate]

end Queue

end Forest
end ExprLang
