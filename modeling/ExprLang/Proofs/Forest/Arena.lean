import ExprLang.Forest.Basic
import Mathlib.Tactic

/-!
# Lists in the arena

Every node owns a range of the arena, and no two nodes share a slot of it. Under
that invariant opening and closing a node changes the list of that node and no
other list.

Main results:
* `getElem?_tokenList`: a slot of a list is a slot of the arena;
* `tokenList_openNode`, `tokenList_closeNode`: what becomes of the lists;
* `Packed.openNode`, `Packed.closeNode`: the ranges stay apart.
-/

namespace ExprLang
namespace Forest

/-- The tokens of a node as a list. -/
def tokenList (forest : Forest) (id : NodeId) : List Token :=
  (forest.tokens id).toList

/-- The ranges of all nodes are in the arena, and those of different nodes are disjoint. -/
structure Packed (forest : Forest) : Prop where
  inside : ∀ id, (forest.header id).range.stop ≤ forest.arena.size
  apart : ∀ a b, a ≠ b →
    (forest.header a).range.stop ≤ (forest.header b).range.start ∨
      (forest.header b).range.stop ≤ (forest.header a).range.start

section Headers

variable (forest : Forest)

theorem mem_of_mem_extract {α : Type} {elements : Array α} {a : α} {start stop : Nat}
    (h : a ∈ (elements.extract start stop).toList) : a ∈ elements.toList := by
  rw [Array.toList_extract] at h
  exact List.mem_of_mem_drop (List.mem_of_mem_take h)

theorem getD_modify {α : Type} (elements : Array α) (i j : Nat) (f : α → α) (d : α) :
    (elements.modify i f).getD j d =
      if i = j ∧ j < elements.size then f (elements.getD j d) else elements.getD j d := by
  by_cases hj : j < elements.size
  · by_cases hij : i = j
    · subst hij
      simp [Array.getD, hj, Array.getElem_modify_self]
    · simp [Array.getD, hj, hij, Array.getElem_modify_of_ne hij]
  · simp [Array.getD, hj]

theorem getD_push {α : Type} (elements : Array α) (last d : α) (j : Nat) :
    (elements.push last).getD j d = if j = elements.size then last else elements.getD j d := by
  simp only [Array.getD_eq_getD_getElem?, Array.getElem?_push]
  by_cases hj : j = elements.size
  · simp [hj]
  · simp [hj]

theorem header_of_size_le {id : NodeId} (h : forest.nodes.size ≤ id.index) :
    forest.header id = default := by
  unfold header
  simp [Array.getD, Nat.not_lt.2 h]

theorem nextId_ne_of_index_lt {forest : Forest} {id : NodeId}
    (h : id.index < forest.nodes.size) : id ≠ forest.nextId := by
  rintro rfl
  exact Nat.lt_irrefl _ h

/-- A node of a forest with one more node is the new one or an old one. -/
theorem index_lt_of_ne_nextId {forest : Forest} {id : NodeId}
    (h : id.index < forest.nodes.size + 1) (hne : id ≠ forest.nextId) :
    id.index < forest.nodes.size := by
  obtain ⟨i⟩ := id
  refine Nat.lt_of_le_of_ne (Nat.le_of_lt_succ h) ?_
  intro heq
  exact hne (congrArg NodeId.mk heq)

theorem header_openNode (opened : OpenedNode) (id : NodeId) :
    (forest.openNode opened).2.header id =
      if id = forest.nextId then
        { rules := opened.rules
          contextClass := opened.contextClass
          operator := none
          opener := opened.opener
          closer := none
          parent := some opened.parent
          source := opened.opener
          span := .point opened.start
          range := ⟨0, 0⟩ }
      else forest.header id := by
  obtain ⟨i⟩ := id
  simp only [header, openNode, nextId, NodeId.mk.injEq, getD_push]

theorem header_closeNode (id other : NodeId) (tokens : Array Token)
    (closer : Option DelimiterId) (stop : Nat) :
    (forest.closeNode id tokens closer stop).header other =
      if other = id ∧ id.index < forest.nodes.size then
        { forest.header id with
          closer := closer
          span := ⟨(forest.header id).span.start, stop⟩
          range := ⟨forest.arena.size, tokens.size⟩ }
      else forest.header other := by
  obtain ⟨i⟩ := id
  obtain ⟨j⟩ := other
  simp only [header, closeNode, getD_modify, NodeId.mk.injEq]
  by_cases hij : i = j
  · subst hij
    simp
  · have hji : j ≠ i := fun h => hij h.symm
    simp [hij, hji]

/-- Closing a node changes no parent. -/
@[simp]
theorem parent_closeNode (id other : NodeId) (tokens : Array Token)
    (closer : Option DelimiterId) (stop : Nat) :
    ((forest.closeNode id tokens closer stop).header other).parent =
      (forest.header other).parent := by
  rw [header_closeNode]
  split
  · rename_i hid
    rw [hid.1]
  · rfl

end Headers

section Lists

variable (forest : Forest)

theorem length_tokenList (hp : forest.Packed) (id : NodeId) :
    (forest.tokenList id).length = (forest.header id).range.length := by
  have hin := hp.inside id
  simp only [TokenRange.stop] at hin
  simp only [tokenList, tokens, TokenRange.stop, Array.length_toList, Array.size_extract]
  omega

/-- A slot of a list is a slot of the arena. -/
theorem getElem?_tokenList (id : NodeId) (slot : Nat) :
    (forest.tokenList id)[slot]? = forest.token? id slot := by
  simp only [tokenList, tokens, token?, TokenRange.stop, Array.getElem?_toList,
    Array.getElem?_extract]
  by_cases hs : slot < (forest.header id).range.length
  · by_cases ha : (forest.header id).range.start + slot < forest.arena.size
    · rw [if_pos (by omega), if_pos hs]
    · rw [if_pos hs, Array.getElem?_eq_none (by omega)]
      split
      · rfl
      · rfl
  · rw [if_neg (by omega), if_neg hs]

/-- Lists are equal if they have the same tokens in the arena. -/
theorem tokenList_eq_of_range {f g : Forest} {a b : NodeId}
    (hlen : (f.header a).range.length = (g.header b).range.length)
    (h : ∀ slot, slot < (f.header a).range.length →
      f.arena[(f.header a).range.start + slot]? = g.arena[(g.header b).range.start + slot]?) :
    f.tokenList a = g.tokenList b := by
  apply List.ext_getElem?
  intro slot
  rw [getElem?_tokenList, getElem?_tokenList, token?, token?]
  by_cases hs : slot < (f.header a).range.length
  · rw [if_pos hs, if_pos (by omega), h slot hs]
  · rw [if_neg hs, if_neg (by omega)]

theorem tokenList_of_size_le {id : NodeId} (h : forest.nodes.size ≤ id.index) :
    forest.tokenList id = [] := by
  apply List.ext_getElem?
  intro slot
  rw [getElem?_tokenList, token?, header_of_size_le forest h]
  simp [show (default : NodeHeader).range.length = 0 from rfl]

/-- Only a node of the forest has tokens. -/
theorem index_lt_of_mem_tokenList {id : NodeId} {token : Token}
    (h : token ∈ forest.tokenList id) : id.index < forest.nodes.size := by
  by_contra hn
  rw [tokenList_of_size_le forest (Nat.not_lt.1 hn)] at h
  simp at h

theorem index_lt_of_token? {id : NodeId} {slot : Nat} {token : Token}
    (h : forest.token? id slot = some token) : id.index < forest.nodes.size := by
  rw [← getElem?_tokenList] at h
  exact forest.index_lt_of_mem_tokenList (List.mem_of_getElem? h)

/-- A slot with a token is one of the node's range. -/
theorem slot_lt_of_token? {id : NodeId} {slot : Nat} {token : Token}
    (h : forest.token? id slot = some token) : slot < (forest.header id).range.length := by
  by_contra hn
  rw [token?, if_neg hn] at h
  cases h

/-- An opened node has an empty list, and the others keep theirs. -/
@[simp]
theorem tokenList_openNode (opened : OpenedNode) (id : NodeId) :
    (forest.openNode opened).2.tokenList id = forest.tokenList id := by
  by_cases hid : id = forest.nextId
  · subst hid
    rw [tokenList_of_size_le forest (show forest.nodes.size ≤ forest.nextId.index from le_rfl)]
    apply List.ext_getElem?
    intro slot
    rw [getElem?_tokenList, token?, header_openNode]
    simp
  · apply tokenList_eq_of_range
    · rw [header_openNode, if_neg hid]
    · intro slot _
      rw [header_openNode, if_neg hid]
      rfl

/-- A closed node has the tokens that it was given, and the others keep theirs. -/
theorem tokenList_closeNode (hp : forest.Packed) {id : NodeId}
    (hid : id.index < forest.nodes.size) (other : NodeId) (tokens : Array Token)
    (closer : Option DelimiterId) (stop : Nat) :
    (forest.closeNode id tokens closer stop).tokenList other =
      if other = id then tokens.toList else forest.tokenList other := by
  have harena : (forest.closeNode id tokens closer stop).arena = forest.arena ++ tokens := rfl
  apply List.ext_getElem?
  intro slot
  by_cases ho : other = id
  · subst ho
    have hheader : ((forest.closeNode other tokens closer stop).header other).range =
        ⟨forest.arena.size, tokens.size⟩ := by
      rw [header_closeNode, if_pos ⟨rfl, hid⟩]
    rw [if_pos rfl, getElem?_tokenList, token?, hheader, harena]
    by_cases hs : slot < tokens.size
    · simp [hs]
    · simp [hs]
  · have hheader : (forest.closeNode id tokens closer stop).header other =
        forest.header other := by
      rw [header_closeNode, if_neg (fun h => ho h.1)]
    have hin := hp.inside other
    simp only [TokenRange.stop] at hin
    rw [if_neg ho, getElem?_tokenList, getElem?_tokenList, token?, token?, hheader, harena]
    by_cases hs : slot < (forest.header other).range.length
    · rw [if_pos hs, if_pos hs, Array.getElem?_append_left (by omega)]
    · rw [if_neg hs, if_neg hs]

/-- A closed node brings its tokens into the arena. -/
theorem mem_arena_closeNode {forest : Forest} {id : NodeId} {tokens : Array Token}
    {closer : Option DelimiterId} {stop : Nat} {token : Token} :
    token ∈ (forest.closeNode id tokens closer stop).arena.toList ↔
      token ∈ forest.arena.toList ∨ token ∈ tokens.toList := by
  simp [closeNode]

end Lists

section Ranges

variable {forest : Forest}

theorem Packed.ofSource (source : Source) (rules : RuleSetId) :
    (Forest.ofSource source rules).Packed := by
  have hrange : ∀ id, ((Forest.ofSource source rules).header id).range = ⟨0, 0⟩ := by
    intro id
    obtain ⟨i⟩ := id
    cases i with
    | zero => rfl
    | succ i => rfl
  constructor
  · intro id
    simp [hrange, TokenRange.stop]
  · intro a b _
    simp [hrange, TokenRange.stop]

theorem Packed.openNode (hp : forest.Packed) (opened : OpenedNode) :
    (forest.openNode opened).2.Packed := by
  have hempty : ∀ id, ((forest.openNode opened).2.header id).range =
      if id = forest.nextId then ⟨0, 0⟩ else (forest.header id).range := by
    intro id
    rw [header_openNode]
    split
    · rfl
    · rfl
  constructor
  · intro id
    rw [hempty]
    split
    · simp [TokenRange.stop]
    · exact hp.inside id
  · intro a b hab
    rw [hempty, hempty]
    by_cases ha : a = forest.nextId
    · rw [if_pos ha]
      left
      simp [TokenRange.stop]
    · rw [if_neg ha]
      by_cases hb : b = forest.nextId
      · rw [if_pos hb]
        right
        simp [TokenRange.stop]
      · rw [if_neg hb]
        exact hp.apart a b hab

theorem Packed.closeNode (hp : forest.Packed) (id : NodeId) (tokens : Array Token)
    (closer : Option DelimiterId) (stop : Nat) :
    (forest.closeNode id tokens closer stop).Packed := by
  have hsize : (forest.closeNode id tokens closer stop).arena.size =
      forest.arena.size + tokens.size := Array.size_append
  have hold : ∀ other, (forest.header other).range.stop ≤ forest.arena.size := hp.inside
  constructor
  · intro other
    rw [header_closeNode, hsize]
    split
    · simp [TokenRange.stop]
    · exact Nat.le_add_right_of_le (hold other)
  · intro a b hab
    rw [header_closeNode, header_closeNode]
    by_cases ha : a = id ∧ id.index < forest.nodes.size
    · have hb : ¬(b = id ∧ id.index < forest.nodes.size) := fun h => hab (ha.1.trans h.1.symm)
      rw [if_pos ha, if_neg hb]
      right
      exact hold b
    · rw [if_neg ha]
      by_cases hb : b = id ∧ id.index < forest.nodes.size
      · rw [if_pos hb]
        left
        exact hold a
      · rw [if_neg hb]
        exact hp.apart a b hab

end Ranges

end Forest
end ExprLang
