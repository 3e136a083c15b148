import ExprLang.Forest.Tree
import ExprLang.Proofs.Forest.Collapse

/-!
# How nodes are nested

In a well nested forest no node stands in two places, so that the slots that lead to it are
unique. In an arranged forest every node but the root stands in exactly one list, that of its
parent, and can be reached from the root; the number of slots that lead to it is its depth.

Main definitions:
* `WellNested`: a forest in which no node stands in two places;
* `Arranged`: a forest in which every node has its place;
* `IsTree`: a forest whose parents, ranges and nested tokens make up a tree.

Main results:
* `Leads.unique`: only one path leads to a node;
* `Leads.length_lt`: no path is longer than there are nodes;
* `Leads.depth_eq`: the depth that is counted along the parents is that of the nesting;
* `Leads.treesWithin_eq`: the view as trees needs no more levels than there are nodes;
* `Arranged.isTree`: an arranged forest is a tree.
-/

namespace ExprLang
namespace Forest

variable {forest : Forest}

/-- Slots that lead from the root down to a node, the last one first. -/
inductive Leads (forest : Forest) : List Nat → NodeId → Prop
  | root : Leads forest [] root
  | child {slots : List Nat} {owner : NodeId} {slot : Nat} {token : Token} {id : NodeId}
      (path : Leads forest slots owner) (htoken : forest.token? owner slot = some token)
      (hkind : token.kind = .node id) (hne : id ≠ owner) : Leads forest (slot :: slots) id

/-- The node that is reached by following links to parents. -/
def ancestor? (forest : Forest) : (links : Nat) → NodeId → Option NodeId
  | 0, id => some id
  | links + 1, id => (forest.header id).parent.bind (ancestor? forest links)

/-- No two tokens of a list refer to the same node, unless it owns the list. -/
def Once (owner : NodeId) (tokens : List Token) : Prop :=
  tokens.Pairwise fun s t => ∀ id, s.kind = .node id → t.kind = .node id → id = owner

/-- A forest in which no node stands in two places, and the root in none but its own list. -/
structure WellNested (forest : Forest) : Prop where
  size_pos : 0 < forest.nodes.size
  /-- The nodes that are nested exist. -/
  inside : ∀ owner token id, token ∈ forest.tokenList owner → token.kind = .node id →
    id ≠ owner → id.index < forest.nodes.size
  /-- The root is nested nowhere. -/
  rootless : ∀ owner token, token ∈ forest.tokenList owner → token.kind = .node root →
    owner = root
  /-- A nested node stands in one slot of one list; the markers in its own list do not count. -/
  once : ∀ {owner owner' slot slot' token token' id}, forest.token? owner slot = some token →
    forest.token? owner' slot' = some token' → token.kind = .node id → token'.kind = .node id →
      id ≠ owner → id ≠ owner' → owner = owner' ∧ slot = slot'

/-- A forest in which every node has its place. -/
structure Arranged (forest : Forest) : Prop where
  packed : forest.Packed
  size_pos : 0 < forest.nodes.size
  parent_root : (forest.header root).parent = none
  nested : ∀ owner token id, token ∈ forest.tokenList owner → token.kind = .node id →
    id ≠ owner → id.index < forest.nodes.size ∧ (forest.header id).parent = some owner ∧
      token.span = (forest.header id).span
  unmarked : ∀ owner token, token ∈ forest.tokenList owner → token.kind ≠ .node root
  once : ∀ owner, Once owner (forest.tokenList owner)
  led : ∀ id, id.index < forest.nodes.size → ∃ slots, Leads forest slots id

/-- A forest whose parents, ranges and nested tokens make up a tree. -/
structure IsTree (forest : Forest) : Prop where
  /-- Different nodes own disjoint ranges of the arena. -/
  apart : ∀ a b, a.index < forest.nodes.size → b.index < forest.nodes.size → a ≠ b →
    (forest.header a).range.stop ≤ (forest.header b).range.start ∨
      (forest.header b).range.stop ≤ (forest.header a).range.start
  /-- A node other than the root is nested once, in the list of its parent, with its own span. -/
  placed : ∀ id, id.index < forest.nodes.size → id ≠ root →
    ∃ owner slot, (forest.header id).parent = some owner ∧ owner ≠ id ∧
      forest.token? owner slot = some ⟨(forest.header id).span, .node id⟩ ∧
      ∀ owner' slot' token, owner' ≠ id → forest.token? owner' slot' = some token →
        token.kind = .node id → owner' = owner ∧ slot' = slot
  /-- As many links as the depth says lead to the root, which has no parent. -/
  rooted : ∀ id, id.index < forest.nodes.size →
    forest.ancestor? (forest.depth id) id = some root ∧ (forest.header root).parent = none
  /-- The depth is that of the nesting: as many slots lead from the root to the node. -/
  nesting : ∀ id, id.index < forest.nodes.size →
    ∃ slots, Leads forest slots id ∧ slots.length = forest.depth id
  /-- A token of a node is a marker in the node's own list, or the token nested in its parent. -/
  marked : ∀ owner token id, token ∈ forest.tokenList owner → token.kind = .node id →
    id ≠ root ∧ (owner = id ∨ (forest.header id).parent = some owner)
  /-- The view of the forest as trees is cut off nowhere: deeper views are the same. -/
  complete : ∀ limit, forest.nodes.size ≤ limit → forest.treesWithin limit root = forest.trees

section Paths

theorem mem_tokenList_of_token? {owner : NodeId} {slot : Nat} {token : Token}
    (h : forest.token? owner slot = some token) : token ∈ forest.tokenList owner := by
  rw [← getElem?_tokenList] at h
  exact List.mem_of_getElem? h

theorem exists_token?_of_mem {owner : NodeId} {token : Token}
    (h : token ∈ forest.tokenList owner) : ∃ slot, forest.token? owner slot = some token := by
  obtain ⟨slot, hslot⟩ := List.mem_iff_getElem?.mp h
  exact ⟨slot, by rw [← getElem?_tokenList, hslot]⟩

/-- A node that is nested in a list stands in one slot of it. -/
theorem Once.slot_eq {owner id : NodeId} {tokens : List Token} (honce : Once owner tokens)
    (hid : id ≠ owner) {i j : Nat} {s t : Token} (hi : tokens[i]? = some s)
    (hj : tokens[j]? = some t) (hs : s.kind = .node id) (ht : t.kind = .node id) : i = j := by
  obtain ⟨hi', rfl⟩ := List.getElem?_eq_some_iff.mp hi
  obtain ⟨hj', rfl⟩ := List.getElem?_eq_some_iff.mp hj
  rcases Nat.lt_trichotomy i j with hlt | heq | hgt
  · exact absurd (List.pairwise_iff_getElem.mp honce i j hi' hj' hlt id hs ht) hid
  · exact heq
  · exact absurd (List.pairwise_iff_getElem.mp honce j i hj' hi' hgt id ht hs) hid

/-- If every node but the root is nested in one with a smaller number, all are reached. -/
theorem exists_leads (h : ∀ id, id.index < forest.nodes.size → id ≠ root →
      ∃ owner, owner.index < id.index ∧ ∃ token ∈ forest.tokenList owner, token.kind = .node id)
    {id : NodeId} (hid : id.index < forest.nodes.size) : ∃ slots, Leads forest slots id := by
  obtain ⟨i⟩ := id
  induction i using Nat.strong_induction_on with
  | _ i ih =>
      by_cases hroot : (⟨i⟩ : NodeId) = root
      · rw [hroot]
        exact ⟨[], Leads.root⟩
      · obtain ⟨owner, hlt, token, hmem, hkind⟩ := h ⟨i⟩ hid hroot
        have hne : (⟨i⟩ : NodeId) ≠ owner := by
          rintro rfl
          exact Nat.lt_irrefl _ hlt
        obtain ⟨slots, hleads⟩ := ih owner.index hlt (Nat.lt_trans hlt hid)
        obtain ⟨slot, hslot⟩ := exists_token?_of_mem hmem
        exact ⟨slot :: slots, hleads.child hslot hkind hne⟩

/-- Where every node has its place, none stands in two. -/
theorem Arranged.wellNested (ha : forest.Arranged) : forest.WellNested where
  size_pos := ha.size_pos
  inside := fun owner token id hmem hkind hne => (ha.nested owner token id hmem hkind hne).1
  rootless := fun owner token hmem hkind => absurd hkind (ha.unmarked owner token hmem)
  once := by
    intro owner owner' slot slot' token token' id htoken htoken' hkind hkind' hne hne'
    obtain ⟨-, hparent, -⟩ := ha.nested _ _ _ (mem_tokenList_of_token? htoken) hkind hne
    obtain ⟨-, hparent', -⟩ := ha.nested _ _ _ (mem_tokenList_of_token? htoken') hkind' hne'
    obtain rfl : owner = owner' := Option.some.inj (hparent.symm.trans hparent')
    rw [← getElem?_tokenList] at htoken htoken'
    exact ⟨rfl, (ha.once owner).slot_eq hne htoken htoken' hkind hkind'⟩

variable {slots : List Nat} {id : NodeId}

theorem Leads.index_lt (hw : forest.WellNested) (h : Leads forest slots id) :
    id.index < forest.nodes.size := by
  cases h with
  | root => exact hw.size_pos
  | child path htoken hkind hne =>
      exact hw.inside _ _ _ (mem_tokenList_of_token? htoken) hkind hne

/-- Only one path leads to a node. -/
theorem Leads.unique (hw : forest.WellNested) {slots' : List Nat} (h : Leads forest slots id)
    (h' : Leads forest slots' id) : slots = slots' := by
  induction h generalizing slots' with
  | root =>
      cases h' with
      | root => rfl
      | child path htoken hkind hne =>
          exact absurd (hw.rootless _ _ (mem_tokenList_of_token? htoken) hkind).symm hne
  | @child slots owner slot token id path htoken hkind hne ih =>
      cases h' with
      | root => exact absurd (hw.rootless _ _ (mem_tokenList_of_token? htoken) hkind).symm hne
      | @child slots' owner' slot' token' _ path' htoken' hkind' hne' =>
          obtain ⟨rfl, rfl⟩ := hw.once htoken htoken' hkind hkind' hne hne'
          rw [ih path']

/-- The nodes on the path to a node: one for each depth up to its own. -/
theorem Leads.exists_chain (hw : forest.WellNested) (h : Leads forest slots id) :
    ∃ chain : List NodeId, chain.length = slots.length + 1 ∧ chain.Nodup ∧
      ∀ a ∈ chain, ∃ above, Leads forest above a ∧ above.length ≤ slots.length := by
  induction h with
  | root => exact ⟨[Forest.root], rfl, by simp, by simpa using Leads.root⟩
  | @child slots owner slot token id path htoken hkind hne ih =>
      obtain ⟨chain, hlength, hnodup, hall⟩ := ih
      have hnew : Leads forest (slot :: slots) id := path.child htoken hkind hne
      refine ⟨id :: chain, by simp [hlength], ?_, ?_⟩
      · -- the nodes above are reached by shorter paths
        refine List.nodup_cons.mpr ⟨?_, hnodup⟩
        intro hmem
        obtain ⟨above, habove, hle⟩ := hall id hmem
        have hlen := congrArg List.length (hnew.unique hw habove)
        rw [List.length_cons] at hlen
        omega
      · intro a hmem
        rcases List.mem_cons.mp hmem with rfl | hmem
        · exact ⟨_, hnew, le_rfl⟩
        · obtain ⟨above, habove, hle⟩ := hall a hmem
          exact ⟨above, habove, by simp; omega⟩

/-- A path is shorter than there are nodes. -/
theorem Leads.length_lt (hw : forest.WellNested) (h : Leads forest slots id) :
    slots.length < forest.nodes.size := by
  obtain ⟨chain, hlength, hnodup, hall⟩ := h.exists_chain hw
  have hindices : (chain.map NodeId.index).Nodup := by
    refine hnodup.map_on ?_
    rintro ⟨i⟩ _ ⟨j⟩ _ (rfl : i = j)
    rfl
  have hsub : chain.map NodeId.index ⊆ List.range forest.nodes.size := by
    intro i hi
    obtain ⟨a, hmem, rfl⟩ := List.mem_map.mp hi
    obtain ⟨above, habove, -⟩ := hall a hmem
    exact List.mem_range.mpr (habove.index_lt hw)
  have hle := (List.subperm_of_subset hindices hsub).length_le
  simp only [List.length_map, List.length_range] at hle
  omega

theorem Leads.depthWithin_eq (ha : forest.Arranged) (h : Leads forest slots id) {limit : Nat}
    (hlimit : slots.length < limit) : forest.depthWithin limit id = slots.length := by
  induction h generalizing limit with
  | root =>
      obtain ⟨n, rfl⟩ : ∃ n, limit = n + 1 := ⟨limit - 1, by simp at hlimit; omega⟩
      rw [depthWithin, ha.parent_root]
      rfl
  | @child slots owner slot token id path htoken hkind hne ih =>
      obtain ⟨n, rfl⟩ : ∃ n, limit = n + 1 := ⟨limit - 1, by simp at hlimit; omega⟩
      obtain ⟨-, hparent, -⟩ := ha.nested _ _ _ (mem_tokenList_of_token? htoken) hkind hne
      rw [depthWithin, hparent, List.length_cons]
      simp only
      rw [ih (by simpa using hlimit)]

/-- The depth of a node is the length of the path to it. -/
theorem Leads.depth_eq (ha : forest.Arranged) (h : Leads forest slots id) :
    forest.depth id = slots.length :=
  h.depthWithin_eq ha (h.length_lt ha.wellNested)

/-- Levels below the deepest node add nothing to the view as trees. -/
theorem Leads.treesWithin_eq (ha : forest.Arranged) (h : Leads forest slots id) {limit : Nat}
    (hlimit : forest.nodes.size ≤ slots.length + limit) {more : Nat} (hmore : limit ≤ more) :
    forest.treesWithin more id = forest.treesWithin limit id := by
  induction limit generalizing slots id more with
  | zero =>
      have hlt := h.length_lt ha.wellNested
      omega
  | succ limit ih =>
      obtain ⟨m, rfl⟩ : ∃ m, more = m + 1 := ⟨more - 1, by omega⟩
      rw [treesWithin, treesWithin]
      refine List.map_congr_left ?_
      intro token hmem
      split
      · rename_i child hkind
        by_cases hne : child = id
        · rw [if_pos hne, if_pos hne]
        · obtain ⟨slot, hslot⟩ := exists_token?_of_mem hmem
          have hchild := ih (h.child hslot hkind hne) (by rw [List.length_cons]; omega)
            (show limit ≤ m by omega)
          rw [if_neg hne, if_neg hne, hchild]
      · rfl

/-- As many links as the path is long lead back to the root. -/
theorem Leads.ancestor_eq (ha : forest.Arranged) (h : Leads forest slots id) :
    forest.ancestor? slots.length id = some Forest.root := by
  induction h with
  | root => rfl
  | child path htoken hkind hne ih =>
      obtain ⟨-, hparent, -⟩ := ha.nested _ _ _ (mem_tokenList_of_token? htoken) hkind hne
      rw [List.length_cons, ancestor?, hparent]
      exact ih

end Paths

/-- An arranged forest is a tree. -/
theorem Arranged.isTree (ha : forest.Arranged) : forest.IsTree where
  apart := fun a b _ _ hab => ha.packed.apart a b hab
  placed := by
    intro id hid hroot
    obtain ⟨slots, hleads⟩ := ha.led id hid
    cases hleads with
    | root => exact absurd rfl hroot
    | @child slots owner slot token _ path htoken hkind hne =>
        obtain ⟨-, hparent, hspan⟩ := ha.nested _ _ _ (mem_tokenList_of_token? htoken) hkind hne
        refine ⟨owner, slot, hparent, fun h => hne h.symm, ?_, ?_⟩
        · rw [htoken, ← hspan, ← hkind]
        · intro owner' slot' token' hne' htoken' hkind'
          obtain ⟨-, hparent', -⟩ := ha.nested _ _ _ (mem_tokenList_of_token? htoken') hkind'
            (fun h => hne' h.symm)
          obtain rfl : owner = owner' := Option.some.inj (hparent.symm.trans hparent')
          rw [← getElem?_tokenList] at htoken htoken'
          exact ⟨rfl, (ha.once owner).slot_eq hne htoken' htoken hkind' hkind⟩
  rooted := by
    intro id hid
    obtain ⟨slots, hleads⟩ := ha.led id hid
    rw [hleads.depth_eq ha]
    exact ⟨hleads.ancestor_eq ha, ha.parent_root⟩
  nesting := by
    intro id hid
    obtain ⟨slots, hleads⟩ := ha.led id hid
    exact ⟨slots, hleads, (hleads.depth_eq ha).symm⟩
  marked := by
    intro owner token id hmem hkind
    refine ⟨?_, ?_⟩
    · rintro rfl
      exact ha.unmarked owner token hmem hkind
    · by_cases heq : owner = id
      · exact Or.inl heq
      · exact Or.inr (ha.nested owner token id hmem hkind fun h => heq h.symm).2.1
  complete := fun _ hlimit => Leads.root.treesWithin_eq ha (by simp) hlimit

end Forest
end ExprLang
