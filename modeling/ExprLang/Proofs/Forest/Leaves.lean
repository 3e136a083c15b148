import ExprLang.Forest.Tree
import ExprLang.Proofs.Forest.Regrouping

/-!
# A collapse keeps the leaves

The leaves below a node are the tokens of its list, with the leaves of the nested nodes
in their places. A collapse puts a level between the owner and its run, and the same
leaves are read through it.

Main results:
* `leafSpans_succ`: the leaves of a node in terms of its list;
* `Arranged.mem_leaves_iff`: which tokens are leaves;
* `tokenSpans_collapsedToken`: the leaves of the new node;
* `leafSpans_collapse`: the spans of the leaves below the root stay the same.
-/

namespace ExprLang

theorem Tree.leavesOf_eq_flatMap (trees : List Tree) :
    Tree.leavesOf trees = trees.flatMap Tree.leaves := by
  induction trees with
  | nil => rfl
  | cons tree rest ih =>
      rw [Tree.leavesOf, ih]
      rfl

namespace Forest

/-- The spans of the leaves below a node, from left to right, `limit` levels deep. -/
def leafSpans (forest : Forest) (limit : Nat) (id : NodeId) : List Span :=
  (Tree.leavesOf (forest.treesWithin limit id)).map Token.span

/-- The spans of the leaves of a token: its own span, or those below the node it stands for. -/
def tokenSpans (forest : Forest) (limit : Nat) (owner : NodeId) (token : Token) : List Span :=
  match token.kind with
  | .node id => if id = owner then [token.span] else forest.leafSpans limit id
  | _ => [token.span]

section Levels

variable {forest : Forest} {owner : NodeId} {limit : Nat}

theorem tokenSpans_of_node {token : Token} {id : NodeId} (hkind : token.kind = .node id)
    (hne : id ≠ owner) : forest.tokenSpans limit owner token = forest.leafSpans limit id := by
  unfold tokenSpans
  rw [hkind]
  exact if_neg hne

/-- A token that stands for no other node is a leaf. -/
theorem tokenSpans_of_forall_ne {token : Token} (h : ∀ id, token.kind = .node id → id = owner) :
    forest.tokenSpans limit owner token = [token.span] := by
  unfold tokenSpans
  split
  · rename_i id hkind
    exact if_pos (h id hkind)
  · rfl

/-- The leaves below a node are those of its tokens. -/
theorem leafSpans_succ :
    forest.leafSpans (limit + 1) owner =
      (forest.tokenList owner).flatMap (forest.tokenSpans limit owner) := by
  unfold leafSpans treesWithin
  rw [Tree.leavesOf_eq_flatMap, List.flatMap_map, List.map_flatMap]
  refine List.flatMap_congr ?_
  intro token _
  split
  · rename_i id hkind
    by_cases hid : id = owner
    · have hleaf : ∀ child, token.kind = .node child → child = owner := by
        intro child hchild
        exact (TokenKind.node.inj (hkind.symm.trans hchild)).symm.trans hid
      rw [if_pos hid, tokenSpans_of_forall_ne hleaf]
      rfl
    · rw [if_neg hid, tokenSpans_of_node hkind hid]
      rfl
  · rename_i hkind
    rw [tokenSpans_of_forall_ne fun id hid => (hkind id hid).elim]
    rfl

/-- Two tokens have the same leaves when they are leaves or what they stand for has. -/
theorem tokenSpans_congr {f g : Forest} {a b : NodeId} {m n : Nat} {token : Token}
    (hleaf : token.kind = .node a ↔ token.kind = .node b)
    (hnode : ∀ id, token.kind = .node id → id ≠ a → f.leafSpans m id = g.leafSpans n id) :
    f.tokenSpans m a token = g.tokenSpans n b token := by
  by_cases h : ∃ id, token.kind = .node id ∧ id ≠ a
  · obtain ⟨id, hkind, hne⟩ := h
    have hneb : id ≠ b := by
      rintro rfl
      exact hne (TokenKind.node.inj (hkind.symm.trans (hleaf.mpr hkind)))
    rw [tokenSpans_of_node hkind hne, tokenSpans_of_node hkind hneb, hnode id hkind hne]
  · have ha : ∀ id, token.kind = .node id → id = a := by
      intro id hkind
      by_contra hne
      exact h ⟨id, hkind, hne⟩
    have hb : ∀ id, token.kind = .node id → id = b := by
      intro id hkind
      obtain rfl := ha id hkind
      exact TokenKind.node.inj (hkind.symm.trans (hleaf.mp hkind))
    rw [tokenSpans_of_forall_ne ha, tokenSpans_of_forall_ne hb]

end Levels

section Members

variable {forest : Forest} {owner : NodeId} {limit : Nat} {token : Token}

/-- The leaves below a node are tokens of the forest that stand for no nested node. -/
theorem exists_mem_tokenList_of_mem_leaves
    (h : token ∈ Tree.leavesOf (forest.treesWithin limit owner)) :
    ∃ id, token ∈ forest.tokenList id ∧ ∀ child, token.kind = .node child → child = id := by
  induction limit generalizing owner with
  | zero => cases h
  | succ limit ih =>
      rw [treesWithin, Tree.leavesOf_eq_flatMap, List.flatMap_map, List.mem_flatMap] at h
      obtain ⟨outer, houter, hleaf⟩ := h
      split at hleaf
      · rename_i id hkind
        split at hleaf
        · rename_i hself
          rw [List.mem_singleton.mp hleaf]
          refine ⟨owner, houter, fun child hchild => ?_⟩
          exact (TokenKind.node.inj (hkind.symm.trans hchild)).symm.trans hself
        · exact ih hleaf
      · rename_i hkind
        rw [List.mem_singleton.mp hleaf]
        exact ⟨owner, houter, fun child hchild => absurd hchild (hkind child)⟩

/-- A token that stands for no nested node is a leaf of the node in whose list it is. -/
theorem mem_leaves_of_mem_tokenList (h : token ∈ forest.tokenList owner)
    (hleaf : ∀ id, token.kind = .node id → id = owner) :
    token ∈ Tree.leavesOf (forest.treesWithin (limit + 1) owner) := by
  rw [Tree.leavesOf_eq_flatMap, treesWithin, List.flatMap_map]
  refine List.mem_flatMap.mpr ⟨token, h, ?_⟩
  split
  · rename_i id hkind
    rw [if_pos (hleaf id hkind)]
    exact List.mem_singleton_self token
  · exact List.mem_singleton_self token

/-- The leaves below a node are below the root. -/
theorem Leads.mem_leaves {slots : List Nat} (h : Leads forest slots owner)
    (hleaf : token ∈ Tree.leavesOf (forest.treesWithin limit owner)) :
    token ∈ Tree.leavesOf (forest.treesWithin (limit + slots.length) Forest.root) := by
  induction h generalizing limit with
  | root => exact hleaf
  | @child slots parent slot outer id _ houter hkind hne ih =>
      have hparent : token ∈ Tree.leavesOf (forest.treesWithin (limit + 1) parent) := by
        rw [Tree.leavesOf_eq_flatMap, treesWithin, List.flatMap_map]
        refine List.mem_flatMap.mpr ⟨outer, mem_tokenList_of_token? houter, ?_⟩
        simp only [hkind, if_neg hne]
        exact hleaf
      have hroot := ih hparent
      rw [Nat.add_assoc, Nat.add_comm 1] at hroot
      exact hroot

/-- The leaves of the whole forest are the tokens of all lists, apart from those of nested nodes. -/
theorem Arranged.mem_leaves_iff (ha : forest.Arranged) :
    token ∈ Tree.leavesOf forest.trees ↔
      ∃ id, token ∈ forest.tokenList id ∧ ∀ child, token.kind = .node child → child = id := by
  refine ⟨exists_mem_tokenList_of_mem_leaves, ?_⟩
  rintro ⟨id, hmem, hkind⟩
  obtain ⟨slots, hleads⟩ := ha.led id (forest.index_lt_of_mem_tokenList hmem)
  obtain ⟨limit, hlimit⟩ := Nat.exists_eq_add_of_lt (hleads.length_lt ha.wellNested)
  have hleaf : token ∈ Tree.leavesOf (forest.treesWithin (limit + 1) id) :=
    mem_leaves_of_mem_tokenList hmem hkind
  have hroot := hleads.mem_leaves hleaf
  rw [Nat.add_comm (limit + 1), ← Nat.add_assoc, ← hlimit] at hroot
  exact hroot

end Members

section Collapse

variable {forest : Forest} {owner : NodeId} {first count : Nat}
  {application : OperatorApplication} {before left right after : List Token} {mark : Token}

/-- If what is nested in the run keeps its leaves, the new node has those of the run. -/
theorem tokenSpans_collapsedToken (ha : forest.Arranged)
    (hc : forest.Collapsible owner first count application.marker before left mark right after)
    {limit m : Nat}
    (hnested : ∀ token child, token ∈ forest.tokenList owner → token.kind = .node child →
      child ≠ owner → (forest.collapse owner first count application).leafSpans m child =
        forest.leafSpans limit child) :
    (forest.collapse owner first count application).tokenSpans (m + 1) owner
        (forest.collapsedToken owner first count application) =
      (left ++ mark :: right).flatMap (forest.tokenSpans limit owner) := by
  have hs := hc.toSplits
  have hnew := nextId_ne_of_index_lt hs.owner_lt
  have hrun : ∀ token ∈ left ++ right,
      (forest.collapse owner first count application).tokenSpans m forest.nextId token =
        forest.tokenSpans limit owner token := by
    intro token hmem
    have hold := hs.mem_run hmem
    refine tokenSpans_congr ⟨fun hkind => absurd rfl (ha.ne_nextId hold hkind),
      fun hkind => absurd hkind (hc.unmarked token hmem)⟩ ?_
    intro child hkind _
    refine hnested token child hold hkind ?_
    rintro rfl
    exact hc.unmarked token hmem hkind
  have hmark : forest.tokenSpans limit owner mark = [mark.span] :=
    tokenSpans_of_forall_ne fun child hkind =>
      absurd hc.mark_delimiter (not_isDelimiter_of_node hkind)
  have hmarker :
      (forest.collapse owner first count application).tokenSpans m forest.nextId
          { mark with kind := .node forest.nextId } = [mark.span] :=
    tokenSpans_of_forall_ne fun child hkind => (TokenKind.node.inj hkind).symm
  rw [tokenSpans_of_node rfl hnew.symm, leafSpans_succ, tokenList_collapse_nextId ha.packed hs]
  simp only [List.flatMap_append, List.flatMap_cons]
  rw [hmark, hmarker,
    List.flatMap_congr fun t ht => hrun t (List.mem_append_left right ht),
    List.flatMap_congr fun t ht => hrun t (List.mem_append_right left ht)]

/-- Through twice as many levels the same leaves are read after a collapse. -/
theorem leafSpans_collapse_of_le (ha : forest.Arranged)
    (hc : forest.Collapsible owner first count application.marker before left mark right after)
    {limit : Nat} {slots : List Nat} {id : NodeId} (h : Leads forest slots id)
    (hlimit : forest.nodes.size ≤ slots.length + limit) {more : Nat} (hmore : 2 * limit ≤ more) :
    (forest.collapse owner first count application).leafSpans more id =
      forest.leafSpans limit id := by
  have hs := hc.toSplits
  have hp := ha.packed
  induction limit generalizing slots id more with
  | zero =>
      have hlt := h.length_lt ha.wellNested
      omega
  | succ limit ih =>
      obtain ⟨m, rfl⟩ : ∃ m, more = m + 2 := ⟨more - 2, by omega⟩
      -- what is nested in this list has the same leaves as before
      have hnested : ∀ token child, token ∈ forest.tokenList id → token.kind = .node child →
          child ≠ id → ∀ n, 2 * limit ≤ n →
            (forest.collapse owner first count application).leafSpans n child =
              forest.leafSpans limit child := by
        intro token child hmem hkind hne n hn
        obtain ⟨slot, hslot⟩ := exists_token?_of_mem hmem
        refine ih (h.child hslot hkind hne) ?_ hn
        rw [List.length_cons]
        omega
      have hsame : ∀ token ∈ forest.tokenList id,
          (forest.collapse owner first count application).tokenSpans (m + 1) id token =
            forest.tokenSpans limit id token := by
        intro token hmem
        refine tokenSpans_congr Iff.rfl ?_
        intro child hkind hne
        exact hnested token child hmem hkind hne _ (by omega)
      rw [leafSpans_succ, leafSpans_succ]
      by_cases ho : id = owner
      · subst ho
        have hnode := tokenSpans_collapsedToken ha hc fun token child hmem hkind hne =>
          hnested token child hmem hkind hne m (by omega)
        unfold collapsedToken at hnode
        have hfront : ∀ t ∈ before, t ∈ forest.tokenList id := fun t ht =>
          hs.mem_rest (List.mem_append_left after ht)
        have hbehind : ∀ t ∈ after, t ∈ forest.tokenList id := fun t ht =>
          hs.mem_rest (List.mem_append_right before ht)
        rw [tokenList_collapse_owner hp hs, hs.list_eq, List.flatMap_append, List.flatMap_cons,
          List.flatMap_append, List.flatMap_append, hnode,
          List.flatMap_congr fun t ht => hsame t (hfront t ht),
          List.flatMap_congr fun t ht => hsame t (hbehind t ht), List.append_assoc]
      · rw [tokenList_collapse_of_ne hp (hs.hasRun hp) (nextId_ne_of_index_lt (h.index_lt ha.wellNested)) ho]
        exact List.flatMap_congr hsame

/-- The leaves of the whole forest keep their spans and their order. -/
theorem leafSpans_collapse (ha : forest.Arranged)
    (hc : forest.Collapsible owner first count application.marker before left mark right after) :
    (Tree.leavesOf (forest.collapse owner first count application).trees).map Token.span =
      (Tree.leavesOf forest.trees).map Token.span := by
  have hsize := size_collapse forest owner first count application
  have hmore : (forest.collapse owner first count application).nodes.size ≤
      2 * forest.nodes.size := by
    have hpos := ha.size_pos
    omega
  have hstable : (forest.collapse owner first count application).treesWithin
      (2 * forest.nodes.size) root = (forest.collapse owner first count application).trees :=
    Leads.root.treesWithin_eq (ha.collapse hc) (by simp) hmore
  have hleaves := leafSpans_collapse_of_le ha hc .root (by simp) (le_refl (2 * forest.nodes.size))
  unfold leafSpans at hleaves
  rw [hstable] at hleaves
  exact hleaves

end Collapse

end Forest
end ExprLang
