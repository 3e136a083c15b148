import ExprLang.Language
import ExprLang.Proofs.Flattening.FlatList
import ExprLang.Proofs.Lexing.Boundaries
import ExprLang.Proofs.Lexing.Contexts

/-!
# Flat lists of leaves

Where every nested node is entered and none is listed itself, the flat list of a lexed forest has
its leaves, each of them once. But the token of a nested node counts as met although it is not
listed, so that a marker that has the span of its node is left out. There is at most one of them:
the opening delimiter of a context that is cut off at once, since the text ends behind it.

Main definitions:
* `Forest.fillsNode`: a marker that has the span of its node;
* `Forest.IsCutOff`: the opening delimiter of a context that has nothing else.

Main results:
* `Forest.Formed.perm_leaves`: the leaves are listed, apart from those that fill a node;
* `Lexed.exists_leaf_or_blank`: the leaves of a lexed forest, and what is between them;
* `LexInput.fillsNode_iff`: which leaves fill a node;
* `LexInput.flatten_childrenOnly`: the flat list of a lexed forest.
-/

namespace ExprLang

/-- What has a single member at most is what there is of an option. -/
theorem exists_eq_toList {α : Type} {items : List α} (hnodup : items.Nodup)
    (h : ∀ a ∈ items, ∀ b ∈ items, a = b) : ∃ item? : Option α, items = item?.toList := by
  cases items with
  | nil => exact ⟨none, rfl⟩
  | cons a rest =>
      cases rest with
      | nil => exact ⟨some a, rfl⟩
      | cons b rest =>
          exfalso
          have heq := h a (by simp) b (by simp)
          simp [heq] at hnodup

namespace Forest

/-- Is the token a marker that has the span of its node? -/
def fillsNode (forest : Forest) (token : Token) : Bool :=
  token.node?.any fun id => forest.fills (id, token)

/-- A marker that is all there is of a context without a closing delimiter that ends at `stop`. -/
def IsCutOff (forest : Forest) (stop : Nat) (token : Token) : Prop :=
  token.span.stop = stop ∧ ∃ id, token.kind = .node id ∧ (forest.header id).closer = none ∧
    forest.tokenList id = [token]

theorem fillsNode_eq_true {forest : Forest} {token : Token} :
    forest.fillsNode token = true ↔
      ∃ id, token.kind = .node id ∧ forest.fills (id, token) = true := by
  unfold fillsNode Token.node?
  split
  · rename_i id hkind
    simp [hkind]
  · rename_i hkind
    simp only [Option.any_none, Bool.false_eq_true, false_iff]
    rintro ⟨id, hid, -⟩
    exact hkind id hid

namespace Formed

variable {forest : Forest} {owner : NodeId} {token : Token}

theorem walked_childrenOnly (owner : NodeId) : forest.Walked (fun _ => .childrenOnly) owner :=
  walked_of_forall (fun _ => rfl) owner

/-- A leaf fills a node if it fills the node in whose list it is. -/
theorem fillsNode_eq (h : forest.Formed) (htoken : token ∈ forest.tokenList owner)
    (hleaf : ∀ child, token.kind = .node child → child = owner) :
    forest.fillsNode token = forest.fills (owner, token) := by
  rw [Bool.eq_iff_iff, fillsNode_eq_true]
  constructor
  · rintro ⟨id, hkind, hfills⟩
    rw [← hleaf id hkind]
    exact hfills
  · intro hfills
    have hplace := h.mem_placesAt_depth (walked_childrenOnly owner) htoken
    exact ⟨owner, h.kind_of_fills hplace hfills, hfills⟩

/-- The leaves are listed, apart from those that fill a node. -/
theorem mem_flatten_childrenOnly_iff (h : forest.Formed) :
    token ∈ forest.flatten (fun _ => .childrenOnly) ↔
      token ∈ Tree.leavesOf forest.trees ∧ forest.fillsNode token = false := by
  have hlists : ∀ owner, forest.lists (fun _ => .childrenOnly) (owner, token) = true ↔
      ∀ child, token.kind = .node child → child = owner := by
    intro owner
    unfold lists
    split
    · rename_i id hkind
      have hkind : token.kind = .node id := hkind
      simp [hkind, Inclusion.listsToken]
    · rename_i hkind
      exact iff_of_true rfl fun child hchild => absurd hchild (hkind child)
  rw [h.mem_flatten_iff, h.arranged.mem_leaves_iff]
  constructor
  · rintro ⟨owner, -, htoken, hlisted, hfills⟩
    have hleaf := (hlists owner).mp hlisted
    exact ⟨⟨owner, htoken, hleaf⟩, (h.fillsNode_eq htoken hleaf).trans hfills⟩
  · rintro ⟨⟨owner, htoken, hleaf⟩, hfills⟩
    exact ⟨owner, walked_childrenOnly owner, htoken, (hlists owner).mpr hleaf,
      (h.fillsNode_eq htoken hleaf).symm.trans hfills⟩

/-- The leaves are in order. -/
theorem inOrder_leaves (h : forest.Formed) :
    InOrder (forest.header root).span ((Tree.leavesOf forest.trees).map Token.span) :=
  h.laid.inOrder_leafSpans h.arranged forest.nodes.size h.arranged.size_pos

/-- Every leaf is listed once, or fills a node. -/
theorem perm_leaves (h : forest.Formed) :
    (Tree.leavesOf forest.trees).Perm (forest.flatten (fun _ => .childrenOnly) ++
      (Tree.leavesOf forest.trees).filter forest.fillsNode) := by
  have hnodup : (Tree.leavesOf forest.trees).Nodup := h.inOrder_leaves.nodup.of_map
  have hlisted : (forest.flatten (fun _ => .childrenOnly)).Perm
      ((Tree.leavesOf forest.trees).filter fun token => !forest.fillsNode token) := by
    refine (List.perm_ext_iff_of_nodup (h.nodup_spans _).of_map (hnodup.filter _)).mpr ?_
    intro token
    rw [h.mem_flatten_childrenOnly_iff, List.mem_filter, Bool.not_eq_true']
  refine (List.filter_append_perm forest.fillsNode _).symm.trans ?_
  exact List.perm_append_comm.trans (hlisted.symm.append_right _)

end Formed
end Forest

namespace Lexed

variable {input : LexInput} {forest : Forest} {stop : Nat}

/-- Within the span of a node there are its leaves and what is blank for one of the nodes. -/
theorem exists_leafSpan_or_blank (h : Lexed input forest stop) {slots : List Nat} {id : NodeId}
    (hleads : Forest.Leads forest slots id) {limit : Nat}
    (hlimit : forest.nodes.size ≤ slots.length + limit) {offset : Nat}
    (hoffset : (forest.header id).span.contains offset = true) :
    (∃ span ∈ forest.leafSpans limit id, span.contains offset = true) ∨
      ∃ owner, owner.index < forest.nodes.size ∧
        (forest.header owner).span.contains offset = true ∧
          input.IsBlankAt (forest.header owner).rules offset := by
  induction limit generalizing slots id with
  | zero =>
      have hlt := hleads.length_lt h.arranged.wellNested
      omega
  | succ limit ih =>
      have hindex := hleads.index_lt h.arranged.wellNested
      by_cases htokens : ∃ token ∈ forest.tokenList id, token.span.contains offset = true
      · obtain ⟨token, htoken, hcontains⟩ := htokens
        by_cases hnested : ∃ child, token.kind = .node child ∧ child ≠ id
        · obtain ⟨child, hkind, hne⟩ := hnested
          obtain ⟨slot, hslot⟩ := Forest.exists_token?_of_mem htoken
          obtain ⟨-, -, hspan⟩ := h.arranged.nested id token child htoken hkind hne
          rw [hspan] at hcontains
          rcases ih (hleads.child hslot hkind hne) (by rw [List.length_cons]; omega) hcontains with
            ⟨span, hmem, hleaf⟩ | hblank
          · refine .inl ⟨span, ?_, hleaf⟩
            rw [Forest.leafSpans_succ]
            refine List.mem_flatMap.mpr ⟨token, htoken, ?_⟩
            rw [Forest.tokenSpans_of_node hkind hne]
            exact hmem
          · exact .inr hblank
        · have hleaf : ∀ child, token.kind = .node child → child = id := fun child hkind =>
            by_contra fun hne => hnested ⟨child, hkind, hne⟩
          refine .inl ⟨token.span, ?_, hcontains⟩
          rw [Forest.leafSpans_succ]
          refine List.mem_flatMap.mpr ⟨token, htoken, ?_⟩
          rw [Forest.tokenSpans_of_forall_ne hleaf]
          exact List.mem_singleton_self _
      · have hspan := hoffset
        simp only [Span.contains, Bool.and_eq_true, decide_eq_true_eq] at hspan
        refine .inr ⟨id, hindex, hoffset, (h.covers hindex).gaps offset hspan.1 hspan.2 ?_⟩
        intro token htoken
        exact Bool.eq_false_iff.mpr fun hcontains => htokens ⟨token, htoken, hcontains⟩

/-- What was read is in the leaves, but for what is blank. -/
theorem exists_leaf_or_blank (h : Lexed input forest stop) {offset : Nat}
    (hoffset : offset < stop) :
    (∃ token ∈ Tree.leavesOf forest.trees, token.span.contains offset = true) ∨
      ∃ owner, owner.index < forest.nodes.size ∧
        (forest.header owner).span.contains offset = true ∧
          input.IsBlankAt (forest.header owner).rules offset := by
  have hroot : (forest.header Forest.root).span.contains offset = true := by
    rw [h.span_root]
    simp [Span.contains, hoffset]
  have hleaves := h.exists_leafSpan_or_blank .root (le_of_eq (Nat.zero_add _).symm) hroot
  refine hleaves.imp_left ?_
  rintro ⟨span, hmem, hcontains⟩
  obtain ⟨token, htoken, rfl⟩ := List.mem_map.mp hmem
  exact ⟨token, htoken, hcontains⟩

end Lexed

namespace LexInput

variable (input : LexInput) (calls : List LexCall)

/-- The leaves that fill a node are cut off where the reading ends. -/
theorem fillsNode_iff {token : Token}
    (htoken : token ∈ Tree.leavesOf (input.finish calls).forest.trees) :
    (input.finish calls).forest.fillsNode token = true ↔
      (input.finish calls).forest.IsCutOff (input.final calls).cursor token := by
  have hlexed : Lexed input (input.finish calls).forest (input.final calls).cursor :=
    input.lexed_final calls
  have ha := hlexed.arranged
  rw [Forest.fillsNode_eq_true]
  constructor
  · rintro ⟨id, hkind, hfills⟩
    obtain ⟨owner, hmem, hleaf⟩ := ha.mem_leaves_iff.mp htoken
    obtain rfl := hleaf id hkind
    have hid := Forest.index_lt_of_mem_tokenList _ hmem
    simp only [Forest.fills, Bool.and_eq_true, decide_eq_true_eq] at hfills
    obtain ⟨hroot, hspan⟩ := hfills
    have hlist := (hlexed.laid.rows id hid).eq_singleton hmem hspan
    have hcloser := (hlist ▸ hlexed.isDelimited hid hroot).singleton.1
    refine ⟨?_, id, hkind, hcloser, hlist⟩
    rw [hspan]
    exact input.stop_eq_of_closer_eq_none calls hid hcloser
  · rintro ⟨hstop, id, hkind, hcloser, hlist⟩
    have hmem : token ∈ (input.finish calls).forest.tokenList id := by
      rw [hlist]
      exact List.mem_singleton_self token
    have hid := Forest.index_lt_of_mem_tokenList _ hmem
    have hroot : id ≠ Forest.root := by
      rintro rfl
      exact ha.unmarked _ token hmem hkind
    have hstart := (hlist ▸ hlexed.isDelimited hid hroot).singleton.2
    have hended := input.stop_eq_of_closer_eq_none calls hid hcloser
    refine ⟨id, hkind, ?_⟩
    simp only [Forest.fills, Bool.and_eq_true, decide_eq_true_eq]
    exact ⟨hroot, congrArg₂ Span.mk hstart.symm (hstop.trans hended.symm)⟩

/--
Where every nested node is entered and none is listed, the flat list has each leaf once, except for
one that is cut off: the opening delimiter of a context that ends behind it, since the text
ends there. Everything that was read is in one of the leaves, or is blank.
-/
theorem flatten_childrenOnly :
    ∃ cut? : Option Token,
      (Tree.leavesOf (input.finish calls).forest.trees).Perm
          ((input.finish calls).forest.flatten (fun _ => .childrenOnly) ++ cut?.toList) ∧
        (Tree.leavesOf (input.finish calls).forest.trees).Nodup ∧
        (∀ token, cut? = some token ↔
          token ∈ Tree.leavesOf (input.finish calls).forest.trees ∧
            (input.finish calls).forest.IsCutOff (input.final calls).cursor token) ∧
        ∀ offset < (input.final calls).cursor,
          (∃ token ∈ (input.finish calls).forest.flatten (fun _ => .childrenOnly) ++ cut?.toList,
            token.span.contains offset = true) ∨
          ∃ owner, owner.index < (input.finish calls).forest.nodes.size ∧
            ((input.finish calls).forest.header owner).span.contains offset = true ∧
              input.IsBlankAt ((input.finish calls).forest.header owner).rules offset := by
  have hlexed : Lexed input (input.finish calls).forest (input.final calls).cursor :=
    input.lexed_final calls
  have hformed := hlexed.formed
  have horder := hformed.inOrder_leaves
  have hnodup : (Tree.leavesOf (input.finish calls).forest.trees).Nodup := horder.nodup.of_map
  -- two leaves that end where the reading ends are one
  obtain ⟨cut?, hcut⟩ := exists_eq_toList (hnodup.filter (input.finish calls).forest.fillsNode) (by
    intro s hs t ht
    obtain ⟨hs, hsfills⟩ := List.mem_filter.mp hs
    obtain ⟨ht, htfills⟩ := List.mem_filter.mp ht
    obtain ⟨hsstop, -⟩ := (input.fillsNode_iff calls hs).mp hsfills
    obtain ⟨htstop, -⟩ := (input.fillsNode_iff calls ht).mp htfills
    have hspos := horder.nonempty _ (List.mem_map_of_mem hs)
    have htpos := horder.nonempty _ (List.mem_map_of_mem ht)
    exact horder.eq_of_overlap hs ht (by omega) (by omega))
  have hperm := hformed.perm_leaves
  rw [hcut] at hperm
  refine ⟨cut?, hperm, hnodup, fun token => ?_, fun offset hoffset => ?_⟩
  · rw [← Option.mem_toList, ← hcut, List.mem_filter]
    exact and_congr_right (input.fillsNode_iff calls)
  · refine (hlexed.exists_leaf_or_blank hoffset).imp_left ?_
    rintro ⟨token, htoken, hcontains⟩
    exact ⟨token, hperm.mem_iff.mp htoken, hcontains⟩

/-- A text with nothing but an opening parenthesis has a leaf, and its flat list has none. -/
theorem flatten_lone_opener :
    let forest := ((Language.input "(").finish []).forest
    Tree.leavesOf forest.trees = [⟨⟨0, 1⟩, .node ⟨1⟩⟩] ∧
      forest.flatten (fun _ => .childrenOnly) = [] := by
  decide +kernel

end LexInput

end ExprLang
