import ExprLang.Proofs.Forest.Nesting
import ExprLang.Proofs.Lexing.Frames

/-!
# The lexed forest is a tree

While a text is read, a context that has been closed stands once in the list of its
parent, and one that is still open stands nowhere yet. A parent is opened before its
children, so that every node is reached from the root when all lists are closed.

Main results:
* `Placed.extend`: what going on from one draft to the next keeps;
* `Placed.of_draft`: the invariant of a run;
* `Lexed.arranged`: every lexed forest is arranged.
-/

namespace ExprLang

/-- Where the nodes of a draft stand. -/
structure Placed (forest : Forest) (frames : List Frame) : Prop where
  parent_root : (forest.header Forest.root).parent = none
  /-- A nested token stands for a closed node, in the list of its parent. -/
  nested : ∀ owner token id, token ∈ listIn forest frames owner → token.kind = .node id →
    id ≠ owner → id.index < forest.nodes.size ∧ (forest.header id).parent = some owner ∧
      token.span = (forest.header id).span ∧ ∀ frame ∈ frames, frame.node ≠ id
  unmarked : ∀ owner token, token ∈ listIn forest frames owner → token.kind ≠ .node Forest.root
  once : ∀ owner, Forest.Once owner (listIn forest frames owner)
  /-- A closed node stands in the list of its parent, which was opened earlier. -/
  placed : ∀ id, id.index < forest.nodes.size → id ≠ Forest.root →
    (∀ frame ∈ frames, frame.node ≠ id) →
      ∃ owner, owner.index < id.index ∧ ∃ token ∈ listIn forest frames owner,
        token.kind = .node id
  /-- Open contexts are nested in each other. -/
  chain : frames.IsChain fun inner outer =>
    (forest.header inner.node).parent = some outer.node ∧ outer.node.index < inner.node.index

/--
What a way to go on from one draft to another does to the nodes: no closed node changes,
and a list gets at most one token, which may be a marker of its owner or stand for the
context that is closed with it.
-/
structure Extends (forest forest' : Forest) (frames frames' : List Frame) : Prop where
  parent_root : (forest'.header Forest.root).parent = (forest.header Forest.root).parent
  lists : ∀ owner, ∃ added : List Token, added.length ≤ 1 ∧
    listIn forest' frames' owner = listIn forest frames owner ++ added ∧
      ∀ t ∈ added, ∀ id, t.kind = .node id → id ≠ Forest.root ∧
        (id ≠ owner → (∃ frame ∈ frames, frame.node = id) ∧
          id.index < forest'.nodes.size ∧ (forest'.header id).parent = some owner ∧
            t.span = (forest'.header id).span ∧ ∀ frame ∈ frames', frame.node ≠ id)
  /-- A closed node stays as it is. -/
  kept : ∀ id, id.index < forest.nodes.size → (∀ frame ∈ frames, frame.node ≠ id) →
    id.index < forest'.nodes.size ∧ (forest'.header id).parent = (forest.header id).parent ∧
      (forest'.header id).span = (forest.header id).span ∧ ∀ frame ∈ frames', frame.node ≠ id
  /-- A node was closed before, or it has its place now. -/
  closed : ∀ id, id.index < forest'.nodes.size → (∀ frame ∈ frames', frame.node ≠ id) →
    (id.index < forest.nodes.size ∧ ∀ frame ∈ frames, frame.node ≠ id) ∨
      ∃ owner, owner.index < id.index ∧ ∃ token ∈ listIn forest' frames' owner,
        token.kind = .node id

namespace Placed

variable {input : LexInput} {forest : Forest} {frame next : Frame} {outer : List Frame}
  {reach : Nat}

theorem start (source : Source) (rules : RuleSetId) :
    Placed (.ofSource source rules) [⟨Forest.root, rules, 0, #[]⟩] := by
  have hempty := listIn_ofSource source rules
  refine ⟨rfl, ?_, ?_, ?_, ?_, List.isChain_singleton _⟩
  · intro owner token id hmem
    rw [hempty] at hmem
    cases hmem
  · intro owner token hmem
    rw [hempty] at hmem
    cases hmem
  · intro owner
    rw [hempty]
    exact List.Pairwise.nil
  · intro id hid hroot
    obtain ⟨i⟩ := id
    have hi : i < 1 := hid
    obtain rfl : i = 0 := by omega
    exact absurd rfl hroot

/-- Every node keeps its place, and the context that is closed gets one. -/
theorem extend {forest' : Forest} {frames frames' : List Frame} (h : Placed forest frames)
    (he : Extends forest forest' frames frames')
    (hchain : frames'.IsChain fun inner outer =>
      (forest'.header inner.node).parent = some outer.node ∧
        outer.node.index < inner.node.index) : Placed forest' frames' := by
  refine ⟨he.parent_root.trans h.parent_root, ?_, ?_, ?_, ?_, hchain⟩
  · intro owner t id hmem hnode hne
    obtain ⟨added, -, hlist, hadded⟩ := he.lists owner
    rw [hlist] at hmem
    rcases List.mem_append.mp hmem with hold | hnew
    · obtain ⟨hid, hparent, hspan, hopen⟩ := h.nested owner t id hold hnode hne
      obtain ⟨hid', hparent', hspan', hopen'⟩ := he.kept id hid hopen
      exact ⟨hid', hparent'.trans hparent, hspan.trans hspan'.symm, hopen'⟩
    · exact ((hadded t hnew id hnode).2 hne).2
  · intro owner t hmem hnode
    obtain ⟨added, -, hlist, hadded⟩ := he.lists owner
    rw [hlist] at hmem
    rcases List.mem_append.mp hmem with hold | hnew
    · exact h.unmarked owner t hold hnode
    · exact (hadded t hnew _ hnode).1 rfl
  · intro owner
    obtain ⟨added, hlength, hlist, hadded⟩ := he.lists owner
    rw [hlist]
    refine List.pairwise_append.mpr ⟨h.once owner, ?_, ?_⟩
    · match added, hlength with
      | [], _ => exact List.Pairwise.nil
      | [t], _ => exact List.pairwise_singleton _ _
    · -- a context that is closed now was open before, so that it stood nowhere
      intro s hs t ht id hsid htid
      by_contra hne
      obtain ⟨⟨frame, hframe, hself⟩, -⟩ := (hadded t ht id htid).2 hne
      exact (h.nested owner s id hs hsid hne).2.2.2 frame hframe hself
  · intro id hid hroot hopen
    rcases he.closed id hid hopen with ⟨hold, hopenOld⟩ | hplaced
    · obtain ⟨owner, hlt, t, hmem, hnode⟩ := h.placed id hold hroot hopenOld
      obtain ⟨added, -, hlist, -⟩ := he.lists owner
      refine ⟨owner, hlt, t, ?_, hnode⟩
      rw [hlist]
      exact List.mem_append_left _ hmem
    · exact hplaced

/-- A chain of open contexts does not depend on the tokens of the innermost one. -/
theorem chain_push (token : Token)
    (h : (frame :: outer).IsChain fun inner outer =>
      (forest.header inner.node).parent = some outer.node ∧
        outer.node.index < inner.node.index) :
    (frame.push token :: outer).IsChain fun inner outer =>
      (forest.header inner.node).parent = some outer.node ∧
        outer.node.index < inner.node.index := by
  cases outer with
  | nil => exact List.isChain_singleton _
  | cons next outer =>
      rw [List.isChain_cons_cons] at h ⊢
      exact h

/-- Adding a token that refers to no other node keeps every node in its place. -/
theorem push (h : Placed forest (frame :: outer)) {token : Token}
    (hkind : ∀ id, token.kind ≠ .node id) : Placed forest (frame.push token :: outer) := by
  refine h.extend ⟨rfl, ?_, ?_, ?_⟩ (chain_push token h.chain)
  · intro owner
    rw [listIn_push]
    split
    · refine ⟨[token], le_rfl, rfl, ?_⟩
      intro t ht id hnode
      rw [List.mem_singleton.mp ht] at hnode
      exact absurd hnode (hkind id)
    · exact ⟨[], Nat.zero_le _, by simp, by simp⟩
  · intro id hid hopen
    exact ⟨hid, rfl, rfl, forall_node_ne_push.mpr hopen⟩
  · intro id hid hopen
    exact Or.inl ⟨hid, forall_node_ne_push.mp hopen⟩

/-- An opened context stands nowhere yet, and only its own marker is in its list. -/
theorem opened (hframed : Framed forest (frame :: outer)) (h : Placed forest (frame :: outer))
    {node : OpenedNode} (hparent : node.parent = frame.node) (span : Span) :
    Placed (forest.openNode node).2
      (⟨forest.nextId, node.rules, node.start, #[⟨span, .node forest.nextId⟩]⟩ ::
        frame :: outer) := by
  have hframe := (hframed.header frame (by simp)).1
  have hroot : Forest.root ≠ forest.nextId :=
    Forest.nextId_ne_of_index_lt (Nat.lt_of_le_of_lt (Nat.zero_le _) hframe)
  have hheader : ∀ id, id ≠ forest.nextId →
      (forest.openNode node).2.header id = forest.header id := by
    intro id hid
    rw [Forest.header_openNode, if_neg hid]
  refine h.extend ⟨by rw [hheader _ hroot], ?_, ?_, ?_⟩ ?_
  · intro owner
    obtain ⟨added, hlength, hlist, hadded⟩ := exists_listIn_opened hframed node span owner
    refine ⟨added, hlength, hlist, ?_⟩
    intro t ht id hnode
    obtain ⟨hmark, hself⟩ := hadded t ht
    obtain rfl : owner = id := TokenKind.node.inj (hmark.symm.trans hnode)
    exact ⟨fun heq => hroot (heq.symm.trans hself), fun hne => absurd rfl hne⟩
  · intro id hid hopen
    have hne := Forest.nextId_ne_of_index_lt hid
    rw [hheader id hne, Forest.size_openNode]
    refine ⟨Nat.lt_succ_of_lt hid, rfl, rfl, ?_⟩
    intro f hf
    rcases List.mem_cons.mp hf with rfl | hf
    · exact hne.symm
    · exact hopen f hf
  · intro id hid hopen
    have hne : id ≠ forest.nextId := fun heq => hopen _ List.mem_cons_self heq.symm
    rw [Forest.size_openNode] at hid
    exact Or.inl ⟨Forest.index_lt_of_ne_nextId hid hne,
      fun f hf => hopen f (List.mem_cons_of_mem _ hf)⟩
  · rw [List.isChain_cons_cons]
    constructor
    · rw [Forest.header_openNode, if_pos rfl]
      exact ⟨congrArg some hparent, hframe⟩
    · refine List.IsChain.imp_of_mem_imp ?_ h.chain
      intro f g hf _ hfg
      rw [hheader f.node (Forest.nextId_ne_of_index_lt (hframed.header f hf).1)]
      exact hfg

/-- A closed context keeps its tokens, and its own token is added to the list of its parent. -/
theorem closed (hframed : Framed forest (frame :: next :: outer))
    (h : Placed forest (frame :: next :: outer)) {closer : Option DelimiterId}
    {tokens : Array Token} {stop : Nat} (hends : frame.Ends reach closer tokens stop) :
    Placed (forest.closeNode frame.node tokens closer stop)
      (next.push ⟨⟨frame.start, stop⟩, .node frame.node⟩ :: outer) := by
  obtain ⟨hindex, -, hstart⟩ := hframed.header frame (by simp)
  obtain ⟨hnot, -⟩ := List.nodup_cons.mp hframed.distinct
  obtain ⟨⟨hparent, hlower⟩, hchain⟩ := List.isChain_cons_cons.mp h.chain
  have hroot : frame.node ≠ Forest.root := by
    intro heq
    rw [heq, h.parent_root] at hparent
    cases hparent
  refine h.extend ⟨Forest.parent_closeNode _ _ _ _ _ _, ?_, ?_, ?_⟩ (chain_push _ ?_)
  · intro owner
    obtain ⟨added, hlength, hlist, hadded⟩ := exists_listIn_closed hframed hends owner
    refine ⟨added, hlength, hlist, ?_⟩
    intro t ht id hnode
    rcases hadded t ht with ⟨rfl, hmark⟩ | ⟨rfl, rfl⟩
    · obtain rfl : frame.node = id := TokenKind.node.inj (hmark.symm.trans hnode)
      exact ⟨hroot, fun hne => absurd rfl hne⟩
    · obtain rfl : frame.node = id := TokenKind.node.inj hnode
      refine ⟨hroot, fun _ => ⟨⟨frame, List.mem_cons_self, rfl⟩, ?_⟩⟩
      rw [Forest.parent_closeNode, Forest.size_closeNode, Forest.header_closeNode,
        if_pos ⟨rfl, hindex⟩]
      refine ⟨hindex, hparent, by simp only [hstart], forall_node_ne_push.mpr ?_⟩
      intro f hf heq
      exact hnot (heq ▸ List.mem_map_of_mem hf)
  · intro id hid hopen
    have hself : id ≠ frame.node := fun heq => hopen frame List.mem_cons_self heq.symm
    rw [Forest.parent_closeNode, Forest.size_closeNode, Forest.header_closeNode,
      if_neg fun hc => hself hc.1]
    exact ⟨hid, rfl, rfl,
      forall_node_ne_push.mpr fun f hf => hopen f (List.mem_cons_of_mem _ hf)⟩
  · intro id hid hopen
    rw [Forest.size_closeNode] at hid
    by_cases hself : id = frame.node
    · subst hself
      refine Or.inr ⟨next.node, hlower, ⟨⟨frame.start, stop⟩, .node frame.node⟩, ?_, rfl⟩
      rw [listIn_push, if_pos rfl]
      exact List.mem_append_right _ (by simp)
    · refine Or.inl ⟨hid, ?_⟩
      intro f hf
      rcases List.mem_cons.mp hf with rfl | hf
      · exact fun heq => hself heq.symm
      · exact forall_node_ne_push.mp hopen f hf
  · refine hchain.imp ?_
    intro f g hfg
    rw [Forest.parent_closeNode]
    exact hfg

theorem of_draft {frames : List Frame} (draft : Draft input forest frames reach) :
    Placed forest frames := by
  induction draft with
  | start => exact Placed.start _ _
  | skip _ _ _ ih => exact ih
  | leaf _ stop _ kind hkind ih => exact ih.push hkind
  | value _ _ ih => exact ⟨ih.parent_root, ih.nested, ih.unmarked, ih.once, ih.placed, ih.chain⟩
  | opened draft stop _ rules opener ih => exact Placed.opened (Framed.of_draft draft) ih rfl _
  | closed draft hends ih => exact Placed.closed (Framed.of_draft draft) ih hends

end Placed

/-- In a lexed forest every node has its place. -/
theorem Lexed.arranged {input : LexInput} {forest : Forest} {stop : Nat}
    (h : Lexed input forest stop) : forest.Arranged := by
  cases h with
  | @intro draft frame _ hdraft =>
      have hframed := Framed.of_draft hdraft
      have hplaced := Placed.of_draft hdraft
      obtain ⟨hroot, -⟩ := hframed.node_eq_root
      have hindex := (hframed.header frame (by simp)).1
      rw [← hroot]
      have hlist : ∀ id, (draft.closeNode frame.node frame.tokens none stop).tokenList id =
          listIn draft [frame] id := tokenList_closeNode_last hframed none stop
      refine ⟨hframed.packed.closeNode _ _ _ _, ?_, ?_, ?_, ?_, ?_, ?_⟩
      · rw [Forest.size_closeNode]
        exact Nat.lt_of_le_of_lt (Nat.zero_le _) hindex
      · rw [Forest.parent_closeNode]
        exact hplaced.parent_root
      · intro owner t id hmem hnode hne
        rw [hlist] at hmem
        obtain ⟨hid, hparent, hspan, hopen⟩ := hplaced.nested owner t id hmem hnode hne
        rw [Forest.parent_closeNode, Forest.size_closeNode, Forest.header_closeNode,
          if_neg fun hc => hopen frame (by simp) hc.1.symm]
        exact ⟨hid, hparent, hspan⟩
      · intro owner t hmem
        rw [hlist] at hmem
        exact hplaced.unmarked owner t hmem
      · intro owner
        rw [hlist]
        exact hplaced.once owner
      · intro id hid
        refine Forest.exists_leads ?_ hid
        intro id hid hne
        rw [Forest.size_closeNode] at hid
        obtain ⟨owner, hlt, t, hmem, hnode⟩ := hplaced.placed id hid hne (by
          intro f hf
          rw [List.mem_singleton.mp hf, hroot]
          exact hne.symm)
        refine ⟨owner, hlt, t, ?_, hnode⟩
        rw [hlist]
        exact hmem

end ExprLang
