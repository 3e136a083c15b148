import ExprLang.Proofs.Forest.Arena
import ExprLang.Proofs.Lexing.Draft

/-!
# The lists that are being read

Each list that is being read belongs to a node of its own, which has been opened where
the list starts; the last one belongs to the root. A node that is none of them has been
closed, and its list is in the arena.

Main results:
* `Framed.of_draft`: this holds in every draft;
* `listIn_push`, `exists_listIn_opened`, `exists_listIn_closed`: what becomes of the list
  of any node, wherever it is kept.
-/

namespace ExprLang

theorem Frame.Ends.reach_le {frame : Frame} {reach stop : Nat} {closer : Option DelimiterId}
    {list : Array Token} (hends : frame.Ends reach closer list stop) : reach ≤ stop := by
  cases hends with
  | closed id stop hpos => exact Nat.le_of_lt hpos
  | cut => exact le_rfl

/-- The nodes of the lists that are being read. -/
structure Framed (forest : Forest) (frames : List Frame) : Prop where
  packed : forest.Packed
  distinct : (frames.map Frame.node).Nodup
  header : ∀ frame ∈ frames, frame.node.index < forest.nodes.size ∧
    (forest.header frame.node).rules = frame.rules ∧
    (forest.header frame.node).span.start = frame.start
  root : ∃ frame, frames.getLast? = some frame ∧ frame.node = Forest.root ∧ frame.start = 0

namespace Framed

variable {input : LexInput} {forest : Forest} {frames : List Frame} {reach : Nat}

/-- A list is that of a node; adding tokens to it changes nothing about the node. -/
theorem push {frame : Frame} {outer : List Frame} (h : Framed forest (frame :: outer))
    (token : Token) : Framed forest (frame.push token :: outer) := by
  refine ⟨h.packed, h.distinct, ?_, ?_⟩
  · intro f hf
    rcases List.mem_cons.mp hf with rfl | hf
    · exact h.header frame (by simp)
    · exact h.header f (List.mem_cons_of_mem _ hf)
  · obtain ⟨last, hlast, hnode, hstart⟩ := h.root
    cases outer with
    | nil =>
        obtain rfl : frame = last := by simpa using hlast
        exact ⟨frame.push token, rfl, hnode, hstart⟩
    | cons next outer =>
        rw [List.getLast?_cons_cons] at hlast ⊢
        exact ⟨last, hlast, hnode, hstart⟩

theorem opened {frame : Frame} {outer : List Frame} (h : Framed forest (frame :: outer))
    (node : OpenedNode) (tokens : Array Token) :
    Framed (forest.openNode node).2
      (⟨forest.nextId, node.rules, node.start, tokens⟩ :: frame :: outer) := by
  have hold : ∀ f ∈ frame :: outer, f.node ≠ forest.nextId := fun f hf =>
    Forest.nextId_ne_of_index_lt (h.header f hf).1
  refine ⟨h.packed.openNode node, ?_, ?_, ?_⟩
  · rw [List.map_cons, List.nodup_cons]
    refine ⟨?_, h.distinct⟩
    intro hmem
    obtain ⟨f, hf, heq⟩ := List.mem_map.mp hmem
    exact hold f hf heq
  · intro f hf
    rw [Forest.size_openNode, Forest.header_openNode]
    rcases List.mem_cons.mp hf with rfl | hf
    · rw [if_pos rfl]
      exact ⟨Nat.lt_succ_self _, rfl, rfl⟩
    · rw [if_neg (hold f hf)]
      obtain ⟨hlt, hrest⟩ := h.header f hf
      exact ⟨Nat.lt_succ_of_lt hlt, hrest⟩
  · obtain ⟨last, hlast, hroot⟩ := h.root
    exact ⟨last, by rw [List.getLast?_cons_cons, hlast], hroot⟩

theorem closed {frame next : Frame} {outer : List Frame}
    (h : Framed forest (frame :: next :: outer)) (tokens : Array Token)
    (closer : Option DelimiterId) (stop : Nat) :
    Framed (forest.closeNode frame.node tokens closer stop) (next :: outer) := by
  obtain ⟨hnot, hdistinct⟩ := List.nodup_cons.mp h.distinct
  refine ⟨h.packed.closeNode _ _ _ _, hdistinct, ?_, ?_⟩
  · intro f hf
    have hne : f.node ≠ frame.node := fun heq => hnot (heq ▸ List.mem_map_of_mem hf)
    rw [Forest.size_closeNode, Forest.header_closeNode, if_neg (fun hc => hne hc.1)]
    exact h.header f (List.mem_cons_of_mem _ hf)
  · obtain ⟨last, hlast, hroot⟩ := h.root
    rw [List.getLast?_cons_cons] at hlast
    exact ⟨last, hlast, hroot⟩

theorem of_draft (draft : Draft input forest frames reach) : Framed forest frames := by
  induction draft with
  | start =>
      refine ⟨Forest.Packed.ofSource _ _, by simp, ?_, ⟨_, rfl, rfl, rfl⟩⟩
      intro f hf
      rw [List.mem_singleton.mp hf]
      exact ⟨Nat.one_pos, rfl, rfl⟩
  | skip _ _ _ ih => exact ih
  | leaf _ stop _ kind _ ih => exact ih.push _
  | value _ _ ih => exact ⟨⟨ih.packed.inside, ih.packed.apart⟩, ih.distinct, ih.header, ih.root⟩
  | opened _ stop _ rules opener ih => exact ih.opened _ _
  | closed _ _ ih => exact (ih.closed _ _ _).push _

/-- The last list that is being read is that of the root. -/
theorem node_eq_root {frame : Frame} (h : Framed forest [frame]) :
    frame.node = Forest.root ∧ frame.start = 0 := by
  obtain ⟨last, hlast, hroot⟩ := h.root
  obtain rfl : frame = last := Option.some.inj hlast
  exact hroot

end Framed

/-- The node of a list that is being read has no tokens yet. -/
theorem Draft.tokenList_eq_nil {input : LexInput} {forest : Forest} {frames : List Frame}
    {reach : Nat} (draft : Draft input forest frames reach) :
    ∀ frame ∈ frames, forest.tokenList frame.node = [] := by
  induction draft with
  | start =>
      intro frame hframe
      rw [List.mem_singleton.mp hframe]
      rfl
  | skip _ _ _ ih => exact ih
  | @leaf _ first _ _ _ _ _ _ _ ih =>
      intro frame hframe
      rcases List.mem_cons.mp hframe with rfl | hframe
      · exact ih first List.mem_cons_self
      · exact ih frame (List.mem_cons_of_mem _ hframe)
  | value _ _ ih => exact ih
  | @opened forest _ _ _ draft _ _ _ _ ih =>
      intro frame hframe
      rw [Forest.tokenList_openNode]
      rcases List.mem_cons.mp hframe with rfl | hframe
      · exact forest.tokenList_of_size_le le_rfl
      · exact ih frame hframe
  | @closed forest closed next outer _ stop closer tokens draft _ ih =>
      have hframed := Framed.of_draft draft
      have hdistinct := (List.nodup_cons.mp hframed.distinct).1
      have hother : ∀ frame ∈ next :: outer,
          (forest.closeNode closed.node tokens closer stop).tokenList frame.node = [] := by
        intro frame hframe
        rw [Forest.tokenList_closeNode forest hframed.packed (hframed.header closed (by simp)).1,
          if_neg]
        · exact ih frame (List.mem_cons_of_mem _ hframe)
        · intro heq
          exact hdistinct (heq ▸ List.mem_map_of_mem hframe)
      intro frame hframe
      rcases List.mem_cons.mp hframe with rfl | hframe
      · exact hother next List.mem_cons_self
      · exact hother frame (List.mem_cons_of_mem _ hframe)

/-- If what is in the arena is in the lists of nodes, this stays so when a list is closed. -/
theorem Draft.exists_mem_tokenList_closeNode {input : LexInput} {forest : Forest}
    {frames : List Frame} {reach : Nat} (draft : Draft input forest frames reach)
    (hlists : ∀ token ∈ forest.arena.toList, ∃ id, token ∈ forest.tokenList id) {frame : Frame}
    (hframe : frame ∈ frames) (tokens : Array Token) (closer : Option DelimiterId) (stop : Nat) :
    ∀ token ∈ (forest.closeNode frame.node tokens closer stop).arena.toList,
      ∃ id, token ∈ (forest.closeNode frame.node tokens closer stop).tokenList id := by
  have hframed := Framed.of_draft draft
  have hindex := (hframed.header frame hframe).1
  intro token htoken
  rcases Forest.mem_arena_closeNode.mp htoken with hold | hnew
  · obtain ⟨id, hmem⟩ := hlists token hold
    refine ⟨id, ?_⟩
    rw [Forest.tokenList_closeNode forest hframed.packed hindex, if_neg]
    · exact hmem
    · rintro rfl
      rw [draft.tokenList_eq_nil frame hframe] at hmem
      cases hmem
  · refine ⟨frame.node, ?_⟩
    rw [Forest.tokenList_closeNode forest hframed.packed hindex, if_pos rfl]
    exact hnew

/-- What is in the arena is in the list of some node. -/
theorem Draft.exists_mem_tokenList {input : LexInput} {forest : Forest} {frames : List Frame}
    {reach : Nat} (draft : Draft input forest frames reach) :
    ∀ token ∈ forest.arena.toList, ∃ id, token ∈ forest.tokenList id := by
  induction draft with
  | start => exact fun _ h => nomatch h
  | skip _ _ _ ih => exact ih
  | leaf _ _ _ _ _ ih => exact ih
  | value _ _ ih => exact ih
  | opened _ _ _ _ _ ih =>
      intro token htoken
      obtain ⟨id, hmem⟩ := ih token htoken
      exact ⟨id, (Forest.tokenList_openNode _ _ id).symm ▸ hmem⟩
  | closed draft _ ih =>
      exact draft.exists_mem_tokenList_closeNode ih List.mem_cons_self _ _ _

theorem Lexed.exists_mem_tokenList {input : LexInput} {forest : Forest} {stop : Nat}
    (h : Lexed input forest stop) :
    ∀ token ∈ forest.arena.toList, ∃ id, token ∈ forest.tokenList id := by
  cases h with
  | intro draft =>
      rw [← (Framed.of_draft draft).node_eq_root.1]
      exact draft.exists_mem_tokenList_closeNode draft.exists_mem_tokenList
        (List.mem_singleton_self _) _ _ _

/-- The list of a node: the one that is being read, or the one in the arena. -/
def listIn (forest : Forest) (frames : List Frame) (id : NodeId) : List Token :=
  match frames.find? (fun frame => frame.node = id) with
  | some frame => frame.tokens.toList
  | none => forest.tokenList id

section Lists

variable {forest : Forest} {frame next : Frame} {outer : List Frame} {id : NodeId}

/-- Adding a token does not change whose list is being read. -/
theorem forall_node_ne_push {token : Token} :
    (∀ f ∈ frame.push token :: outer, f.node ≠ id) ↔ ∀ f ∈ frame :: outer, f.node ≠ id := by
  simp [Frame.push]

/-- The list of a node that is closed is in the arena. -/
theorem listIn_of_forall_ne {frames : List Frame} (h : ∀ f ∈ frames, f.node ≠ id) :
    listIn forest frames id = forest.tokenList id := by
  have hfind : frames.find? (fun f => f.node = id) = none := by
    rw [List.find?_eq_none]
    intro f hf
    simpa using h f hf
  rw [listIn, hfind]

@[simp]
theorem listIn_cons_self :
    listIn forest (frame :: outer) frame.node = frame.tokens.toList := by
  simp [listIn]

theorem listIn_cons_of_ne (h : id ≠ frame.node) :
    listIn forest (frame :: outer) id = listIn forest outer id := by
  have hne : frame.node ≠ id := fun heq => h heq.symm
  simp [listIn, hne]

/-- A token is added to the innermost list. -/
theorem listIn_push (token : Token) :
    listIn forest (frame.push token :: outer) id =
      if id = frame.node then listIn forest (frame :: outer) id ++ [token]
      else listIn forest (frame :: outer) id := by
  by_cases h : id = frame.node
  · subst h
    rw [if_pos rfl, listIn_cons_self]
    exact (@listIn_cons_self forest (frame.push token) outer).trans Array.toList_push
  · rw [if_neg h, listIn_cons_of_ne h]
    exact @listIn_cons_of_ne forest (frame.push token) outer id h

/-- Lists depend on the forest only through its closed nodes. -/
theorem listIn_congr {f g : Forest} {frames : List Frame}
    (h : (∀ frame ∈ frames, frame.node ≠ id) → f.tokenList id = g.tokenList id) :
    listIn f frames id = listIn g frames id := by
  unfold listIn
  cases hfind : frames.find? (fun frame => frame.node = id) with
  | some frame => rfl
  | none =>
      apply h
      intro frame hframe
      simpa using List.find?_eq_none.mp hfind frame hframe

/-- The list of a closed node keeps its tokens, and those that end it are added. -/
theorem listIn_closeNode (hframed : Framed forest (frame :: next :: outer))
    (tokens : Array Token) (closer : Option DelimiterId) (stop : Nat) :
    listIn (forest.closeNode frame.node tokens closer stop) (next :: outer) id =
      if id = frame.node then tokens.toList else listIn forest (frame :: next :: outer) id := by
  have hindex := (hframed.header frame (by simp)).1
  obtain ⟨hnot, -⟩ := List.nodup_cons.mp hframed.distinct
  by_cases h : id = frame.node
  · subst h
    rw [if_pos rfl, listIn_of_forall_ne, Forest.tokenList_closeNode forest hframed.packed hindex,
      if_pos rfl]
    intro f hf heq
    exact hnot (heq ▸ List.mem_map_of_mem hf)
  · rw [if_neg h, listIn_cons_of_ne h]
    apply listIn_congr
    intro _
    rw [Forest.tokenList_closeNode forest hframed.packed hindex, if_neg h]

/-- When the last list is closed all lists are in the arena. -/
theorem tokenList_closeNode_last (hframed : Framed forest [frame]) (closer : Option DelimiterId)
    (stop : Nat) (id : NodeId) :
    (forest.closeNode frame.node frame.tokens closer stop).tokenList id =
      listIn forest [frame] id := by
  rw [Forest.tokenList_closeNode forest hframed.packed (hframed.header frame (by simp)).1]
  split
  · rename_i hid
    subst hid
    exact listIn_cons_self.symm
  · rename_i hid
    rw [listIn_cons_of_ne hid]
    rfl

/-- At the start there is nothing but the root's empty list. -/
theorem listIn_ofSource (source : Source) (rules : RuleSetId) (id : NodeId) :
    listIn (.ofSource source rules) [⟨Forest.root, rules, 0, #[]⟩] id = [] := by
  by_cases hid : id = Forest.root
  · subst hid
    rfl
  · rw [listIn_cons_of_ne hid]
    refine Forest.tokenList_of_size_le _ ?_
    obtain ⟨i⟩ := id
    have hi : i ≠ 0 := fun h => hid (congrArg NodeId.mk h)
    show 1 ≤ i
    omega

/-- An opened context has the list that is read for it, and the others keep theirs. -/
theorem listIn_openNode (node : OpenedNode) (rules : RuleSetId) (start : Nat)
    (tokens : Array Token) (frames : List Frame) :
    listIn (forest.openNode node).2 (⟨forest.nextId, rules, start, tokens⟩ :: frames) id =
      if id = forest.nextId then tokens.toList else listIn forest frames id := by
  by_cases h : id = forest.nextId
  · subst h
    rw [if_pos rfl]
    exact listIn_cons_self
  · rw [if_neg h, listIn_cons_of_ne h]
    exact listIn_congr fun _ => Forest.tokenList_openNode forest node id

/-- When a context is opened every list keeps its tokens, and its own list gets its marker. -/
theorem exists_listIn_opened {frames : List Frame} (hframed : Framed forest frames)
    (node : OpenedNode) (span : Span) (id : NodeId) :
    ∃ added : List Token, added.length ≤ 1 ∧
      listIn (forest.openNode node).2
          (⟨forest.nextId, node.rules, node.start, #[⟨span, .node forest.nextId⟩]⟩ :: frames) id =
        listIn forest frames id ++ added ∧
      ∀ t ∈ added, t.kind = .node id ∧ id = forest.nextId := by
  rw [listIn_openNode]
  by_cases hid : id = forest.nextId
  · have hopen : ∀ frame ∈ frames, frame.node ≠ id := by
      intro frame hframe
      rw [hid]
      exact Forest.nextId_ne_of_index_lt (hframed.header frame hframe).1
    have hnone : forest.tokenList id = [] := by
      rw [hid]
      exact forest.tokenList_of_size_le le_rfl
    rw [if_pos hid, listIn_of_forall_ne hopen, hnone]
    refine ⟨[⟨span, .node forest.nextId⟩], le_rfl, rfl, ?_⟩
    intro t ht
    rw [List.mem_singleton.mp ht]
    exact ⟨congrArg TokenKind.node hid.symm, hid⟩
  · rw [if_neg hid]
    exact ⟨[], Nat.zero_le _, by simp, by simp⟩

/--
When a context is closed every list keeps its tokens. That of the context may get its
closing marker, and that of the parent gets the token of the context.
-/
theorem exists_listIn_closed (hframed : Framed forest (frame :: next :: outer)) {reach : Nat}
    {closer : Option DelimiterId} {tokens : Array Token} {stop : Nat}
    (hends : frame.Ends reach closer tokens stop) (id : NodeId) :
    ∃ added : List Token, added.length ≤ 1 ∧
      listIn (forest.closeNode frame.node tokens closer stop)
          (next.push ⟨⟨frame.start, stop⟩, .node frame.node⟩ :: outer) id =
        listIn forest (frame :: next :: outer) id ++ added ∧
      ∀ t ∈ added, (id = frame.node ∧ t.kind = .node id) ∨
        (id = next.node ∧ t = ⟨⟨frame.start, stop⟩, .node frame.node⟩) := by
  have hnext : next.node ≠ frame.node := by
    intro heq
    exact (List.nodup_cons.mp hframed.distinct).1 (by simp [heq])
  rw [listIn_push, listIn_closeNode hframed]
  by_cases hparent : id = next.node
  · subst hparent
    rw [if_pos rfl, if_neg hnext]
    refine ⟨[⟨⟨frame.start, stop⟩, .node frame.node⟩], le_rfl, rfl, ?_⟩
    intro t ht
    exact Or.inr ⟨rfl, List.mem_singleton.mp ht⟩
  · rw [if_neg hparent]
    by_cases hself : id = frame.node
    · subst hself
      rw [if_pos rfl, listIn_cons_self]
      cases hends with
      | closed closing stop hpos =>
          refine ⟨[⟨⟨reach, stop⟩, .node frame.node⟩], le_rfl, Array.toList_push, ?_⟩
          intro t ht
          rw [List.mem_singleton.mp ht]
          exact Or.inl ⟨rfl, rfl⟩
      | cut => exact ⟨[], Nat.zero_le _, by simp, by simp⟩
    · rw [if_neg hself]
      exact ⟨[], Nat.zero_le _, by simp, by simp⟩

end Lists

end ExprLang
