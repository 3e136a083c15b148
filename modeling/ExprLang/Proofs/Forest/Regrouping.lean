import ExprLang.Proofs.Forest.Nesting

/-!
# A collapse keeps the tree

The run that becomes a node must not contain a marker of its owner: the owner would
be nested in its own child. A run without one leaves every node in its place. What is
nested in the run gets one level deeper, and nothing else changes its depth.

Main results:
* `Leads.collapse`: the paths after a collapse, and their lengths;
* `Arranged.collapse`: an arranged forest stays arranged;
* `Separate.collapse`: delimiters stay apart.
-/

namespace ExprLang

/-- The token is a delimiter that has not become a marker. -/
def Token.IsDelimiter (token : Token) : Prop :=
  ∃ id, token.kind = .delimiter id

namespace Forest

/-- A run around an operator without a marker of the list's owner. -/
structure Collapsible (forest : Forest) (owner : NodeId) (first count marker : Nat)
    (before left : List Token) (mark : Token) (right after : List Token) : Prop
    extends Splits forest owner first count marker before left mark right after where
  mark_delimiter : mark.IsDelimiter
  unmarked : ∀ t ∈ left ++ right, t.kind ≠ .node owner

/-- No two delimiters of a forest start at the same offset. -/
structure Separate (forest : Forest) : Prop where
  across : ∀ a b s t, s ∈ forest.tokenList a → t ∈ forest.tokenList b → s.IsDelimiter →
    t.IsDelimiter → s.span.start = t.span.start → a = b
  within : ∀ a, (forest.tokenList a).Pairwise fun s t =>
    s.IsDelimiter → t.IsDelimiter → s.span.start ≠ t.span.start

theorem not_isDelimiter_of_node {token : Token} {id : NodeId} (h : token.kind = .node id) :
    ¬token.IsDelimiter := by
  rintro ⟨delimiter, hdelimiter⟩
  rw [h] at hdelimiter
  cases hdelimiter

section Collapse

variable {forest : Forest} {owner : NodeId} {first count : Nat}
  {application : OperatorApplication} {before left right after : List Token} {mark : Token}

section Tokens

/-- The token of the new node. -/
def collapsedToken (forest : Forest) (owner : NodeId) (first count : Nat)
    (application : OperatorApplication) : Token :=
  ⟨runSpan (forest.markedRun owner first count application.marker), .node forest.nextId⟩

theorem not_isDelimiter_collapsedToken :
    ¬(collapsedToken forest owner first count application).IsDelimiter :=
  not_isDelimiter_of_node (show (collapsedToken forest owner first count application).kind =
    .node forest.nextId from rfl)

theorem Splits.mem_run
    (hs : forest.Splits owner first count application.marker before left mark right after)
    {t : Token} (ht : t ∈ left ++ right) : t ∈ forest.tokenList owner := by
  rw [hs.list_eq]
  rcases List.mem_append.mp ht with ht | ht
  · simp [ht]
  · simp [ht]

theorem Splits.mem_rest
    (hs : forest.Splits owner first count application.marker before left mark right after)
    {t : Token} (ht : t ∈ before ++ after) : t ∈ forest.tokenList owner := by
  rw [hs.list_eq]
  rcases List.mem_append.mp ht with ht | ht
  · simp [ht]
  · simp [ht]

theorem Splits.mem_mark
    (hs : forest.Splits owner first count application.marker before left mark right after) :
    mark ∈ forest.tokenList owner := by
  rw [hs.list_eq]
  simp

theorem Splits.mem_cases
    (hs : forest.Splits owner first count application.marker before left mark right after)
    {t : Token} (ht : t ∈ forest.tokenList owner) :
    t ∈ before ++ after ∨ t ∈ left ++ right ∨ t = mark := by
  rw [hs.list_eq] at ht
  simp only [List.mem_append, List.mem_cons] at ht ⊢
  tauto

/-- The owner of a run is a node of the forest. -/
theorem Splits.owner_lt
    (hs : forest.Splits owner first count application.marker before left mark right after) :
    owner.index < forest.nodes.size :=
  forest.index_lt_of_mem_tokenList hs.mem_mark

/-- Where the tokens of a list are from, after a collapse. -/
theorem mem_tokenList_collapse (hp : forest.Packed)
    (hs : forest.Splits owner first count application.marker before left mark right after)
    {id : NodeId} {t : Token}
    (ht : t ∈ (forest.collapse owner first count application).tokenList id) :
    (id = forest.nextId ∧
        (t ∈ left ++ right ∨ t = { mark with kind := .node forest.nextId })) ∨
      (id = owner ∧
        (t ∈ before ++ after ∨ t = collapsedToken forest owner first count application)) ∨
      (id ≠ forest.nextId ∧ id ≠ owner ∧ t ∈ forest.tokenList id) := by
  by_cases hnew : id = forest.nextId
  · left
    subst hnew
    rw [tokenList_collapse_nextId hp hs] at ht
    simp only [List.mem_append, List.mem_cons] at ht ⊢
    tauto
  · by_cases hid : id = owner
    · right
      left
      subst hid
      rw [tokenList_collapse_owner hp hs] at ht
      simp only [List.mem_append, List.mem_cons] at ht ⊢
      unfold collapsedToken
      tauto
    · right
      right
      rw [tokenList_collapse_of_ne hp (hs.hasRun hp) hnew hid] at ht
      exact ⟨hnew, hid, ht⟩

/-- The nodes whose parent a collapse changes are those nested in the run. -/
theorem mem_childrenIn_markedRun (hp : forest.Packed)
    (hs : forest.Splits owner first count application.marker before left mark right after)
    {id : NodeId} :
    id ∈ childrenIn forest.nextId (forest.markedRun owner first count application.marker) ↔
      id ≠ forest.nextId ∧ ∃ t ∈ left ++ right, t.kind = .node id := by
  have hnode : ∀ t : Token, t.node? = some id ↔ t.kind = .node id := by
    intro t
    unfold Token.node?
    split
    · rename_i hkind
      rw [hkind]
      simp
    · rename_i hkind
      simp only [reduceCtorEq, false_iff]
      exact hkind id
  unfold childrenIn
  rw [toList_markedRun hp hs]
  simp only [List.mem_filter, List.mem_filterMap, hnode, decide_eq_true_eq, List.mem_append,
    List.mem_cons]
  constructor
  · rintro ⟨⟨t, ht, hkind⟩, hne⟩
    refine ⟨hne, t, ?_, hkind⟩
    rcases ht with ht | rfl | ht
    · exact Or.inl ht
    · exact absurd (TokenKind.node.inj hkind).symm hne
    · exact Or.inr ht
  · rintro ⟨hne, t, ht, hkind⟩
    exact ⟨⟨t, by tauto, hkind⟩, hne⟩

end Tokens

section Paths

/--
What was reached is still reached. What is nested in the run lies one level deeper, and
only what was nested below the owner can lie there.
-/
theorem Leads.collapse (ha : forest.Arranged)
    (hc : forest.Collapsible owner first count application.marker before left mark right after)
    {above slots : List Nat} {id : NodeId} (howner : Leads forest above owner)
    (h : Leads forest slots id) :
    ∃ slots', Leads (forest.collapse owner first count application) slots' id ∧
      (slots'.length = slots.length ∨
        slots'.length = slots.length + 1 ∧ above.length < slots.length) := by
  have hs := hc.toSplits
  have hp := ha.packed
  induction h with
  | root => exact ⟨[], .root, Or.inl rfl⟩
  | @child slots p slot token id path htoken hkind hne ih =>
      obtain ⟨slots', hpath, hlength⟩ := ih
      have hmem := mem_tokenList_of_token? htoken
      have hpNew : p ≠ forest.nextId := nextId_ne_of_index_lt (path.index_lt ha.wellNested)
      by_cases hpo : p = owner
      · -- the path goes through the owner, at the owner's depth
        subst hpo
        have hslots : slots.length = above.length := by rw [path.unique ha.wellNested howner]
        have hstay : slots'.length = slots.length := by omega
        rcases hs.mem_cases hmem with hrest | hrun | rfl
        · have hnew : token ∈ (forest.collapse p first count application).tokenList p := by
            rw [tokenList_collapse_owner hp hs]
            simp only [List.mem_append, List.mem_cons] at hrest ⊢
            tauto
          obtain ⟨slot', hslot'⟩ := exists_token?_of_mem hnew
          exact ⟨slot' :: slots', hpath.child hslot' hkind hne, Or.inl (by simp [hstay])⟩
        · -- the node is in the run: it is reached through the new node
          have hinner : token ∈
              (forest.collapse p first count application).tokenList forest.nextId := by
            rw [tokenList_collapse_nextId hp hs]
            simp only [List.mem_append, List.mem_cons] at hrun ⊢
            tauto
          have houter : collapsedToken forest p first count application ∈
              (forest.collapse p first count application).tokenList p := by
            rw [tokenList_collapse_owner hp hs]
            simp [collapsedToken]
          obtain ⟨slot', hslot'⟩ := exists_token?_of_mem hinner
          obtain ⟨place, hplace⟩ := exists_token?_of_mem houter
          have hid := (ha.nested p token id hmem hkind hne).1
          have hnext := hpath.child hplace rfl fun h => hpNew h.symm
          refine ⟨slot' :: place :: slots', hnext.child hslot' hkind (nextId_ne_of_index_lt hid),
            Or.inr ⟨?_, ?_⟩⟩
          · simp [hstay]
          · simp [hslots]
        · exact absurd hc.mark_delimiter (not_isDelimiter_of_node hkind)
      · have hnew : token ∈ (forest.collapse owner first count application).tokenList p := by
          rw [tokenList_collapse_of_ne hp (hs.hasRun hp) hpNew hpo]
          exact hmem
        obtain ⟨slot', hslot'⟩ := exists_token?_of_mem hnew
        refine ⟨slot' :: slots', hpath.child hslot' hkind hne, ?_⟩
        simp only [List.length_cons]
        omega

/-- The new node is reached through the owner of the run. -/
theorem Leads.collapse_nextId (ha : forest.Arranged)
    (hc : forest.Collapsible owner first count application.marker before left mark right after)
    {above : List Nat} (howner : Leads forest above owner) :
    ∃ slots, Leads (forest.collapse owner first count application) slots forest.nextId := by
  have hs := hc.toSplits
  obtain ⟨slots, hslots, -⟩ := howner.collapse ha hc howner
  have hmem : collapsedToken forest owner first count application ∈
      (forest.collapse owner first count application).tokenList owner := by
    rw [tokenList_collapse_owner ha.packed hs]
    simp [collapsedToken]
  obtain ⟨place, hplace⟩ := exists_token?_of_mem hmem
  exact ⟨place :: slots,
    hslots.child hplace rfl fun h => nextId_ne_of_index_lt hs.owner_lt h.symm⟩

end Paths

section Invariants

/-- The nodes in a run are old, and their parent becomes the new node. -/
theorem header_collapse_of_mem_run (ha : forest.Arranged)
    (hc : forest.Collapsible owner first count application.marker before left mark right after)
    {t : Token} {id : NodeId} (ht : t ∈ left ++ right) (hkind : t.kind = .node id) :
    id.index < forest.nodes.size ∧
      ((forest.collapse owner first count application).header id).parent = some forest.nextId ∧
      t.span = ((forest.collapse owner first count application).header id).span := by
  have hs := hc.toSplits
  have hne : id ≠ owner := by
    rintro rfl
    exact hc.unmarked t ht hkind
  obtain ⟨hid, -, hspan⟩ := ha.nested owner t id (hs.mem_run ht) hkind hne
  have hnew := nextId_ne_of_index_lt hid
  have hchild := (mem_childrenIn_markedRun ha.packed hs).mpr ⟨hnew, t, ht, hkind⟩
  rw [header_collapse forest hnew hs.owner_lt]
  exact ⟨hid, if_pos ⟨hchild, hid⟩, hspan⟩

/-- A node that is not nested in the run keeps its parent and its span. -/
theorem header_collapse_of_not_mem_run (hp : forest.Packed)
    (hs : forest.Splits owner first count application.marker before left mark right after)
    {id : NodeId} (hid : id.index < forest.nodes.size)
    (hnot : ∀ t ∈ left ++ right, t.kind ≠ .node id) :
    ((forest.collapse owner first count application).header id).parent =
        (forest.header id).parent ∧
      ((forest.collapse owner first count application).header id).span =
        (forest.header id).span := by
  rw [header_collapse forest (nextId_ne_of_index_lt hid) hs.owner_lt]
  refine ⟨if_neg ?_, rfl⟩
  rintro ⟨hchild, -⟩
  obtain ⟨-, t, ht, hkind⟩ := (mem_childrenIn_markedRun hp hs).mp hchild
  exact hnot t ht hkind

/-- A nested token that is not in the run refers to a node that is not nested in the run. -/
theorem not_mem_run_of_mem_rest (ha : forest.Arranged)
    (hc : forest.Collapsible owner first count application.marker before left mark right after)
    {t : Token} {id : NodeId} (ht : t ∈ before ++ after) (hkind : t.kind = .node id)
    (hne : id ≠ owner) : ∀ s ∈ left ++ right, s.kind ≠ .node id := by
  intro s hs hkind'
  have honce := ha.once owner
  rw [hc.list_eq] at honce
  have hrun : s ∈ left ++ mark :: right := by
    simp only [List.mem_append, List.mem_cons] at hs ⊢
    tauto
  obtain ⟨hinner, -, hbehind⟩ := List.pairwise_append.mp honce
  obtain ⟨-, -, hfront⟩ := List.pairwise_append.mp hinner
  rcases List.mem_append.mp ht with ht | ht
  · exact hne (hfront t ht s hrun id hkind hkind')
  · exact hne (hbehind s (List.mem_append_right _ hrun) t ht id hkind' hkind)

/-- A run taken out of a list leaves the rest of it in order. -/
theorem sublist_rest
    (hs : forest.Splits owner first count application.marker before left mark right after) :
    (before ++ after).Sublist (forest.tokenList owner) := by
  rw [hs.list_eq, List.append_assoc]
  exact (List.Sublist.refl before).append (List.sublist_append_right _ _)

theorem sublist_run
    (hs : forest.Splits owner first count application.marker before left mark right after) :
    (left ++ right).Sublist (forest.tokenList owner) := by
  rw [hs.list_eq]
  refine List.Sublist.trans ?_ (List.sublist_append_left _ _)
  refine List.Sublist.trans ?_ (List.sublist_append_right _ _)
  exact (List.Sublist.refl left).append (List.sublist_cons_self _ _)

/-- A list in which every two tokens are related stays so with a new token put into it. -/
theorem pairwise_insert {R : Token → Token → Prop} {front behind : List Token} {new : Token}
    (h : (front ++ behind).Pairwise R) (hfront : ∀ t ∈ front, R t new)
    (hbehind : ∀ t ∈ behind, R new t) : (front ++ new :: behind).Pairwise R := by
  obtain ⟨hf, hb, hfb⟩ := List.pairwise_append.mp h
  refine List.pairwise_append.mpr ⟨hf, List.pairwise_cons.mpr ⟨hbehind, hb⟩, ?_⟩
  intro s hs t ht
  rcases List.mem_cons.mp ht with rfl | ht
  · exact hfront s hs
  · exact hfb s hs t ht

/-- A token of an arranged forest refers to a node of the forest. -/
theorem Arranged.ne_nextId (ha : forest.Arranged) {a id : NodeId} {t : Token}
    (ht : t ∈ forest.tokenList a) (hkind : t.kind = .node id) : id ≠ forest.nextId := by
  by_cases hid : id = a
  · rw [hid]
    exact nextId_ne_of_index_lt (forest.index_lt_of_mem_tokenList ht)
  · exact nextId_ne_of_index_lt (ha.nested a t id ht hkind hid).1

/-- After a collapse a nested token is in the list of its node's parent. -/
theorem Arranged.nested_collapse (ha : forest.Arranged)
    (hc : forest.Collapsible owner first count application.marker before left mark right after)
    {a id : NodeId} {t : Token}
    (ht : t ∈ (forest.collapse owner first count application).tokenList a)
    (hkind : t.kind = .node id) (hne : id ≠ a) :
    id.index < forest.nodes.size + 1 ∧
      ((forest.collapse owner first count application).header id).parent = some a ∧
      t.span = ((forest.collapse owner first count application).header id).span := by
  have hs := hc.toSplits
  have hp := ha.packed
  rcases mem_tokenList_collapse hp hs ht with
    ⟨rfl, hrun | rfl⟩ | ⟨rfl, hrest | rfl⟩ | ⟨hnew, hother, ht⟩
  · obtain ⟨hid, hparent, hspan⟩ := header_collapse_of_mem_run ha hc hrun hkind
    exact ⟨Nat.lt_succ_of_lt hid, hparent, hspan⟩
  · exact absurd (TokenKind.node.inj hkind).symm hne
  · obtain ⟨hid, hparent, hspan⟩ := ha.nested _ t id (hs.mem_rest hrest) hkind hne
    obtain ⟨hparent', hspan'⟩ := header_collapse_of_not_mem_run hp hs hid
      (not_mem_run_of_mem_rest ha hc hrest hkind hne)
    rw [hparent', hspan']
    exact ⟨Nat.lt_succ_of_lt hid, hparent, hspan⟩
  · obtain rfl : forest.nextId = id := TokenKind.node.inj hkind
    rw [header_collapse_nextId forest hs.owner_lt]
    exact ⟨Nat.lt_succ_self _, rfl, rfl⟩
  · -- a node that is nested in another list is not in the run
    obtain ⟨hid, hparent, hspan⟩ := ha.nested a t id ht hkind hne
    have hnot : ∀ s ∈ left ++ right, s.kind ≠ .node id := by
      intro s hsRun hkind'
      have hmem := hs.mem_run hsRun
      by_cases hself : id = owner
      · exact hc.unmarked s hsRun (hself ▸ hkind')
      · obtain ⟨-, hparent', -⟩ := ha.nested owner s id hmem hkind' hself
        exact hother (Option.some.inj (hparent.symm.trans hparent'))
    obtain ⟨hparent', hspan'⟩ := header_collapse_of_not_mem_run hp hs hid hnot
    rw [hparent', hspan']
    exact ⟨Nat.lt_succ_of_lt hid, hparent, hspan⟩

/-- After a collapse no list has two tokens for the same nested node. -/
theorem Arranged.once_collapse (ha : forest.Arranged)
    (hc : forest.Collapsible owner first count application.marker before left mark right after)
    (a : NodeId) : Once a ((forest.collapse owner first count application).tokenList a) := by
  have hs := hc.toSplits
  have hp := ha.packed
  by_cases hnew : a = forest.nextId
  · subst hnew
    rw [tokenList_collapse_nextId hp hs]
    refine pairwise_insert ?_ ?_ ?_
    · -- the run has no marker of its owner, so that all its nodes are nested ones
      refine ((ha.once owner).sublist (sublist_run hs)).imp_of_mem ?_
      intro s t hsMem _ hst id hkind hkind'
      obtain rfl := hst id hkind hkind'
      exact absurd hkind (hc.unmarked s hsMem)
    · intro t _ id _ hkind
      exact (TokenKind.node.inj hkind).symm
    · intro t _ id hkind _
      exact (TokenKind.node.inj hkind).symm
  · by_cases hid : a = owner
    · subst hid
      rw [tokenList_collapse_owner hp hs]
      refine pairwise_insert ((ha.once a).sublist (sublist_rest hs)) ?_ ?_
      · intro t ht id hkind hkind'
        have hmem := hs.mem_rest (List.mem_append_left after ht)
        exact absurd (TokenKind.node.inj hkind').symm (ha.ne_nextId hmem hkind)
      · intro t ht id hkind' hkind
        have hmem := hs.mem_rest (List.mem_append_right before ht)
        exact absurd (TokenKind.node.inj hkind').symm (ha.ne_nextId hmem hkind)
    · rw [tokenList_collapse_of_ne hp (hs.hasRun hp) hnew hid]
      exact ha.once a

/-- After a collapse every node can be reached from the root. -/
theorem Arranged.led_collapse (ha : forest.Arranged)
    (hc : forest.Collapsible owner first count application.marker before left mark right after)
    {id : NodeId} (hid : id.index < forest.nodes.size + 1) :
    ∃ slots, Leads (forest.collapse owner first count application) slots id := by
  obtain ⟨above, habove⟩ := ha.led owner hc.toSplits.owner_lt
  by_cases hnew : id = forest.nextId
  · rw [hnew]
    exact Leads.collapse_nextId ha hc habove
  · obtain ⟨slots, hslots⟩ := ha.led id (index_lt_of_ne_nextId hid hnew)
    obtain ⟨slots', hslots', -⟩ := habove.collapse ha hc hslots
    exact ⟨slots', hslots'⟩

/-- An arranged forest stays arranged. -/
theorem Arranged.collapse (ha : forest.Arranged)
    (hc : forest.Collapsible owner first count application.marker before left mark right after) :
    (forest.collapse owner first count application).Arranged := by
  have hs := hc.toSplits
  have hp := ha.packed
  have hsize := size_collapse forest owner first count application
  have hroot : Forest.root.index < forest.nodes.size := ha.size_pos
  refine ⟨hp.collapse (hs.hasRun hp), ?_, ?_, ?_, ?_, ha.once_collapse hc, ?_⟩
  · omega
  · obtain ⟨hparent, -⟩ := header_collapse_of_not_mem_run hp hs hroot
      fun t ht => ha.unmarked owner t (hs.mem_run ht)
    rw [hparent]
    exact ha.parent_root
  · intro a t id ht hkind hne
    rw [hsize]
    exact ha.nested_collapse hc ht hkind hne
  · intro a t ht hkind
    rcases mem_tokenList_collapse hp hs ht with
      ⟨rfl, hrun | rfl⟩ | ⟨rfl, hrest | rfl⟩ | ⟨-, -, ht⟩
    · exact ha.unmarked owner t (hs.mem_run hrun) hkind
    · exact nextId_ne_of_index_lt hroot (TokenKind.node.inj hkind).symm
    · exact ha.unmarked _ t (hs.mem_rest hrest) hkind
    · exact nextId_ne_of_index_lt hroot (TokenKind.node.inj hkind).symm
    · exact ha.unmarked a t ht hkind
  · intro id hid
    rw [hsize] at hid
    exact ha.led_collapse hc hid

/-- A delimiter of the new forest is one of the old forest, in the owner if it is in the run. -/
theorem mem_tokenList_of_isDelimiter (hp : forest.Packed)
    (hs : forest.Splits owner first count application.marker before left mark right after)
    {a : NodeId} {t : Token}
    (ht : t ∈ (forest.collapse owner first count application).tokenList a)
    (hdelimiter : t.IsDelimiter) :
    (a = forest.nextId ∧ t ∈ left ++ right) ∨ (a = owner ∧ t ∈ before ++ after) ∨
      (a ≠ forest.nextId ∧ a ≠ owner ∧ t ∈ forest.tokenList a) := by
  rcases mem_tokenList_collapse hp hs ht with
    ⟨rfl, hrun | rfl⟩ | ⟨rfl, hrest | rfl⟩ | hother
  · exact Or.inl ⟨rfl, hrun⟩
  · exact absurd hdelimiter (not_isDelimiter_of_node rfl)
  · exact Or.inr (Or.inl ⟨rfl, hrest⟩)
  · exact absurd hdelimiter (not_isDelimiter_of_node rfl)
  · exact Or.inr (Or.inr hother)

/-- A delimiter of a run starts elsewhere than those in front of the run and behind it. -/
theorem Separate.start_ne (hd : forest.Separate)
    (hs : forest.Splits owner first count application.marker before left mark right after)
    {s t : Token} (hsRun : s ∈ left ++ mark :: right) (ht : t ∈ before ++ after)
    (hsd : s.IsDelimiter) (htd : t.IsDelimiter) : s.span.start ≠ t.span.start := by
  have hwithin := hd.within owner
  rw [hs.list_eq] at hwithin
  obtain ⟨hinner, -, hbehind⟩ := List.pairwise_append.mp hwithin
  obtain ⟨-, -, hfront⟩ := List.pairwise_append.mp hinner
  rcases List.mem_append.mp ht with ht | ht
  · exact (hfront t ht s hsRun htd hsd).symm
  · exact hbehind s (List.mem_append_right _ hsRun) t ht hsd htd

/-- Delimiters stay apart. -/
theorem Separate.collapse (hd : forest.Separate) (hp : forest.Packed)
    (hs : forest.Splits owner first count application.marker before left mark right after) :
    (forest.collapse owner first count application).Separate := by
  have hrun := hs.hasRun hp
  have happart : ∀ s t, s ∈ left ++ right → t ∈ before ++ after → s.IsDelimiter →
      t.IsDelimiter → s.span.start ≠ t.span.start := by
    intro s t hsRun ht hsd htd
    refine hd.start_ne hs ?_ ht hsd htd
    simp only [List.mem_append, List.mem_cons] at hsRun ⊢
    tauto
  constructor
  · intro a b s t hsMem htMem hsd htd heq
    rcases mem_tokenList_of_isDelimiter hp hs hsMem hsd with
      ⟨rfl, hsRun⟩ | ⟨rfl, hsRest⟩ | ⟨hna, hoa, hsOld⟩
    · rcases mem_tokenList_of_isDelimiter hp hs htMem htd with
        ⟨rfl, -⟩ | ⟨rfl, htRest⟩ | ⟨hnb, hob, htOld⟩
      · rfl
      · exact absurd heq (happart s t hsRun htRest hsd htd)
      · exact absurd (hd.across _ _ s t (hs.mem_run hsRun) htOld hsd htd heq).symm hob
    · rcases mem_tokenList_of_isDelimiter hp hs htMem htd with
        ⟨rfl, htRun⟩ | ⟨rfl, -⟩ | ⟨hnb, hob, htOld⟩
      · exact absurd heq.symm (happart t s htRun hsRest htd hsd)
      · rfl
      · exact absurd (hd.across _ _ s t (hs.mem_rest hsRest) htOld hsd htd heq).symm hob
    · rcases mem_tokenList_of_isDelimiter hp hs htMem htd with
        ⟨rfl, htRun⟩ | ⟨rfl, htRest⟩ | ⟨-, -, htOld⟩
      · exact absurd (hd.across _ _ s t hsOld (hs.mem_run htRun) hsd htd heq) hoa
      · exact absurd (hd.across _ _ s t hsOld (hs.mem_rest htRest) hsd htd heq) hoa
      · exact hd.across a b s t hsOld htOld hsd htd heq
  · intro a
    by_cases hnew : a = forest.nextId
    · subst hnew
      rw [tokenList_collapse_nextId hp hs]
      refine pairwise_insert ((hd.within owner).sublist (sublist_run hs)) ?_ ?_
      · intro t _ _ htd
        exact absurd htd (not_isDelimiter_of_node rfl)
      · intro t _ htd _
        exact absurd htd (not_isDelimiter_of_node rfl)
    · by_cases hid : a = owner
      · subst hid
        rw [tokenList_collapse_owner hp hs]
        refine pairwise_insert ((hd.within a).sublist (sublist_rest hs)) ?_ ?_
        · intro t _ _ htd
          exact absurd htd (not_isDelimiter_of_node rfl)
        · intro t _ htd _
          exact absurd htd (not_isDelimiter_of_node rfl)
      · rw [tokenList_collapse_of_ne hp hrun hnew hid]
        exact hd.within a

end Invariants

end Collapse
end Forest
end ExprLang
