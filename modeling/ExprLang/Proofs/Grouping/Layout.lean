import ExprLang.Proofs.Grouping.Structure
import ExprLang.Proofs.Lexing.Contexts
import ExprLang.Proofs.Lexing.Coverage

/-!
# Where the tokens of a list stand

The tokens of every list stand in order within the span of their node, and none of them is
empty. The list of a context starts with its opening delimiter, so that everything else in it
starts behind the start of the context. Grouping keeps this: the new node has the span of its
run, and an operator is never taken together with a delimiter of the context.

Main definitions:
* `InOrder`: spans in order within another one;
* `Laid`: a forest in which the tokens of all lists are in order.

Main results:
* `InOrder.eq_of_mem_iff`: what is in order is made out by its members;
* `Laid.inOrder_leafSpans`: the leaves of such a forest are in order;
* `Lexed.laid`, `Laid.collapse`: the lexed forest, and one step of the grouping;
* `LexInput.laid_parse`: the forest of a parsed text.
-/

namespace ExprLang

/-- Spans in order within another one, none of them empty. -/
structure InOrder (whole : Span) (spans : List Span) : Prop where
  nonempty : ∀ s ∈ spans, s.start < s.stop
  ordered : spans.Pairwise fun s t => s.stop ≤ t.start
  inside : ∀ s ∈ spans, whole.start ≤ s.start ∧ s.stop ≤ whole.stop

namespace InOrder

variable {whole : Span} {spans : List Span}

theorem sublist (h : InOrder whole spans) {some : List Span} (hsub : some.Sublist spans) :
    InOrder whole some where
  nonempty := fun s hs => h.nonempty s (hsub.subset hs)
  ordered := h.ordered.sublist hsub
  inside := fun s hs => h.inside s (hsub.subset hs)

/-- Spans in order are within the span from the first one to the last one. -/
theorem within (h : InOrder whole spans) (hne : spans ≠ []) :
    InOrder ((spans.head hne).merge (spans.getLast hne)) spans ∧
      (spans.head hne).merge (spans.getLast hne) =
        ⟨(spans.head hne).start, (spans.getLast hne).stop⟩ := by
  have hfirst : ∀ s ∈ spans, (spans.head hne).start ≤ s.start := by
    obtain ⟨first, rest, rfl⟩ := List.exists_cons_of_ne_nil hne
    intro s hs
    rcases List.mem_cons.mp hs with rfl | hs
    · exact le_rfl
    · have hpos := h.nonempty first List.mem_cons_self
      have hbefore := (List.pairwise_cons.mp h.ordered).1 s hs
      simp only [List.head_cons]
      omega
  have hlast : ∀ s ∈ spans, s.stop ≤ (spans.getLast hne).stop := by
    intro s hs
    have hordered := h.ordered
    rw [← List.dropLast_concat_getLast hne] at hs hordered
    rcases List.mem_append.mp hs with hs | hs
    · have hpos := h.nonempty _ (List.getLast_mem hne)
      have hbefore := (List.pairwise_append.mp hordered).2.2 s hs _ (List.mem_singleton_self _)
      omega
    · rw [List.mem_singleton.mp hs]
  have hspan : (spans.head hne).merge (spans.getLast hne) =
      ⟨(spans.head hne).start, (spans.getLast hne).stop⟩ := by
    unfold Span.merge
    rw [Nat.min_eq_left (hfirst _ (List.getLast_mem hne)),
      Nat.max_eq_right (hlast _ (List.head_mem hne))]
  refine ⟨⟨h.nonempty, h.ordered, ?_⟩, hspan⟩
  intro s hs
  rw [hspan]
  exact ⟨hfirst s hs, hlast s hs⟩

/-- A part of the spans may be replaced by the span from its first one to its last one. -/
theorem replace {before run after : List Span} (h : InOrder whole (before ++ run ++ after))
    (hne : run ≠ []) :
    InOrder whole (before ++ (run.head hne).merge (run.getLast hne) :: after) := by
  have hrun := h.sublist ((List.sublist_append_right before run).trans
    (List.sublist_append_left _ after))
  obtain ⟨hwithin, hspan⟩ := hrun.within hne
  have hhead := List.head_mem hne
  have hlast := List.getLast_mem hne
  obtain ⟨hfront, -, hafter⟩ := List.pairwise_append.mp h.ordered
  obtain ⟨hbefore, -, hinto⟩ := List.pairwise_append.mp hfront
  rw [hspan]
  constructor
  · intro s hs
    rcases List.mem_append.mp hs with hs | hs
    · exact h.nonempty s (by simp [hs])
    · rcases List.mem_cons.mp hs with rfl | hs
      · have hpos := hrun.nonempty _ hhead
        have hle := (hwithin.inside _ hhead).2
        rw [hspan] at hle
        simp only at hle ⊢
        omega
      · exact h.nonempty s (by simp [hs])
  · refine List.pairwise_append.mpr ⟨hbefore, List.pairwise_cons.mpr ⟨?_, ?_⟩, ?_⟩
    · exact fun t ht => hafter _ (List.mem_append_right _ hlast) t ht
    · exact (List.pairwise_append.mp h.ordered).2.1
    · intro s hs t ht
      rcases List.mem_cons.mp ht with rfl | ht
      · exact hinto s hs (run.head hne) hhead
      · exact hafter s (List.mem_append_left _ hs) t ht
  · intro s hs
    rcases List.mem_append.mp hs with hs | hs
    · exact h.inside s (by simp [hs])
    · rcases List.mem_cons.mp hs with rfl | hs
      · exact ⟨(hrun.inside _ hhead).1, (hrun.inside _ hlast).2⟩
      · exact h.inside s (by simp [hs])

/-- Another span may follow. -/
theorem concat {start reach : Nat} (h : InOrder ⟨start, reach⟩ spans) {s : Span}
    (hstart : start ≤ s.start) (hreach : reach ≤ s.start) (hpos : s.start < s.stop) :
    InOrder ⟨start, s.stop⟩ (spans ++ [s]) where
  nonempty := List.forall_mem_append.mpr ⟨h.nonempty, List.forall_mem_singleton.mpr hpos⟩
  ordered := by
    refine List.pairwise_append.mpr ⟨h.ordered, List.pairwise_singleton _ _, ?_⟩
    intro t ht _ hs
    rw [List.mem_singleton.mp hs]
    exact (h.inside t ht).2.trans hreach
  inside := by
    refine List.forall_mem_append.mpr ⟨fun t ht => ⟨(h.inside t ht).1, ?_⟩,
      List.forall_mem_singleton.mpr ⟨hstart, le_rfl⟩⟩
    exact (h.inside t ht).2.trans (hreach.trans hpos.le)

/-- Spans in order stay so within a longer span. -/
theorem mono {start reach stop : Nat} (h : InOrder ⟨start, reach⟩ spans) (hle : reach ≤ stop) :
    InOrder ⟨start, stop⟩ spans :=
  ⟨h.nonempty, h.ordered, fun s hs => ⟨(h.inside s hs).1, (h.inside s hs).2.trans hle⟩⟩

/-- Each span may be replaced by spans in order within it. -/
theorem flatMap {α : Type} {items : List α} {outer : α → Span} {inner : α → List Span}
    (h : InOrder whole (items.map outer)) (hinner : ∀ a ∈ items, InOrder (outer a) (inner a)) :
    InOrder whole (items.flatMap inner) where
  nonempty := by
    intro s hs
    obtain ⟨a, ha, hs⟩ := List.mem_flatMap.mp hs
    exact (hinner a ha).nonempty s hs
  ordered := by
    refine List.pairwise_flatMap.mpr ⟨fun a ha => (hinner a ha).ordered, ?_⟩
    refine (List.pairwise_map.mp h.ordered).imp_of_mem ?_
    intro a b ha hb hab s hs t ht
    exact ((hinner a ha).inside s hs).2.trans (hab.trans ((hinner b hb).inside t ht).1)
  inside := by
    intro s hs
    obtain ⟨a, ha, hs⟩ := List.mem_flatMap.mp hs
    have houter := h.inside (outer a) (List.mem_map_of_mem ha)
    have hwithin := (hinner a ha).inside s hs
    exact ⟨houter.1.trans hwithin.1, hwithin.2.trans houter.2⟩

/-- What has its spans in order is made out by its members. -/
theorem eq_of_mem_iff {α : Type} {items others : List α} {span : α → Span} {whole' : Span}
    (h : InOrder whole (items.map span)) (h' : InOrder whole' (others.map span))
    (hmem : ∀ a, a ∈ items ↔ a ∈ others) : items = others := by
  have hlater : ∀ {whole : Span} {items : List α}, InOrder whole (items.map span) →
      items.Pairwise fun a b => (span a).start < (span b).start := by
    intro whole items h
    refine (List.pairwise_map.mp h.ordered).imp_of_mem ?_
    intro a b ha _ hab
    exact (h.nonempty _ (List.mem_map_of_mem ha)).trans_le hab
  have hantisymm : Std.Antisymm fun a b : α => (span a).start < (span b).start :=
    ⟨fun _ _ hab hba => absurd hab hba.asymm⟩
  have hirrefl : Std.Irrefl fun a b : α => (span a).start < (span b).start :=
    ⟨fun _ => lt_irrefl _⟩
  exact (hlater h).eq_of_mem_iff (hlater h') hmem

end InOrder

namespace Forest

/-- A forest in which the tokens of every list are in order, behind the opener of a context. -/
structure Laid (forest : Forest) : Prop where
  rows : ∀ id, id.index < forest.nodes.size →
    InOrder (forest.header id).span ((forest.tokenList id).map Token.span)
  opened : ∀ id, id.index < forest.nodes.size → id ≠ root → (forest.header id).operator = none →
    ∃ marker rest, forest.tokenList id = marker :: rest ∧ marker.kind = .node id

/-- The leaves below each node are in order within its span. -/
theorem Laid.inOrder_leafSpans {forest : Forest} (hl : forest.Laid) (ha : forest.Arranged)
    (limit : Nat) {id : NodeId} (hid : id.index < forest.nodes.size) :
    InOrder (forest.header id).span (forest.leafSpans limit id) := by
  induction limit generalizing id with
  | zero => exact ⟨(fun _ h => nomatch h), List.Pairwise.nil, (fun _ h => nomatch h)⟩
  | succ limit ih =>
      have hrow := hl.rows id hid
      rw [leafSpans_succ]
      refine hrow.flatMap fun token htoken => ?_
      by_cases hnested : ∃ child, token.kind = .node child ∧ child ≠ id
      · obtain ⟨child, hkind, hne⟩ := hnested
        obtain ⟨hchild, -, hspan⟩ := ha.nested id token child htoken hkind hne
        rw [tokenSpans_of_node hkind hne, hspan]
        exact ih hchild
      · have hleaf : ∀ child, token.kind = .node child → child = id := fun child hkind =>
          by_contra fun hne => hnested ⟨child, hkind, hne⟩
        rw [tokenSpans_of_forall_ne hleaf]
        have hpos := hrow.nonempty token.span (List.mem_map_of_mem htoken)
        exact ⟨List.forall_mem_singleton.mpr hpos, List.pairwise_singleton _ _,
          List.forall_mem_singleton.mpr ⟨le_rfl, le_rfl⟩⟩

section Collapse

variable {forest : Forest} {owner : NodeId} {first count : Nat}
  {application : OperatorApplication} {before left right after : List Token} {mark : Token}

/-- The span of a run is that from its first token to its last one. -/
theorem runSpan_eq {run : Array Token} (hne : run.toList.map Token.span ≠ []) :
    runSpan run = ((run.toList.map Token.span).head hne).merge
      ((run.toList.map Token.span).getLast hne) := by
  have htokens : run.toList ≠ [] := fun h => hne (by rw [h, List.map_nil])
  have hfirst : run.getD 0 default = run.toList.head htokens := by
    rw [Array.getD_eq_getD_getElem?, ← Array.getElem?_toList, List.head_eq_getElem,
      List.getElem?_eq_getElem (List.length_pos_of_ne_nil htokens), Option.getD_some]
  have hlast : run.back?.getD default = run.toList.getLast htokens := by
    rw [← Array.getLast?_toList, List.getLast?_eq_some_getLast htokens, Option.getD_some]
  rw [runSpan, hfirst, hlast, List.head_map, List.getLast_map]

/-- The span of the new node: from the first token of the run to the last one. -/
theorem collapsedToken_span (hp : forest.Packed)
    (hs : forest.Splits owner first count application.marker before left mark right after)
    (hne : (left ++ mark :: right).map Token.span ≠ []) :
    runSpan (forest.markedRun owner first count application.marker) =
      (((left ++ mark :: right).map Token.span).head hne).merge
        (((left ++ mark :: right).map Token.span).getLast hne) := by
  have hspans : (forest.markedRun owner first count application.marker).toList.map Token.span =
      (left ++ mark :: right).map Token.span := by
    rw [toList_markedRun hp hs, List.map_append, List.map_append, List.map_cons, List.map_cons]
  simp only [← hspans]
  exact runSpan_eq _

/-- Grouping keeps the tokens of all lists in order. -/
theorem Laid.collapse (hl : forest.Laid) (hp : forest.Packed)
    (hc : forest.Collapsible owner first count application.marker before left mark right after) :
    (forest.collapse owner first count application).Laid := by
  have hs := hc.toSplits
  have howner := hs.owner_lt
  have hrun := hs.hasRun hp
  have hne : (left ++ mark :: right).map Token.span ≠ [] := by simp
  have hspan := collapsedToken_span hp hs hne
  have hrow := hl.rows owner howner
  rw [hs.list_eq, List.map_append, List.map_append] at hrow
  constructor
  · intro id hid
    rw [size_collapse] at hid
    by_cases hnew : id = forest.nextId
    · subst hnew
      rw [header_collapse_nextId forest howner, tokenList_collapse_nextId hp hs]
      have hwithin := ((hrow.sublist ((List.sublist_append_right _ _).trans
        (List.sublist_append_left _ _))).within hne).1
      rw [← hspan] at hwithin
      simpa only [List.map_append, List.map_cons] using hwithin
    · rw [header_collapse forest hnew howner]
      by_cases hid' : id = owner
      · subst hid'
        rw [tokenList_collapse_owner hp hs, List.map_append, List.map_cons]
        simp only [hspan]
        exact hrow.replace hne
      · rw [tokenList_collapse_of_ne hp hrun hnew hid']
        exact hl.rows id (index_lt_of_ne_nextId hid hnew)
  · intro id hid hroot hop
    rw [size_collapse] at hid
    by_cases hnew : id = forest.nextId
    · rw [hnew, header_collapse_nextId forest howner] at hop
      cases hop
    · rw [header_collapse forest hnew howner] at hop
      obtain ⟨marker, rest, hlist, hkind⟩ :=
        hl.opened id (index_lt_of_ne_nextId hid hnew) hroot hop
      by_cases hid' : id = owner
      · -- the marker is in front of the run
        subst hid'
        rw [tokenList_collapse_owner hp hs]
        rw [hs.list_eq] at hlist
        cases before with
        | cons head before =>
            obtain ⟨rfl, -⟩ := List.cons.inj hlist
            exact ⟨head, _, rfl, hkind⟩
        | nil =>
            exfalso
            cases left with
            | nil =>
                obtain ⟨rfl, -⟩ := List.cons.inj hlist
                exact not_isDelimiter_of_node hkind hc.mark_delimiter
            | cons head left =>
                obtain ⟨rfl, -⟩ := List.cons.inj hlist
                exact hc.unmarked head (by simp) hkind
      · rw [tokenList_collapse_of_ne hp hrun hnew hid']
        exact ⟨marker, rest, hlist, hkind⟩

end Collapse

end Forest

/-- In a lexed forest the tokens of all lists are in order. -/
theorem Lexed.laid {input : LexInput} {forest : Forest} {stop : Nat}
    (h : Lexed input forest stop) : forest.Laid := by
  constructor
  · intro id hid
    have hcovers := h.covers hid
    refine ⟨?_, ?_, ?_⟩
    · simpa using hcovers.nonempty
    · exact List.pairwise_map.mpr hcovers.ordered
    · simpa using hcovers.inside
  · intro id hid hroot _
    obtain ⟨marker, inner, last?, hlist, hd⟩ := h.isDelimited hid hroot
    exact ⟨marker, inner ++ last?.toList, hlist, hd.first_marker⟩

namespace Grouping

/-- Grouping one operator keeps the tokens of all lists in order. -/
theorem laid_groupOperator {table : RuleSetTable} {grouping : Grouping} {owner : NodeId}
    {slot : Nat} {path : OperatorPath} {token : Token} (hp : grouping.forest.Packed)
    (hl : grouping.forest.Laid) (htoken : grouping.forest.token? owner slot = some token)
    (hdelimiter : token.IsDelimiter) :
    (grouping.groupOperator table owner slot path).forest.Laid := by
  rcases groupOperator_cases table path hp htoken hdelimiter with
    ⟨fault, heq⟩ | ⟨first, count, application, before, left, right, after, hc, -, heq⟩
  · rw [heq]
    exact hl
  · rw [heq]
    exact hl.collapse hp hc

/-- Grouping keeps the tokens of all lists in order. -/
theorem laid_run (table : RuleSetTable) {grouping : Grouping}
    (ha : grouping.forest.Arranged) (hl : grouping.forest.Laid) :
    (run table grouping).forest.Laid := by
  refine (run_preserves_forest (P := fun forest => forest.Arranged ∧ forest.Laid)
    (fun _ h => h.1.packed) ?_ ⟨ha, hl⟩).2
  rintro forest owner first count application before left right after mark ⟨harranged, hlaid⟩ hc
  exact ⟨harranged.collapse hc, hlaid.collapse harranged.packed hc⟩

end Grouping

/-- In the forest of a parsed text the tokens of all lists are in order. -/
theorem LexInput.laid_parse (input : LexInput) : input.parse.forest.Laid :=
  Grouping.laid_run input.table (lexed_final input []).arranged (lexed_final input []).laid

end ExprLang
