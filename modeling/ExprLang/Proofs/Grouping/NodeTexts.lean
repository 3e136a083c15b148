import ExprLang.Forest.Content
import ExprLang.Proofs.Grouping.Markers
import ExprLang.Proofs.Grouping.Placement
import ExprLang.Proofs.Lexing.Boundaries
import ExprLang.Proofs.Lexing.Contexts

/-!
# The texts of nodes

A context reads as its opening delimiter, its inner text, and its closing delimiter, if it has one.
An operator node reads from its first token to its last one. Grouping keeps this for the nodes that
it does not make itself: it takes no delimiter out of the list of a context, and a run of tokens is
replaced by one that has the same text.

Main definitions:
* `Joins`: a span from the first one of a list to the last one;
* `Forest.Delimited`: what the lists of contexts and operator nodes begin and end with;
* `Forest.Spelled`: how the texts of nodes are made up.

Main results:
* `Forest.Delimited.collapse`: one step of the grouping;
* `Forest.Delimited.nodeText_eq`: the text of a context;
* `LexInput.spelled_group`: the lexed forest and the grouped one.
-/

namespace ExprLang

/-- A span from the start of the first one of a list to the end of its last one. -/
structure Joins (whole : Span) (spans : List Span) : Prop where
  start_eq : spans.head?.map Span.start = some whole.start
  stop_eq : spans.getLast?.map Span.stop = some whole.stop

/-- Spans in order are joined by what reaches over them. -/
theorem InOrder.joins {whole : Span} {spans : List Span} (h : InOrder whole spans)
    (hne : spans ≠ []) : Joins ((spans.head hne).merge (spans.getLast hne)) spans := by
  obtain ⟨-, hspan⟩ := h.within hne
  rw [hspan]
  refine ⟨?_, ?_⟩
  · rw [List.head?_eq_some_head hne, Option.map_some]
  · rw [List.getLast?_eq_some_getLast hne, Option.map_some]

/-- Some of the spans may be replaced by what joins them. -/
theorem Joins.replace {whole span : Span} {before run after : List Span}
    (h : Joins whole (before ++ run ++ after)) (hspan : Joins span run) :
    Joins whole (before ++ span :: after) where
  start_eq := by
    rw [← h.start_eq, List.append_cons]
    simp only [List.head?_append, List.head?_singleton, Option.map_or, Option.map_some,
      hspan.start_eq]
  stop_eq := by
    rw [← h.stop_eq, List.append_cons]
    simp only [List.getLast?_append, List.getLast?_singleton, Option.map_or, Option.map_some,
      hspan.stop_eq]

/-- The tokens at the ends of a list whose spans are joined. -/
theorem Joins.exists_ends {whole : Span} {tokens : List Token}
    (h : Joins whole (tokens.map Token.span)) :
    ∃ first last, tokens.head? = some first ∧ tokens.getLast? = some last ∧
      whole = ⟨first.span.start, last.span.stop⟩ := by
  have hstart := h.start_eq
  have hstop := h.stop_eq
  rw [List.head?_map, Option.map_map] at hstart
  rw [List.getLast?_map, Option.map_map] at hstop
  obtain ⟨first, hfirst, hstart⟩ := Option.map_eq_some_iff.mp hstart
  obtain ⟨last, hlast, hstop⟩ := Option.map_eq_some_iff.mp hstop
  exact ⟨first, last, hfirst, hlast, congrArg₂ Span.mk hstart.symm hstop.symm⟩

section Texts

variable {source : Source} {forest : Forest} {i j k : Nat}

/-- The text between two places. -/
theorem Source.IsBoundary.exists_slice? (hi : source.IsBoundary i) (hj : source.IsBoundary j)
    (hle : i ≤ j) : ∃ text, source.slice? i j = some text := by
  obtain ⟨rest, hat⟩ := hi
  obtain ⟨head, behind, rfl, rfl⟩ := hat.exists_append_of_le hj hle
  exact ⟨head, hat.slice?_eq⟩

namespace Forest

/-- A span between two places of the source has a text. -/
theorem slice?_eq_spanText (hi : forest.source.IsBoundary i) (hj : forest.source.IsBoundary j)
    (hle : i ≤ j) : forest.source.slice? i j = some (forest.spanText ⟨i, j⟩) := by
  obtain ⟨text, htext⟩ := hi.exists_slice? hj hle
  rw [spanText, htext, Option.getD_some]

/-- The text up to a place, and the text from there on. -/
theorem spanText_append (hi : forest.source.IsBoundary i) (hj : forest.source.IsBoundary j)
    (hk : forest.source.IsBoundary k) (hij : i ≤ j) (hjk : j ≤ k) :
    forest.spanText ⟨i, k⟩ = forest.spanText ⟨i, j⟩ ++ forest.spanText ⟨j, k⟩ := by
  obtain ⟨rest, hat⟩ := hi
  obtain ⟨head, behind, rfl, rfl⟩ := hat.exists_append_of_le hj hij
  obtain ⟨middle, behind, rfl, rfl⟩ := hat.behind.exists_append_of_le hk hjk
  have hfirst := hat.slice?_eq
  have hsecond := hat.behind.slice?_eq
  rw [← List.append_assoc] at hat
  have hboth := hat.slice?_eq
  rw [Text.byteSize_append, ← Nat.add_assoc] at hboth
  rw [spanText, spanText, spanText, hfirst, hsecond, hboth]
  rfl

section Contexts

variable {id : NodeId} {first : Token} {inner : List Token} {last? : Option Token}
  (hlist : forest.tokenList id = first :: (inner ++ last?.toList))
  (hd : Delimits (forest.header id) id first inner last?)

include hlist hd

/-- The inner text of a context starts behind its opening delimiter. -/
theorem innerStart_eq (hopener : (forest.header id).opener ≠ none) :
    forest.innerStart id = first.span.stop := by
  obtain ⟨opener, hopener⟩ := Option.ne_none_iff_exists'.mp hopener
  have hfirst : (forest.tokens id)[0]? = some first := by
    rw [← Array.getElem?_toList]
    exact congrArg (·[0]?) hlist
  unfold innerStart node
  have hmarker : first.isMarkerOf id = true := decide_eq_true hd.first_marker
  simp only [hopener, hfirst, hmarker, if_true]

/-- It ends in front of the closing delimiter, or where the context ends. -/
theorem innerStop_eq : forest.innerStop id =
    match last? with
    | some last => max last.span.start (forest.innerStart id)
    | none => (forest.header id).span.stop := by
  unfold innerStop node
  have hcloser := hd.closer_iff
  cases last? with
  | none =>
      have hnone : (forest.header id).closer = none := by
        rw [← Option.not_isSome_iff_eq_none, ← hcloser]
        exact Bool.false_ne_true
      simp only [hnone]
  | some last =>
      obtain ⟨closer, hsome⟩ := Option.isSome_iff_exists.mp hcloser.symm
      have hlast : (forest.tokens id).back? = some last := by
        rw [← Array.getLast?_toList]
        refine (congrArg List.getLast? hlist).trans ?_
        rw [Option.toList_some, ← List.cons_append, List.getLast?_concat]
      have hmarker : last.isMarkerOf id = true := decide_eq_true (hd.last_marker last rfl)
      simp only [hsome, hlast, hmarker, if_true]

/--
A context that is a part of the source reads as its opening delimiter, its inner text and its
closing delimiter.
-/
theorem nodeText_eq (hopener : (forest.header id).opener ≠ none)
    (hrow : InOrder (forest.header id).span ((forest.tokenList id).map Token.span))
    (hwhole : forest.source.IsPart (forest.header id).span)
    (hparts : ∀ token ∈ forest.tokenList id, forest.source.IsPart token.span) :
    forest.source.slice? (forest.innerStart id) (forest.innerStop id) =
        some (forest.innerText id) ∧
      forest.nodeText id =
        forest.tokenText first ++ forest.innerText id ++ last?.toList.flatMap forest.tokenText := by
  have hstart := innerStart_eq hlist hd hopener
  have hstop := innerStop_eq hlist hd
  rw [hlist] at hrow hparts
  have hopen := hparts first List.mem_cons_self
  have hwithin := (hrow.inside first.span List.mem_cons_self).2
  have hnode : forest.nodeText id =
      forest.spanText ⟨first.span.start, (forest.header id).span.stop⟩ := by
    rw [← hd.start_eq]
    rfl
  unfold innerText
  rw [hnode, hstop, hstart]
  cases last? with
  | none =>
      refine ⟨slice?_eq_spanText hopen.stop hwhole.stop hwithin, ?_⟩
      rw [spanText_append hopen.start hopen.stop hwhole.stop hopen.nonempty.le hwithin]
      simp [tokenText]
  | some last =>
      have hclose := hparts last (by simp)
      have hafter : first.span.stop ≤ last.span.start :=
        (List.pairwise_cons.mp hrow.ordered).1 last.span (by simp)
      simp only [Nat.max_eq_left hafter]
      refine ⟨slice?_eq_spanText hopen.stop hclose.start hafter, ?_⟩
      rw [hd.stop_eq last rfl,
        spanText_append hopen.start hopen.stop hclose.stop hopen.nonempty.le
          (hafter.trans hclose.nonempty.le),
        spanText_append hopen.stop hclose.start hclose.stop hafter hclose.nonempty.le]
      simp [tokenText]

end Contexts

end Forest

end Texts

namespace Forest

/--
A forest of parts of its source, whose contexts are delimited and whose operator nodes reach over
their lists.
-/
structure Delimited (forest : Forest) : Prop extends Formed forest where
  parts : forest.InParts forest.source
  context : ∀ id, id.index < forest.nodes.size → (forest.header id).opener ≠ none →
    IsDelimited (forest.header id) id (forest.tokenList id)
  operator : ∀ id, id.index < forest.nodes.size → (forest.header id).operator ≠ none →
    Joins (forest.header id).span ((forest.tokenList id).map Token.span)

section Collapse

variable {forest : Forest} {owner : NodeId} {first count : Nat}
  {application : OperatorApplication} {before left right after : List Token} {mark : Token}

/-- The span of a new node joins those of its run. -/
theorem Laid.joins_runSpan (hl : forest.Laid) (hp : forest.Packed)
    (hs : forest.Splits owner first count application.marker before left mark right after) :
    Joins (runSpan (forest.markedRun owner first count application.marker))
      ((left ++ mark :: right).map Token.span) := by
  have hne : (left ++ mark :: right).map Token.span ≠ [] := by simp
  have hrow := hl.rows owner hs.owner_lt
  rw [hs.list_eq, List.map_append, List.map_append] at hrow
  have hrun := hrow.sublist ((List.sublist_append_right _ _).trans (List.sublist_append_left _ _))
  rw [collapsedToken_span hp hs hne]
  exact hrun.joins hne

/-- Grouping leaves the delimiters of contexts where they are. -/
theorem Delimited.collapse (h : forest.Delimited)
    (hc : forest.Collapsible owner first count application.marker before left mark right after) :
    (forest.collapse owner first count application).Delimited := by
  have hs := hc.toSplits
  have hp := h.arranged.packed
  have howner := hs.owner_lt
  have hjoins := h.laid.joins_runSpan hp hs
  refine ⟨h.toFormed.collapse hc, h.parts.collapse hp hs, ?_, ?_⟩
  · intro id hid hopener
    rw [size_collapse] at hid
    by_cases hnew : id = forest.nextId
    · rw [hnew, header_collapse_nextId forest howner] at hopener
      exact absurd rfl hopener
    · rw [header_collapse forest hnew howner] at hopener ⊢
      have hlist := h.context id (index_lt_of_ne_nextId hid hnew) hopener
      by_cases hid' : id = owner
      · subst hid'
        rw [tokenList_collapse_owner hp hs]
        rw [hs.list_eq] at hlist
        refine (hlist.replace (by simp) (fun token htoken => ?_) fun heq => ?_).congr rfl rfl
        · rcases List.mem_append.mp htoken with htoken | htoken
          · exact hc.unmarked token (List.mem_append_left _ htoken)
          · rcases List.mem_cons.mp htoken with rfl | htoken
            · exact fun hkind => not_isDelimiter_of_node hkind hc.mark_delimiter
            · exact hc.unmarked token (List.mem_append_right _ htoken)
        · exact hnew (TokenKind.node.inj heq).symm
      · rw [tokenList_collapse_of_ne hp (hs.hasRun hp) hnew hid']
        exact hlist.congr rfl rfl
  · intro id hid hop
    rw [size_collapse] at hid
    by_cases hnew : id = forest.nextId
    · subst hnew
      rw [header_collapse_nextId forest howner, tokenList_collapse_nextId hp hs]
      simpa only [List.map_append, List.map_cons] using hjoins
    · rw [header_collapse forest hnew howner] at hop ⊢
      have hspan := h.operator id (index_lt_of_ne_nextId hid hnew) hop
      by_cases hid' : id = owner
      · subst hid'
        rw [tokenList_collapse_owner hp hs, List.map_append, List.map_cons]
        rw [hs.list_eq, List.map_append, List.map_append] at hspan
        exact hspan.replace hjoins
      · rw [tokenList_collapse_of_ne hp (hs.hasRun hp) hnew hid']
        exact hspan

end Collapse

/--
The texts of all nodes are made up of those of their tokens: all of them are texts of the source, a
context reads as its opening delimiter, its inner text and its closing delimiter, if there is one,
and an operator node from the start of its first token to the end of its last one.
-/
structure Spelled (forest : Forest) : Prop where
  node : ∀ id, id.index < forest.nodes.size → id ≠ root →
    forest.source.slice? (forest.header id).span.start (forest.header id).span.stop =
      some (forest.nodeText id)
  token : ∀ id, ∀ token ∈ forest.tokenList id,
    forest.source.slice? token.span.start token.span.stop = some (forest.tokenText token)
  context : ∀ id, id.index < forest.nodes.size → (forest.header id).opener ≠ none →
    ∃ first inner last?, forest.tokenList id = first :: (inner ++ last?.toList) ∧
      Delimits (forest.header id) id first inner last? ∧
      forest.source.slice? (forest.innerStart id) (forest.innerStop id) =
        some (forest.innerText id) ∧
      forest.nodeText id =
        forest.tokenText first ++ forest.innerText id ++ last?.toList.flatMap forest.tokenText
  operator : ∀ id, id.index < forest.nodes.size → (forest.header id).operator ≠ none →
    ∃ first last, (forest.tokenList id).head? = some first ∧
      (forest.tokenList id).getLast? = some last ∧
      forest.source.slice? first.span.start last.span.stop = some (forest.nodeText id)

/-- The texts of the nodes of a forest of delimited lists. -/
theorem Delimited.spelled {forest : Forest} (h : forest.Delimited) : forest.Spelled := by
  have hnode : ∀ id, id.index < forest.nodes.size → id ≠ root →
      forest.source.IsPart (forest.header id).span := by
    intro id hid hroot
    obtain ⟨owner, slot, -, -, htoken, -⟩ := h.arranged.isTree.placed id hid hroot
    exact h.parts owner _ (mem_tokenList_of_token? htoken)
  refine ⟨fun id hid hroot => ?_, fun id token htoken => ?_, fun id hid hopener => ?_,
    fun id hid hop => ?_⟩
  · have hpart := hnode id hid hroot
    exact slice?_eq_spanText hpart.start hpart.stop hpart.nonempty.le
  · have hpart := h.parts id token htoken
    exact slice?_eq_spanText hpart.start hpart.stop hpart.nonempty.le
  · obtain ⟨first, inner, last?, hlist, hd⟩ := h.context id hid hopener
    have hfirst : first ∈ forest.tokenList id := by
      rw [hlist]
      exact List.mem_cons_self
    have hroot : id ≠ root := by
      rintro rfl
      exact h.arranged.unmarked root first hfirst hd.first_marker
    exact ⟨first, inner, last?, hlist, hd, nodeText_eq hlist hd hopener (h.laid.rows id hid)
      (hnode id hid hroot) (h.parts id)⟩
  · obtain ⟨first, last, hfirst, hlast, hspan⟩ := (h.operator id hid hop).exists_ends
    have hmem := List.mem_of_head? hfirst
    have hstart := h.parts id first hmem
    have hstop := h.parts id last (List.mem_of_getLast? hlast)
    have hwithin := ((h.laid.rows id hid).inside _ (List.mem_map_of_mem hmem)).2
    rw [hspan] at hwithin
    refine ⟨first, last, hfirst, hlast, ?_⟩
    rw [nodeText, hspan]
    exact slice?_eq_spanText hstart.start hstop.stop (hstart.nonempty.le.trans hwithin)

end Forest

/-- Every node of a lexed forest is a context between its delimiters. -/
theorem LexInput.delimited_finish (input : LexInput) (calls : List LexCall) :
    (input.finish calls).forest.Delimited := by
  have hlexed : Lexed input (input.finish calls).forest (input.final calls).cursor :=
    input.lexed_final calls
  refine ⟨hlexed.formed, fun id token htoken => ?_, fun id hid hopener => ?_, fun id _ hop => ?_⟩
  · rw [hlexed.source_eq]
    exact input.isPart_of_mem_tokenList calls htoken
  · refine hlexed.isDelimited hid ?_
    rintro rfl
    exact hopener hlexed.header_root.2
  · exact absurd (hlexed.operator_eq_none id) hop

/-- A run leaves the delimiters of contexts where they are. -/
theorem Grouping.delimited_run (table : RuleSetTable) (grouping : Grouping)
    (h : grouping.forest.Delimited) : (run table grouping).forest.Delimited :=
  run_preserves_forest (fun _ hd => hd.arranged.packed) (fun hd hc => hd.collapse hc) h

/--
In the lexed forest and in the grouped one every context reads as its opening delimiter, its inner
text and its closing delimiter, if there is one, and every operator node as what stands from its
first token to its last one.
-/
theorem LexInput.spelled_group (input : LexInput) (calls : List LexCall) (table : RuleSetTable) :
    (input.finish calls).forest.Spelled ∧
      ((input.finish calls).group table).forest.Spelled := by
  have hlexed := input.delimited_finish calls
  have hgrouped := Grouping.delimited_run table
    ⟨(input.finish calls).forest, (input.finish calls).log, []⟩ hlexed
  exact ⟨hlexed.spelled, hgrouped.spelled⟩

end ExprLang
