import ExprLang.Host.Store
import ExprLang.Proofs.Grouping.Enclosure
import ExprLang.Proofs.Resolution.NodeTerms
import ExprLang.Proofs.Resolution.Parsed
import ExprLang.Proofs.Resolution.Reports

/-!
# Redundant parentheses

A source in parentheses has the terms of the source without them, one offset further on, as the
items of one group. Resolving a term in another place has the host asked for the same things and
makes as many reports, so that the group gets the values that the terms of the source have. One
value stands for itself in both, and more of them are a list in both.

Main definitions:
* `Host.IgnoresSites`: the answers of a host do not depend on the place in the text;
* `Resolution.Alike`: actions with the same result and as many reports.

Main results:
* `Forest.Wrapped.moved_nodeTerm`: the terms of nodes are the same inside a group;
* `LexInput.evaluate_parenthesized`: a source without reports has the same value in parentheses.
-/

namespace ExprLang

/-- The host does not look at the place in the text for which it is asked something. -/
structure Host.IgnoresSites {σ : Type} (host : Host σ) : Prop where
  member : ∀ target name site site' state,
    host.member target name site state = host.member target name site' state
  invoke : ∀ target name args site site' state,
    host.invoke target name args site state = host.invoke target name args site' state

theorem Log.length_rollback (log : Log) (mark : Nat) :
    (log.rollback mark).length = min mark log.length := by
  simp [rollback, length]

namespace Forest.Wrapped

variable {forest outer : Forest} {table : RuleSetTable}

/-- The place of a part of the source inside parentheses. -/
def Place (size : Nat) (s t : Span) : Prop :=
  t = s.shifted ∧ s.stop ≤ size

section Terms

variable (h : Wrapped forest outer) (ha : forest.Arranged) (ha' : outer.Arranged)
  (hl : forest.Laid) {size : Nat} (hsize : (forest.header root).span.stop ≤ size)

include h ha ha' hl hsize

/-- The items of a node are the same inside the group, if its nested nodes are. -/
theorem moved_itemTerms {id : NodeId} (hid : id.index < forest.nodes.size)
    (hnested : ∀ token ∈ forest.tokenList id, ∀ child, token.kind = .node child → child ≠ id →
      (forest.nodeTerm child).Moved (Place size) (outer.nodeTerm child.shifted)) :
    (forest.itemTerms id).Forall₂ (Term.Moved (Place size)) (outer.itemTerms id.shifted) := by
  obtain ⟨front, back, hlisted⟩ := h.listed id
  have hid' : id.shifted.index < outer.nodes.size := by
    rw [h.size]
    exact Nat.succ_lt_succ hid
  have hmarkers : ∀ t ∈ front ++ back, outer.tokenTerm? id.shifted t = none := fun t ht =>
    tokenTerm?_of_marker (by simp [Token.isMarkerOf, hlisted.markers t ht])
  have houter : outer.itemTerms id.shifted =
      ((forest.tokenList id).map Token.shifted).filterMap (outer.tokenTerm? id.shifted) := by
    rw [itemTerms_eq ha' hid', hlisted.list_eq, List.filterMap_append, List.filterMap_append,
      List.filterMap_eq_nil_iff.mpr fun t ht => hmarkers t (List.mem_append_left _ ht),
      List.filterMap_eq_nil_iff.mpr fun t ht => hmarkers t (List.mem_append_right _ ht),
      List.nil_append, List.append_nil]
  rw [itemTerms_eq ha hid, houter]
  refine List.rel_filterMap
    (R := fun t t' => t ∈ forest.tokenList id ∧ t' = t.shifted) ?_ ?_
  · rintro token _ ⟨hmem, rfl⟩
    have hplace : Place size token.span token.shifted.span :=
      ⟨rfl, (hl.token_stop_le ha hmem).trans hsize⟩
    unfold tokenTerm? Term.ofToken?
    rw [Token.kind_shifted]
    cases hkind : token.kind with
    | text => exact .some (.name hplace)
    | delimiter delimiter => exact .some (.delimiter delimiter hplace)
    | literal literal =>
        have hsame : outer.literal literal = forest.literal literal := by
          unfold Forest.literal
          rw [h.literals]
        simp only [TokenKind.shifted, hsame]
        exact .some (.literal _ hplace)
    | node child =>
        simp only [TokenKind.shifted]
        by_cases hchild : child = id
        · rw [if_pos hchild, if_pos (NodeId.shifted_inj.mpr hchild)]
          exact .none
        · rw [if_neg hchild, if_neg fun heq => hchild (NodeId.shifted_inj.mp heq)]
          exact .some (hnested token hmem child hkind hchild)
  · exact List.forall₂_map_right_iff.mpr (List.forall₂_same.mpr fun t ht => ⟨ht, rfl⟩)

variable (ho : Grouping.Operated table forest) (ho' : Grouping.Operated table outer)

include ho ho'

/-- The term of a node is the same inside the group. -/
theorem moved_nodeTerm {id : NodeId} (hid : id.index < forest.nodes.size) :
    id ≠ root → (forest.nodeTerm id).Moved (Place size) (outer.nodeTerm id.shifted) := by
  refine ha.node_induction (P := fun id => id ≠ root →
    (forest.nodeTerm id).Moved (Place size) (outer.nodeTerm id.shifted)) ?_ hid
  intro id hid ih hroot
  obtain ⟨hrules, hclass, hoperator, hspan⟩ := h.header id hroot hid
  have hplace : Place size (forest.header id).span (outer.header id.shifted).span :=
    ⟨hspan, (hl.stop_le ha hid).trans hsize⟩
  have hitems := h.moved_itemTerms ha ha' hl hsize hid fun token hmem child hkind hne =>
    ih token hmem child hkind hne fun heq => ha.unmarked id token hmem (heq ▸ hkind)
  cases hop : (forest.header id).operator with
  | none =>
      rw [nodeTerm_of_context hop, nodeTerm_of_context (hoperator.trans hop), hrules, hclass]
      exact .group _ _ hplace (Term.forall₂_itemsOf _ hitems)
  | some op =>
      exact Term.Moved.ofOperator? hplace op hitems (nodeTerm_of_operator ha ho hop)
        (nodeTerm_of_operator ha' ho' (hoperator.trans hop))

/-- The terms of the source are the items of the group. -/
theorem moved_root :
    (forest.itemTerms root).Forall₂ (Term.Moved (Place size)) (outer.itemTerms root.shifted) := by
  refine h.moved_itemTerms ha ha' hl hsize ha.size_pos fun token hmem child hkind hne => ?_
  exact h.moved_nodeTerm ha ha' hl hsize ho ho' (ha.nested root token child hmem hkind hne).1 hne

end Terms

end Forest.Wrapped

namespace Resolution

variable {σ α β : Type}

/-- Two actions with the same result, the same effect on the host, and as many reports. -/
def Alike (first second : Resolve σ α) : Prop :=
  ∀ state other : ResolutionState σ, other.host = state.host →
    other.log.length = state.log.length →
      (second.run other).1 = (first.run state).1 ∧
        (second.run other).2.host = (first.run state).2.host ∧
          (second.run other).2.log.length = (first.run state).2.log.length

section Actions

theorem alike_bind {first second : Resolve σ α} {next next' : α → Resolve σ β}
    (h : Alike first second) (hnext : ∀ result, Alike (next result) (next' result)) :
    Alike (first >>= next) (second >>= next') := by
  intro state other hhost hlog
  obtain ⟨hresult, hhost', hlog'⟩ := h state other hhost hlog
  have hsecond : (second >>= next').run other =
      (next' (first.run state).1).run (second.run other).2 :=
    congrArg (fun result => (next' result).run (second.run other).2) hresult
  rw [hsecond]
  exact hnext (first.run state).1 (first.run state).2 (second.run other).2 hhost' hlog'

theorem alike_withoutLog {first second : Resolve σ α} (h : Alike first second) :
    Alike (withoutLog first) (withoutLog second) := by
  intro state other hhost hlog
  obtain ⟨hresult, hhost', hlog'⟩ := h state other hhost hlog
  refine ⟨hresult, hhost', ?_⟩
  show ((second.run other).2.log.rollback other.log.length).length =
    ((first.run state).2.log.rollback state.log.length).length
  rw [hlog, Log.length_rollback, Log.length_rollback, hlog']

end Actions

/-- Resolving a moved term is the same but for the places of its reports. -/
theorem alike_parallel {first second : Resolution σ} {size : Nat} (htable : first.table = second.table)
    (hscope : first.scope = second.scope) (hhost : first.host = second.host)
    (hsites : second.host.IgnoresSites) (hmode : first.mode = .full) (hmode' : second.mode = .full)
    (htext : ∀ {s t}, Forest.Wrapped.Place size s t → first.textOf s = second.textOf t) :
    Parallel (Forest.Wrapped.Place size) (fun {_} a b => Alike a b) first second where
  table := htable
  scope := hscope
  textOf := htext
  merge := by
    rintro s _ s' _ ⟨rfl, hs⟩ ⟨rfl, hs'⟩
    exact ⟨(Span.shifted_merge s s').symm, Nat.max_le.mpr ⟨hs, hs'⟩⟩
  pure := fun _ _ _ h h' => ⟨rfl, h, h'⟩
  bind := fun h hnext => alike_bind h hnext
  withoutLog := fun h => alike_withoutLog h
  report := fun category s t message _ state other h h' => by
    refine ⟨rfl, h, ?_⟩
    show (other.log.report category t message).length = (state.log.report category s message).length
    simp only [Log.report, Log.length, Array.size_push] at h' ⊢
    rw [h']
  stopsAt := fun kind text => by
    rw [stopsAt_full hmode, stopsAt_full hmode']
    exact fun _ _ h h' => ⟨rfl, h, h'⟩
  member := fun target name s t _ state other h h' => by
    have hsame : second.host.member target name t other.host =
        first.host.member target name s state.host := by
      rw [hhost, h, hsites.member target name t s]
    have hresult := congrArg Prod.fst hsame
    have hstate := congrArg Prod.snd hsame
    exact ⟨hresult, hstate, h'⟩
  invoke := fun target name args s t _ state other h h' => by
    have hsame : second.host.invoke target name args t other.host =
        first.host.invoke target name args s state.host := by
      rw [hhost, h, hsites.invoke target name args t s]
    have hresult := congrArg Prod.fst hsame
    have hstate := congrArg Prod.snd hsame
    exact ⟨hresult, hstate, h'⟩

section Groups

variable {resolution : Resolution σ}

/-- The only term of a forest is a group in parentheses: its items are resolved. -/
theorem total_parens (hmode : resolution.mode = .full) (htable : resolution.table = Grammar.builtin)
    {span : Span} {items : List Term}
    (hterms : resolution.forest.terms =
      [.group span Grammar.parensRules (.ofFlags [.enclosure]) items]) :
    resolution.total = (do return .collapse (← resolution.itemValues true items)) := by
  have hcomment : (ContextClass.ofFlags [.enclosure]).has .comment = false := by decide
  have htext : (ContextClass.ofFlags [.enclosure]).has .textLiteral = false := by decide
  have hsimplify : ∀ values, resolution.simplify Grammar.parensRules values = .collapse values := by
    intro values
    unfold simplify
    rw [htable, Grammar.ruleSet_parens.2]
  have hgroup : resolution.value false (.group span Grammar.parensRules (.ofFlags [.enclosure])
      items) = (do return .collapse (← resolution.itemValues true items)) := by
    rw [value_group, hcomment, innerValues, htext]
    simp only [Bool.false_eq_true, if_false, hsimplify]
  have hitem : resolution.itemValues true
      [.group span Grammar.parensRules (.ofFlags [.enclosure]) items] =
        (do
          let first ← resolution.unlessStopped _ (resolution.value false _)
          return first :: (← resolution.itemValues false [])) :=
    itemValues_term rfl fun _ _ _ _ _ h => by cases h
  unfold total terms
  rw [hterms, hitem, unlessStopped_full hmode, hgroup, itemValues_nil]
  simp only [bind_assoc, pure_bind, Value.collapse_singleton]

end Groups

end Resolution

namespace LexInput

open Language

variable {σ : Type} {inner outer : Source}

section Parsed

/-- The only term of a source in parentheses is a group, with the terms of the source in it. -/
theorem terms_enclosed (h : Enclosed inner outer) (hsize : outer.size < Span.offsetCount)
    (hlog : (ofSource inner).parse.log.length = 0)
    (hclosed : ∀ id, ¬((ofSource inner).lex.forest.header id).IsOpenLineComment) :
    ∃ span items, (ofSource outer).parse.forest.terms =
        [.group span Grammar.parensRules (.ofFlags [.enclosure]) items] ∧
      (ofSource inner).parse.forest.terms.Forall₂
        (Term.Moved (Forest.Wrapped.Place inner.size)) items := by
  obtain ⟨hwrapped, -, hrules, hclass, hoperator⟩ := wrapped_parse h hsize hlog hclosed
  have ha := (ofSource inner).arranged_parse
  have ha' := (ofSource outer).arranged_parse
  have hitems := hwrapped.moved_root ha ha' (ofSource inner).laid_parse
    (ofSource inner).root_parse.2.1 (ofSource inner).operated_parse
    (ofSource outer).operated_parse
  have hgroup := Forest.nodeTerm_of_context hoperator
  rw [hrules, hclass] at hgroup
  obtain ⟨token, hlist, hkind⟩ := hwrapped.outermost
  have hterm : (ofSource outer).parse.forest.tokenTerm? Forest.root token =
      some ((ofSource outer).parse.forest.nodeTerm Forest.root.shifted) := by
    unfold Forest.tokenTerm?
    rw [hkind]
    exact if_neg (NodeId.shifted_ne_root _)
  refine ⟨((ofSource outer).parse.forest.header Forest.root.shifted).span,
    Term.itemsOf (.ofFlags [.enclosure])
      ((ofSource outer).parse.forest.itemTerms Forest.root.shifted), ?_, ?_⟩
  · have hroot : Forest.root.index < (ofSource outer).parse.forest.nodes.size := ha'.size_pos
    rw [Forest.terms_eq, (root_parse _).1, Forest.itemTerms_eq ha' hroot, hlist,
      List.filterMap_cons_some hterm, List.filterMap_nil, hgroup]
    rfl
  · rw [Forest.terms_eq, (root_parse _).1]
    exact Term.forall₂_itemsOf (.ofFlags [.enclosure]) hitems

end Parsed

section Evaluated

variable (host : Host σ) (scope : ObjectRef) (mode : ResolutionMode σ) (state : σ)

/-- An evaluation reports everything that parsing does. -/
theorem length_log_parse_le (input : LexInput) :
    input.parse.log.length ≤ (input.evaluate host scope mode state).1.log.length := by
  have hgrows := (input.resolution host scope mode).grows_itemValues true
    (input.resolution host scope mode).forest.terms ⟨state, input.parse.log⟩
  rw [input.evaluate_of_total host scope mode state Resolution.total_eq]
  simpa [Log.length] using hgrows.entries.length_le

variable {host} (hhost : host.IgnoresSites)

include hhost

/-- A text whose only term is a group with the moved terms of another one has the same value. -/
theorem evaluate_moved {input enclosed : LexInput} (htable : enclosed.table = Grammar.builtin)
    (hsame : input.table = enclosed.table) {span : Span} {items : List Term} {size : Nat}
    (hterms : enclosed.parse.forest.terms =
      [.group span Grammar.parensRules (.ofFlags [.enclosure]) items])
    (hmoved : input.parse.forest.terms.Forall₂ (Term.Moved (Forest.Wrapped.Place size)) items)
    (htext : ∀ {s t}, Forest.Wrapped.Place size s t →
      input.parse.forest.spanText s = enclosed.parse.forest.spanText t)
    (hlogs : enclosed.parse.log.length = input.parse.log.length) :
    (enclosed.evaluate host scope .full state).1.log.length =
        (input.evaluate host scope .full state).1.log.length ∧
      (enclosed.evaluate host scope .full state).1.result =
        (input.evaluate host scope .full state).1.result ∧
      (enclosed.evaluate host scope .full state).2 =
        (input.evaluate host scope .full state).2 := by
  have hparallel : Resolution.Parallel (Forest.Wrapped.Place size)
      (fun {_} a b => Resolution.Alike a b) (input.resolution host scope .full)
      (enclosed.resolution host scope .full) :=
    Resolution.alike_parallel hsame rfl rfl hhost rfl rfl fun hplace =>
      congrArg String.ofList (htext hplace)
  have hitems : (input.resolution host scope .full).forest.terms.Forall₂
      (Term.Moved (Forest.Wrapped.Place size)) items := hmoved
  obtain ⟨hvalues, hstate, hlog⟩ := hparallel.itemValues true hitems
    ⟨state, input.parse.log⟩ ⟨state, enclosed.parse.log⟩ rfl hlogs
  have htotal : (enclosed.resolution host scope .full).total =
      (do return .collapse (← (enclosed.resolution host scope .full).itemValues true items)) :=
    Resolution.total_parens rfl htable hterms
  have hresult := congrArg Value.collapse hvalues
  rw [input.evaluate_of_total host scope .full state (Resolution.total_eq),
    enclosed.evaluate_of_total host scope .full state htotal]
  simp only
  exact ⟨hlog, hresult, hstate⟩

/-- A source that is evaluated without a report has the same value inside parentheses. -/
theorem evaluate_enclosed (h : Enclosed inner outer) (hsize : outer.size < Span.offsetCount)
    (hlog : ((ofSource inner).evaluate host scope .full state).1.log.length = 0)
    (hclosed : ∀ id, ¬((ofSource inner).lex.forest.header id).IsOpenLineComment) :
    ((ofSource outer).evaluate host scope .full state).1.log.length = 0 ∧
      ((ofSource outer).evaluate host scope .full state).1.result =
        ((ofSource inner).evaluate host scope .full state).1.result ∧
      ((ofSource outer).evaluate host scope .full state).2 =
        ((ofSource inner).evaluate host scope .full state).2 := by
  have hparse : (ofSource inner).parse.log.length = 0 :=
    Nat.le_zero.mp (hlog ▸ length_log_parse_le host scope .full state (ofSource inner))
  obtain ⟨hwrapped, hparseOuter, -⟩ := wrapped_parse h hsize hparse hclosed
  obtain ⟨span, items, hterms, hmoved⟩ := terms_enclosed h hsize hparse hclosed
  have hsource : (ofSource inner).parse.forest.source = inner := (ofSource inner).root_parse.2.2
  have hlogs : (ofSource outer).parse.log.length = (ofSource inner).parse.log.length := by
    rw [hparseOuter, hparse]
    rfl
  rw [← hlog]
  refine evaluate_moved scope state hhost rfl rfl hterms hmoved ?_ hlogs
  rintro s _ ⟨rfl, hs⟩
  rw [← hsource] at hs
  exact (hwrapped.spanText_eq hs).symm

/--
A source without reports and without an open line comment in the end has the same value in
parentheses, with the same questions to the host, unless the parentheses make it too large.
-/
theorem evaluate_parenthesized (source : String)
    (hlog : ((input source).evaluate host scope .full state).1.log.isEmpty = true)
    (hclosed : ∀ id, ¬((input source).lex.forest.header id).IsOpenLineComment) :
    if (Source.ofString ("(" ++ source ++ ")")).size < Span.offsetCount then
      ((input ("(" ++ source ++ ")")).evaluate host scope .full state).1.log.isEmpty = true ∧
        ((input ("(" ++ source ++ ")")).evaluate host scope .full state).1.result =
          ((input source).evaluate host scope .full state).1.result ∧
        ((input ("(" ++ source ++ ")")).evaluate host scope .full state).2 =
          ((input source).evaluate host scope .full state).2
    else
      ((input ("(" ++ source ++ ")")).evaluate host scope .full state).1.log =
        (Log.ofSource (.ofString ("(" ++ source ++ ")"))).report .lex (.point 0)
          (tooLargeMessage (Source.ofString ("(" ++ source ++ ")")).size) := by
  have henclosed : Enclosed (.ofString source) (.ofString ("(" ++ source ++ ")")) := by
    unfold Enclosed Source.ofString
    simp
  have hlength : ∀ log : Log, log.isEmpty = true ↔ log.length = 0 := fun log => by
    simp [Log.isEmpty, Log.length]
  have hinput : ∀ text, Language.input text = ofSource (.ofString text) := fun _ => rfl
  split
  · rename_i hsize
    rw [hlength, hinput] at hlog
    rw [hinput] at hclosed
    rw [hlength, hinput, hinput]
    exact evaluate_enclosed scope state hhost henclosed hsize hlog hclosed
  · rename_i hsize
    rw [(input ("(" ++ source ++ ")")).evaluate_of_size_le host scope .full state
      (Nat.not_lt.mp hsize)]
    rfl

end Evaluated

end LexInput

/-- Hosts whose objects are those of a store do not look at the text. -/
theorem Store.ignoresSites_host : Store.host.IgnoresSites where
  member := fun _ _ _ _ _ => rfl
  invoke := fun _ _ _ _ _ _ => rfl

/-- The nodes that there are decide whether a line comment is open. -/
theorem Forest.not_isOpenLineComment {forest : Forest}
    (h : (forest.nodes.all fun node =>
      !(node.contextClass.has .lineComment && node.closer.isNone)) = true) (id : NodeId) :
    ¬(forest.header id).IsOpenLineComment := by
  rintro ⟨hclass, hcloser⟩
  by_cases hid : id.index < forest.nodes.size
  · have hnode := Array.all_eq_true.mp h id.index hid
    have hheader : forest.header id = forest.nodes[id.index] := by
      simp [header, Array.getD, hid]
    rw [← hheader, hclass, hcloser] at hnode
    cases hnode
  · rw [forest.header_of_size_le (Nat.le_of_not_lt hid)] at hclass
    cases hclass

/-- Two values with a comment behind them, which the end of its line closes. -/
theorem LexInput.evaluate_parenthesized_comment :
    ((Language.input "(x, 2 // a pair\n)").evaluate Store.host ⟨0⟩ .full ⟨#[]⟩).1.log.isEmpty =
        true ∧
      ((Language.input "(x, 2 // a pair\n)").evaluate Store.host ⟨0⟩ .full ⟨#[]⟩).1.result =
        ((Language.input "x, 2 // a pair\n").evaluate Store.host ⟨0⟩ .full ⟨#[]⟩).1.result := by
  have hlog : ((Language.input "x, 2 // a pair\n").evaluate Store.host ⟨0⟩ .full
      ⟨#[]⟩).1.log.isEmpty = true := by
    decide +kernel
  have hclosed : ((Language.input "x, 2 // a pair\n").lex.forest.nodes.all fun node =>
      !(node.contextClass.has .lineComment && node.closer.isNone)) = true := by
    decide +kernel
  have hsize : (Source.ofString "(x, 2 // a pair\n)").size < Span.offsetCount := by decide
  have hboth := evaluate_parenthesized ⟨0⟩ ⟨#[]⟩ Store.ignoresSites_host "x, 2 // a pair\n" hlog
    (Forest.not_isOpenLineComment hclosed)
  rw [show "(" ++ "x, 2 // a pair\n" ++ ")" = "(x, 2 // a pair\n)" from rfl, if_pos hsize] at hboth
  exact ⟨hboth.1, hboth.2.1⟩

end ExprLang
