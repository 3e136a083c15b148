import ExprLang.Host.Store
import ExprLang.Proofs.Lexing.Data
import ExprLang.Proofs.Resolution.NodeTerms
import ExprLang.Proofs.Resolution.Parsed

/-!
# The value of data

The text of data has the data as its value. It is read as one token without a report, there is no
operator in it to be grouped, and the term of a token that stands for a value resolves to that
value: a literal is its own value, the word for null is looked up nowhere, and a list takes the
values of its items, whose commas stand between two of them. This is an induction on the value,
and no question is put to the host on the way.

Main definitions:
* `Resolution.Denotes`, `Resolution.DenoteAll`: an item with a value of its own, and the items of a
  list with theirs.

Main results:
* `Resolution.exists_denotes`, `Resolution.exists_denoteAll`: the terms of tokens that stand for
  values;
* `Value.evaluate_display`: writing data and evaluating the text gives the data.
-/

namespace ExprLang

open Language (ofSource)

namespace Resolution

variable {σ : Type} {resolution : Resolution σ}

/-- An item of a list that has this value, whatever the host is. -/
structure Denotes (resolution : Resolution σ) (term : Term) (value : Value) : Prop where
  value_eq : resolution.value false term = pure value
  item : resolution.separator? term = none
  shown : term.isComment = false

/-- The items of a list that have these values, whatever the host is. -/
structure DenoteAll (resolution : Resolution σ) (terms : List Term) (values : List Value) :
    Prop where
  itemValues_eq : ∀ expected, resolution.itemValues expected terms = pure values
  shown : ∀ term ∈ terms, term.isComment = false

section Items

variable (hmode : resolution.mode = .full)

include hmode

/-- An item behind which stands nothing, or another delimiter than a parenthesis. -/
theorem itemValues_of_denotes {term : Term} {value : Value} (h : resolution.Denotes term value)
    {rest : List Term} (hrest : ∀ site rules contextClass items behind,
      rest ≠ .group site rules contextClass items :: behind) (expected : Bool) :
    resolution.itemValues expected (term :: rest) =
      (do return value :: (← resolution.itemValues false rest)) := by
  rw [itemValues_term h.item fun _ _ _ _ _ heq => absurd heq (hrest _ _ _ _ _),
    unlessStopped_full hmode, h.value_eq, pure_bind]

/-- A single item. -/
theorem denoteAll_singleton {term : Term} {value : Value} (h : resolution.Denotes term value) :
    resolution.DenoteAll [term] [value] := by
  refine ⟨fun expected => ?_, List.forall_mem_singleton.mpr h.shown⟩
  rw [itemValues_of_denotes hmode h (fun _ _ _ _ _ => (List.cons_ne_nil _ _).symm), itemValues_nil]
  rfl

/-- An item, a separator, and other items behind it. -/
theorem denoteAll_cons {term : Term} {value : Value} (h : resolution.Denotes term value)
    {span : Span} {id : DelimiterId} (hseparator : (resolution.table.delimiter id).isSeparator = true)
    {terms : List Term} {values : List Value} (hrest : resolution.DenoteAll terms values) :
    resolution.DenoteAll (term :: .delimiter span id :: terms) (value :: values) := by
  refine ⟨fun expected => ?_, List.forall_mem_cons.mpr
    ⟨h.shown, List.forall_mem_cons.mpr ⟨rfl, hrest.shown⟩⟩⟩
  have hseparates : resolution.separator? (.delimiter span id) =
      some (String.ofList (resolution.table.delimiter id).text) := if_pos hseparator
  rw [itemValues_of_denotes hmode h (fun _ _ _ _ _ heq => Term.noConfusion (List.cons.inj heq).1),
    itemValues_separator hseparates, hrest.itemValues_eq]
  rfl

end Items

section Tokens

/-- All of a forest without operators is resolved, with the built-in grammars. -/
structure Ungrouped (resolution : Resolution σ) : Prop where
  mode : resolution.mode = .full
  table : resolution.table = Grammar.builtin
  arranged : resolution.forest.Arranged
  contexts : ∀ id, (resolution.forest.header id).operator = none

mutual

/-- The term of a token that stands for a value has this value. -/
theorem exists_denotes (h : resolution.Ungrouped) :
    ∀ (value : Value) {owner : NodeId} {token : Token},
    token ∈ resolution.forest.tokenList owner → token.isMarkerOf owner = false →
      resolution.forest.StandsFor value token →
        ∃ term, resolution.forest.tokenTerm? owner token = some term ∧
          resolution.Denotes term value
  | .null, owner, token, _, _, hstands => by
      rw [Forest.StandsFor] at hstands
      obtain ⟨hkind, htext⟩ := hstands
      have hname : resolution.textOf token.span = nullName := congrArg String.ofList htext
      refine ⟨.name token.span, ?_, ?_, rfl, rfl⟩
      · unfold Forest.tokenTerm? Term.ofToken?
        simp only [hkind]
      · rw [Resolution.value, nameValue]
        simp only [hname, if_true]
  | .bool b, owner, token, _, _, hstands => by
      rw [Forest.StandsFor] at hstands
      obtain ⟨id, hkind, hliteral⟩ := hstands
      refine ⟨.literal token.span (.bool b), ?_, ?_, rfl, rfl⟩
      · unfold Forest.tokenTerm? Term.ofToken? Forest.literal
        simp only [hkind, Array.getD_eq_getD_getElem?, hliteral, Option.getD_some]
      · rw [Resolution.value]
        rfl
  | .int n, owner, token, _, _, hstands => by
      rw [Forest.StandsFor] at hstands
      obtain ⟨id, hkind, hliteral⟩ := hstands
      refine ⟨.literal token.span (.int n), ?_, ?_, rfl, rfl⟩
      · unfold Forest.tokenTerm? Term.ofToken? Forest.literal
        simp only [hkind, Array.getD_eq_getD_getElem?, hliteral, Option.getD_some]
      · rw [Resolution.value]
        rfl
  | .list items, owner, token, hmem, hmarker, hstands => by
      rw [Forest.StandsFor] at hstands
      obtain ⟨id, hkind, hrules, hclass, opener, inner, closer, hlist, hopener, hcloser, hinner,
        hall⟩ := hstands
      have hne : id ≠ owner := by
        rintro rfl
        simp [Token.isMarkerOf, hkind] at hmarker
      have hindex := (h.arranged.nested owner token id hmem hkind hne).1
      obtain ⟨terms, hterms, hdenote⟩ := exists_denoteAll h items
        (fun t ht => by rw [hlist]; simp [ht]) hinner hall
      have hitems : resolution.forest.itemTerms id = terms := by
        rw [Forest.itemTerms_eq h.arranged hindex, hlist,
          List.filterMap_cons_none (Forest.tokenTerm?_of_marker hopener), List.filterMap_append,
          List.filterMap_cons_none (Forest.tokenTerm?_of_marker hcloser), hterms]
        exact List.append_nil terms
      have hshown : Term.itemsOf (.ofFlags [.enclosure]) terms = terms := by
        have hfilter : terms.filter (fun item => !item.isComment) = terms :=
          List.filter_eq_self.mpr fun term hterm => by rw [hdenote.shown term hterm]; rfl
        exact hfilter
      refine ⟨resolution.forest.nodeTerm id, ?_, ?_⟩
      · unfold Forest.tokenTerm?
        rw [hkind]
        exact if_neg hne
      rw [Forest.nodeTerm_of_context (h.contexts id), hrules, hclass, hitems, hshown]
      refine ⟨?_, rfl, rfl⟩
      have hsimplify : resolution.simplify Grammar.bracketsRules items = .list items := by
        unfold Resolution.simplify
        rw [h.table, Grammar.ruleSet_brackets.2]
      have hvalues : resolution.innerValues (.ofFlags [.enclosure]) terms = pure items :=
        hdenote.itemValues_eq true
      rw [value_group, hvalues, ← hsimplify]
      rfl
  | .float _, _, _, _, _, hstands => hstands.elim
  | .str _, _, _, _, _, hstands => hstands.elim
  | .object _, _, _, _, _, hstands => hstands.elim
  | .invocation _ _, _, _, _, _, hstands => hstands.elim
  | .unresolved _, _, _, _, _, hstands => hstands.elim

/-- The terms of the tokens of a list's items have the values of the items. -/
theorem exists_denoteAll (h : resolution.Ungrouped) :
    ∀ (values : List Value) {owner : NodeId} {tokens : List Token},
    (∀ token ∈ tokens, token ∈ resolution.forest.tokenList owner) →
      (∀ token ∈ tokens, token.isMarkerOf owner = false) →
        resolution.forest.StandForAll values tokens →
          ∃ terms, tokens.filterMap (resolution.forest.tokenTerm? owner) = terms ∧
            resolution.DenoteAll terms values
  | [], owner, tokens, _, _, hstands => by
      rw [Forest.StandForAll] at hstands
      subst hstands
      exact ⟨[], rfl, fun _ => itemValues_nil, List.forall_mem_nil _⟩
  | [value], owner, tokens, hmem, hmarker, hstands => by
      rw [Forest.StandForAll] at hstands
      obtain ⟨token, rfl, hvalue⟩ := hstands
      obtain ⟨term, hterm, hdenotes⟩ := exists_denotes h value
        (hmem token List.mem_cons_self) (hmarker token List.mem_cons_self) hvalue
      exact ⟨[term], by rw [List.filterMap_cons_some hterm, List.filterMap_nil],
        denoteAll_singleton h.mode hdenotes⟩
  | value :: next :: values, owner, tokens, hmem, hmarker, hstands => by
      obtain ⟨token, separator, more, rfl, hvalue, hkind, hrest⟩ :=
        Forest.standForAll_cons.mp hstands
      obtain ⟨term, hterm, hdenotes⟩ := exists_denotes h value
        (hmem token List.mem_cons_self) (hmarker token List.mem_cons_self) hvalue
      obtain ⟨terms, hterms, hdenoteAll⟩ := exists_denoteAll h (next :: values)
        (fun t ht => hmem t (List.mem_cons_of_mem _ (List.mem_cons_of_mem _ ht)))
        (fun t ht => hmarker t (List.mem_cons_of_mem _ (List.mem_cons_of_mem _ ht))) hrest
      have hseparator : resolution.forest.tokenTerm? owner separator =
          some (.delimiter separator.span Grammar.comma) := by
        unfold Forest.tokenTerm? Term.ofToken?
        simp only [hkind]
      have hcomma : (resolution.table.delimiter Grammar.comma).isSeparator = true := by
        rw [h.table]
        exact Grammar.delimiter_comma.2.2.1
      exact ⟨_, by rw [List.filterMap_cons_some hterm, List.filterMap_cons_some hseparator, hterms],
        denoteAll_cons h.mode hdenotes hcomma hdenoteAll⟩

end

end Tokens

end Resolution

namespace LexInput

variable {σ : Type} (host : Host σ) (scope : ObjectRef) (state : σ) {source : Source}
  {value : Value}

/-- No operator is in the text of data. -/
theorem parse_eq_lex_of_onlyCommas
    (h : OnlyCommas (ofSource source).lex.forest.arena.toList) :
    (ofSource source).parse = (ofSource source).lex := by
  refine parse_eq_lex fun token htoken => ?_
  unfold Grouping.isRawOperator
  split
  · rename_i id hkind
    rw [h token htoken id hkind]
    exact Grammar.delimiter_comma.2.2.2
  · rfl

/-- The text of data evaluates to the data. -/
theorem evaluate_of_isData (h : value.IsData) (hchars : source.chars = value.display.toList)
    (hsize : source.size < Span.offsetCount) :
    (ofSource source).evaluate host scope .full state = (⟨value, .ofSource source⟩, state) := by
  obtain ⟨token, hlog, hroot, hmarker, hstands, hcommas⟩ := exists_lex_of_isData h hchars hsize
  have hparse := parse_eq_lex_of_onlyCommas hcommas
  rw [← hparse] at hlog hroot hstands
  have hungrouped : ((ofSource source).resolution host scope .full).Ungrouped := by
    refine ⟨rfl, rfl, arranged_parse _, fun id => ?_⟩
    have hcontext := ((ofSource source).lexed_final []).operator_eq_none id
    exact (congrArg (fun output => (output.forest.header id).operator) hparse).trans hcontext
  obtain ⟨term, hterm, hdenotes⟩ := Resolution.exists_denotes hungrouped value
    (hroot ▸ List.mem_cons_self) hmarker hstands
  have htermParse : (ofSource source).parse.forest.tokenTerm? Forest.root token = some term := hterm
  have hterms : (ofSource source).parse.forest.terms = [term] := by
    have hshown : Term.itemsOf (.ofFlags [.root]) [term] = [term] :=
      List.filter_eq_self.mpr (List.forall_mem_singleton.mpr (by rw [hdenotes.shown]; rfl))
    have hroots : Forest.root.index < (ofSource source).parse.forest.nodes.size :=
      (arranged_parse _).size_pos
    rw [Forest.terms_eq, (root_parse _).1, Forest.itemTerms_eq (arranged_parse _) hroots,
      hroot, List.filterMap_cons_some htermParse, List.filterMap_nil, hshown]
  have hvalues := (Resolution.denoteAll_singleton hungrouped.mode hdenotes).itemValues_eq true
  have htotal : ((ofSource source).resolution host scope .full).total =
      (do return .collapse (← (pure [value] : Resolve σ (List Value)))) := by
    rw [Resolution.total_eq, ← hvalues, ← hterms]
    rfl
  rw [evaluate_of_total host scope .full state (ofSource source) htotal, hlog]
  rfl

end LexInput

namespace Value

variable {σ : Type} (host : Host σ) (scope : ObjectRef) (state : σ)

/--
The text of a value that is built from null, booleans, integers and lists evaluates to the value,
without a report and without a question to the host, unless the text is too large to be read.
-/
theorem evaluate_display {value : Value} (h : value.IsData) :
    if (Source.ofString value.display).size < Span.offsetCount then
      (Language.input value.display).evaluate host scope .full state =
        (⟨value, .ofSource (.ofString value.display)⟩, state)
    else
      (Language.input value.display).evaluate host scope .full state =
        (⟨.null, (Log.ofSource (.ofString value.display)).report .lex (.point 0)
          (tooLargeMessage (Source.ofString value.display).size)⟩, state) := by
  split
  · rename_i hsize
    exact LexInput.evaluate_of_isData host scope state h rfl hsize
  · rename_i hsize
    exact LexInput.evaluate_of_size_le host scope .full state _ (Nat.not_lt.mp hsize)

/-- The least integer, a boolean, an empty list and a list in a list. -/
theorem evaluate_display_nested :
    (list [int Int64.minValue, bool true, list [], list [null]]).IsData ∧
      (Language.input "[-9223372036854775808, True, [], [null]]").evaluate Store.host ⟨0⟩ .full
          ⟨#[]⟩ =
        (⟨list [int Int64.minValue, bool true, list [], list [null]],
          .ofSource (.ofString "[-9223372036854775808, True, [], [null]]")⟩, ⟨#[]⟩) := by
  have hdata : (list [int Int64.minValue, bool true, list [], list [null]]).IsData := by
    refine .list _ fun item hitem => ?_
    simp only [List.mem_cons, List.not_mem_nil, or_false] at hitem
    rcases hitem with rfl | rfl | rfl | rfl
    · exact .int _
    · exact .bool _
    · exact .list _ (List.forall_mem_nil _)
    · exact .list _ (List.forall_mem_singleton.mpr .null)
  have htext : (list [int Int64.minValue, bool true, list [], list [null]]).display =
      "[-9223372036854775808, True, [], [null]]" := by decide +kernel
  have hvalue := evaluate_display Store.host ⟨0⟩ ⟨#[]⟩ hdata
  rw [htext, if_pos (by decide)] at hvalue
  exact ⟨hdata, hvalue⟩

end Value
end ExprLang
