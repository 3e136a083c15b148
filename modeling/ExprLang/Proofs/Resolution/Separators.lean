import ExprLang.Proofs.Resolution.Comments
import ExprLang.Proofs.Resolution.Placement

/-!
# Separators between items

A list is resolved piece by piece, from one separator to the next one: no separator is taken
for an item or for what a name is called with, and none has a value. A separator is reported if
it comes first or directly behind another one, where comments and markers do not count. What is
reported about the items is never at a separator of the list that they are in.

Main definitions:
* `misplaced`: the separators that come first or directly behind another one;
* `Forest.listed`: the tokens of a node that its list consists of;
* `Resolution.ReportsAt`: what an action reports at some spans.

Main results:
* `Resolution.itemValues_split`: a separator is a barrier between the items around it;
* `Forest.separator?_tokenTerm`, `Forest.itemsOf_itemTerms`: the items of a list, by its tokens;
* `LexInput.separators_of_list`: the separators of every list of a parsed text.
-/

namespace ExprLang

section Lists

variable {α : Type} {p : α → Bool}

/--
The elements of a kind that come first in a list or directly behind another one of this kind.
`before` is what stands before the list, if anything does.
-/
def misplaced (p : α → Bool) (before : Option α) (items : List α) : List α :=
  ((before :: items.map some).zip items).filterMap fun (before, item) =>
    if p item && before.all p then some item else none

theorem misplaced_cons (before : Option α) (item : α) (items : List α) :
    misplaced p before (item :: items) =
      (if p item && before.all p then [item] else []) ++ misplaced p (some item) items := by
  unfold misplaced
  rw [List.map_cons, List.zip_cons_cons, List.filterMap_cons]
  by_cases h : (p item && before.all p) = true
  · simp [h]
  · simp [h]

theorem misplaced_append (before : Option α) (items others : List α) :
    misplaced p before (items ++ others) =
      misplaced p before items ++ misplaced p (items.getLast?.or before) others := by
  induction items generalizing before with
  | nil => rfl
  | cons item items ih =>
      rw [List.cons_append, misplaced_cons, misplaced_cons, ih, List.append_assoc,
        List.getLast?_cons, ← Option.or_some, Option.or_assoc]
      rfl

theorem misplaced_eq_nil {items : List α} (h : ∀ item ∈ items, p item = false)
    (before : Option α) : misplaced p before items = [] := by
  induction items generalizing before with
  | nil => rfl
  | cons item items ih =>
      rw [misplaced_cons, h item List.mem_cons_self, Bool.false_and, if_neg Bool.false_ne_true,
        List.nil_append]
      exact ih (fun other hother => h other (List.mem_cons_of_mem _ hother)) _

/-- Behind an element of the kind everything is as at the start. -/
theorem misplaced_split {items others : List α} {item : α} (h : p item = true) :
    misplaced p none (items ++ item :: others) =
      misplaced p none items ++ ((if items.getLast?.all p then [item] else []) ++
        misplaced p none others) := by
  rw [misplaced_append, misplaced_cons, h, Bool.true_and, Option.or_none]
  have hstart : misplaced p (some item) others = misplaced p none others := by
    cases others with
    | nil => rfl
    | cons other others =>
        rw [misplaced_cons, misplaced_cons, Option.all_some, Option.all_none, h]
  rw [hstart]

end Lists

namespace Resolution

variable {σ : Type} {resolution : Resolution σ}

section Split

/-- A group in parentheses stands behind a term, or no such group. -/
theorem call_or_term (rest : List Term) :
    (∃ site rules contextClass items behind,
      rest = .group site rules contextClass items :: behind ∧
        resolution.isParens rules = true) ∨
    ∀ site rules contextClass items behind,
      rest = .group site rules contextClass items :: behind →
        resolution.isParens rules = false := by
  by_cases h : ∃ site rules contextClass items behind,
      rest = .group site rules contextClass items :: behind ∧ resolution.isParens rules = true
  · exact Or.inl h
  · refine Or.inr fun site rules contextClass items behind hrest => ?_
    cases hparens : resolution.isParens rules with
    | false => rfl
    | true => exact absurd ⟨site, rules, contextClass, items, behind, hrest, hparens⟩ h

/-- Has an item to come before the next separator, behind some items? -/
def expectsItem (resolution : Resolution σ) (expected : Bool) (before : List Term) : Bool :=
  before.getLast?.elim expected fun term => (resolution.separator? term).isSome

theorem expectsItem_cons (expected : Bool) (term : Term) (rest : List Term) :
    resolution.expectsItem expected (term :: rest) =
      resolution.expectsItem (resolution.separator? term).isSome rest := by
  unfold expectsItem
  rw [List.getLast?_cons]
  cases rest.getLast? with
  | none => rfl
  | some last => rfl

/-- Values in front of the first of two parts are in front of both. -/
theorem append_parts (values : List Value) (first others : Resolve σ (List Value))
    (report : Resolve σ Unit) :
    (do return values ++ (← (do
        let items ← first
        report
        return items ++ (← others)))) =
      (do
        let items ← (do return values ++ (← first))
        report
        return items ++ (← others)) := by
  simp only [bind_assoc, pure_bind, List.append_assoc]

/--
A list with a separator in it: first the items before the separator, then its report if an item
has to come between, then the items behind it.
-/
theorem itemValues_split {separator : Term} {text : String}
    (h : resolution.separator? separator = some text) (expected : Bool)
    (before after : List Term) :
    resolution.itemValues expected (before ++ separator :: after) =
      (do
        let first ← resolution.itemValues expected before
        reportSeparator (resolution.expectsItem expected before) separator.span text
        return first ++ (← resolution.itemValues true after)) := by
  induction hlength : before.length using Nat.strong_induction_on generalizing expected before with
  | _ length ih =>
      match before, hlength with
      | [], _ =>
          rw [List.nil_append, itemValues_separator h, itemValues_nil, pure_bind]
          simp [expectsItem]
      | term :: rest, hlength =>
          have hrest := fun expected => ih rest.length (by simp [← hlength]) expected rest rfl
          rw [List.cons_append, expectsItem_cons]
          cases hseparator : resolution.separator? term with
          | some other =>
              rw [itemValues_separator hseparator, itemValues_separator hseparator, hrest,
                Option.isSome_some, bind_assoc]
          | none =>
              rw [Option.isSome_none]
              rcases resolution.call_or_term rest with
                ⟨site, rules, contextClass, items, behind, rfl, hparens⟩ | hterm
              · have hbehind := ih behind.length (by simp [← hlength]) false behind rfl
                rw [List.cons_append] at hrest ⊢
                rw [itemValues_call hseparator hparens, itemValues_call hseparator hparens,
                  bind_assoc]
                refine bind_congr fun taken => ?_
                split
                · rw [hbehind, append_parts, expectsItem_cons]
                  rfl
                · rw [hrest, append_parts]
              · rw [itemValues_term hseparator hterm, itemValues_term hseparator, bind_assoc]
                · refine bind_congr fun first => ?_
                  rw [hrest]
                  exact append_parts [first] _ _ _
                · -- the separator is no group that the term could be called with
                  intro site rules contextClass items behind hgroup
                  cases rest with
                  | nil =>
                      obtain ⟨rfl, -⟩ := List.cons.inj hgroup
                      cases h
                  | cons next rest =>
                      obtain ⟨rfl, -⟩ := List.cons.inj hgroup
                      exact hterm site rules contextClass items rest rfl

end Split

section Reports

variable {α β : Type} {spans : List Span}

/-- An action that only adds to the log, and reports at some spans what is given. -/
def ReportsAt (spans : List Span) (own : List (Span × String)) (action : Resolve σ α) : Prop :=
  ∀ state : ResolutionState σ, ∃ reports,
    (action.run state).2.log.lines = state.log.lines ∧
      (action.run state).2.log.entries.toList = state.log.entries.toList ++ reports ∧
      reports.filter (fun d => d.span ∈ spans) =
        own.map fun (span, message) => state.log.entry .structural span message

theorem Silent.reportsAt {action : Resolve σ α} (h : Silent action) :
    ReportsAt spans [] action := by
  intro state
  refine ⟨[], ?_, ?_, rfl⟩
  · rw [h state]
  · rw [h state, List.append_nil]

theorem ReportsAt.grows {own : List (Span × String)} {action : Resolve σ α}
    (h : ReportsAt spans own action) : Grows action := by
  intro state
  obtain ⟨reports, hlines, hentries, -⟩ := h state
  exact ⟨hlines, reports, hentries.symm⟩

theorem ReportsAt.bind {own others : List (Span × String)} {action : Resolve σ α}
    {next : α → Resolve σ β} (h : ReportsAt spans own action)
    (hnext : ∀ result, ReportsAt spans others (next result)) :
    ReportsAt spans (own ++ others) (action >>= next) := by
  intro state
  obtain ⟨reports, hlines, hentries, hown⟩ := h state
  obtain ⟨more, hlines', hentries', hothers⟩ :=
    hnext (action.run state).1 (action.run state).2
  refine ⟨reports ++ more, hlines'.trans hlines, ?_, ?_⟩
  · rw [← List.append_assoc, ← hentries]
    exact hentries'
  · rw [List.filter_append, List.map_append, hown, hothers]
    simp only [Log.entry_congr hlines]

/-- What is done with a result adds no reports. -/
theorem ReportsAt.map {own : List (Span × String)} {action : Resolve σ α} {f : α → β}
    (h : ReportsAt spans own action) : ReportsAt spans own (do return f (← action)) := by
  have hbind := h.bind fun result => (silent_pure (f result)).reportsAt
  rwa [List.append_nil] at hbind

theorem reportsAt_report {category : Category} {span : Span} {message : String}
    (h : span ∉ spans) : ReportsAt spans [] (report category span message : Resolve σ Unit) := by
  intro state
  refine ⟨_, rfl, Log.toList_report _ _ _ _, ?_⟩
  rw [List.filter_eq_nil_iff.mpr]
  · rfl
  · intro d hd
    rw [List.mem_singleton.mp hd]
    exact fun hspan => h (of_decide_eq_true hspan)

theorem reportsAt_reportSeparator {span : Span} (h : span ∈ spans) (expected : Bool)
    (separator : String) :
    ReportsAt spans
      (if expected then [(span, "unexpected separator '" ++ separator ++ "'")] else [])
      (reportSeparator expected span separator : Resolve σ Unit) := by
  unfold reportSeparator
  split
  · intro state
    refine ⟨_, rfl, Log.toList_report _ _ _ _, ?_⟩
    rw [List.filter_eq_self.mpr]
    · rfl
    · intro d hd
      rw [List.mem_singleton.mp hd]
      exact decide_eq_true h
  · exact (silent_pure ()).reportsAt

/-- A span that is not within any of some others. -/
def NotWithin (spans : List Span) (s t : Span) : Prop :=
  s = t ∧ ∀ u ∈ spans, ¬(u.start ≤ s.start ∧ s.stop ≤ u.stop)

theorem NotWithin.not_mem {s t : Span} (h : NotWithin spans s t) : s ∉ spans :=
  fun hs => h.2 s hs ⟨le_rfl, le_rfl⟩

/-- What is not within the spans reports at none of them. -/
theorem reportsAt_nil (spans : List Span) (resolution : Resolution σ) :
    Parallel (NotWithin spans) (fun {_} action _ => ReportsAt spans [] action) resolution
      resolution where
  table := rfl
  scope := rfl
  textOf := fun h => congrArg resolution.textOf h.1
  merge := by
    rintro s t s' t' ⟨rfl, hs⟩ ⟨rfl, hs'⟩
    refine ⟨rfl, fun u hu hwithin => hs u hu ⟨?_, ?_⟩⟩
    · exact hwithin.1.trans (Nat.min_le_left _ _)
    · exact (Nat.le_max_left _ _).trans hwithin.2
  pure := fun result => (silent_pure result).reportsAt
  bind := fun h hnext => h.bind hnext
  withoutLog := fun h => h.grows.silent_withoutLog.reportsAt
  report := fun _ _ _ _ h => reportsAt_report h.not_mem
  stopsAt := fun kind text => (silent_stopsAt resolution kind text).reportsAt
  member := fun _ _ _ _ _ => Silent.reportsAt fun _ => rfl
  invoke := fun _ _ _ _ _ _ => Silent.reportsAt fun _ => rfl

end Reports

end Resolution

namespace Term

/-- An operator is no separator. -/
theorem separator?_ofOperator? {σ : Type} {resolution : Resolution σ} {span : Span}
    {op : Operator} {operands : List Term} {term : Term}
    (h : ofOperator? span op operands = some term) : resolution.separator? term = none := by
  obtain ⟨other, hkind⟩ := kind_ofOperator? h
  cases term with
  | delimiter span id => cases hkind
  | _ => rfl

end Term

namespace Forest

variable {forest : Forest} {owner : NodeId}

section Listed

variable (forest owner)

/-- Is a token a comment? -/
def isComment (token : Token) : Bool :=
  token.node?.any fun id => (forest.header id).contextClass.has .comment

/-- The tokens of a node but for its markers and the comments among them. -/
def listed : List Token :=
  (forest.contentList owner).filter fun token => !forest.isComment token

end Listed

theorem isMarkerOf_of_mem_listed {token : Token} (h : token ∈ forest.listed owner) :
    token ∈ forest.tokenList owner ∧ token.isMarkerOf owner = false := by
  obtain ⟨hmem, hmarker⟩ := List.mem_filter.mp (List.mem_filter.mp h).1
  exact ⟨hmem, by simpa using hmarker⟩

/-- A token is read as a separator if it is one. -/
theorem separator?_tokenTerm {σ : Type} (resolution : Resolution σ) {token : Token} {term : Term}
    (h : forest.tokenTerm? owner token = some term) :
    resolution.separator? term = Grouping.separatorText? resolution.table token := by
  unfold tokenTerm? Term.ofToken? at h
  unfold Grouping.separatorText?
  cases hkind : token.kind with
  | node id =>
      simp only [hkind] at h
      split at h
      · cases h
      · rw [← Option.some.inj h, nodeTerm, Term.ofNode]
        split
        · rename_i inner hinner
          obtain ⟨op, -, hoperands⟩ := Option.bind_eq_some_iff.mp hinner
          exact Term.separator?_ofOperator? hoperands
        · rfl
  | text =>
      simp only [hkind] at h
      rw [← Option.some.inj h]
      rfl
  | delimiter id =>
      simp only [hkind] at h
      rw [← Option.some.inj h]
      rfl
  | literal id =>
      simp only [hkind] at h
      rw [← Option.some.inj h]
      rfl

variable (hclass : ∀ id op, (forest.header id).operator = some op →
  (forest.header id).contextClass.has .comment = false)

include hclass

/-- A token is read as a comment if it is one. -/
theorem isComment_tokenTerm {token : Token} {term : Term}
    (h : forest.tokenTerm? owner token = some term) :
    term.isComment = forest.isComment token := by
  unfold tokenTerm? at h
  unfold isComment Token.node?
  cases hkind : token.kind with
  | node id =>
      simp only [hkind] at h
      split at h
      · cases h
      · rw [← Option.some.inj h, nodeTerm, Term.isComment_ofNode]
        · rfl
        · intro hcomment
          by_contra hop
          obtain ⟨op, hop⟩ := Option.ne_none_iff_exists'.mp hop
          cases (hclass id op hop).symm.trans hcomment
  | text =>
      simp only [hkind] at h
      exact Term.isComment_ofToken? h
  | delimiter id =>
      simp only [hkind] at h
      exact Term.isComment_ofToken? h
  | literal id =>
      simp only [hkind] at h
      exact Term.isComment_ofToken? h

/-- The items of a list are the terms of its tokens. -/
theorem itemsOf_itemTerms (ha : forest.Arranged) (howner : owner.index < forest.nodes.size)
    (htext : (forest.header owner).contextClass.has .textLiteral = false) :
    Term.itemsOf (forest.header owner).contextClass (forest.itemTerms owner) =
      (forest.listed owner).filterMap (forest.tokenTerm? owner) := by
  unfold Term.itemsOf listed contentList
  rw [htext, if_neg Bool.false_ne_true, itemTerms_eq ha howner, List.filter_filter,
    List.filter_filterMap, List.filterMap_filter]
  refine List.filterMap_congr fun token _ => ?_
  cases hmarker : token.isMarkerOf owner with
  | true => simp [tokenTerm?_of_marker hmarker]
  | false =>
      obtain ⟨term, hterm⟩ := @exists_tokenTerm? forest owner token hmarker
      rw [hterm, ← isComment_tokenTerm hclass hterm]
      cases hcomment : term.isComment with
      | true => simp [hcomment]
      | false => simp [hcomment]

end Forest

section Spans

/-- A span with something in it that is apart from some others. -/
structure Span.Apart (spans : List Span) (s : Span) : Prop where
  nonempty : s.start < s.stop
  apart : ∀ u ∈ spans, s.stop ≤ u.start ∨ u.stop ≤ s.start

variable {spans : List Span} {s t : Span}

theorem Span.Apart.notWithin (h : s.Apart spans) : Resolution.NotWithin spans s s := by
  refine ⟨rfl, fun u hu hwithin => ?_⟩
  have hpos := h.nonempty
  rcases h.apart u hu with hbefore | hbehind
  · omega
  · omega

/-- What is within a span is apart from what the span is apart from. -/
theorem Span.Apart.within (h : s.Apart spans) (hpos : t.start < t.stop)
    (hinside : s.start ≤ t.start ∧ t.stop ≤ s.stop) : t.Apart spans := by
  refine ⟨hpos, fun u hu => ?_⟩
  rcases h.apart u hu with hbefore | hbehind
  · exact Or.inl (hinside.2.trans hbefore)
  · exact Or.inr (hbehind.trans hinside.1)

end Spans

namespace Forest

variable {forest : Forest} {owner : NodeId} {spans : List Span} {token : Token}

/-- A token is apart from the others in its list. -/
theorem Laid.apart (hl : forest.Laid) {others : List Token}
    (hothers : ∀ other ∈ others, other ∈ forest.tokenList owner)
    (hmem : token ∈ forest.tokenList owner) (hnew : token ∉ others) :
    token.span.Apart (others.map Token.span) := by
  have hrow := hl.rows owner (forest.index_lt_of_mem_tokenList hmem)
  refine ⟨hrow.nonempty _ (List.mem_map_of_mem hmem), fun u hu => ?_⟩
  obtain ⟨other, hother, rfl⟩ := List.mem_map.mp hu
  have hne : token ≠ other := fun heq => hnew (heq ▸ hother)
  obtain ⟨i, hi, rfl⟩ := List.getElem_of_mem hmem
  obtain ⟨j, hj, rfl⟩ := List.getElem_of_mem (hothers other hother)
  have hpairs := List.pairwise_iff_getElem.mp (List.pairwise_map.mp hrow.ordered)
  rcases Nat.lt_trichotomy i j with hlt | rfl | hlt
  · exact Or.inl (hpairs i j hi hj hlt)
  · exact absurd rfl hne
  · exact Or.inr (hpairs j i hj hi hlt)

/-- All that is said about a token is said outside the spans that the token is apart from. -/
theorem Laid.moved_tokenTerm (hl : forest.Laid) (ha : forest.Arranged) {table : RuleSetTable}
    (ho : Grouping.Operated table forest) (hmem : token ∈ forest.tokenList owner)
    (hspan : token.span.Apart spans) {term : Term}
    (hterm : forest.tokenTerm? owner token = some term) :
    term.Moved (Resolution.NotWithin spans) term := by
  refine Forest.moved_tokenTerm hspan.notWithin (fun child hkind hne => ?_) hterm
  obtain ⟨hchild, -, heq⟩ := ha.nested owner token child hmem hkind hne
  refine moved_nodeTerm ha ho (R := Span.Apart spans) (fun _ h => h.notWithin) ?_ hchild
    (heq ▸ hspan)
  intro outer houter inner hinner
  have hrow := hl.rows outer (forest.index_lt_of_mem_tokenList hinner)
  have hin := List.mem_map_of_mem (f := Token.span) hinner
  exact houter.within (hrow.nonempty _ hin) (hrow.inside _ hin)

end Forest

namespace Resolution

variable {σ : Type} (resolution : Resolution σ) (owner : NodeId)

/-- Is a token a separator? -/
def isSeparator (token : Token) : Bool :=
  (Grouping.separatorText? resolution.table token).isSome

/-- The values of some tokens in the list of a node. -/
def tokenValues (tokens : List Token) : Resolve σ (List Value) :=
  resolution.itemValues true (tokens.filterMap (resolution.forest.tokenTerm? owner))

/-- The report about a separator that comes too early. -/
def unexpectedSeparator (token : Token) : Span × String :=
  (token.span, "unexpected separator '" ++
    (Grouping.separatorText? resolution.table token).getD "" ++ "'")

variable {resolution owner} {tokens : List Token}

theorem expectsItem_tokenTerms (hmarkers : ∀ token ∈ tokens, token.isMarkerOf owner = false) :
    resolution.expectsItem true (tokens.filterMap (resolution.forest.tokenTerm? owner)) =
      tokens.getLast?.all resolution.isSeparator := by
  rcases List.eq_nil_or_concat tokens with rfl | ⟨init, last, rfl⟩
  · rfl
  · obtain ⟨term, hterm⟩ := @Forest.exists_tokenTerm? resolution.forest owner last
      (hmarkers last (by simp))
    rw [List.concat_eq_append, List.filterMap_append, List.filterMap_cons_some hterm,
      List.getLast?_concat]
    simp [expectsItem, isSeparator, Forest.separator?_tokenTerm resolution hterm]

/-- A separator parts the tokens of a list. -/
theorem tokenValues_split {before after : List Token} {separator : Token} {text : String}
    (hmarkers : ∀ token ∈ before, token.isMarkerOf owner = false)
    (h : Grouping.separatorText? resolution.table separator = some text) :
    resolution.tokenValues owner (before ++ separator :: after) =
      (do
        let first ← resolution.tokenValues owner before
        reportSeparator (before.getLast?.all resolution.isSeparator) separator.span text
        return first ++ (← resolution.tokenValues owner after)) := by
  have hterm : ∃ id, resolution.forest.tokenTerm? owner separator =
      some (.delimiter separator.span id) := by
    unfold Grouping.separatorText? at h
    unfold Forest.tokenTerm? Term.ofToken?
    cases hkind : separator.kind with
    | delimiter id => exact ⟨id, rfl⟩
    | _ => simp [hkind] at h
  obtain ⟨id, hterm⟩ := hterm
  have hseparator := (Forest.separator?_tokenTerm resolution hterm).trans h
  unfold tokenValues
  rw [List.filterMap_append, List.filterMap_cons_some hterm,
    itemValues_split hseparator, expectsItem_tokenTerms hmarkers]
  rfl

/-- What a list reports at its separators: those that come first or behind another one. -/
theorem reportsAt_tokenValues {spans : List Span}
    (hmarkers : ∀ token ∈ tokens, token.isMarkerOf owner = false)
    (hseparators : ∀ token ∈ tokens, resolution.isSeparator token = true → token.span ∈ spans)
    (hitems : ∀ token ∈ tokens, resolution.isSeparator token = false → ∀ term,
      resolution.forest.tokenTerm? owner token = some term →
        term.Moved (NotWithin spans) term) :
    ReportsAt spans
      ((misplaced resolution.isSeparator none tokens).map resolution.unexpectedSeparator)
      (resolution.tokenValues owner tokens) := by
  induction hlength : tokens.length using Nat.strong_induction_on generalizing tokens with
  | _ length ih =>
      by_cases hany : ∃ token ∈ tokens, resolution.isSeparator token = true
      · obtain ⟨separator, hmem, hseparator⟩ := hany
        obtain ⟨text, htext⟩ := Option.isSome_iff_exists.mp hseparator
        obtain ⟨before, after, rfl⟩ := List.append_of_mem hmem
        have hbefore : before ⊆ before ++ separator :: after := List.subset_append_left _ _
        have hafter : after ⊆ before ++ separator :: after :=
          fun token htoken => List.mem_append_right _ (List.mem_cons_of_mem _ htoken)
        rw [tokenValues_split (fun token htoken => hmarkers token (hbefore htoken)) htext,
          misplaced_split hseparator, List.map_append, List.map_append]
        refine ReportsAt.bind ?_ fun first => ReportsAt.bind ?_ fun _ => ReportsAt.map ?_
        · exact ih before.length (by simp [← hlength])
            (fun token htoken => hmarkers token (hbefore htoken))
            (fun token htoken => hseparators token (hbefore htoken))
            (fun token htoken => hitems token (hbefore htoken)) rfl
        · rw [apply_ite (List.map resolution.unexpectedSeparator), List.map_singleton,
            List.map_nil, unexpectedSeparator, htext, Option.getD_some]
          exact reportsAt_reportSeparator (hseparators separator hmem hseparator) _ text
        · exact ih after.length (by simp [← hlength]; omega)
            (fun token htoken => hmarkers token (hafter htoken))
            (fun token htoken => hseparators token (hafter htoken))
            (fun token htoken => hitems token (hafter htoken)) rfl
      · have hnone : ∀ token ∈ tokens, resolution.isSeparator token = false := fun token hmem =>
          Bool.eq_false_iff.mpr fun hseparator => hany ⟨token, hmem, hseparator⟩
        rw [misplaced_eq_nil hnone]
        refine (reportsAt_nil spans resolution).itemValues true (List.forall₂_same.mpr ?_)
        intro term hterm
        obtain ⟨token, hmem, hterm⟩ := List.mem_filterMap.mp hterm
        exact hitems token hmem (hnone token hmem) term hterm

end Resolution

namespace LexInput

variable {σ : Type} (input : LexInput) (host : Host σ) (scope : ObjectRef)
  (mode : ResolutionMode σ)

/-- The items of a list are the terms of its tokens but for markers and comments. -/
theorem itemsOf_listed {id : NodeId} (hid : id.index < input.parse.forest.nodes.size)
    (htext : (input.parse.forest.header id).contextClass.has .textLiteral = false) :
    Term.itemsOf (input.parse.forest.header id).contextClass (input.parse.forest.itemTerms id) =
      (input.parse.forest.listed id).filterMap (input.parse.forest.tokenTerm? id) := by
  refine Forest.itemsOf_itemTerms ?_ input.arranged_parse hid htext
  intro other op hop
  rw [contextClass_of_operator hop]
  decide

/-- What a list reports at its separators; its items are apart from them. -/
theorem reportsAt_listed (id : NodeId) :
    Resolution.ReportsAt
      (((input.parse.forest.listed id).filter
        (input.resolution host scope mode).isSeparator).map Token.span)
      ((misplaced (input.resolution host scope mode).isSeparator none
        (input.parse.forest.listed id)).map (input.resolution host scope mode).unexpectedSeparator)
      ((input.resolution host scope mode).tokenValues id (input.parse.forest.listed id)) := by
  refine Resolution.reportsAt_tokenValues
    (fun token htoken => (Forest.isMarkerOf_of_mem_listed htoken).2) ?_ ?_
  · intro token htoken hseparator
    exact List.mem_map_of_mem (List.mem_filter.mpr ⟨htoken, hseparator⟩)
  · intro token htoken hitem term hterm
    have hmem := (Forest.isMarkerOf_of_mem_listed htoken).1
    refine input.laid_parse.moved_tokenTerm input.arranged_parse input.operated_parse hmem
      (input.laid_parse.apart ?_ hmem ?_) hterm
    · intro other hother
      exact (Forest.isMarkerOf_of_mem_listed (List.mem_filter.mp hother).1).1
    · intro hother
      cases hitem.symm.trans (List.mem_filter.mp hother).2

/--
The list of a node that is no text literal: its items are those of its tokens but for markers and
comments. What resolving it reports at the separators among them is one report for each of them
that comes first or directly behind another one, in their order. Each separator parts the items
before it from those behind it and adds no value, and one at the end, behind an item, changes
nothing.
-/
theorem separators_of_list {id : NodeId} (hid : id.index < input.parse.forest.nodes.size)
    (htext : (input.parse.forest.header id).contextClass.has .textLiteral = false)
    (state : ResolutionState σ) :
    let forest := input.parse.forest
    let resolution := input.resolution host scope mode
    let listed := forest.listed id
    let separators := listed.filter resolution.isSeparator
    resolution.itemValues true
        (Term.itemsOf (forest.header id).contextClass (forest.itemTerms id)) =
      resolution.tokenValues id listed ∧
    (∃ reports,
      ((resolution.tokenValues id listed).run state).2.log.entries.toList =
        state.log.entries.toList ++ reports ∧
      reports.filter (fun d => d.span ∈ separators.map Token.span) =
        (misplaced resolution.isSeparator none listed).map fun token =>
          state.log.entry .structural token.span ("unexpected separator '" ++
            (Grouping.separatorText? input.table token).getD "" ++ "'")) ∧
    (∀ before separator after text, before ⊆ listed →
      Grouping.separatorText? input.table separator = some text →
        resolution.tokenValues id (before ++ separator :: after) =
          (do
            let first ← resolution.tokenValues id before
            Resolution.reportSeparator (before.getLast?.all resolution.isSeparator) separator.span
              text
            return first ++ (← resolution.tokenValues id after))) ∧
    ∀ before item separator, before ++ [item, separator] ⊆ listed →
      resolution.isSeparator item = false → resolution.isSeparator separator = true →
        resolution.tokenValues id (before ++ [item, separator]) =
          resolution.tokenValues id (before ++ [item]) := by
  dsimp only
  have hsplit := fun before separator after text
      (hbefore : before ⊆ input.parse.forest.listed id) =>
    @Resolution.tokenValues_split σ (input.resolution host scope mode) id before after separator
      text fun token htoken => (Forest.isMarkerOf_of_mem_listed (hbefore htoken)).2
  refine ⟨?_, ?_, hsplit, ?_⟩
  · exact congrArg ((input.resolution host scope mode).itemValues true)
      (input.itemsOf_listed hid htext)
  · obtain ⟨reports, -, hentries, hown⟩ := input.reportsAt_listed host scope mode id state
    refine ⟨reports, hentries, ?_⟩
    rw [hown, List.map_map]
    rfl
  · intro before item separator hsub hitem hseparator
    obtain ⟨text, htext⟩ := Option.isSome_iff_exists.mp hseparator
    have hbefore : before ++ [item] ⊆ input.parse.forest.listed id := fun token htoken =>
      hsub (by
        rcases List.mem_append.mp htoken with h | h
        · exact List.mem_append_left _ h
        · simp [List.mem_singleton.mp h])
    have hparts := hsplit (before ++ [item]) separator [] text hbefore htext
    rw [List.append_assoc, List.getLast?_concat, Option.all_some, hitem] at hparts
    rw [← List.singleton_append, hparts]
    simp [Resolution.reportSeparator, Resolution.tokenValues, Resolution.itemValues_nil]

/-- A separator at the start and one behind a comment, and a list of arguments with its own. -/
theorem separators_of_list_arguments :
    (1 < (Language.input "[, /* c */, f(2,, 3),]").parse.forest.nodes.size ∧
      ((Language.input "[, /* c */, f(2,, 3),]").parse.forest.header ⟨1⟩).contextClass.has
        .textLiteral = false) ∧
    ∃ reports,
      ((((Language.input "[, /* c */, f(2,, 3),]").resolution Store.host ⟨0⟩ .full).tokenValues
        ⟨1⟩ ((Language.input "[, /* c */, f(2,, 3),]").parse.forest.listed ⟨1⟩)).run
          ⟨⟨#[]⟩, (Language.input "[, /* c */, f(2,, 3),]").parse.log⟩).2.log.entries.toList =
        (Language.input "[, /* c */, f(2,, 3),]").parse.log.entries.toList ++ reports ∧
      reports.filter (fun d => d.span ∈ [(⟨1, 2⟩ : Span), ⟨10, 11⟩, ⟨20, 21⟩]) =
        [(⟨1, 2⟩ : Span), ⟨10, 11⟩].map fun span =>
          (Language.input "[, /* c */, f(2,, 3),]").parse.log.entry .structural span
            "unexpected separator ','" := by
  -- the node, where its separators are, and which of them come too early
  have hfacts : (1 < (Language.input "[, /* c */, f(2,, 3),]").parse.forest.nodes.size ∧
      ((Language.input "[, /* c */, f(2,, 3),]").parse.forest.header ⟨1⟩).contextClass.has
        .textLiteral = false) ∧
      (((Language.input "[, /* c */, f(2,, 3),]").parse.forest.listed ⟨1⟩).filter
        ((Language.input "[, /* c */, f(2,, 3),]").resolution Store.host ⟨0⟩
          .full).isSeparator).map Token.span = [⟨1, 2⟩, ⟨10, 11⟩, ⟨20, 21⟩] ∧
      (misplaced ((Language.input "[, /* c */, f(2,, 3),]").resolution Store.host ⟨0⟩
        .full).isSeparator none
          ((Language.input "[, /* c */, f(2,, 3),]").parse.forest.listed ⟨1⟩)).map (fun token =>
            (token.span, (Grouping.separatorText?
              (Language.input "[, /* c */, f(2,, 3),]").table token).getD "")) =
          [(⟨1, 2⟩, ","), (⟨10, 11⟩, ",")] := by
    decide +kernel
  obtain ⟨hnode, hseparators, hmisplaced⟩ := hfacts
  obtain ⟨-, ⟨reports, hentries, hreports⟩, -⟩ :=
    (Language.input "[, /* c */, f(2,, 3),]").separators_of_list Store.host ⟨0⟩ .full hnode.1
      hnode.2 ⟨⟨#[]⟩, (Language.input "[, /* c */, f(2,, 3),]").parse.log⟩
  have hentry := congrArg (List.map fun report : Span × String =>
    (Language.input "[, /* c */, f(2,, 3),]").parse.log.entry .structural report.1
      ("unexpected separator '" ++ report.2 ++ "'")) hmisplaced
  rw [List.map_map] at hentry
  rw [hseparators] at hreports
  exact ⟨hnode, reports, hentries, hreports.trans hentry⟩

end LexInput

end ExprLang
