import ExprLang.Proofs.Grouping.Layout
import ExprLang.Proofs.Resolution.NodeTerms
import ExprLang.Resolution.Terms

/-!
# What a host can be asked for

A term can have the host asked for its names, and for the groups in parentheses that are the
arguments of a call. In a parsed text these sites have an order: a name comes in front of what
is right of it, and arguments come behind everything in them.

Main definitions:
* `Site`, `Site.Before`: names and arguments, and their order;
* `Term.sites`: the sites of a term, in the order in which they are asked for;
* `InTurn`: sites that are within a span, in their order.

Main results:
* `Term.sublist_sites_of_ofOperator?`: an operator has no other sites than its operands;
* `LexInput.inTurn_parse`: the sites of the terms of a parsed text.
-/

namespace ExprLang

/-- A part of the text that a host is asked for. -/
inductive Site where
  | name (span : Span)
  /-- The arguments of a call, with their parentheses. -/
  | arguments (span : Span)
  deriving DecidableEq

namespace Site

/-- Where a site is. -/
def span : Site → Span
  | name span => span
  | arguments span => span

/-- A site comes before what starts behind its end, and before the arguments that it is in. -/
def Before (a : Site) : Site → Prop
  | name span => a.span.stop ≤ span.start
  | arguments span =>
      a.span.stop ≤ span.start ∨ (span.start < a.span.start ∧ a.span.stop ≤ span.stop)

theorem before_of_le {a b : Site} (h : a.span.stop ≤ b.span.start) : a.Before b := by
  cases b with
  | name span => exact h
  | arguments span => exact Or.inl h

/-- A site of a forest: a token of plain text, or a context in parentheses other than the root. -/
def IsOf (table : RuleSetTable) (forest : Forest) : Site → Prop
  | name span => ∃ owner, ⟨span, .text⟩ ∈ forest.tokenList owner
  | arguments span => ∃ id, id.index < forest.nodes.size ∧ id ≠ Forest.root ∧
      (forest.header id).operator = none ∧ (forest.header id).span = span ∧
        (table.ruleSet (forest.header id).rules).name = Grammar.parensName

end Site

/-- The site of a link that is a name. -/
def Link.site? (link : Link) : Option Site :=
  if link.isName then some (.name link.span) else none

namespace Term

mutual

/-- The sites of a term from left to right, those of a group before the group. -/
def sites (table : RuleSetTable) : Term → List Site
  | name span => [.name span]
  | literal _ _ => []
  | delimiter _ _ => []
  | group span rules _ items =>
      sitesOf table items ++
        if (table.ruleSet rules).name == Grammar.parensName then [.arguments span] else []
  | chain _ _ first links => sites table first ++ links.filterMap Link.site?
  | binary _ _ left right => sites table left ++ sites table right
  | prefixed _ _ operand => sites table operand
  | ifThen _ condition trueCase => sites table condition ++ sites table trueCase
  | ifThenElse _ condition trueCase falseCase =>
      sites table condition ++ (sites table trueCase ++ sites table falseCase)

/-- The sites of terms in a row. -/
def sitesOf (table : RuleSetTable) : List Term → List Site
  | [] => []
  | term :: rest => sites table term ++ sitesOf table rest

end

variable (table : RuleSetTable)

theorem sitesOf_append (first second : List Term) :
    sitesOf table (first ++ second) = sitesOf table first ++ sitesOf table second := by
  induction first with
  | nil => rfl
  | cons term rest ih => rw [List.cons_append, sitesOf, sitesOf, ih, List.append_assoc]

theorem sublist_sitesOf {some terms : List Term} (h : some.Sublist terms) :
    (sitesOf table some).Sublist (sitesOf table terms) := by
  induction h with
  | slnil => exact List.Sublist.refl _
  | cons term _ ih =>
      rw [sitesOf]
      exact ih.trans (List.sublist_append_right _ _)
  | cons_cons term _ ih =>
      rw [sitesOf, sitesOf]
      exact (List.Sublist.refl _).append ih

/-- The sites of a chain are those of its first operand and its links; so for any term. -/
theorem sites_eq (term : Term) :
    term.sites table = term.chainHead.sites table ++ term.chainLinks.filterMap Link.site? := by
  cases term with
  | chain span op first links => rw [sites, chainHead, chainLinks]
  | _ => exact (List.append_nil _).symm

/-- A link in front of the links of a term stands for the term's head, if this is a name. -/
theorem sublist_link (op : Operator) (term : Term) :
    (List.filterMap Link.site?
      (⟨op, term.chainHead.span, term.chainHead.isName⟩ :: term.chainLinks)).Sublist
        (term.sites table) := by
  rw [sites_eq table term]
  cases hhead : term.chainHead with
  | name span => exact List.Sublist.refl _
  | _ =>
      rw [List.filterMap_cons_none rfl]
      exact List.sublist_append_right _ _

theorem sublist_sites_member (span : Span) (op : Operator) (left right : Term) :
    ((member span op left right).sites table).Sublist (left.sites table ++ right.sites table) := by
  rw [member, sites, List.filterMap_append, sites_eq table left, List.append_assoc]
  exact (List.Sublist.refl _).append ((List.Sublist.refl _).append (sublist_link table op right))

/-- An operator has no other sites than its operands. -/
theorem sublist_sites_of_ofOperator? {span : Span} {op : Operator} {operands : List Term}
    {term : Term} (h : ofOperator? span op operands = some term) :
    (term.sites table).Sublist (sitesOf table operands) := by
  unfold ofOperator? at h
  split at h
  · rename_i left right _
    obtain rfl := Option.some.inj h
    rw [sitesOf, sitesOf, sitesOf, List.append_nil]
    split
    · exact sublist_sites_member table span op left right
    · exact List.Sublist.refl _
  · rename_i operand _
    obtain rfl := Option.some.inj h
    rw [sitesOf, sitesOf, List.append_nil]
    exact List.Sublist.refl _
  · rename_i condition trueCase _
    obtain rfl := Option.some.inj h
    rw [sitesOf, sitesOf, sitesOf, List.append_nil]
    exact List.Sublist.refl _
  · rename_i condition trueCase other falseCase _
    obtain rfl := Option.some.inj h
    -- the text between the cases is left out
    simp only [sitesOf, sites, List.append_nil]
    exact (List.Sublist.refl _).append
      ((List.Sublist.refl _).append (List.sublist_append_right _ _))
  · cases h

theorem itemsOf_sublist (contextClass : ContextClass) (items : List Term) :
    (itemsOf contextClass items).Sublist items := by
  unfold itemsOf
  split
  · exact List.Sublist.refl _
  · exact List.filter_sublist

end Term

/-- Sites of a forest within a span, in their order. -/
structure InTurn (table : RuleSetTable) (forest : Forest) (whole : Span) (sites : List Site) :
    Prop where
  known : ∀ site ∈ sites, site.IsOf table forest
  nonempty : ∀ site ∈ sites, site.span.start < site.span.stop
  inside : ∀ site ∈ sites, whole.start ≤ site.span.start ∧ site.span.stop ≤ whole.stop
  ordered : sites.Pairwise Site.Before

namespace InTurn

variable {table : RuleSetTable} {forest : Forest} {whole : Span} {sites : List Site}

theorem nil (table : RuleSetTable) (forest : Forest) (whole : Span) :
    InTurn table forest whole [] where
  known := by simp
  nonempty := by simp
  inside := by simp
  ordered := List.Pairwise.nil

theorem sublist (h : InTurn table forest whole sites) {some : List Site}
    (hsub : some.Sublist sites) : InTurn table forest whole some where
  known := fun site hs => h.known site (hsub.subset hs)
  nonempty := fun site hs => h.nonempty site (hsub.subset hs)
  inside := fun site hs => h.inside site (hsub.subset hs)
  ordered := h.ordered.sublist hsub

theorem mono (h : InTurn table forest whole sites) {wider : Span}
    (hstart : wider.start ≤ whole.start) (hstop : whole.stop ≤ wider.stop) :
    InTurn table forest wider sites where
  known := h.known
  nonempty := h.nonempty
  inside := fun site hs =>
    ⟨hstart.trans (h.inside site hs).1, (h.inside site hs).2.trans hstop⟩
  ordered := h.ordered

theorem singleton {site : Site} (hknown : site.IsOf table forest)
    (hpos : site.span.start < site.span.stop) : InTurn table forest site.span [site] where
  known := by simpa using hknown
  nonempty := by simpa using hpos
  inside := by simp
  ordered := List.pairwise_singleton _ _

/-- The sites of tokens that stand in order. -/
theorem flatMap {tokens : List Token} {f : Token → List Site}
    (h : InOrder whole (tokens.map Token.span))
    (hf : ∀ t ∈ tokens, InTurn table forest t.span (f t)) :
    InTurn table forest whole (tokens.flatMap f) := by
  have hinside : ∀ t ∈ tokens, whole.start ≤ t.span.start ∧ t.span.stop ≤ whole.stop :=
    fun t ht => h.inside t.span (List.mem_map_of_mem ht)
  constructor
  · intro site hsite
    obtain ⟨t, ht, hsite⟩ := List.mem_flatMap.mp hsite
    exact (hf t ht).known site hsite
  · intro site hsite
    obtain ⟨t, ht, hsite⟩ := List.mem_flatMap.mp hsite
    exact (hf t ht).nonempty site hsite
  · intro site hsite
    obtain ⟨t, ht, hsite⟩ := List.mem_flatMap.mp hsite
    exact ((hf t ht).mono (hinside t ht).1 (hinside t ht).2).inside site hsite
  · refine List.pairwise_flatMap.mpr ⟨fun t ht => (hf t ht).ordered, ?_⟩
    refine (List.pairwise_map.mp h.ordered).imp_of_mem ?_
    intro s t hs ht hbefore a ha b hb
    exact Site.before_of_le (((hf s hs).inside a ha).2.trans
      (hbefore.trans ((hf t ht).inside b hb).1))

/-- Arguments come behind what is in them. -/
theorem group (h : InTurn table forest whole sites) {start : Nat} (hstart : start < whole.start)
    (hpos : whole.start ≤ whole.stop)
    (hknown : (Site.arguments ⟨start, whole.stop⟩).IsOf table forest) :
    InTurn table forest ⟨start, whole.stop⟩ (sites ++ [.arguments ⟨start, whole.stop⟩]) where
  known := by
    intro site hsite
    rcases List.mem_append.mp hsite with hsite | hsite
    · exact h.known site hsite
    · rw [List.mem_singleton.mp hsite]
      exact hknown
  nonempty := by
    intro site hsite
    rcases List.mem_append.mp hsite with hsite | hsite
    · exact h.nonempty site hsite
    · rw [List.mem_singleton.mp hsite]
      exact Nat.lt_of_lt_of_le hstart hpos
  inside := by
    intro site hsite
    rcases List.mem_append.mp hsite with hsite | hsite
    · exact ⟨Nat.le_of_lt (Nat.lt_of_lt_of_le hstart (h.inside site hsite).1),
        (h.inside site hsite).2⟩
    · rw [List.mem_singleton.mp hsite]
      exact ⟨le_rfl, le_rfl⟩
  ordered := by
    refine List.pairwise_append.mpr ⟨h.ordered, List.pairwise_singleton _ _, ?_⟩
    intro a ha b hb
    rw [List.mem_singleton.mp hb]
    exact Or.inr ⟨Nat.lt_of_lt_of_le hstart (h.inside a ha).1, (h.inside a ha).2⟩

end InTurn

namespace Forest

variable {table : RuleSetTable} {forest : Forest}

theorem sitesOf_filterMap (f : Token → Option Term) (tokens : List Token) :
    Term.sitesOf table (tokens.filterMap f) =
      tokens.flatMap fun token => Term.sitesOf table (f token).toList := by
  induction tokens with
  | nil => rfl
  | cons token rest ih =>
      rw [List.flatMap_cons, ← ih]
      cases hterm : f token with
      | none =>
          rw [List.filterMap_cons_none hterm]
          rfl
      | some term =>
          rw [List.filterMap_cons_some hterm, ← Term.sitesOf_append]
          rfl

/-- The sites of a token's term, if those of nested nodes are in their order. -/
theorem inTurn_token (ha : forest.Arranged) {owner : NodeId} {token : Token}
    (hmem : token ∈ forest.tokenList owner) (hpos : token.span.start < token.span.stop)
    (hnested : ∀ child, token.kind = .node child → child ≠ owner →
      InTurn table forest (forest.header child).span ((forest.nodeTerm child).sites table)) :
    InTurn table forest token.span
      (Term.sitesOf table (forest.tokenTerm? owner token).toList) := by
  unfold tokenTerm? Term.ofToken?
  cases hkind : token.kind with
  | literal id => exact .nil _ _ _
  | delimiter id => exact .nil _ _ _
  | text =>
      have hsite : (Site.name token.span).IsOf table forest := ⟨owner, hkind ▸ hmem⟩
      exact .singleton hsite hpos
  | node child =>
      by_cases hne : child = owner
      · simp only [if_pos hne]
        exact .nil _ _ _
      · simp only [if_neg hne, Option.toList_some, Term.sitesOf, List.append_nil]
        rw [(ha.nested owner token child hmem hkind hne).2.2]
        exact hnested child hkind hne

/-- The sites of a node's items, if those of nested nodes are in their order. -/
theorem inTurn_items (ha : forest.Arranged) {owner : NodeId} {whole : Span} {tokens : List Token}
    (hsub : tokens ⊆ forest.tokenList owner) (hl : InOrder whole (tokens.map Token.span))
    (hnested : ∀ token ∈ forest.tokenList owner, ∀ child, token.kind = .node child →
      child ≠ owner →
        InTurn table forest (forest.header child).span ((forest.nodeTerm child).sites table)) :
    InTurn table forest whole
      (Term.sitesOf table (tokens.filterMap (forest.tokenTerm? owner))) := by
  rw [sitesOf_filterMap]
  refine InTurn.flatMap hl fun token ht => ?_
  exact inTurn_token ha (hsub ht) (hl.nonempty _ (List.mem_map_of_mem ht))
    fun child => hnested token (hsub ht) child

/-- The sites of a node are within its span, in their order. -/
theorem inTurn_node (ha : forest.Arranged) (ho : Grouping.Operated table forest)
    (hl : forest.Laid) {id : NodeId} (hid : id.index < forest.nodes.size) :
    id ≠ root →
      InTurn table forest (forest.header id).span ((forest.nodeTerm id).sites table) := by
  refine ha.node_induction (P := fun id => id ≠ root →
    InTurn table forest (forest.header id).span ((forest.nodeTerm id).sites table)) ?_ hid
  intro id hid ih hroot
  have hnested : ∀ token ∈ forest.tokenList id, ∀ child, token.kind = .node child →
      child ≠ id →
        InTurn table forest (forest.header child).span ((forest.nodeTerm child).sites table) := by
    intro token hmem child hkind hne
    refine ih token hmem child hkind hne ?_
    rintro rfl
    exact ha.unmarked id token hmem hkind
  have hrow := hl.rows id hid
  cases hop : (forest.header id).operator with
  | some op =>
      have hitems := inTurn_items ha (List.Subset.refl _) hrow hnested
      rw [← itemTerms_eq ha hid] at hitems
      exact hitems.sublist
        (Term.sublist_sites_of_ofOperator? table (nodeTerm_of_operator ha ho hop))
  | none =>
      obtain ⟨marker, rest, hlist, hkind⟩ := hl.opened id hid hroot hop
      rw [hlist, List.map_cons] at hrow
      have hmarker := hrow.inside marker.span List.mem_cons_self
      have hpos := hrow.nonempty marker.span List.mem_cons_self
      -- what is behind the opening delimiter starts later than the context
      have hrest : InOrder ⟨marker.span.stop, (forest.header id).span.stop⟩
          (rest.map Token.span) := by
        refine ⟨fun s hs => hrow.nonempty s (List.mem_cons_of_mem _ hs), hrow.ordered.tail, ?_⟩
        intro s hs
        exact ⟨(List.pairwise_cons.mp hrow.ordered).1 s hs,
          (hrow.inside s (List.mem_cons_of_mem _ hs)).2⟩
      have hitems : InTurn table forest ⟨marker.span.stop, (forest.header id).span.stop⟩
          (Term.sitesOf table (Term.itemsOf (forest.header id).contextClass
            (forest.itemTerms id))) := by
        refine (inTurn_items ha ?_ hrest hnested).sublist
          (Term.sublist_sitesOf table ((Term.itemsOf_sublist _ _).trans ?_))
        · rw [hlist]
          exact List.subset_cons_self marker rest
        · rw [itemTerms_eq ha hid, hlist, List.filterMap_cons_none
            (tokenTerm?_of_marker (by simp [Token.isMarkerOf, hkind]))]
      rw [nodeTerm_of_context hop, Term.sites]
      split
      · rename_i hparens
        have hsite : (Site.arguments ⟨(forest.header id).span.start,
            (forest.header id).span.stop⟩).IsOf table forest :=
          ⟨id, hid, hroot, hop, rfl, by simpa using hparens⟩
        exact hitems.group (Nat.lt_of_le_of_lt hmarker.1 hpos) hmarker.2 hsite
      · rw [List.append_nil]
        exact hitems.mono (Nat.le_of_lt (Nat.lt_of_le_of_lt hmarker.1 hpos)) le_rfl

/-- The sites of the items of any node. -/
theorem inTurn_itemTerms (ha : forest.Arranged) (ho : Grouping.Operated table forest)
    (hl : forest.Laid) {id : NodeId} (hid : id.index < forest.nodes.size) :
    InTurn table forest (forest.header id).span
      (Term.sitesOf table (forest.itemTerms id)) := by
  rw [itemTerms_eq ha hid]
  refine inTurn_items ha (List.Subset.refl _) (hl.rows id hid) ?_
  intro token hmem child hkind hne
  refine inTurn_node ha ho hl (ha.nested id token child hmem hkind hne).1 ?_
  rintro rfl
  exact ha.unmarked id token hmem hkind

end Forest

/-- The sites of the terms of a parsed text come in their order. -/
theorem LexInput.inTurn_parse (input : LexInput) :
    InTurn input.table input.parse.forest (input.parse.forest.header Forest.root).span
      (Term.sitesOf input.table input.parse.forest.terms) := by
  have ha := input.arranged_parse
  rw [Forest.terms_eq]
  exact (Forest.inTurn_itemTerms ha input.operated_parse input.laid_parse ha.size_pos).sublist
    (Term.sublist_sitesOf _ (Term.itemsOf_sublist _ _))

end ExprLang
