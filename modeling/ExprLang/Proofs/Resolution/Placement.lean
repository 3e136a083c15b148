import ExprLang.Host.Store
import ExprLang.Language
import ExprLang.Proofs.Grouping.Placement
import ExprLang.Proofs.Resolution.Parsed
import ExprLang.Proofs.Resolution.Reports

/-!
# Where problems of an evaluation are reported

The terms of a forest whose tokens are parts of the source are written at parts of the source, all
of their own terms too. What is reported about them is at such a part, or goes from the start of one
to the end of another one.

Main definitions:
* `Term.InParts`: a term that is written at parts of a source;
* `Resolution.KeepsPlaced`: an action whose reports are at parts of the source.

Main results:
* `Forest.moved_nodeTerm`: where the parts of a term are written, from the tokens of nodes;
* `Forest.InParts.itemTerms`: the terms of a forest;
* `Resolution.keepsPlaced`: what a resolution is made of reports at parts of the source;
* `LexInput.isPlaced_evaluate`: lexing, grouping and resolution of a text.
-/

namespace ExprLang

/-- A term that is written at a part of a source, as are the terms that it consists of. -/
def Term.InParts (source : Source) (term : Term) : Prop :=
  term.Moved (fun s t => s = t ∧ source.IsPart s) term

namespace Forest

variable {source : Source} {forest : Forest} {table : RuleSetTable}

section Terms

variable {Q : Span → Span → Prop}

/-- The term of a token, if that of the node that it stands for is such a term. -/
theorem moved_tokenTerm {owner : NodeId} {token : Token} (hspan : Q token.span token.span)
    (hnode : ∀ child, token.kind = .node child → child ≠ owner →
      (forest.nodeTerm child).Moved Q (forest.nodeTerm child)) {term : Term}
    (hterm : forest.tokenTerm? owner token = some term) : term.Moved Q term := by
  unfold Forest.tokenTerm? Term.ofToken? at hterm
  cases hkind : token.kind with
  | node child =>
      simp only [hkind] at hterm
      split at hterm
      · cases hterm
      · rename_i hne
        rw [← Option.some.inj hterm]
        exact hnode child hkind hne
  | text =>
      simp only [hkind] at hterm
      rw [← Option.some.inj hterm]
      exact .name hspan
  | delimiter other =>
      simp only [hkind] at hterm
      rw [← Option.some.inj hterm]
      exact .delimiter other hspan
  | literal other =>
      simp only [hkind] at hterm
      rw [← Option.some.inj hterm]
      exact .literal _ hspan

variable (h : forest.InParts source) (ha : forest.Arranged)
  (ho : Grouping.Operated table forest) {id : NodeId}

include ha ho

/-- What holds of the span of a node, and with a node's span of its tokens, holds of all spans. -/
theorem moved_nodeTerm {R : Span → Prop} (hrefl : ∀ s, R s → Q s s)
    (htokens : ∀ owner, R (forest.header owner).span → ∀ token ∈ forest.tokenList owner,
      R token.span)
    (hid : id.index < forest.nodes.size) (hspan : R (forest.header id).span) :
    (forest.nodeTerm id).Moved Q (forest.nodeTerm id) := by
  refine ha.node_induction (P := fun id => R (forest.header id).span →
    (forest.nodeTerm id).Moved Q (forest.nodeTerm id)) ?_ hid hspan
  intro id hid ih hspan
  have hitems : ∀ term ∈ forest.itemTerms id, term.Moved Q term := by
    rw [itemTerms_eq ha hid]
    intro term hterm
    obtain ⟨token, hmem, hterm⟩ := List.mem_filterMap.mp hterm
    have htoken := htokens id hspan token hmem
    refine moved_tokenTerm (hrefl _ htoken) (fun child hkind hne => ?_) hterm
    obtain ⟨-, -, hchild⟩ := ha.nested id token child hmem hkind hne
    exact ih token hmem child hkind hne (hchild ▸ htoken)
  cases hop : (forest.header id).operator with
  | none =>
      rw [nodeTerm_of_context hop]
      exact .group _ _ (hrefl _ hspan) (Term.forall₂_itemsOf _ (List.forall₂_same.mpr hitems))
  | some op =>
      have hterm := nodeTerm_of_operator ha ho hop
      exact Term.Moved.ofOperator? (hrefl _ hspan) op (List.forall₂_same.mpr hitems) hterm hterm

include h

/-- The terms of all tokens are written at parts of the source. -/
theorem InParts.tokenTerms : ∀ token ∈ forest.tokenList id, ∀ term,
    forest.tokenTerm? id token = some term → term.InParts source := by
  intro token hmem term hterm
  refine moved_tokenTerm ⟨rfl, h id token hmem⟩ (fun child hkind hne => ?_) hterm
  obtain ⟨hchild, -, hspan⟩ := ha.nested id token child hmem hkind hne
  exact moved_nodeTerm ha ho (fun _ hs => ⟨rfl, hs⟩) (fun owner _ => h owner) hchild
    (hspan ▸ h id token hmem)

/-- The items of a node are written at parts of the source. -/
theorem InParts.itemTerms (hid : id.index < forest.nodes.size) :
    ∀ term ∈ forest.itemTerms id, term.InParts source := by
  rw [itemTerms_eq ha hid]
  intro term hterm
  obtain ⟨token, hmem, hterm⟩ := List.mem_filterMap.mp hterm
  exact h.tokenTerms ha ho token hmem term hterm

end Terms

end Forest

namespace Resolution

variable {σ : Type} {source : Source}

/-- An action whose reports are at parts of the source if those before it are. -/
def KeepsPlaced (source : Source) {α : Type} (action : Resolve σ α) : Prop :=
  ∀ state : ResolutionState σ, state.log.IsPlaced source →
    (action.run state).2.log.IsPlaced source

theorem Silent.keepsPlaced {α : Type} {action : Resolve σ α} (h : Silent action) :
    KeepsPlaced source action := by
  intro state hlog
  rw [h state]
  exact hlog

/-- What reports at parts of the source is made of what does. -/
theorem keepsPlaced (source : Source) (resolution : Resolution σ) :
    Parallel (fun s t => s = t ∧ source.IsPart s) (fun {_} action _ => KeepsPlaced source action)
      resolution resolution where
  table := rfl
  scope := rfl
  textOf := fun h => congrArg resolution.textOf h.1
  merge := fun h h' => ⟨congrArg₂ Span.merge h.1 h'.1, h.2.merge h'.2⟩
  pure := fun result => (silent_pure result).keepsPlaced
  bind := fun h hnext state hlog => hnext _ _ (h state hlog)
  withoutLog := fun h state hlog => (h state hlog).rollback _
  report := fun category _ _ message h _ hlog => hlog.report category h.2 message
  stopsAt := fun kind text => (silent_stopsAt resolution kind text).keepsPlaced
  member := fun _ _ _ _ _ => Silent.keepsPlaced fun _ => rfl
  invoke := fun _ _ _ _ _ _ => Silent.keepsPlaced fun _ => rfl

end Resolution

namespace LexInput

variable {σ : Type} {input : LexInput} (host : Host σ) (scope : ObjectRef) (mode : ResolutionMode σ)

section Sized

variable (htable : input.table = Grammar.builtin) (hsize : input.source.size < Span.offsetCount)

include htable hsize

theorem inParts_parse :
    input.parse.forest.InParts input.source ∧ input.parse.log.IsPlaced input.source :=
  inParts_group htable hsize [] input.table

/-- Resolving a term of a parsed text reports at parts of the source. -/
theorem keepsPlaced_tokenTerm {owner : NodeId} {token : Token}
    (hmem : token ∈ input.parse.forest.tokenList owner) {term : Term}
    (hterm : input.parse.forest.tokenTerm? owner token = some term) (callFollows : Bool) :
    Resolution.KeepsPlaced input.source ((input.resolution host scope mode).unlessStopped term
      ((input.resolution host scope mode).value callFollows term)) := by
  have hkeeps := Resolution.keepsPlaced input.source (input.resolution host scope mode)
  have hmoved := (inParts_parse htable hsize).1.tokenTerms input.arranged_parse
    input.operated_parse token hmem term hterm
  exact hkeeps.unlessStopped (b := (input.resolution host scope mode).value callFollows term)
    hmoved (hkeeps.value callFollows hmoved)

/-- An evaluation reports at parts of the source. -/
theorem isPlaced_log_evaluate (state : σ) :
    (input.evaluate host scope mode state).1.log.IsPlaced input.source := by
  obtain ⟨hforest, hparse⟩ := inParts_parse htable hsize
  have hitems := hforest.itemTerms input.arranged_parse input.operated_parse
    input.arranged_parse.size_pos
  have hmoved : input.parse.forest.terms.Forall₂ (Term.Moved fun s t => s = t ∧
      input.source.IsPart s) input.parse.forest.terms :=
    Term.forall₂_itemsOf _ (List.forall₂_same.mpr hitems)
  have htotal : (input.resolution host scope mode).total = (do
      return .collapse
        (← (input.resolution host scope mode).itemValues true input.parse.forest.terms)) := rfl
  rw [input.evaluate_of_total host scope mode state htotal]
  exact (Resolution.keepsPlaced input.source (input.resolution host scope mode)).itemValues true
    hmoved ⟨state, input.parse.log⟩ hparse

end Sized

/--
Whatever lexing, grouping and resolution of a text report is reported at a part of the source, with
the row and the column of its start, so that the source has a text there. This holds of each term on
its own too, and so of the reports that are dropped later. A text that is too large is not read,
which is the only report then.
-/
theorem isPlaced_evaluate (source : Source) (rules : RuleSetId) (calls : List LexCall)
    (state : σ) :
    let input : LexInput := ⟨Grammar.builtin, source, rules⟩
    let resolution := input.resolution host scope mode
    let logs := [(input.finish calls).log, ((input.finish calls).group input.table).log,
      (input.evaluate host scope mode state).1.log]
    if source.size < Span.offsetCount then
      (∀ log ∈ logs, ∀ d ∈ log.entries.toList, d.IsPlaced source ∧
        ∃ text, text ≠ [] ∧ source.slice? d.span.start d.span.stop = some text) ∧
      ∀ owner, ∀ token ∈ input.parse.forest.tokenList owner, ∀ term,
        input.parse.forest.tokenTerm? owner token = some term →
          ∀ callFollows (before : ResolutionState σ), before.log.IsPlaced source →
            ((resolution.unlessStopped term
              (resolution.value callFollows term)).run before).2.log.IsPlaced source
    else
      ∀ log ∈ logs, log.entries.toList =
        [(Log.ofSource source).entry .lex (.point 0) (tooLargeMessage source.size)] := by
  intro input resolution logs
  have hmem : ∀ {P : Log → Prop}, P (input.finish calls).log →
      P ((input.finish calls).group input.table).log →
        P (input.evaluate host scope mode state).1.log → ∀ log ∈ logs, P log := by
    intro P hlexed hgrouped hevaluated log hlog
    rcases List.mem_cons.mp hlog with rfl | hlog
    · exact hlexed
    · rcases List.mem_cons.mp hlog with rfl | hlog
      · exact hgrouped
      · rw [List.mem_singleton.mp hlog]
        exact hevaluated
  by_cases hsize : source.size < Span.offsetCount
  · rw [if_pos hsize]
    have hlogs : ∀ log ∈ logs, log.IsPlaced source :=
      hmem (@inParts_final input rfl hsize calls).log
        (@inParts_group input rfl hsize calls input.table).2
        (@isPlaced_log_evaluate σ input host scope mode rfl hsize state)
    refine ⟨fun log hlog d hd => ?_, fun owner token htoken term hterm callFollows => ?_⟩
    · have hplaced := (hlogs log hlog).entries d hd
      exact ⟨hplaced, hplaced.exists_slice?⟩
    · exact @keepsPlaced_tokenTerm σ input host scope mode rfl hsize owner token htoken term hterm
        callFollows
  · rw [if_neg hsize]
    have hle : Span.offsetCount ≤ input.source.size := Nat.le_of_not_lt hsize
    have hgroup : (input.finish calls).group input.table = input.finish calls := by
      refine group_finish_eq fun token htoken => ?_
      rw [input.finish_of_size_le hle] at htoken
      exact (List.not_mem_nil htoken).elim
    refine hmem ?_ ?_ ?_
    · rw [input.finish_of_size_le hle, Log.toList_report]
      rfl
    · rw [hgroup, input.finish_of_size_le hle, Log.toList_report]
      rfl
    · rw [input.evaluate_of_size_le host scope mode state hle, Log.toList_report]
      rfl

/-- A closing parenthesis at the start of the second line, behind a name. -/
theorem isPlaced_evaluate_closer :
    (Source.ofString "a\n)").size < Span.offsetCount ∧
    (∃ d, (Language.input "a\n)").lex.log.entries.toList = [d] ∧ d.span = ⟨2, 3⟩ ∧ d.row = 2 ∧
      d.column = 1 ∧ d.IsPlaced (.ofString "a\n)")) ∧
    ((((Language.input "a\n)").resolution Store.host ⟨0⟩ .full).unlessStopped (.name ⟨0, 1⟩)
      (((Language.input "a\n)").resolution Store.host ⟨0⟩ .full).value false (.name ⟨0, 1⟩))).run
        ⟨⟨#[]⟩, Log.ofSource (.ofString "a\n)")⟩).2.log.IsPlaced (.ofString "a\n)") := by
  have hsize : (Source.ofString "a\n)").size < Span.offsetCount := by decide
  have hentries : (Language.input "a\n)").lex.log.entries.toList =
      [⟨⟨2, 3⟩, 2, 1, .structural, "unexpected ')' with no open context to close"⟩] := by
    decide +kernel
  have htoken : (⟨⟨0, 1⟩, .text⟩ : Token) ∈
      (Language.input "a\n)").parse.forest.tokenList Forest.root := by
    decide +kernel
  have hall := isPlaced_evaluate Store.host ⟨0⟩ .full (.ofString "a\n)") Language.startRules []
    ⟨#[]⟩
  simp only [hsize, if_true] at hall
  obtain ⟨hlogs, hterms⟩ := hall
  have hlexed := hlogs (Language.input "a\n)").lex.log List.mem_cons_self
  rw [hentries] at hlexed
  exact ⟨hsize, ⟨_, hentries, rfl, rfl, rfl, (hlexed _ List.mem_cons_self).1⟩,
    hterms _ _ htoken _ rfl _ _ (Log.isPlaced_ofSource _)⟩

end LexInput

end ExprLang
