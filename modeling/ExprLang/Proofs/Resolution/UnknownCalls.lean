import ExprLang.Language
import ExprLang.Proofs.Resolution.Equations
import ExprLang.Proofs.Resolution.NodeTerms
import Mathlib.Data.List.Induction

/-!
# Calls of unknown functions

A name with a group in parentheses behind it is a call, and the items of the group are resolved
as its arguments before the function is asked for. If there is no such function, the name and
the group are two terms, and the arguments make the value of the group: they are what the group
would have been resolved to, from the same state and with the same reports, but without the
question whether to stop at the group.

Main results:
* `itemValues_append_name`: the items in front of a name are resolved on their own;
* `itemValues_of_unknown`: a call of an unknown function at the head of a list;
* `itemValues_unknownCall`: such a call in the list of a node, as two terms.
-/

namespace ExprLang
namespace Resolution

variable {σ : Type} {resolution : Resolution σ} {expected callFollows : Bool}

section Items

variable {span : Span} {rest : List Term}

/-- A name is no separator, so it makes no difference whether an item has to come. -/
theorem itemValues_name (expected : Bool) :
    resolution.itemValues expected (.name span :: rest) =
      resolution.itemValues false (.name span :: rest) := by
  rw [itemValues.eq_def, itemValues.eq_def]
  rfl

/-- The items in front of a name, if the first one is resolved on its own. -/
theorem itemValues_cons_append_name {term : Term} {items : List Term}
    (hseparator : resolution.separator? term = none)
    (hcall : ∀ site rules contextClass inner behind,
      items = .group site rules contextClass inner :: behind → resolution.isParens rules = false)
    (hitems : resolution.itemValues false (items ++ .name span :: rest) =
      (do
        let front ← resolution.itemValues false items
        return front ++ (← resolution.itemValues false (.name span :: rest)))) :
    resolution.itemValues expected (term :: items ++ .name span :: rest) =
      (do
        let front ← resolution.itemValues expected (term :: items)
        return front ++ (← resolution.itemValues false (.name span :: rest))) := by
  have hbefore : ∀ site rules contextClass inner behind,
      items ++ .name span :: rest = .group site rules contextClass inner :: behind →
        resolution.isParens rules = false := by
    intro site rules contextClass inner behind heq
    cases items with
    | nil => cases heq
    | cons next items =>
        obtain ⟨rfl, -⟩ := List.cons.inj heq
        exact hcall _ _ _ _ _ rfl
  rw [List.cons_append, itemValues_term hseparator hbefore, itemValues_term hseparator hcall,
    hitems]
  simp only [bind_assoc, pure_bind, List.cons_append]

/-- The items in front of a name are resolved first: none of them takes the name away. -/
theorem itemValues_append_name (expected : Bool) (before : List Term) :
    resolution.itemValues expected (before ++ .name span :: rest) =
      (do
        let front ← resolution.itemValues expected before
        return front ++ (← resolution.itemValues false (.name span :: rest))) := by
  have hnone : ∀ expected, resolution.itemValues expected ([] ++ .name span :: rest) =
      (do
        let front ← resolution.itemValues expected []
        return front ++ (← resolution.itemValues false (.name span :: rest))) := by
    intro expected
    rw [itemValues_nil, pure_bind, List.nil_append, itemValues_name]
    simp
  -- two items at a time, for a call uses up both of them
  induction before using List.twoStepInduction generalizing expected with
  | nil => exact hnone expected
  | singleton term =>
      cases hseparator : resolution.separator? term with
      | some separator =>
          rw [List.cons_append, itemValues_separator hseparator, itemValues_separator hseparator,
            hnone, bind_assoc]
      | none => exact itemValues_cons_append_name hseparator nofun (hnone false)
  | cons_cons term next behind ihBehind ihNext =>
      cases hseparator : resolution.separator? term with
      | some separator =>
          rw [List.cons_append, itemValues_separator hseparator, itemValues_separator hseparator,
            ihNext, bind_assoc]
      | none =>
          by_cases hcall : ∃ site rules contextClass inner,
              next = .group site rules contextClass inner ∧ resolution.isParens rules = true
          · obtain ⟨site, rules, contextClass, inner, rfl, hparens⟩ := hcall
            have hkept := ihNext (.group site rules contextClass inner) false
            rw [List.cons_append] at hkept
            rw [List.cons_append, List.cons_append, itemValues_call hseparator hparens,
              itemValues_call hseparator hparens, bind_assoc]
            refine bind_congr fun taken => ?_
            rw [ihBehind, hkept]
            split
            · simp only [bind_assoc, pure_bind, List.append_assoc]
            · simp only [bind_assoc, pure_bind, List.append_assoc]
          · refine itemValues_cons_append_name hseparator ?_ (ihNext next false)
            intro site rules contextClass inner _ heq
            obtain ⟨rfl, -⟩ := List.cons.inj heq
            exact Bool.eq_false_iff.mpr fun hparens => hcall ⟨_, _, _, _, rfl, hparens⟩

end Items

section Calls

variable {span site : Span} {rules : RuleSetId} {contextClass : ContextClass}
  {items behind : List Term} {reached found ended called : ResolutionState σ}
  {args : List Value} {missing : String}

/-- What follows an action runs from where the action ended. -/
theorem run_bind_of_run {α β : Type} {action : Resolve σ α} {next : α → Resolve σ β}
    {before after : ResolutionState σ} {result : α} (h : action.run before = (result, after)) :
    (action >>= next).run before = (next result).run after := by
  rw [StateT.run_bind, h]
  rfl

/-- What a call of an unknown function gives: the name, and what its arguments make. -/
theorem takeFirst_of_unknown (hname : resolution.textOf span ≠ nullName)
    (hlookUp : (resolution.lookUp (resolution.textOf span) span).run reached = (some none, found))
    (hinner : (resolution.innerValues contextClass items).run found = (args, ended))
    (hinvoke : (resolution.invoke resolution.scope (resolution.textOf span) args site).run ended =
      (.error (.notFound missing), called)) :
    (resolution.takeFirst (.name span) site rules contextClass items).run reached =
      (([.str (resolution.textOf span), resolution.simplify rules args], true), called) := by
  have hcall : (resolution.callName (resolution.textOf span) rules args span site).run ended =
      ([.str (resolution.textOf span), resolution.simplify rules args], called) :=
    run_bind_of_run hinvoke
  have htake : resolution.takeName (.name span) rules site (resolution.value true (.name span))
      (resolution.innerValues contextClass items) = _ := takeName_eq hname
  unfold takeFirst
  rw [if_pos (show (Term.name span).isName = true from rfl), htake]
  refine (run_bind_of_run hlookUp).trans ?_
  refine (run_bind_of_run hinner).trans ?_
  exact run_bind_of_run hcall

/-- The list goes on behind the group, from the state that the failed call left. -/
theorem itemValues_of_unknown (hparens : resolution.isParens rules = true)
    (hname : resolution.textOf span ≠ nullName)
    (hlookUp : (resolution.lookUp (resolution.textOf span) span).run reached = (some none, found))
    (hinner : (resolution.innerValues contextClass items).run found = (args, ended))
    (hinvoke : (resolution.invoke resolution.scope (resolution.textOf span) args site).run ended =
      (.error (.notFound missing), called)) :
    (resolution.itemValues false (.name span :: .group site rules contextClass items ::
        behind)).run reached =
      (.str (resolution.textOf span) :: resolution.simplify rules args ::
        ((resolution.itemValues false behind).run called).1,
        ((resolution.itemValues false behind).run called).2) := by
  rw [itemValues_call rfl hparens]
  exact run_bind_of_run (takeFirst_of_unknown hname hlookUp hinner hinvoke)

/-- A group that is not asked about has the value that its items make. -/
theorem value_group_of_items (hcomment : contextClass.has .comment = false)
    (hinner : (resolution.innerValues contextClass items).run found = (args, ended)) :
    (resolution.value callFollows (.group site rules contextClass items)).run found =
      (resolution.simplify rules args, ended) := by
  rw [value_group, if_neg (by simp [hcomment])]
  exact run_bind_of_run hinner

/-- To be asked about and not left alone makes no difference to a term. -/
theorem unlessStopped_of_not_stopped {term : Term} {action : Resolve σ Value}
    (h : (resolution.stopsAt term.kind (resolution.textOf term.span)).run found =
      (false, ended)) :
    (resolution.unlessStopped term action).run found = action.run ended := by
  rw [unlessStopped_eq]
  exact run_bind_of_run h

/-- A call reports nothing by itself. -/
theorem log_invoke {target : ObjectRef} {name : String} {result : Except InvokeError Value}
    (h : (resolution.invoke target name args site).run ended = (result, called)) :
    called.log = ended.log :=
  congrArg (fun outcome => outcome.2.log) h.symm

end Calls

end Resolution

section Lists

open Resolution

variable {σ : Type}

/-- Among the items of a context that is no text literal there is no comment. -/
theorem Term.isComment_of_mem_itemsOf {contextClass : ContextClass} {items : List Term}
    {term : Term} (hliteral : contextClass.has .textLiteral = false)
    (h : term ∈ Term.itemsOf contextClass items) : term.isComment = false := by
  unfold Term.itemsOf at h
  rw [if_neg (by simp [hliteral])] at h
  simpa using List.of_mem_filter h

/--
A name with a group in parentheses behind it, where the mode does not stop at the name, the
scope has no such member and the call is answered by "not found". The name stands for its text.
The group has the value, the questions to the host and the reports that it has as a term of its
own, from the state behind the look-up, but for the question whether to stop at it; if the answer
to this question is no, it makes no difference.
-/
theorem Resolution.itemValues_unknownCall (resolution : Resolution σ) {id : NodeId}
    {before items behind : List Term} {span site : Span} {rules : RuleSetId}
    {contextClass : ContextClass}
    (hliteral : (resolution.forest.header id).contextClass.has .textLiteral = false)
    (hitems : Term.itemsOf (resolution.forest.header id).contextClass
        (resolution.forest.itemTerms id) =
      before ++ .name span :: .group site rules contextClass items :: behind)
    (hparens : resolution.isParens rules = true)
    (hname : resolution.textOf span ≠ nullName)
    {expected : Bool} {state reached found ended called : ResolutionState σ}
    {front args : List Value} {missing : String}
    (hfront : (resolution.itemValues expected before).run state = (front, reached))
    (hlookUp : (resolution.lookUp (resolution.textOf span) span).run reached = (some none, found))
    (hinner : (resolution.innerValues contextClass items).run found = (args, ended))
    (hinvoke : (resolution.invoke resolution.scope (resolution.textOf span) args site).run ended =
      (.error (.notFound missing), called)) (callFollows : Bool) :
    let group := Term.group site rules contextClass items
    ∃ value,
      (resolution.value callFollows group).run found = (value, ended) ∧
      ((resolution.stopsAt group.kind (resolution.textOf site)).run found = (false, found) →
        (resolution.unlessStopped group (resolution.value callFollows group)).run found =
          (value, ended)) ∧
      called.log = ended.log ∧
      (resolution.itemValues expected (before ++ .name span :: group :: behind)).run state =
        (front ++ .str (resolution.textOf span) :: value ::
            ((resolution.itemValues false behind).run called).1,
          ((resolution.itemValues false behind).run called).2) := by
  intro group
  have hcomment : group.isComment = false :=
    Term.isComment_of_mem_itemsOf hliteral (by rw [hitems]; simp [group])
  have hvalue : (resolution.value callFollows group).run found = _ :=
    value_group_of_items hcomment hinner
  refine ⟨_, hvalue, ?_, log_invoke hinvoke, ?_⟩
  · intro hasked
    rw [unlessStopped_of_not_stopped hasked]
    exact hvalue
  · rw [itemValues_append_name]
    refine (run_bind_of_run hfront).trans ?_
    exact run_bind_of_run (itemValues_of_unknown hparens hname hlookUp hinner hinvoke)

/-- A host whose objects have no members and no functions. -/
def Host.bare : Host Unit where
  member _ _ _ state := (none, state)
  assign _ _ _ state := (false, state)
  invoke _ name _ _ state := (.error (.notFound name), state)

/-- A mode that leaves the terms of one kind alone. -/
def ResolutionMode.stopAtKind (kind : TermKind) : ResolutionMode Unit :=
  .partly fun asked _ state => (decide (asked = kind), state)

/-- A forest of a name and a context that is no comment. -/
theorem Forest.terms_of_call {forest : Forest} (ha : forest.Arranged) {span site : Span}
    {id : NodeId} (hid : id ≠ root)
    (hlist : forest.tokenList root = [⟨span, .text⟩, ⟨site, .node id⟩])
    (hliteral : (forest.header root).contextClass.has .textLiteral = false)
    (hcontext : (forest.header id).operator = none)
    (hcomment : (forest.header id).contextClass.has .comment = false) :
    forest.terms = [.name span, forest.nodeTerm id] := by
  have hitems : forest.itemTerms root = [.name span, forest.nodeTerm id] := by
    rw [itemTerms_eq ha (show root.index < _ from ha.size_pos), hlist]
    simp only [List.filterMap_cons, List.filterMap_nil, tokenTerm?, Term.ofToken?, if_neg hid]
  have hgroup : (forest.nodeTerm id).isComment = false := by
    rw [nodeTerm_of_context hcontext]
    exact hcomment
  rw [terms_eq, hitems, Term.itemsOf, if_neg (by rw [hliteral]; exact Bool.false_ne_true)]
  refine List.filter_eq_self.mpr fun term hterm => ?_
  rcases List.mem_pair.mp hterm with rfl | rfl
  · rfl
  · rw [hgroup, Bool.not_false]

/-- A call of a function, with a literal and a name as its arguments. -/
def fooCall : LexInput :=
  Language.input "foo (1, x)"

/-- What is read of the call: the name, and a group in parentheses. -/
theorem parse_fooCall :
    let forest := fooCall.parse.forest
    forest.tokenList Forest.root = [⟨⟨0, 3⟩, .text⟩, ⟨⟨4, 10⟩, .node ⟨1⟩⟩] ∧
      (forest.header Forest.root).contextClass.has .textLiteral = false ∧
      (forest.header ⟨1⟩).operator = none ∧
      (forest.header ⟨1⟩).contextClass.has .comment = false ∧
      (forest.header ⟨1⟩).contextClass.has .textLiteral = false ∧
      (fooCall.table.ruleSet (forest.header ⟨1⟩).rules).name = Grammar.parensName ∧
      String.ofList (forest.spanText ⟨0, 3⟩) = "foo" := by
  decide +kernel

/-- The text has two terms, the name and the group. -/
theorem terms_fooCall :
    fooCall.parse.forest.terms = [.name ⟨0, 3⟩, fooCall.parse.forest.nodeTerm ⟨1⟩] := by
  obtain ⟨hlist, hliteral, hcontext, hcomment, -⟩ := parse_fooCall
  exact Forest.terms_of_call fooCall.arranged_parse (by decide) hlist hliteral hcontext hcomment

/-- A literal among the arguments is left alone, as it is in the group. -/
theorem itemValues_unknownCall_literal :
    let resolution := fooCall.resolution Host.bare ⟨0⟩ (.stopAtKind .literal)
    let group := resolution.forest.nodeTerm ⟨1⟩
    let state : ResolutionState Unit := ⟨(), fooCall.parse.log⟩
    ∃ value ended,
      (resolution.unlessStopped group (resolution.value false group)).run state = (value, ended) ∧
      resolution.terms.run state = ([.str "foo", value], ended) := by
  intro resolution group state
  obtain ⟨-, hroot, hcontext, -, hliteral, hparens, hfoo⟩ := parse_fooCall
  have hname : resolution.textOf ⟨0, 3⟩ = "foo" := hfoo
  have hgroup : group = _ := Forest.nodeTerm_of_context hcontext
  have hterms : resolution.forest.terms = [] ++ .name ⟨0, 3⟩ :: group :: [] := terms_fooCall
  rw [hgroup] at hterms
  have hkind : group.kind = .group := by
    rw [hgroup]
    exact if_neg fun h => Bool.false_ne_true (hliteral.symm.trans h)
  have hfront : (resolution.itemValues true []).run state = ([], state) := by
    rw [itemValues_nil]
    rfl
  obtain ⟨value, -, hasked, -, hvalues⟩ :=
    resolution.itemValues_unknownCall hroot hterms (beq_iff_eq.mpr hparens)
      (by rw [hname]; decide) hfront rfl rfl rfl false
  rw [← hgroup] at hasked hvalues
  refine ⟨value, _, hasked ?_, ?_⟩
  · rw [hkind]
    rfl
  · rw [List.nil_append, itemValues_nil] at hvalues
    rw [Resolution.terms, hterms, ← hgroup, ← hname]
    exact hvalues

/--
A group of its own is left alone where groups are, but not that of a call: its items are resolved
before it is known that there is no such function.
-/
theorem itemValues_unknownCall_group :
    let resolution := fooCall.resolution Host.bare ⟨0⟩ (.stopAtKind .group)
    let group := resolution.forest.nodeTerm ⟨1⟩
    let state : ResolutionState Unit := ⟨(), fooCall.parse.log⟩
    resolution.forest.terms = [.name ⟨0, 3⟩, group] ∧
      (resolution.lookUp "foo" ⟨0, 3⟩).run state = (some none, state) ∧
      (∀ args, (resolution.invoke resolution.scope "foo" args ⟨4, 10⟩).run state =
        (.error (.notFound "foo"), state)) ∧
      (resolution.terms.run state).1 ≠
        [.str "foo",
          ((resolution.unlessStopped group (resolution.value false group)).run state).1] := by
  intro resolution group state
  refine ⟨terms_fooCall, rfl, fun _ => rfl, fun heq => ?_⟩
  have hunresolved := congrArg (List.map Value.isUnresolved) heq
  revert hunresolved
  decide +kernel

end Lists

end ExprLang
