import ExprLang.Resolution.Evaluation

/-!
# Equations of the resolution

What happens before a term, and what the items of a list are taken for: a separator, a term
with a group in parentheses behind it, or any other term.

Main results:
* `unlessStopped_eq`: the question that is asked before a term;
* `unlessStopped_name`, `takeName_eq`: names, with the question and the look-up;
* `itemValues_separator`, `itemValues_call`, `itemValues_term`: the first item of a list;
* `evaluate_eq`: an evaluation as a run of the resolution.
-/

namespace ExprLang
namespace Resolution

variable {σ : Type} {resolution : Resolution σ}

section Modes

theorem stopsAt_full (hmode : resolution.mode = .full) (kind : TermKind) (text : String) :
    resolution.stopsAt kind text = pure false := by
  unfold stopsAt
  rw [hmode]

/-- Before a term it is asked whether to stop there; in full mode the answer is no. -/
theorem unlessStopped_eq (term : Term) (action : Resolve σ Value) :
    resolution.unlessStopped term action =
      (do
        if ← resolution.stopsAt term.kind (resolution.textOf term.span) then
          return .unresolved (resolution.textOf term.span)
        else
          action) := by
  unfold unlessStopped stopsAt
  cases resolution.mode with
  | full => rfl
  | partly stops => rfl

theorem unlessStopped_full (hmode : resolution.mode = .full) (term : Term)
    (action : Resolve σ Value) : resolution.unlessStopped term action = action := by
  rw [unlessStopped_eq, stopsAt_full hmode]
  rfl

end Modes

section Names

/-- The question before a name, and the look-up if the answer is no. -/
def lookUp (resolution : Resolution σ) (name : String) (site : Span) :
    Resolve σ (Option (Option Value)) := do
  if ← resolution.stopsAt .name name then
    return none
  else
    return some (← resolution.member? resolution.scope name site)

variable {callFollows : Bool} {span : Span}

/-- The value of a name that is not null, together with the question before it. -/
theorem unlessStopped_name (hname : resolution.textOf span ≠ nullName) :
    resolution.unlessStopped (.name span) (resolution.value callFollows (.name span)) =
      (do
        match ← resolution.lookUp (resolution.textOf span) span with
        | none => return .unresolved (resolution.textOf span)
        | some found => return found.getD (.str (resolution.textOf span))) := by
  rw [unlessStopped_eq, value, nameValue, lookUp, bind_assoc]
  simp only [hname, if_false]
  refine bind_congr fun stopped => ?_
  cases stopped with
  | true => rfl
  | false => rfl

/-- A name that is not null in front of a group is looked up first. -/
theorem takeName_eq {rules : RuleSetId} {site : Span} {action : Resolve σ Value}
    {inner : Resolve σ (List Value)} {term : Term}
    (hname : resolution.textOf term.span ≠ nullName) :
    resolution.takeName term rules site action inner =
      (do
        match ← resolution.lookUp (resolution.textOf term.span) term.span with
        | none => resolution.takeTerm term site action inner
        | some (some value) => return ([value], false)
        | some none => do
            let args ← inner
            return (← resolution.callName (resolution.textOf term.span) rules args term.span site,
              true)) := by
  rw [takeName, lookUp, bind_assoc]
  simp only [hname, if_false]
  refine bind_congr fun stopped => ?_
  cases stopped with
  | true => rfl
  | false =>
      rw [if_neg Bool.false_ne_true, if_neg Bool.false_ne_true, bind_assoc]
      refine bind_congr fun found => ?_
      cases found with
      | none => rfl
      | some value => rfl

end Names

section Groups

/-- The values of the items of a group: of a text literal the pieces. -/
def innerValues (resolution : Resolution σ) (contextClass : ContextClass) (items : List Term) :
    Resolve σ (List Value) :=
  if contextClass.has .textLiteral then resolution.pieces items
  else resolution.itemValues true items

/-- A piece of a text literal: names and delimiters are text. -/
def piece (resolution : Resolution σ) : Term → Resolve σ Value
  | .name span => pure (.str (resolution.textOf span))
  | .delimiter span _ => pure (.str (resolution.textOf span))
  | term => resolution.value false term

theorem value_group {callFollows : Bool} {span : Span} {rules : RuleSetId}
    {contextClass : ContextClass} {items : List Term} :
    resolution.value callFollows (.group span rules contextClass items) =
      if contextClass.has .comment then
        pure .null
      else
        (do return resolution.simplify rules (← resolution.innerValues contextClass items)) := by
  rw [value, innerValues]
  split
  · rfl
  · split
    · rfl
    · rfl

theorem pieces_cons (term : Term) (rest : List Term) :
    resolution.pieces (term :: rest) =
      (do
        let first ← resolution.piece term
        return first :: (← resolution.pieces rest)) := by
  cases term with
  | name span => rw [pieces, piece]
  | delimiter span id => rw [pieces, piece]
  | _ =>
      rw [pieces, piece]
      all_goals simp

end Groups

section Items

variable {expected : Bool} {term : Term} {rest behind items : List Term} {site : Span}
  {rules : RuleSetId} {contextClass : ContextClass}

/-- A term with a group in parentheses behind it. -/
def takeFirst (resolution : Resolution σ) (term : Term) (site : Span) (rules : RuleSetId)
    (contextClass : ContextClass) (items : List Term) : Resolve σ Taken :=
  if term.isName then
    resolution.takeName term rules site (resolution.value true term)
      (resolution.innerValues contextClass items)
  else
    resolution.takeTerm term site (resolution.value true term)
      (resolution.innerValues contextClass items)

theorem itemValues_nil : resolution.itemValues expected [] = pure [] := by
  rw [itemValues]

theorem itemValues_separator {separator : String}
    (h : resolution.separator? term = some separator) :
    resolution.itemValues expected (term :: rest) =
      (do
        reportSeparator expected term.span separator
        resolution.itemValues true rest) := by
  rw [itemValues.eq_def]
  simp only [h]

theorem itemValues_call (h : resolution.separator? term = none)
    (hparens : resolution.isParens rules = true) :
    resolution.itemValues expected (term :: .group site rules contextClass items :: behind) =
      (do
        let taken ← resolution.takeFirst term site rules contextClass items
        if taken.2 then
          return taken.1 ++ (← resolution.itemValues false behind)
        else
          return taken.1 ++ (← resolution.itemValues false
            (.group site rules contextClass items :: behind))) := by
  rw [itemValues.eq_def]
  simp only [h, hparens, if_true, takeFirst, innerValues]
  split
  · rfl
  · rfl

theorem itemValues_term (h : resolution.separator? term = none)
    (hcall : ∀ site rules contextClass items behind,
      rest = .group site rules contextClass items :: behind → resolution.isParens rules = false) :
    resolution.itemValues expected (term :: rest) =
      (do
        let first ← resolution.unlessStopped term (resolution.value false term)
        return first :: (← resolution.itemValues false rest)) := by
  rw [itemValues.eq_def]
  simp only [h]
  split
  · rename_i site rules contextClass items behind
    simp only [hcall site rules contextClass items behind rfl, Bool.false_eq_true, if_false]
  · rfl

/-- All terms are the items of one list, whose values make one value. -/
theorem total_eq :
    resolution.total =
      (do return .collapse (← resolution.itemValues true resolution.forest.terms)) := rfl

end Items

end Resolution

/-- What the terms of a text are resolved with. -/
def LexInput.resolution {σ : Type} (input : LexInput) (host : Host σ) (scope : ObjectRef)
    (mode : ResolutionMode σ) : Resolution σ :=
  { table := input.table
    forest := input.parse.forest
    host := host
    scope := scope
    mode := mode }

/-- An evaluation resolves the terms of the parsed text, with the log of the parse. -/
theorem LexInput.evaluate_eq {σ : Type} (input : LexInput) (host : Host σ) (scope : ObjectRef)
    (mode : ResolutionMode σ) (state : σ) {value : Value} {final : ResolutionState σ}
    (h : (input.resolution host scope mode).total.run ⟨state, input.parse.log⟩ = (value, final)) :
    input.evaluate host scope mode state = (⟨value, final.log⟩, final.host) := by
  unfold evaluate resolveWith
  unfold resolution at h
  simp only [h]

/-- An evaluation that makes one value of those of an action. -/
theorem LexInput.evaluate_of_total {σ : Type} (host : Host σ) (scope : ObjectRef)
    (mode : ResolutionMode σ) (state : σ) (input : LexInput) {action : Resolve σ (List Value)}
    (h : (input.resolution host scope mode).total = (do return .collapse (← action))) :
    input.evaluate host scope mode state =
      (⟨.collapse (action.run ⟨state, input.parse.log⟩).1,
        (action.run ⟨state, input.parse.log⟩).2.log⟩,
        (action.run ⟨state, input.parse.log⟩).2.host) := by
  refine input.evaluate_eq host scope mode state ?_
  rw [h]
  rfl

end ExprLang
