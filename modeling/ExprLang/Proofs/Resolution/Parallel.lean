import ExprLang.Proofs.Resolution.Equations
import Mathlib.Data.List.Forall2

/-!
# What resolving a term is made of

Resolving a term is made of results, sequences, reports, questions to the host and actions
whose reports are dropped. A relation between actions that is closed under these therefore
relates the resolutions of a term in two settings, and also those of two terms that differ
only in where they are written.

Main definitions:
* `Term.Moved`: the same term, written in another place;
* `Parallel`: a relation between actions that is closed under what a resolution is made of.

Main results:
* `Term.Moved.ofOperator?`: an operator with moved operands;
* `Parallel.value`, `Parallel.pieces`, `Parallel.itemValues`: resolving terms, by induction on
  them.
-/

namespace ExprLang

/-- Two terms that are the same but for their spans, which are related. -/
inductive Term.Moved (Q : Span → Span → Prop) : Term → Term → Prop
  | name {s t : Span} (hspan : Q s t) : Moved Q (.name s) (.name t)
  | literal {s t : Span} (value : Literal) (hspan : Q s t) :
      Moved Q (.literal s value) (.literal t value)
  | delimiter {s t : Span} (id : DelimiterId) (hspan : Q s t) :
      Moved Q (.delimiter s id) (.delimiter t id)
  | group {s t : Span} (rules : RuleSetId) (contextClass : ContextClass)
      {items items' : List Term} (hspan : Q s t) (hitems : items.Forall₂ (Moved Q) items') :
      Moved Q (.group s rules contextClass items) (.group t rules contextClass items')
  | chain {s t : Span} (op : Operator) {first first' : Term} {links links' : List Link}
      (hspan : Q s t) (hfirst : Moved Q first first')
      (hlinks : links.Forall₂ (fun l l' => l.operator = l'.operator ∧ l.isName = l'.isName ∧
        Q l.span l'.span) links') :
      Moved Q (.chain s op first links) (.chain t op first' links')
  | binary {s t : Span} (op : Operator) {left left' right right' : Term} (hspan : Q s t)
      (hleft : Moved Q left left') (hright : Moved Q right right') :
      Moved Q (.binary s op left right) (.binary t op left' right')
  | prefixed {s t : Span} (op : Operator) {operand operand' : Term} (hspan : Q s t)
      (hoperand : Moved Q operand operand') :
      Moved Q (.prefixed s op operand) (.prefixed t op operand')
  | ifThen {s t : Span} {condition condition' trueCase trueCase' : Term} (hspan : Q s t)
      (hcondition : Moved Q condition condition') (htrue : Moved Q trueCase trueCase') :
      Moved Q (.ifThen s condition trueCase) (.ifThen t condition' trueCase')
  | ifThenElse {s t : Span} {condition condition' trueCase trueCase' falseCase falseCase' : Term}
      (hspan : Q s t) (hcondition : Moved Q condition condition')
      (htrue : Moved Q trueCase trueCase') (hfalse : Moved Q falseCase falseCase') :
      Moved Q (.ifThenElse s condition trueCase falseCase)
        (.ifThenElse t condition' trueCase' falseCase')

namespace Term

variable {Q : Span → Span → Prop} {term term' : Term}

theorem Moved.span (h : Moved Q term term') : Q term.span term'.span := by
  cases h with
  | name h => exact h
  | literal _ h => exact h
  | delimiter _ h => exact h
  | group _ _ h _ => exact h
  | chain _ h _ _ => exact h
  | binary _ h _ _ => exact h
  | prefixed _ h _ => exact h
  | ifThen h _ _ => exact h
  | ifThenElse h _ _ _ => exact h

theorem Moved.kind_eq (h : Moved Q term term') : term.kind = term'.kind := by
  cases h <;> rfl

theorem Moved.isName_eq (h : Moved Q term term') : term.isName = term'.isName := by
  cases h <;> rfl

theorem Moved.isComment_eq (h : Moved Q term term') : term.isComment = term'.isComment := by
  cases h <;> rfl

/-- The first operand of a chain, and its links. -/
theorem Moved.chain_parts (h : Moved Q term term') :
    Moved Q term.chainHead term'.chainHead ∧
      term.chainLinks.Forall₂ (fun l l' => l.operator = l'.operator ∧ l.isName = l'.isName ∧
        Q l.span l'.span) term'.chainLinks := by
  cases h with
  | chain op hspan hfirst hlinks => exact ⟨hfirst, hlinks⟩
  | name hspan => exact ⟨.name hspan, .nil⟩
  | literal value hspan => exact ⟨.literal value hspan, .nil⟩
  | delimiter id hspan => exact ⟨.delimiter id hspan, .nil⟩
  | group rules contextClass hspan hitems => exact ⟨.group rules contextClass hspan hitems, .nil⟩
  | binary op hspan hleft hright => exact ⟨.binary op hspan hleft hright, .nil⟩
  | prefixed op hspan hoperand => exact ⟨.prefixed op hspan hoperand, .nil⟩
  | ifThen hspan hcondition htrue => exact ⟨.ifThen hspan hcondition htrue, .nil⟩
  | ifThenElse hspan hcondition htrue hfalse =>
      exact ⟨.ifThenElse hspan hcondition htrue hfalse, .nil⟩

/-- Two terms joined by a member operator. -/
theorem Moved.member {s t : Span} (hspan : Q s t) (op : Operator) {left left' right right' : Term}
    (hleft : Moved Q left left') (hright : Moved Q right right') :
    Moved Q (member s op left right) (member t op left' right') := by
  obtain ⟨hfirst, hlinks⟩ := hleft.chain_parts
  obtain ⟨hhead, hmore⟩ := hright.chain_parts
  exact .chain op hspan hfirst
    (List.rel_append hlinks (.cons ⟨rfl, hhead.isName_eq, hhead.span⟩ hmore))

/-- An operator with moved operands is the moved term. -/
theorem Moved.ofOperator? {s t : Span} (hspan : Q s t) (op : Operator)
    {operands operands' : List Term} (h : operands.Forall₂ (Moved Q) operands')
    (hterm : ofOperator? s op operands = some term)
    (hterm' : ofOperator? t op operands' = some term') : Moved Q term term' := by
  unfold Term.ofOperator? at hterm hterm'
  cases hshape : op.shape with
  | binary =>
      rw [hshape] at hterm hterm'
      match operands, operands', h with
      | [_, _], _, .cons hleft (.cons hright .nil) =>
          simp only at hterm hterm'
          rw [← Option.some.inj hterm, ← Option.some.inj hterm']
          split
          · exact .member hspan op hleft hright
          · exact .binary op hspan hleft hright
  | prefixed =>
      rw [hshape] at hterm hterm'
      match operands, operands', h with
      | [_], _, .cons hoperand .nil =>
          rw [← Option.some.inj hterm, ← Option.some.inj hterm']
          exact .prefixed op hspan hoperand
  | conditional =>
      rw [hshape] at hterm hterm'
      match operands, operands', h with
      | [_, _], _, .cons hcondition (.cons htrue .nil) =>
          rw [← Option.some.inj hterm, ← Option.some.inj hterm']
          exact .ifThen hspan hcondition htrue
      | [_, _, _, _], _, .cons hcondition (.cons htrue (.cons _ (.cons hfalse .nil))) =>
          rw [← Option.some.inj hterm, ← Option.some.inj hterm']
          exact .ifThenElse hspan hcondition htrue hfalse

/-- Comments are left out of the items in both places. -/
theorem forall₂_itemsOf (contextClass : ContextClass) {items items' : List Term}
    (h : items.Forall₂ (Moved Q) items') :
    (itemsOf contextClass items).Forall₂ (Moved Q) (itemsOf contextClass items') := by
  unfold itemsOf
  split
  · exact h
  · refine List.rel_filter ?_ h
    intro term term' hterm
    simp only [hterm.isComment_eq]

mutual

/-- Every term is where it is. -/
theorem moved_rfl (hrefl : ∀ s, Q s s) : ∀ term : Term, Moved Q term term
  | .name span => .name (hrefl span)
  | .literal span value => .literal value (hrefl span)
  | .delimiter span id => .delimiter id (hrefl span)
  | .group span rules contextClass items =>
      .group rules contextClass (hrefl span) (forall₂_moved_rfl hrefl items)
  | .chain span op first _ =>
      .chain op (hrefl span) (moved_rfl hrefl first)
        (List.forall₂_same.mpr fun link _ => ⟨rfl, rfl, hrefl link.span⟩)
  | .binary span op left right =>
      .binary op (hrefl span) (moved_rfl hrefl left) (moved_rfl hrefl right)
  | .prefixed span op operand => .prefixed op (hrefl span) (moved_rfl hrefl operand)
  | .ifThen span condition trueCase =>
      .ifThen (hrefl span) (moved_rfl hrefl condition) (moved_rfl hrefl trueCase)
  | .ifThenElse span condition trueCase falseCase =>
      .ifThenElse (hrefl span) (moved_rfl hrefl condition) (moved_rfl hrefl trueCase)
        (moved_rfl hrefl falseCase)

theorem forall₂_moved_rfl (hrefl : ∀ s, Q s s) : ∀ terms : List Term,
    terms.Forall₂ (Moved Q) terms
  | [] => .nil
  | term :: rest => .cons (moved_rfl hrefl term) (forall₂_moved_rfl hrefl rest)

end

end Term

namespace Resolution

variable {σ τ : Type}

/--
A relation between actions in two settings that results, sequences and the single actions of
a resolution keep, where the actions are about spans that are related by `Q`.
-/
structure Parallel (Q : Span → Span → Prop)
    (P : {α : Type} → Resolve σ α → Resolve τ α → Prop) (first : Resolution σ)
    (second : Resolution τ) : Prop where
  table : first.table = second.table
  scope : first.scope = second.scope
  textOf : ∀ {s t}, Q s t → first.textOf s = second.textOf t
  merge : ∀ {s t s' t'}, Q s t → Q s' t' → Q (s.merge s') (t.merge t')
  pure : ∀ {α : Type} (a : α), P (Pure.pure a : Resolve σ α) (Pure.pure a)
  bind : ∀ {α β : Type} {a : Resolve σ α} {b : Resolve τ α} {next : α → Resolve σ β}
    {next' : α → Resolve τ β}, P a b → (∀ result, P (next result) (next' result)) →
      P (a >>= next) (b >>= next')
  withoutLog : ∀ {α : Type} {a : Resolve σ α} {b : Resolve τ α}, P a b →
    P (Resolution.withoutLog a) (Resolution.withoutLog b)
  report : ∀ category {s t} message, Q s t →
    P (Resolution.report category s message) (Resolution.report category t message)
  stopsAt : ∀ kind text, P (first.stopsAt kind text) (second.stopsAt kind text)
  member : ∀ target name {s t}, Q s t →
    P (first.member? target name s) (second.member? target name t)
  invoke : ∀ target name args {s t}, Q s t →
    P (first.invoke target name args s) (second.invoke target name args t)

namespace Parallel

variable {Q : Span → Span → Prop} {P : {α : Type} → Resolve σ α → Resolve τ α → Prop}
  {first : Resolution σ} {second : Resolution τ}

section Actions

variable (h : Parallel Q P first second)

include h

/-- What two actions make of their results. -/
theorem map {α β : Type} {f : α → β} {a : Resolve σ α} {b : Resolve τ α} (hab : P a b) :
    P (do return f (← a)) (do return f (← b)) :=
  h.bind hab fun result => h.pure (f result)

theorem simplify (rules : RuleSetId) (values : List Value) :
    first.simplify rules values = second.simplify rules values := by
  unfold Resolution.simplify
  rw [h.table]

theorem isParens (rules : RuleSetId) : first.isParens rules = second.isParens rules := by
  unfold Resolution.isParens
  rw [h.table]

theorem separator? {term term' : Term} (hterm : term.Moved Q term') :
    first.separator? term = second.separator? term' := by
  unfold Resolution.separator?
  rw [h.table]
  cases hterm <;> rfl

variable {s t : Span} (hspan : Q s t)

include hspan

theorem fail (error : ResolveError) : P (first.fail s error) (second.fail t error) := by
  unfold Resolution.fail
  rw [h.textOf hspan]
  exact h.map (h.report .resolution error.message hspan)

theorem nameValue : P (first.nameValue s) (second.nameValue t) := by
  unfold Resolution.nameValue
  simp only
  rw [h.textOf hspan, h.scope]
  split
  · exact h.pure _
  · exact h.map (h.member second.scope _ hspan)

theorem binaryValue (op : Operator) (left right : Value) :
    P (first.binaryValue s op left right) (second.binaryValue t op left right) := by
  unfold Resolution.binaryValue Resolution.orFail
  rw [h.textOf hspan]
  split
  · exact h.pure _
  · split
    · exact h.pure _
    · exact h.fail hspan _

theorem reportSeparator (expected : Bool) (separator : String) :
    P (Resolution.reportSeparator expected s separator)
      (Resolution.reportSeparator expected t separator) := by
  unfold Resolution.reportSeparator
  split
  · exact h.report _ _ hspan
  · exact h.pure ()

/-- The links of a chain, by induction on them. -/
theorem followLinks (callFollows : Bool) {links links' : List Link}
    (hlinks : links.Forall₂ (fun l l' => l.operator = l'.operator ∧ l.isName = l'.isName ∧
      Q l.span l'.span) links') (current : Value) :
    P (first.followLinks s callFollows links current)
      (second.followLinks t callFollows links' current) := by
  induction hlinks generalizing current with
  | nil => exact h.pure current
  | @cons link link' links links' hlink hlinks ih =>
      obtain ⟨hoperator, hname, hlinkSpan⟩ := hlink
      have hempty : links.isEmpty = links'.isEmpty := by
        cases hlinks <;> rfl
      unfold Resolution.followLinks
      rw [h.textOf hspan, h.textOf hlinkSpan, hoperator, hname, hempty]
      split
      · exact h.pure _
      · split
        · exact h.pure _
        · simp only
          split
          · exact h.fail hspan _
          · split
            · rename_i ref _ _
              refine h.bind (h.member ref _ hlinkSpan) fun found => ?_
              cases found with
              | some value => exact ih value
              | none =>
                  simp only
                  split
                  · exact h.pure _
                  · exact h.fail hspan _
            · exact h.fail hspan _

variable {site site' : Span} (hsite : Q site site')

include hsite

theorem callMember (target : ObjectRef) (name : String) (args : List Value) :
    P (first.callMember target name args s site) (second.callMember target name args t site') := by
  refine h.bind (h.invoke target name args hsite) fun result => ?_
  cases result with
  | ok value => exact h.pure value
  | error error => exact h.fail (h.merge hspan hsite) _

theorem callName (name : String) (rules : RuleSetId) (args : List Value) :
    P (first.callName name rules args s site) (second.callName name rules args t site') := by
  unfold Resolution.callName
  rw [h.scope]
  refine h.bind (h.invoke second.scope name args hsite) fun result => ?_
  split
  · exact h.pure _
  · rw [h.simplify]
    exact h.pure _
  · exact h.map (h.fail (h.merge hspan hsite) _)

end Actions

section Terms

variable (h : Parallel Q P first second) {term term' : Term} (hterm : term.Moved Q term')

include h hterm

theorem unlessStopped {a : Resolve σ Value} {b : Resolve τ Value} (hab : P a b) :
    P (first.unlessStopped term a) (second.unlessStopped term' b) := by
  rw [unlessStopped_eq, unlessStopped_eq, h.textOf hterm.span, hterm.kind_eq]
  refine h.bind (h.stopsAt _ _) fun stopped => ?_
  split
  · exact h.pure _
  · exact hab

variable {site site' : Span} (hsite : Q site site') {a : Resolve σ Value} {b : Resolve τ Value}
  {inner : Resolve σ (List Value)} {inner' : Resolve τ (List Value)} (hab : P a b)
  (hinner : P inner inner')

include hsite hab hinner

theorem takeTerm :
    P (first.takeTerm term site a inner) (second.takeTerm term' site' b inner') := by
  refine h.bind (h.unlessStopped hterm hab) fun value => ?_
  split
  · refine h.bind hinner fun args => ?_
    exact h.map (h.callMember hterm.span hsite _ _ args)
  · exact h.pure _

theorem takeName (rules : RuleSetId) :
    P (first.takeName term rules site a inner) (second.takeName term' rules site' b inner') := by
  have hother := h.takeTerm hterm hsite hab hinner
  unfold Resolution.takeName
  simp only
  rw [h.textOf hterm.span, h.scope]
  split
  · exact hother
  · refine h.bind (h.stopsAt _ _) fun stopped => ?_
    split
    · exact hother
    · refine h.bind (h.member second.scope _ hterm.span) fun found => ?_
      cases found with
      | some value => exact h.pure _
      | none =>
          refine h.bind hinner fun args => ?_
          exact h.map (h.callName hterm.span hsite _ rules args)

end Terms

section Induction

/-- The case that a condition chooses, unless the condition has no value. -/
theorem chosen (h : Parallel Q P first second) (test : Value) (text : String)
    {yes no : Resolve σ Value} {yes' no' : Resolve τ Value} (hyes : P yes yes') (hno : P no no') :
    P (if test.isUnresolved then return .unresolved text
        else if test.conditionHolds then yes else no)
      (if test.isUnresolved then return .unresolved text
        else if test.conditionHolds then yes' else no') := by
  split
  · exact h.pure _
  · split
    · exact hyes
    · exact hno

/-- Values in a row: the first one, and the others after it. -/
theorem cons (h : Parallel Q P first second) {a : Resolve σ Value} {b : Resolve τ Value}
    {others : Resolve σ (List Value)} {others' : Resolve τ (List Value)} (hab : P a b)
    (hothers : P others others') :
    P (do let value ← a; return value :: (← others))
      (do let value ← b; return value :: (← others')) :=
  h.bind hab fun _ => h.map hothers

theorem takeFirst (h : Parallel Q P first second) {term term' : Term}
    (hterm : term.Moved Q term') {site site' : Span} (hsite : Q site site') (rules : RuleSetId)
    {contextClass : ContextClass} {items items' : List Term}
    (hvalue : P (first.value true term) (second.value true term'))
    (hinner : P (first.innerValues contextClass items) (second.innerValues contextClass items')) :
    P (first.takeFirst term site rules contextClass items)
      (second.takeFirst term' site' rules contextClass items') := by
  unfold Resolution.takeFirst
  rw [hterm.isName_eq]
  split
  · exact h.takeName hterm hsite hvalue hinner rules
  · exact h.takeTerm hterm hsite hvalue hinner

theorem innerValues {contextClass : ContextClass} {items items' : List Term}
    (hpieces : P (first.pieces items) (second.pieces items'))
    (hitems : P (first.itemValues true items) (second.itemValues true items')) :
    P (first.innerValues contextClass items) (second.innerValues contextClass items') := by
  unfold Resolution.innerValues
  split
  · exact hpieces
  · exact hitems

mutual

theorem value (h : Parallel Q P first second) (callFollows : Bool) : ∀ {term term' : Term},
    term.Moved Q term' → P (first.value callFollows term) (second.value callFollows term')
  | .name _, _, .name hspan => by
      rw [Resolution.value, Resolution.value]
      exact h.nameValue hspan
  | .literal _ _, _, .literal _ _ => by
      rw [Resolution.value, Resolution.value]
      exact h.pure _
  | .delimiter _ _, _, .delimiter id hspan => by
      rw [Resolution.value, Resolution.value, delimiterValue, delimiterValue, h.table,
        h.textOf hspan]
      exact h.pure _
  | .group _ _ _ _, _, .group rules contextClass _ hitems => by
      rw [value_group, value_group]
      split
      · exact h.pure _
      · refine h.bind (innerValues (h.pieces hitems) (h.itemValues true hitems)) fun values => ?_
        rw [h.simplify]
        exact h.pure _
  | .chain _ _ _ _, _, .chain _ hspan hfirst hlinks => by
      rw [Resolution.value, Resolution.value]
      refine h.bind (h.unlessStopped hfirst (h.value false hfirst)) fun start => ?_
      exact h.followLinks hspan callFollows hlinks start
  | .binary _ _ _ _, _, .binary op hspan hleft hright => by
      rw [Resolution.value, Resolution.value]
      refine h.bind (h.unlessStopped hleft (h.value false hleft)) fun a => ?_
      refine h.bind (h.unlessStopped hright (h.value false hright)) fun b => ?_
      exact h.binaryValue hspan op a b
  | .prefixed _ _ _, _, .prefixed op _ hoperand => by
      have hvalue := h.unlessStopped hoperand (h.value false hoperand)
      rw [Resolution.value, Resolution.value]
      split
      · exact h.map (h.withoutLog hvalue)
      · exact h.map hvalue
  | .ifThen _ _ _, _, .ifThen hspan hcondition htrue => by
      rw [Resolution.value, Resolution.value, h.textOf hspan]
      refine h.bind (h.unlessStopped hcondition (h.value false hcondition)) fun test => ?_
      exact h.chosen test _ (h.unlessStopped htrue (h.value false htrue)) (h.pure _)
  | .ifThenElse _ _ _ _, _, .ifThenElse hspan hcondition htrue hfalse => by
      rw [Resolution.value, Resolution.value, h.textOf hspan]
      refine h.bind (h.unlessStopped hcondition (h.value false hcondition)) fun test => ?_
      exact h.chosen test _ (h.unlessStopped htrue (h.value false htrue))
        (h.unlessStopped hfalse (h.value false hfalse))

theorem pieces (h : Parallel Q P first second) : ∀ {terms terms' : List Term},
    terms.Forall₂ (Term.Moved Q) terms' → P (first.pieces terms) (second.pieces terms')
  | [], _, .nil => by
      rw [Resolution.pieces, Resolution.pieces]
      exact h.pure []
  | _ :: _, _, .cons hterm hrest => by
      rw [pieces_cons, pieces_cons]
      refine h.cons ?_ (h.pieces hrest)
      have hvalue := h.value false hterm
      cases hterm with
      | name hspan =>
          rw [piece, piece, h.textOf hspan]
          exact h.pure _
      | delimiter id hspan =>
          rw [piece, piece, h.textOf hspan]
          exact h.pure _
      | _ => exact hvalue

theorem itemValues (h : Parallel Q P first second) (expected : Bool) :
    ∀ {terms terms' : List Term}, terms.Forall₂ (Term.Moved Q) terms' →
      P (first.itemValues expected terms) (second.itemValues expected terms')
  | [], _, .nil => by
      rw [itemValues_nil, itemValues_nil]
      exact h.pure []
  | term :: rest, term' :: rest', .cons hterm hrest => by
      cases hseparator : second.separator? term' with
      | some separator =>
          rw [itemValues_separator ((h.separator? hterm).trans hseparator),
            itemValues_separator hseparator]
          exact h.bind (h.reportSeparator hterm.span expected separator) fun _ =>
            h.itemValues true hrest
      | none =>
          have hseparator' : first.separator? term = none :=
            (h.separator? hterm).trans hseparator
          have hplain : (∀ site rules contextClass items behind,
              rest = .group site rules contextClass items :: behind →
                first.isParens rules = false) →
              P (first.itemValues expected (term :: rest))
                (second.itemValues expected (term' :: rest')) := by
            intro hcall
            have hcall' : ∀ site rules contextClass items behind,
                rest' = .group site rules contextClass items :: behind →
                  second.isParens rules = false := by
              rintro site rules contextClass items behind rfl
              cases hrest with
              | cons hnext _ =>
                  cases hnext with
                  | group _ _ _ _ => exact h.isParens rules ▸ hcall _ _ _ _ _ rfl
            rw [itemValues_term hseparator' hcall, itemValues_term hseparator hcall']
            exact h.cons (h.unlessStopped hterm (h.value false hterm)) (h.itemValues false hrest)
          match rest, rest', hrest with
          | [], _, .nil => exact hplain (fun _ _ _ _ _ h => nomatch h)
          | .group site rules contextClass items :: behind, _,
              .cons (.group _ _ hsite hitems) hbehind =>
              by_cases hparens : first.isParens rules = true
              · rw [itemValues_call hseparator' hparens,
                  itemValues_call hseparator (h.isParens rules ▸ hparens)]
                refine h.bind (h.takeFirst hterm hsite rules (h.value true hterm)
                  (innerValues (h.pieces hitems) (h.itemValues true hitems))) fun taken => ?_
                split
                · exact h.map (h.itemValues false hbehind)
                · exact h.map (h.itemValues false
                    (.cons (.group rules contextClass hsite hitems) hbehind))
              · refine hplain ?_
                rintro _ _ _ _ _ ⟨⟩
                exact Bool.not_eq_true _ ▸ hparens
          | .name _ :: _, _, _ => exact hplain (fun _ _ _ _ _ h => nomatch h)
          | .literal _ _ :: _, _, _ => exact hplain (fun _ _ _ _ _ h => nomatch h)
          | .delimiter _ _ :: _, _, _ => exact hplain (fun _ _ _ _ _ h => nomatch h)
          | .chain _ _ _ _ :: _, _, _ => exact hplain (fun _ _ _ _ _ h => nomatch h)
          | .binary _ _ _ _ :: _, _, _ => exact hplain (fun _ _ _ _ _ h => nomatch h)
          | .prefixed _ _ _ :: _, _, _ => exact hplain (fun _ _ _ _ _ h => nomatch h)
          | .ifThen _ _ _ :: _, _, _ => exact hplain (fun _ _ _ _ _ h => nomatch h)
          | .ifThenElse _ _ _ _ :: _, _, _ => exact hplain (fun _ _ _ _ _ h => nomatch h)

end

end Induction

end Parallel

end Resolution
end ExprLang
