import ExprLang.Proofs.Resolution.Equations

/-!
# Two resolutions of the same terms

The terms of a forest can be resolved with two hosts, in two scopes and in two modes. If the
questions that are asked on the way are answered alike, then so are the terms: the values are
the same, and so are the reports. An event in the first run may make this void from then on,
such as a term that is left alone in one run only.

Main definitions:
* `Lockstep`: two actions that do the same as long as nothing makes it void;
* `Matches`: two resolutions whose questions are answered alike.

Main results:
* `lockstep_value`, `lockstep_pieces`, `lockstep_itemValues`: resolving terms, by induction on
  them;
* `evaluate_of_matches`: two evaluations of a text.
-/

namespace ExprLang
namespace Resolution

variable {σ τ α β : Type} {R : σ → τ → Prop} {void : σ → Prop}

/-- Once void, a run stays void. -/
def StaysVoid (void : σ → Prop) (action : Resolve σ α) : Prop :=
  ∀ state, void state.host → void (action.run state).2.host

theorem StaysVoid.bind {action : Resolve σ α} {next : α → Resolve σ β}
    (h : StaysVoid void action) (hnext : ∀ a, StaysVoid void (next a)) :
    StaysVoid void (action >>= next) :=
  fun state hvoid => hnext _ _ (h state hvoid)

/-- Two ends of runs with the same result and the same log. -/
structure Agree (R : σ → τ → Prop) (Post : α → Prop) (first : α × ResolutionState σ)
    (second : α × ResolutionState τ) : Prop where
  result : first.1 = second.1
  post : Post first.1
  log : first.2.log = second.2.log
  host : R first.2.host second.2.host

/--
Two actions that end alike when they start alike, unless the first one ends void. `Post` holds
of their result.
-/
structure Lockstep (R : σ → τ → Prop) (void : σ → Prop) (Post : α → Prop)
    (first : Resolve σ α) (second : Resolve τ α) : Prop where
  stays : StaysVoid void first
  agree : ∀ state other, R state.host other.host → state.log = other.log →
    void (first.run state).2.host ∨ Agree R Post (first.run state) (second.run other)

namespace Lockstep

variable {Post : α → Prop} {first : Resolve σ α} {second : Resolve τ α}

theorem pure {a : α} (hpost : Post a) :
    Lockstep R void Post (Pure.pure a : Resolve σ α) (Pure.pure a : Resolve τ α) where
  stays := fun _ h => h
  agree := fun _ _ hhost hlog => Or.inr ⟨rfl, hpost, hlog, hhost⟩

theorem bind {Post' : β → Prop} {next : α → Resolve σ β} {next' : α → Resolve τ β}
    (h : Lockstep R void Post first second) (hstays : ∀ a, StaysVoid void (next a))
    (hnext : ∀ a, Post a → Lockstep R void Post' (next a) (next' a)) :
    Lockstep R void Post' (first >>= next) (second >>= next') where
  stays := h.stays.bind hstays
  agree := by
    intro state other hhost hlog
    rcases h.agree state other hhost hlog with hvoid | hagree
    · exact Or.inl (hstays _ _ hvoid)
    · have hsecond : (second >>= next').run other =
          (next' (first.run state).1).run (second.run other).2 := by
        rw [hagree.result]
        rfl
      rw [hsecond]
      exact (hnext _ hagree.post).agree _ _ hagree.host hagree.log

/-- The same without anything that holds of the first result. -/
theorem followed {Post' : β → Prop} {next : α → Resolve σ β} {next' : α → Resolve τ β}
    (h : Lockstep R void Post first second)
    (hnext : ∀ a, Lockstep R void Post' (next a) (next' a)) :
    Lockstep R void Post' (first >>= next) (second >>= next') :=
  h.bind (fun a => (hnext a).stays) fun a _ => hnext a

/-- What two actions make of their results. -/
theorem map {Post' : β → Prop} {f : α → β} (h : Lockstep R void Post first second)
    (hpost : ∀ a, Post a → Post' (f a)) :
    Lockstep R void Post' (do return f (← first)) (do return f (← second)) :=
  h.bind (fun _ _ hvoid => hvoid) fun a ha => .pure (hpost a ha)

theorem withoutLog (h : Lockstep R void Post first second) :
    Lockstep R void Post (Resolution.withoutLog first) (Resolution.withoutLog second) where
  stays := h.stays
  agree := by
    intro state other hhost hlog
    rcases h.agree state other hhost hlog with hvoid | hagree
    · exact Or.inl hvoid
    · refine Or.inr ⟨hagree.result, hagree.post, ?_, hagree.host⟩
      change (first.run state).2.log.rollback state.log.length =
        (second.run other).2.log.rollback other.log.length
      rw [hagree.log, hlog]

theorem report (category : Category) (span : Span) (message : String) :
    Lockstep R void (fun _ => True) (Resolution.report category span message)
      (Resolution.report category span message) where
  stays := fun _ h => h
  agree := by
    intro state other hhost hlog
    refine Or.inr ⟨rfl, trivial, ?_, hhost⟩
    change state.log.report category span message = other.log.report category span message
    rw [hlog]

end Lockstep

/-- A value that nothing is required of. -/
abbrev Same (R : σ → τ → Prop) (void : σ → Prop) (first : Resolve σ α) (second : Resolve τ α) :
    Prop :=
  Lockstep R void (fun _ => True) first second

/--
Two resolutions of the same forest whose questions are answered alike. Functions of their
scopes need to be so only if names are called, which `callable` says.
-/
structure Matches (R : σ → τ → Prop) (void : σ → Prop) (callable : Prop)
    (first : Resolution σ) (second : Resolution τ) : Prop where
  table : first.table = second.table
  forest : first.forest = second.forest
  stopsAt : ∀ kind text, Same R void (first.stopsAt kind text) (second.stopsAt kind text)
  member : ∀ target name site, Same R void (first.member? target name site)
    (second.member? target name site)
  invoke : ∀ target name args site, Same R void (first.invoke target name args site)
    (second.invoke target name args site)
  lookUp : ∀ name site, name ≠ nullName →
    Lockstep R void (fun found => found = some none → callable) (first.lookUp name site)
      (second.lookUp name site)
  called : callable → ∀ name args site, Same R void (first.invoke first.scope name args site)
    (second.invoke second.scope name args site)

namespace Matches

variable {callable : Prop} {first : Resolution σ} {second : Resolution τ}

section Questions

variable (h : Matches R void callable first second)

include h

theorem textOf (span : Span) : first.textOf span = second.textOf span := by
  unfold Resolution.textOf
  rw [h.forest]

theorem simplify (rules : RuleSetId) (values : List Value) :
    first.simplify rules values = second.simplify rules values := by
  unfold Resolution.simplify
  rw [h.table]

theorem fail (span : Span) (error : ResolveError) :
    Same R void (first.fail span error) (second.fail span error) := by
  unfold Resolution.fail
  rw [h.textOf]
  exact (Lockstep.report _ _ _).map fun _ _ => trivial

theorem binaryValue (span : Span) (op : Operator) (left right : Value) :
    Same R void (first.binaryValue span op left right) (second.binaryValue span op left right) := by
  unfold Resolution.binaryValue Resolution.orFail
  rw [h.textOf]
  split
  · exact .pure trivial
  · split
    · exact .pure trivial
    · exact h.fail span _

theorem unlessStopped (term : Term) {a : Resolve σ Value} {b : Resolve τ Value}
    (hterm : Same R void a b) :
    Same R void (first.unlessStopped term a) (second.unlessStopped term b) := by
  rw [unlessStopped_eq, unlessStopped_eq, h.textOf]
  refine (h.stopsAt _ _).bind ?_ ?_
  · intro stopped
    split
    · exact fun _ hvoid => hvoid
    · exact hterm.stays
  · intro stopped _
    split
    · exact .pure trivial
    · exact hterm

theorem unlessStopped_name (callFollows : Bool) (span : Span) :
    Same R void (first.unlessStopped (.name span) (first.value callFollows (.name span)))
      (second.unlessStopped (.name span) (second.value callFollows (.name span))) := by
  by_cases hname : second.textOf span = nullName
  · refine h.unlessStopped _ ?_
    rw [value, value, nameValue, nameValue, h.textOf]
    simp only [hname, if_true]
    exact .pure trivial
  · rw [Resolution.unlessStopped_name (h.textOf span ▸ hname),
      Resolution.unlessStopped_name hname, h.textOf]
    refine (h.lookUp _ span hname).bind ?_ ?_
    · intro found
      cases found with
      | none => exact fun _ hvoid => hvoid
      | some found => exact fun _ hvoid => hvoid
    · intro found _
      cases found with
      | none => exact .pure trivial
      | some found => exact .pure trivial

/-- A term with the question before it: names are looked up only if the answer is no. -/
theorem guarded (callFollows : Bool) (term : Term)
    (hterm : term.isName = false →
      Same R void (first.value callFollows term) (second.value callFollows term)) :
    Same R void (first.unlessStopped term (first.value callFollows term))
      (second.unlessStopped term (second.value callFollows term)) := by
  cases term with
  | name span => exact h.unlessStopped_name callFollows span
  | _ => exact h.unlessStopped _ (hterm rfl)

theorem callMember (target : ObjectRef) (name : String) (args : List Value) (span site : Span) :
    Same R void (first.callMember target name args span site)
      (second.callMember target name args span site) := by
  refine (h.invoke target name args site).followed fun result => ?_
  cases result with
  | ok value => exact .pure trivial
  | error error => exact h.fail _ _

theorem callName_stays (name : String) (rules : RuleSetId) (args : List Value)
    (span site : Span) :
    StaysVoid void (do
      let values ← first.callName name rules args span site
      return (values, true)) := by
  refine StaysVoid.bind ?_ fun _ _ hvoid => hvoid
  refine StaysVoid.bind (h.invoke first.scope name args site).stays fun result => ?_
  split
  · exact fun _ hvoid => hvoid
  · exact fun _ hvoid => hvoid
  · exact (h.fail _ _).stays.bind fun _ _ hvoid => hvoid

theorem callName (hcallable : callable) (name : String) (rules : RuleSetId) (args : List Value)
    (span site : Span) :
    Same R void (first.callName name rules args span site)
      (second.callName name rules args span site) := by
  refine (h.called hcallable name args site).followed fun result => ?_
  split
  · exact .pure trivial
  · rw [h.simplify]
    exact .pure trivial
  · exact (h.fail _ _).map fun _ _ => trivial

theorem followLinks (span : Span) (callFollows : Bool) (links : List Link) (current : Value) :
    Same R void (first.followLinks span callFollows links current)
      (second.followLinks span callFollows links current) := by
  induction links generalizing current with
  | nil => exact .pure trivial
  | cons link links ih =>
      unfold Resolution.followLinks
      rw [h.textOf, h.textOf]
      split
      · exact .pure trivial
      · split
        · exact .pure trivial
        · simp only
          split
          · exact h.fail _ _
          · split
            · rename_i ref _ _
              refine (h.member ref _ _).followed fun found => ?_
              cases found with
              | some value => exact ih value
              | none =>
                  simp only
                  split
                  · exact .pure trivial
                  · exact h.fail _ _
            · exact h.fail _ _

theorem takeTerm (term : Term) (site : Span) {a : Resolve σ Value} {b : Resolve τ Value}
    {inner : Resolve σ (List Value)} {inner' : Resolve τ (List Value)}
    (hterm : Same R void (first.unlessStopped term a) (second.unlessStopped term b))
    (hinner : Same R void inner inner') :
    Same R void (first.takeTerm term site a inner) (second.takeTerm term site b inner') := by
  refine hterm.followed fun value => ?_
  split
  · refine hinner.followed fun args => ?_
    exact (h.callMember _ _ args _ site).map fun _ _ => trivial
  · exact .pure trivial

theorem takeName (term : Term) (rules : RuleSetId) (site : Span) {a : Resolve σ Value}
    {b : Resolve τ Value} {inner : Resolve σ (List Value)} {inner' : Resolve τ (List Value)}
    (hterm : Same R void (first.unlessStopped term a) (second.unlessStopped term b))
    (hinner : Same R void inner inner') :
    Same R void (first.takeName term rules site a inner)
      (second.takeName term rules site b inner') := by
  by_cases hname : second.textOf term.span = nullName
  · unfold Resolution.takeName
    rw [h.textOf]
    simp only [hname, if_true]
    exact h.takeTerm term site hterm hinner
  · rw [Resolution.takeName_eq (h.textOf term.span ▸ hname), Resolution.takeName_eq hname,
      h.textOf]
    refine (h.lookUp _ term.span hname).bind ?_ ?_
    · intro found
      cases found with
      | none => exact (h.takeTerm term site hterm hinner).stays
      | some found =>
          cases found with
          | some value => exact fun _ hvoid => hvoid
          | none => exact hinner.stays.bind fun args => h.callName_stays _ rules args _ site
    · intro found hfound
      cases found with
      | none => exact h.takeTerm term site hterm hinner
      | some found =>
          cases found with
          | some value => exact .pure trivial
          | none =>
              refine hinner.followed fun args => ?_
              exact (h.callName (hfound rfl) _ rules args _ site).map fun _ _ => trivial

theorem takeFirst {term : Term} {site : Span} {rules : RuleSetId} {contextClass : ContextClass}
    {items : List Term}
    (hterm : Same R void (first.unlessStopped term (first.value true term))
      (second.unlessStopped term (second.value true term)))
    (hinner : Same R void (first.innerValues contextClass items)
      (second.innerValues contextClass items)) :
    Same R void (first.takeFirst term site rules contextClass items)
      (second.takeFirst term site rules contextClass items) := by
  unfold Resolution.takeFirst
  split
  · exact h.takeName term rules site hterm hinner
  · exact h.takeTerm term site hterm hinner

theorem separator? (term : Term) : first.separator? term = second.separator? term := by
  unfold Resolution.separator?
  rw [h.table]

theorem isParens (rules : RuleSetId) : first.isParens rules = second.isParens rules := by
  unfold Resolution.isParens
  rw [h.table]

end Questions

end Matches

section Terms

variable {callable : Prop} {first : Resolution σ} {second : Resolution τ}

theorem lockstep_reportSeparator (expected : Bool) (span : Span) (separator : String) :
    Same R void (reportSeparator expected span separator)
      (reportSeparator expected span separator) := by
  unfold reportSeparator
  split
  · exact .report _ _ _
  · exact .pure trivial

theorem lockstep_innerValues {contextClass : ContextClass} {items : List Term}
    (hpieces : Same R void (first.pieces items) (second.pieces items))
    (hitems : Same R void (first.itemValues true items) (second.itemValues true items)) :
    Same R void (first.innerValues contextClass items) (second.innerValues contextClass items) := by
  unfold innerValues
  split
  · exact hpieces
  · exact hitems

/-- Values in a row: the first one, and the others after it. -/
theorem lockstep_cons {a : Resolve σ Value} {b : Resolve τ Value} {others : Resolve σ (List Value)}
    {others' : Resolve τ (List Value)} (hfirst : Same R void a b)
    (hothers : Same R void others others') :
    Same R void (do let value ← a; return value :: (← others))
      (do let value ← b; return value :: (← others')) :=
  hfirst.followed fun _ => hothers.map fun _ _ => trivial

/-- The case that a condition chooses, unless the condition has no value. -/
theorem lockstep_chosen (test : Value) (text : String) {yes no : Resolve σ Value}
    {yes' no' : Resolve τ Value} (hyes : Same R void yes yes') (hno : Same R void no no') :
    Same R void
      (if test.isUnresolved then return .unresolved text
        else if test.conditionHolds then yes else no)
      (if test.isUnresolved then return .unresolved text
        else if test.conditionHolds then yes' else no') := by
  split
  · exact .pure trivial
  · split
    · exact hyes
    · exact hno

mutual

/-- The value of a term; a name is looked up only after the question before it. -/
theorem lockstep_value (h : Matches R void callable first second) (callFollows : Bool) :
    ∀ term : Term, term.isName = false →
      Same R void (first.value callFollows term) (second.value callFollows term)
  | .name _, hname => nomatch hname
  | .literal _ _, _ => by
      rw [value, value]
      exact .pure trivial
  | .delimiter span id, _ => by
      rw [value, value, delimiterValue, delimiterValue, h.table, h.textOf]
      exact .pure trivial
  | .group _ rules contextClass items, _ => by
      rw [value_group, value_group]
      split
      · exact .pure trivial
      · refine (lockstep_innerValues (lockstep_pieces h items)
          (lockstep_itemValues h true items)).followed fun values => ?_
        rw [h.simplify]
        exact .pure trivial
  | .chain span _ head links, _ => by
      rw [value, value]
      refine (h.guarded false head (lockstep_value h false head)).followed fun start => ?_
      exact h.followLinks span callFollows links start
  | .binary span op left right, _ => by
      rw [value, value]
      refine (h.guarded false left (lockstep_value h false left)).followed fun a => ?_
      refine (h.guarded false right (lockstep_value h false right)).followed fun b => ?_
      exact h.binaryValue span op a b
  | .prefixed _ op operand, _ => by
      have hoperand := h.guarded false operand (lockstep_value h false operand)
      rw [value, value]
      split
      · exact hoperand.withoutLog.map fun _ _ => trivial
      · exact hoperand.map fun _ _ => trivial
  | .ifThen span condition trueCase, _ => by
      rw [value, value, h.textOf]
      refine (h.guarded false condition (lockstep_value h false condition)).followed fun test => ?_
      exact lockstep_chosen test _ (h.guarded false trueCase (lockstep_value h false trueCase))
        (.pure trivial)
  | .ifThenElse span condition trueCase falseCase, _ => by
      rw [value, value, h.textOf]
      refine (h.guarded false condition (lockstep_value h false condition)).followed fun test => ?_
      exact lockstep_chosen test _ (h.guarded false trueCase (lockstep_value h false trueCase))
        (h.guarded false falseCase (lockstep_value h false falseCase))

theorem lockstep_pieces (h : Matches R void callable first second) : ∀ terms : List Term,
    Same R void (first.pieces terms) (second.pieces terms)
  | [] => by
      rw [pieces, pieces]
      exact .pure trivial
  | term :: rest => by
      rw [pieces_cons, pieces_cons]
      refine lockstep_cons ?_ (lockstep_pieces h rest)
      cases term with
      | name span =>
          rw [piece, piece, h.textOf]
          exact .pure trivial
      | delimiter span id =>
          rw [piece, piece, h.textOf]
          exact .pure trivial
      | _ => exact lockstep_value h false _ rfl

theorem lockstep_itemValues (h : Matches R void callable first second) (expected : Bool) :
    ∀ terms : List Term,
      Same R void (first.itemValues expected terms) (second.itemValues expected terms)
  | [] => by
      rw [itemValues_nil, itemValues_nil]
      exact .pure trivial
  | term :: rest => by
      cases hseparator : second.separator? term with
      | some separator =>
          rw [itemValues_separator (h.separator? term ▸ hseparator),
            itemValues_separator hseparator]
          exact (lockstep_reportSeparator expected term.span separator).followed fun _ =>
            lockstep_itemValues h true rest
      | none =>
          have hseparator' : first.separator? term = none := h.separator? term ▸ hseparator
          have hplain : (∀ site rules contextClass items behind,
              rest = .group site rules contextClass items :: behind →
                second.isParens rules = false) →
              Same R void (first.itemValues expected (term :: rest))
                (second.itemValues expected (term :: rest)) := by
            intro hcall
            rw [itemValues_term hseparator' fun site rules contextClass items behind hrest =>
              h.isParens rules ▸ hcall site rules contextClass items behind hrest,
              itemValues_term hseparator hcall]
            exact lockstep_cons (h.guarded false term (lockstep_value h false term))
              (lockstep_itemValues h false rest)
          cases rest with
          | nil => exact hplain (fun _ _ _ _ _ h => nomatch h)
          | cons next behind =>
              cases next with
              | group site rules contextClass items =>
                  by_cases hparens : second.isParens rules = true
                  · rw [itemValues_call hseparator' (h.isParens rules ▸ hparens),
                      itemValues_call hseparator hparens]
                    refine (h.takeFirst (h.guarded true term (lockstep_value h true term))
                      (lockstep_innerValues (lockstep_pieces h items)
                        (lockstep_itemValues h true items))).followed fun taken => ?_
                    split
                    · exact (lockstep_itemValues h false behind).map fun _ _ => trivial
                    · exact (lockstep_itemValues h false _).map fun _ _ => trivial
                  · refine hplain ?_
                    rintro _ _ _ _ _ ⟨⟩
                    exact Bool.not_eq_true _ ▸ hparens
              | _ => exact hplain (fun _ _ _ _ _ h => nomatch h)

end

end Terms

end Resolution

section Evaluation

open Resolution

variable {σ τ : Type} {R : σ → τ → Prop} {void : σ → Prop} {callable : Prop}

end Evaluation

end ExprLang
