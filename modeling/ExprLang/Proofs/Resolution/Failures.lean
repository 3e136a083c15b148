import ExprLang.Language
import ExprLang.Proofs.Host.Store
import ExprLang.Proofs.Resolution.Equations
import ExprLang.Proofs.Resolution.GroupedTerms
import ExprLang.Proofs.Resolution.Values

/-!
# No failure is silent

A value is missing where an operator was not grouped or where something failed, and both are
reported. What gets such a value passes it on, and only `maybe` drops reports, with the value
that they are about. So as long as hosts give no such values, one is left in a result only if
a report is left in the log. A member that waits for its arguments never gets that far: a
call follows it, or it is a failure.

Main definitions:
* `Host.Lacks`: a host that gives no value of a kind of its own;
* `Candid`: an action that reports when its result is not whole.

Main results:
* `candid_value`, `candid_pieces`, `candid_itemValues`: resolving terms, by induction on them;
* `evaluate_lacks`: the value of a text.
-/

namespace ExprLang

namespace Resolution

variable {σ α β : Type} {inv : σ → Prop} {grouped : Prop}

/-- How an action of a resolution ends that was started in a state. -/
structure Ends (inv : σ → Prop) (grouped : Prop) (state : ResolutionState σ)
    (ended : α × ResolutionState σ) (Kept Whole : α → Prop) : Prop where
  inv : inv ended.2.host
  /-- The log is added to. -/
  grows : state.log.entries.toList <+: ended.2.log.entries.toList
  kept : Kept ended.1
  /-- Without a report the result is whole, unless an operator was not grouped. -/
  whole : grouped → ended.2.log.entries.toList = [] → Whole ended.1

/-- An action that reports when its result is not whole. -/
def Candid (inv : σ → Prop) (grouped : Prop) (action : Resolve σ α) (Kept Whole : α → Prop) :
    Prop :=
  ∀ state, inv state.host → Ends inv grouped state (action.run state) Kept Whole

namespace Candid

variable {Kept Whole : α → Prop} {Kept' Whole' : β → Prop} {action : Resolve σ α}

theorem pure {a : α} (hkept : Kept a) (hwhole : Whole a) :
    Candid inv grouped (Pure.pure a : Resolve σ α) Kept Whole :=
  fun _ hinv => ⟨hinv, List.prefix_rfl, hkept, fun _ _ => hwhole⟩

theorem bind {next : α → Resolve σ β} (h : Candid inv grouped action Kept Whole)
    (hnext : ∀ a, Kept a → Candid inv grouped (next a) Kept' fun b => Whole a → Whole' b) :
    Candid inv grouped (action >>= next) Kept' Whole' := by
  intro state hinv
  have hfirst := h state hinv
  have hsecond := hnext _ hfirst.kept _ hfirst.inv
  refine ⟨hsecond.inv, hfirst.grows.trans hsecond.grows, hsecond.kept, ?_⟩
  intro hgrouped hnone
  have hnone' : (action.run state).2.log.entries.toList = [] :=
    List.prefix_nil.mp (hnone ▸ hsecond.grows)
  exact hsecond.whole hgrouped hnone (hfirst.whole hgrouped hnone')

theorem relax {Kept' : α → Prop} (h : Candid inv grouped action Kept Whole)
    (hkept : ∀ a, Kept a → Kept' a) : Candid inv grouped action Kept' Whole := by
  intro state hinv
  have hend := h state hinv
  exact ⟨hend.inv, hend.grows, hkept _ hend.kept, hend.whole⟩

theorem weaken {Whole' : α → Prop} (h : Candid inv grouped action Kept Whole)
    (hwhole : ∀ a, Whole a → Whole' a) : Candid inv grouped action Kept Whole' := by
  intro state hinv
  have hend := h state hinv
  exact ⟨hend.inv, hend.grows, hend.kept,
    fun hgrouped hnone => hwhole _ (hend.whole hgrouped hnone)⟩

/-- What an action makes of its result. -/
theorem map {f : α → β} (h : Candid inv grouped action Kept Whole)
    (hkept : ∀ a, Kept a → Kept' (f a)) (hwhole : ∀ a, Kept a → Whole a → Whole' (f a)) :
    Candid inv grouped (do return f (← action)) Kept' Whole' :=
  h.bind fun a ha => .pure (hkept a ha) (hwhole a ha)

/-- An action without its reports still keeps the log as it was. -/
theorem withoutLog (h : Candid inv grouped action Kept Whole) :
    Candid inv grouped (Resolution.withoutLog action) Kept fun _ => True := by
  intro state hinv
  have hend := h state hinv
  refine ⟨hend.inv, ?_, hend.kept, fun _ _ => trivial⟩
  change state.log.entries.toList <+:
    ((action.run state).2.log.rollback state.log.length).entries.toList
  obtain ⟨new, hnew⟩ := hend.grows
  rw [Log.toList_rollback, ← hnew, Log.length, ← Array.length_toList, List.take_left]

theorem report (category : Category) (span : Span) (message : String) :
    Candid inv grouped (Resolution.report category span message) (fun _ => True)
      fun _ => False := by
  intro state hinv
  have hlog : ((Resolution.report category span message).run state).2.log.entries.toList =
      state.log.entries.toList ++ [state.log.entry category span message] :=
    Log.toList_report _ _ _ _
  refine ⟨hinv, hlog ▸ List.prefix_append _ _, trivial, ?_⟩
  intro _ hnone
  rw [hlog] at hnone
  simp at hnone

end Candid

/-- Values that may be used: none waits for arguments. -/
def AllUsable (values : List Value) : Prop :=
  ∀ value ∈ values, value.Lacks Value.isInvocation

/-- Values that are whole: nothing in them is left unresolved. -/
def AllWhole (values : List Value) : Prop :=
  ∀ value ∈ values, value.Lacks Value.isUnresolved

/-- A value in front of a group may also wait for the arguments in it. -/
def MayWait (callFollows : Bool) (value : Value) : Prop :=
  value.Lacks Value.isInvocation ∨ callFollows = true ∧ value.isInvocation = true

theorem lacks_isInvocation_unresolved (text : String) :
    (Value.unresolved text).Lacks Value.isInvocation :=
  Value.lacks_of_forall_ne_list (fun _ h => nomatch h) rfl

/-- All terms are resolved, and the host gives no value that waits or is unresolved. -/
structure Definite (resolution : Resolution σ) (inv : σ → Prop) : Prop where
  full : resolution.mode = .full
  calls : resolution.host.Lacks inv Value.isInvocation
  values : resolution.host.Lacks inv Value.isUnresolved

variable {resolution : Resolution σ}

section Failures

variable (span : Span)

theorem candid_fail (error : ResolveError) {Whole : Value → Prop} :
    Candid inv grouped (resolution.fail span error) (Value.Lacks Value.isInvocation) Whole :=
  (Candid.report .resolution span error.message).bind fun _ _ =>
    .pure (lacks_isInvocation_unresolved _) fun h => h.elim

/-- A result of an operator is whole, and without a result there is a report. -/
theorem candid_binaryValue (op : Operator) (left right : Value) :
    Candid inv grouped (resolution.binaryValue span op left right) (Value.Lacks Value.isInvocation)
      fun value => left.Lacks Value.isUnresolved → right.Lacks Value.isUnresolved →
        value.Lacks Value.isUnresolved := by
  unfold binaryValue
  split
  · rename_i hunresolved
    refine .pure (lacks_isInvocation_unresolved _) ?_
    intro hleft hright
    rw [hleft.self, hright.self] at hunresolved
    cases hunresolved
  · unfold orFail
    split
    · rename_i value hvalue
      have hplain := Operation.isPlain_of_binary hvalue
      exact .pure (Value.isSpecial_isInvocation.lacks_plain hplain)
        fun _ _ => Value.isSpecial_isUnresolved.lacks_plain hplain
    · exact candid_fail span _

end Failures

section Hosts

variable (hd : resolution.Definite inv)

include hd

theorem candid_member? (target : ObjectRef) (name : String) (site : Span) :
    Candid inv grouped (resolution.member? target name site)
      (fun found => ∀ value ∈ found, value.Lacks Value.isInvocation)
      fun found => ∀ value ∈ found, value.Lacks Value.isUnresolved := by
  intro state hinv
  have hcall := hd.calls.member target name site state.host hinv
  have hvalue := hd.values.member target name site state.host hinv
  exact ⟨hcall.1, List.prefix_rfl, hcall.2, fun _ _ => hvalue.2⟩

theorem candid_invoke (target : ObjectRef) (name : String) {args : List Value} (site : Span)
    (hargs : AllUsable args) :
    Candid inv grouped (resolution.invoke target name args site)
      (fun result => ∀ value, result = .ok value → value.Lacks Value.isInvocation)
      fun result => AllWhole args → ∀ value, result = .ok value →
        value.Lacks Value.isUnresolved := by
  intro state hinv
  have hcall := hd.calls.invoke target name args site state.host hinv
  have hvalue := hd.values.invoke target name args site state.host hinv
  exact ⟨hcall.1, List.prefix_rfl, fun value hok => hcall.2 value hok hargs,
    fun _ _ hwhole value hok => hvalue.2 value hok hwhole⟩

theorem candid_nameValue (span : Span) :
    Candid inv grouped (resolution.nameValue span) (Value.Lacks Value.isInvocation)
      (Value.Lacks Value.isUnresolved) := by
  unfold nameValue
  simp only
  split
  · exact .pure (Value.isSpecial_isInvocation.lacks_plain rfl)
      (Value.isSpecial_isUnresolved.lacks_plain rfl)
  · refine (candid_member? hd _ _ span).map ?_ ?_
    · intro found hfound
      cases found with
      | none => exact Value.isSpecial_isInvocation.lacks_plain rfl
      | some value => exact hfound value rfl
    · intro found _ hfound
      cases found with
      | none => exact Value.isSpecial_isUnresolved.lacks_plain rfl
      | some value => exact hfound value rfl

theorem candid_callMember (target : ObjectRef) (name : String) {args : List Value}
    (span site : Span) (hargs : AllUsable args) :
    Candid inv grouped (resolution.callMember target name args span site)
      (Value.Lacks Value.isInvocation) fun value => AllWhole args →
        value.Lacks Value.isUnresolved := by
  refine (candid_invoke hd target name site hargs).bind fun result hresult => ?_
  cases result with
  | ok value => exact .pure (hresult value rfl) fun hwhole hargs => hwhole hargs value rfl
  | error error => exact candid_fail _ _

theorem candid_callName (name : String) (rules : RuleSetId) {args : List Value} (span site : Span)
    (hargs : AllUsable args) :
    Candid inv grouped (resolution.callName name rules args span site) AllUsable
      fun values => AllWhole args → AllWhole values := by
  refine (candid_invoke hd _ name site hargs).bind fun result hresult => ?_
  split
  · rename_i value
    refine .pure ?_ ?_
    · intro _ hmem
      rw [List.mem_singleton.mp hmem]
      exact hresult value rfl
    · intro hwhole hargs _ hmem
      rw [List.mem_singleton.mp hmem]
      exact hwhole hargs value rfl
  · refine .pure ?_ ?_
    · intro value hmem
      rcases List.mem_cons.mp hmem with rfl | hmem
      · exact Value.isSpecial_isInvocation.lacks_plain rfl
      · rw [List.mem_singleton.mp hmem]
        exact resolution.lacks_simplify Value.isSpecial_isInvocation rules hargs
    · intro _ hargs value hmem
      rcases List.mem_cons.mp hmem with rfl | hmem
      · exact Value.isSpecial_isUnresolved.lacks_plain rfl
      · rw [List.mem_singleton.mp hmem]
        exact resolution.lacks_simplify Value.isSpecial_isUnresolved rules hargs
  · rename_i error _
    have hfail : Candid inv grouped (resolution.fail (span.merge site) (.invocation error))
        (Value.Lacks Value.isInvocation) (Value.Lacks Value.isUnresolved) := candid_fail _ _
    refine hfail.map ?_ ?_
    · intro value hvalue _ hmem
      rw [List.mem_singleton.mp hmem]
      exact hvalue
    · intro value _ hvalue _ _ _ hmem
      rw [List.mem_singleton.mp hmem]
      exact hvalue

/-- The links of a chain, by induction on them. -/
theorem candid_followLinks (span : Span) (callFollows : Bool) (links : List Link)
    {current : Value} (hcurrent : current.Lacks Value.isInvocation) :
    Candid inv grouped (resolution.followLinks span callFollows links current)
      (MayWait callFollows) fun value => current.Lacks Value.isUnresolved →
        value.Lacks Value.isUnresolved := by
  induction links generalizing current with
  | nil => exact .pure (Or.inl hcurrent) id
  | cons link links ih =>
      have hfail : ∀ error, Candid inv grouped (resolution.fail span error) (MayWait callFollows)
          fun value => current.Lacks Value.isUnresolved → value.Lacks Value.isUnresolved :=
        fun error => (candid_fail span error).relax fun _ => Or.inl
      unfold followLinks
      split
      · rename_i hunresolved
        exact .pure (Or.inl (lacks_isInvocation_unresolved _))
          fun h => (Value.not_lacks_of_isUnresolved hunresolved h).elim
      · split
        · exact .pure (Or.inl (Value.isSpecial_isInvocation.lacks_plain rfl))
            fun _ => Value.isSpecial_isUnresolved.lacks_plain rfl
        · simp only
          split
          · exact hfail _
          · split
            · rename_i ref _ _
              refine (candid_member? hd ref _ _).bind fun found hfound => ?_
              cases found with
              | some value =>
                  exact (ih (hfound value rfl)).weaken fun _ h hwhole _ => h (hwhole value rfl)
              | none =>
                  simp only
                  split
                  · rename_i hcall
                    refine .pure (Or.inr ⟨?_, rfl⟩) ?_
                    · exact (Bool.and_eq_true_iff.mp hcall).1
                    · intro _ _
                      exact Value.lacks_of_forall_ne_list (fun _ h => nomatch h) rfl
                  · exact (hfail _).weaken fun _ h _ => h
            · exact hfail _

/-- A term in front of a group: what waits for arguments is called with them. -/
theorem candid_takeTerm (term : Term) (site : Span)
    {action : Resolve σ Value} {arguments : Resolve σ (List Value)}
    (haction : Candid inv grouped action (MayWait true) (Value.Lacks Value.isUnresolved))
    (harguments : Candid inv grouped arguments AllUsable AllWhole) :
    Candid inv grouped (resolution.takeTerm term site action arguments)
      (fun taken => AllUsable taken.1) fun taken => AllWhole taken.1 := by
  unfold takeTerm
  rw [unlessStopped_full hd.full]
  refine haction.bind fun value hvalue => ?_
  split
  · refine harguments.bind fun args hargs => ?_
    refine (candid_callMember hd _ _ _ site hargs).map ?_ ?_
    · intro result hresult _ hmem
      rw [List.mem_singleton.mp hmem]
      exact hresult
    · intro result _ hwhole hargs _ _ hmem
      rw [List.mem_singleton.mp hmem]
      exact hwhole hargs
  · rename_i hother
    refine .pure ?_ ?_
    · intro _ hmem
      rw [List.mem_singleton.mp hmem]
      rcases hvalue with hlacks | ⟨-, hinvocation⟩
      · exact hlacks
      · cases value with
        | invocation target name => exact absurd rfl (hother target name)
        | _ => cases hinvocation
    · intro hwhole _ hmem
      rw [List.mem_singleton.mp hmem]
      exact hwhole

/-- A name in front of a group: the value of a member, or a call. -/
theorem candid_takeName (term : Term) (rules : RuleSetId)
    (site : Span) {action : Resolve σ Value} {arguments : Resolve σ (List Value)}
    (haction : Candid inv grouped action (MayWait true) (Value.Lacks Value.isUnresolved))
    (harguments : Candid inv grouped arguments AllUsable AllWhole) :
    Candid inv grouped (resolution.takeName term rules site action arguments)
      (fun taken => AllUsable taken.1) fun taken => AllWhole taken.1 := by
  unfold takeName
  simp only
  split
  · exact candid_takeTerm hd term site haction harguments
  · rw [stopsAt_full hd.full, pure_bind, if_neg Bool.false_ne_true]
    refine (candid_member? hd _ _ _).bind fun found hfound => ?_
    cases found with
    | some value =>
        refine .pure ?_ ?_
        · intro _ hmem
          rw [List.mem_singleton.mp hmem]
          exact hfound value rfl
        · intro hwhole _ hmem
          rw [List.mem_singleton.mp hmem]
          exact hwhole value rfl
    | none =>
        refine harguments.bind fun args hargs => ?_
        exact (candid_callName hd _ rules _ site hargs).map (fun _ h => h)
          fun _ _ h hwhole _ => h hwhole

theorem candid_takeFirst {term : Term} {site : Span}
    {rules : RuleSetId} {contextClass : ContextClass} {items : List Term}
    (hterm : Candid inv grouped (resolution.value true term) (MayWait true)
      (Value.Lacks Value.isUnresolved))
    (hinner : Candid inv grouped (resolution.innerValues contextClass items) AllUsable AllWhole) :
    Candid inv grouped (resolution.takeFirst term site rules contextClass items)
      (fun taken => AllUsable taken.1) fun taken => AllWhole taken.1 := by
  unfold takeFirst
  split
  · exact candid_takeName hd term rules site hterm hinner
  · exact candid_takeTerm hd term site hterm hinner

end Hosts

section Terms

theorem lacks_of_mayWait {value : Value} (h : MayWait false value) :
    value.Lacks Value.isInvocation := by
  rcases h with hlacks | ⟨hfalse, -⟩
  · exact hlacks
  · cases hfalse

/-- What has no group behind it does not wait for one either where a group would be used. -/
theorem Candid.behind {callFollows : Bool} {action : Resolve σ Value} {Whole : Value → Prop}
    (h : Candid inv grouped action (MayWait false) Whole) :
    Candid inv grouped action (MayWait callFollows) Whole :=
  h.relax fun _ hvalue => Or.inl (lacks_of_mayWait hvalue)

theorem candid_pure_plain {callFollows : Bool} {value : Value} (h : value.isPlain = true) :
    Candid inv grouped (Pure.pure value : Resolve σ Value) (MayWait callFollows)
      (Value.Lacks Value.isUnresolved) :=
  .pure (Or.inl (Value.isSpecial_isInvocation.lacks_plain h))
    (Value.isSpecial_isUnresolved.lacks_plain h)

theorem candid_delimiterValue {callFollows : Bool} (span : Span) (id : DelimiterId)
    (hterm : grouped → (resolution.table.delimiter id).isOperator = false) :
    Candid inv grouped (Pure.pure (resolution.delimiterValue span id)) (MayWait callFollows)
      (Value.Lacks Value.isUnresolved) := by
  unfold delimiterValue
  split
  · rename_i hop
    refine fun _ hinv => ⟨hinv, List.prefix_rfl, Or.inl (lacks_isInvocation_unresolved _), ?_⟩
    intro hgrouped _
    rw [hterm hgrouped] at hop
    cases hop
  · exact candid_pure_plain rfl

theorem candid_innerValues {contextClass : ContextClass} {items : List Term}
    (hpieces : Candid inv grouped (resolution.pieces items) AllUsable AllWhole)
    (hitems : Candid inv grouped (resolution.itemValues true items) AllUsable AllWhole) :
    Candid inv grouped (resolution.innerValues contextClass items) AllUsable AllWhole := by
  unfold innerValues
  split
  · exact hpieces
  · exact hitems

theorem candid_nil : Candid inv grouped (Pure.pure [] : Resolve σ (List Value)) AllUsable
    AllWhole :=
  .pure (fun _ h => absurd h List.not_mem_nil) fun _ h => absurd h List.not_mem_nil

/-- Values in a row: the first one, and the others after it. -/
theorem candid_cons {first : Resolve σ Value} {others : Resolve σ (List Value)}
    (hfirst : Candid inv grouped first (MayWait false) (Value.Lacks Value.isUnresolved))
    (hothers : Candid inv grouped others AllUsable AllWhole) :
    Candid inv grouped (do let value ← first; return value :: (← others)) AllUsable AllWhole := by
  refine hfirst.bind fun value hvalue => hothers.map ?_ ?_
  · intro values hvalues
    exact List.forall_mem_cons.mpr ⟨lacks_of_mayWait hvalue, hvalues⟩
  · intro values _ hvalues hvalue
    exact List.forall_mem_cons.mpr ⟨hvalue, hvalues⟩

theorem candid_append {values : List Value} {others : Resolve σ (List Value)}
    (hvalues : AllUsable values) (hothers : Candid inv grouped others AllUsable AllWhole) :
    Candid inv grouped (do return values ++ (← others)) AllUsable
      fun all => AllWhole values → AllWhole all := by
  refine hothers.map ?_ ?_
  · intro others hothers
    exact List.forall_mem_append.mpr ⟨hvalues, hothers⟩
  · intro others _ hothers hvalues
    exact List.forall_mem_append.mpr ⟨hvalues, hothers⟩

theorem candid_reportSeparator (expected : Bool) (span : Span) (separator : String) :
    Candid inv grouped (reportSeparator expected span separator : Resolve σ Unit)
      (fun _ => True) fun _ => True := by
  unfold reportSeparator
  split
  · exact (Candid.report _ _ _).weaken fun _ _ => trivial
  · exact .pure trivial trivial

/-- The case that a condition chooses, unless the condition has no value. -/
theorem candid_chosen {callFollows : Bool} {test : Value} (span : Span)
    {yes no : Resolve σ Value}
    (hyes : Candid inv grouped yes (MayWait callFollows) (Value.Lacks Value.isUnresolved))
    (hno : Candid inv grouped no (MayWait callFollows) (Value.Lacks Value.isUnresolved)) :
    Candid inv grouped
      (if test.isUnresolved then return .unresolved (resolution.textOf span)
        else if test.conditionHolds then yes else no)
      (MayWait callFollows)
      fun value => test.Lacks Value.isUnresolved → value.Lacks Value.isUnresolved := by
  split
  · rename_i hunresolved
    exact .pure (Or.inl (lacks_isInvocation_unresolved _))
      fun h => (Value.not_lacks_of_isUnresolved hunresolved h).elim
  · split
    · exact hyes.weaken fun _ h _ => h
    · exact hno.weaken fun _ h _ => h

mutual

theorem candid_value (hd : resolution.Definite inv) (callFollows : Bool) : ∀ term : Term,
    (grouped → term.IsGrouped resolution.table) →
      Candid inv grouped (resolution.value callFollows term) (MayWait callFollows)
        (Value.Lacks Value.isUnresolved)
  | .name span, _ => by
      rw [value]
      exact (candid_nameValue hd span).relax fun _ => Or.inl
  | .literal _ literal, _ => by
      rw [value]
      exact candid_pure_plain (Value.isPlain_ofLiteral literal)
  | .delimiter span id, hterm => by
      rw [value]
      refine candid_delimiterValue span id ?_
      intro hgrouped
      cases hterm hgrouped with
      | delimiter _ h => exact h
  | .group _ rules contextClass items, hterm => by
      have hitems : grouped → ∀ item ∈ items, item.IsGrouped resolution.table := by
        intro hgrouped
        cases hterm hgrouped with
        | group _ _ _ h => exact h
      rw [value_group]
      split
      · exact candid_pure_plain rfl
      · refine (candid_innerValues (candid_pieces hd items hitems)
          (candid_itemValues hd true items hitems)).map ?_ ?_
        · intro values hvalues
          exact Or.inl (resolution.lacks_simplify Value.isSpecial_isInvocation rules hvalues)
        · intro values _ hvalues
          exact resolution.lacks_simplify Value.isSpecial_isUnresolved rules hvalues
  | .chain span _ first links, hterm => by
      have hfirst : grouped → first.IsGrouped resolution.table := by
        intro hgrouped
        cases hterm hgrouped with
        | chain _ _ _ h => exact h
      rw [value, unlessStopped_full hd.full]
      refine (candid_value hd false first hfirst).bind fun start hstart => ?_
      exact candid_followLinks hd span callFollows links (lacks_of_mayWait hstart)
  | .binary span op left right, hterm => by
      have hoperands : grouped → left.IsGrouped resolution.table ∧
          right.IsGrouped resolution.table := by
        intro hgrouped
        cases hterm hgrouped with
        | binary _ _ hleft hright => exact ⟨hleft, hright⟩
      rw [value, unlessStopped_full hd.full, unlessStopped_full hd.full]
      refine (candid_value hd false left fun h => (hoperands h).1).bind fun a _ => ?_
      refine (candid_value hd false right fun h => (hoperands h).2).bind fun b _ => ?_
      exact ((candid_binaryValue span op a b).relax fun _ => Or.inl).weaken
        fun _ h hright hleft => h hleft hright
  | .prefixed _ op operand, hterm => by
      have hoperand : grouped → operand.IsGrouped resolution.table := by
        intro hgrouped
        cases hterm hgrouped with
        | prefixed _ _ h => exact h
      rw [value, unlessStopped_full hd.full]
      split
      · refine (candid_value hd false operand hoperand).withoutLog.map ?_ ?_
        · intro _ _
          exact Or.inl (Value.isSpecial_isInvocation.lacks_plain rfl)
        · intro _ _ _
          exact Value.isSpecial_isUnresolved.lacks_plain rfl
      · refine (candid_value hd false operand hoperand).map ?_ ?_
        · intro inner hinner
          exact Or.inl (Value.isSpecial_isInvocation.lacks_negate (lacks_of_mayWait hinner))
        · intro inner _ hinner
          exact Value.isSpecial_isUnresolved.lacks_negate hinner
  | .ifThen span condition trueCase, hterm => by
      have hparts : grouped → condition.IsGrouped resolution.table ∧
          trueCase.IsGrouped resolution.table := by
        intro hgrouped
        cases hterm hgrouped with
        | ifThen _ hcondition htrue => exact ⟨hcondition, htrue⟩
      rw [value, unlessStopped_full hd.full, unlessStopped_full hd.full]
      refine (candid_value hd false condition fun h => (hparts h).1).bind fun test _ => ?_
      refine candid_chosen span ?_ (candid_pure_plain rfl)
      exact (candid_value hd false trueCase fun h => (hparts h).2).behind
  | .ifThenElse span condition trueCase falseCase, hterm => by
      have hparts : grouped → condition.IsGrouped resolution.table ∧
          trueCase.IsGrouped resolution.table ∧ falseCase.IsGrouped resolution.table := by
        intro hgrouped
        cases hterm hgrouped with
        | ifThenElse _ hcondition htrue hfalse => exact ⟨hcondition, htrue, hfalse⟩
      rw [value, unlessStopped_full hd.full, unlessStopped_full hd.full, unlessStopped_full hd.full]
      refine (candid_value hd false condition fun h => (hparts h).1).bind fun test _ => ?_
      refine candid_chosen span ?_ ?_
      · exact (candid_value hd false trueCase fun h => (hparts h).2.1).behind
      · exact (candid_value hd false falseCase fun h => (hparts h).2.2).behind

theorem candid_pieces (hd : resolution.Definite inv) : ∀ terms : List Term,
    (grouped → ∀ term ∈ terms, term.IsGrouped resolution.table) →
      Candid inv grouped (resolution.pieces terms) AllUsable AllWhole
  | [], _ => by
      rw [pieces]
      exact candid_nil
  | term :: rest, hterms => by
      have hrest := candid_pieces hd rest fun h t ht => hterms h t (List.mem_cons_of_mem _ ht)
      rw [pieces_cons]
      refine candid_cons ?_ hrest
      cases term with
      | name span => exact candid_pure_plain rfl
      | delimiter span id => exact candid_pure_plain rfl
      | _ => exact candid_value hd false _ fun h => hterms h _ List.mem_cons_self

theorem candid_itemValues (hd : resolution.Definite inv) (expected : Bool) : ∀ terms : List Term,
    (grouped → ∀ term ∈ terms, term.IsGrouped resolution.table) →
      Candid inv grouped (resolution.itemValues expected terms) AllUsable AllWhole
  | [], _ => by
      rw [itemValues_nil]
      exact candid_nil
  | term :: rest, hterms => by
      have hterm := fun h => hterms h term List.mem_cons_self
      have hrest := fun h t ht => hterms h t (List.mem_cons_of_mem term ht)
      cases hseparator : resolution.separator? term with
      | some separator =>
          rw [itemValues_separator hseparator]
          exact (candid_reportSeparator expected term.span separator).bind fun _ _ =>
            (candid_itemValues hd true rest hrest).weaken fun _ h _ => h
      | none =>
          have hplain : (∀ site rules contextClass items behind,
              rest = .group site rules contextClass items :: behind →
                resolution.isParens rules = false) →
              Candid inv grouped (resolution.itemValues expected (term :: rest)) AllUsable
                AllWhole := by
            intro hcall
            rw [itemValues_term hseparator hcall, unlessStopped_full hd.full]
            exact candid_cons (candid_value hd false term hterm)
              (candid_itemValues hd false rest hrest)
          cases rest with
          | nil => exact hplain (fun _ _ _ _ _ h => nomatch h)
          | cons next behind =>
              cases next with
              | group site rules contextClass items =>
                  by_cases hparens : resolution.isParens rules = true
                  · have hitems : grouped → ∀ item ∈ items, item.IsGrouped resolution.table := by
                      intro hgrouped
                      cases hrest hgrouped _ List.mem_cons_self with
                      | group _ _ _ h => exact h
                    have hbehind := fun h t ht => hrest h t (List.mem_cons_of_mem _ ht)
                    rw [itemValues_call hseparator hparens]
                    refine (candid_takeFirst hd (candid_value hd true term hterm)
                      (candid_innerValues (candid_pieces hd items hitems)
                        (candid_itemValues hd true items hitems))).bind fun taken htaken => ?_
                    split
                    · exact candid_append htaken (candid_itemValues hd false behind hbehind)
                    · exact candid_append htaken (candid_itemValues hd false _ hrest)
                  · refine hplain ?_
                    rintro _ _ _ _ _ ⟨⟩
                    exact Bool.not_eq_true _ ▸ hparens
              | _ => exact hplain (fun _ _ _ _ _ h => nomatch h)

end

end Terms

end Resolution

section Evaluation

open Resolution

/--
The value of a text holds nothing that waits for arguments, and nothing unresolved if there
is no report at all.
-/
theorem LexInput.evaluate_lacks {σ : Type} (input : LexInput) (host : Host σ)
    (scope : ObjectRef) (inv : σ → Prop) (state : σ) (hcalls : host.Lacks inv Value.isInvocation)
    (hvalues : host.Lacks inv Value.isUnresolved) (hstate : inv state) :
    (input.evaluate host scope .full state).1.result.Lacks Value.isInvocation ∧
      ((input.evaluate host scope .full state).1.log.isEmpty = true →
        (input.evaluate host scope .full state).1.result.Lacks Value.isUnresolved) := by
  have hd : (input.resolution host scope .full).Definite inv := ⟨rfl, hcalls, hvalues⟩
  have hitems : Candid inv (input.parse.log.entries.toList = [])
      (input.resolution host scope .full).terms AllUsable AllWhole :=
    candid_itemValues hd true _ fun hnone => input.isGrouped_parse hnone
  have htotal : Candid inv (input.parse.log.entries.toList = [])
      (input.resolution host scope .full).total (Value.Lacks Value.isInvocation)
      (Value.Lacks Value.isUnresolved) :=
    hitems.map (fun _ => Value.isSpecial_isInvocation.lacks_collapse)
      fun _ _ => Value.isSpecial_isUnresolved.lacks_collapse
  have hend := htotal ⟨state, input.parse.log⟩ hstate
  obtain ⟨value, final, hrun⟩ : ∃ value final,
      (input.resolution host scope .full).total.run ⟨state, input.parse.log⟩ = (value, final) :=
    ⟨_, _, rfl⟩
  rw [hrun] at hend
  rw [input.evaluate_eq host scope .full state hrun]
  refine ⟨hend.kept, ?_⟩
  intro hempty
  have hnone : final.log.entries.toList = [] :=
    Array.toList_eq_nil_iff.mpr (Array.isEmpty_iff.mp hempty)
  exact hend.whole (List.prefix_nil.mp (hnone ▸ hend.grows)) hnone

/-- An object with a member, and with a function that gives back its first argument. -/
def sampleStore : Store :=
  ⟨#[.scope [("xs", .list [.int 1, .str "a"])]
    [("first", { arity := none, body := fun _ args => .ok (args.headD .null) })]]⟩

theorem sampleStore_lacks {kind : Value → Bool} (hkind : Value.IsSpecial kind) :
    sampleStore.Lacks kind := by
  refine Store.lacks_of_forall_mem ?_
  intro object hobject
  obtain rfl : object = _ := Array.mem_singleton.mp hobject
  refine StoredObject.lacks_scope ?_ ?_
  · intro entry hentry
    rw [List.mem_singleton.mp hentry]
    refine hkind.lacks_list ?_
    intro item hitem
    rcases List.mem_cons.mp hitem with rfl | hitem
    · exact hkind.lacks_plain rfl
    · rw [List.mem_singleton.mp hitem]
      exact hkind.lacks_plain rfl
  · intro entry hentry
    rw [List.mem_singleton.mp hentry]
    rintro _ args value ⟨⟩ hargs
    cases args with
    | nil => exact hkind.lacks_plain rfl
    | cons arg args => exact hargs arg List.mem_cons_self

/-- A call, and a group that is no call because it stands behind a member. -/
theorem evaluate_lacks_call :
    ((Language.input "first (xs), xs (1)").evaluate Store.host ⟨0⟩ .full
        sampleStore).1.result.Lacks Value.isInvocation ∧
      ((Language.input "first (xs), xs (1)").evaluate Store.host ⟨0⟩ .full
        sampleStore).1.result.Lacks Value.isUnresolved := by
  have hinvoke : ∀ (store : Store) (target : ObjectRef) (name : String) (args : List Value),
      store.Lacks Value.isInvocation ∧ store.Lacks Value.isUnresolved →
        (store.invoke target name args).2.Lacks Value.isInvocation ∧
          (store.invoke target name args).2.Lacks Value.isUnresolved :=
    fun _ target name args h => ⟨h.1.invoke target name args, h.2.invoke target name args⟩
  obtain ⟨hcalls, hvalues⟩ := (Language.input "first (xs), xs (1)").evaluate_lacks Store.host ⟨0⟩
    (fun store => store.Lacks Value.isInvocation ∧ store.Lacks Value.isUnresolved) sampleStore
    (Store.host_lacks (fun _ h => h.1) hinvoke) (Store.host_lacks (fun _ h => h.2) hinvoke)
    ⟨sampleStore_lacks Value.isSpecial_isInvocation, sampleStore_lacks Value.isSpecial_isUnresolved⟩
  exact ⟨hcalls, hvalues (by decide +kernel)⟩

end Evaluation

end ExprLang
