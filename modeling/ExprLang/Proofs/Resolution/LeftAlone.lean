import ExprLang.Proofs.Resolution.Equations
import ExprLang.Proofs.Resolution.Traces

/-!
# What is left alone shows

Where a resolution leaves unknown names alone, its result shows them, as far as the terms and
the calls that are made allow it.

Main definitions:
* `Reveals`: an action in whose result shows what it leaves alone;
* `Watched`: a resolution that leaves names alone if they are unknown.

Main results:
* `reveals_value`, `reveals_pieces`, `reveals_itemValues`, `reveals_only`: resolving terms, by
  induction on them.
-/

namespace ExprLang
namespace Resolution

variable {σ α β : Type}

/-- What is watched of the states of a host. -/
structure Watch (σ : Type) where
  /-- Holds of all states. -/
  inv : σ → Prop
  /-- Nothing was lost so far. -/
  fine : σ → Prop
  /-- Something was left alone so far. -/
  alone : σ → Prop

variable {watch : Watch σ} {before : Prop}

/--
How an action ends that was started in a state. `before` says that something was left alone
before which shows in what the action depends on.
-/
structure Revealed (watch : Watch σ) (before : Prop) (state : ResolutionState σ)
    (ended : α × ResolutionState σ) (Kept Seen : α → Prop) : Prop where
  inv : watch.inv ended.2.host
  kept : Kept ended.1
  fine : watch.fine ended.2.host → watch.fine state.host
  passed : watch.fine ended.2.host → before → Seen ended.1
  alone : watch.fine ended.2.host → watch.alone ended.2.host →
    watch.alone state.host ∨ Seen ended.1

/-- An action in whose result shows what it leaves alone, and what was left alone before. -/
def Reveals (watch : Watch σ) (before : Prop) (action : Resolve σ α) (Kept Seen : α → Prop) :
    Prop :=
  ∀ state, watch.inv state.host →
    Revealed watch before state (action.run state) Kept Seen

/-- An action in whose result shows what it leaves alone. -/
abbrev Revealing (watch : Watch σ) (action : Resolve σ α) (Seen : α → Prop) : Prop :=
  Reveals watch False action (fun _ => True) Seen

namespace Reveals

variable {Kept Seen : α → Prop} {Kept' Seen' : β → Prop} {action : Resolve σ α}

theorem pure {a : α} (hkept : Kept a) (hseen : before → Seen a) :
    Reveals watch before (Pure.pure a : Resolve σ α) Kept Seen :=
  fun _ hinv => ⟨hinv, hkept, id, fun _ => hseen, fun _ => Or.inl⟩

theorem bind {next : α → Resolve σ β} (h : Reveals watch before action Kept Seen)
    (hnext : ∀ a, Kept a → Reveals watch (Seen a) (next a) Kept' Seen') :
    Reveals watch before (action >>= next) Kept' Seen' := by
  intro state hinv
  -- What shows in the first result is what the second action has to pass on.
  have hfirst := h state hinv
  have hsecond := hnext _ hfirst.kept _ hfirst.inv
  refine ⟨hsecond.inv, hsecond.kept, fun hfine => hfirst.fine (hsecond.fine hfine), ?_, ?_⟩
  · intro hfine hbefore
    exact hsecond.passed hfine (hfirst.passed (hsecond.fine hfine) hbefore)
  · intro hfine halone
    rcases hsecond.alone hfine halone with hmiddle | hseen
    · rcases hfirst.alone (hsecond.fine hfine) hmiddle with hstart | hseen
      · exact Or.inl hstart
      · exact Or.inr (hsecond.passed hfine hseen)
    · exact Or.inr hseen

theorem weaken {Seen' : α → Prop} (h : Reveals watch before action Kept Seen)
    (hseen : ∀ a, Seen a → Seen' a) : Reveals watch before action Kept Seen' := by
  intro state hinv
  have hend := h state hinv
  refine ⟨hend.inv, hend.kept, hend.fine, ?_, ?_⟩
  · intro hfine hbefore
    exact hseen _ (hend.passed hfine hbefore)
  · intro hfine halone
    exact (hend.alone hfine halone).imp_right (hseen _)

theorem ofBefore {before' : Prop} (h : Reveals watch before action Kept Seen)
    (hbefore : before' → before) : Reveals watch before' action Kept Seen := by
  intro state hinv
  have hend := h state hinv
  exact ⟨hend.inv, hend.kept, hend.fine, fun hfine hold => hend.passed hfine (hbefore hold),
    hend.alone⟩

/-- Nothing that matters was left alone before. -/
theorem first (h : Reveals watch False action Kept Seen) (hbefore : ¬ before) :
    Reveals watch before action Kept Seen :=
  h.ofBefore hbefore

/-- What was left alone before shows somewhere else. -/
theorem carry (h : Reveals watch False action Kept Seen) :
    Reveals watch before action Kept fun a => before ∨ Seen a := by
  intro state hinv
  have hend := h state hinv
  exact ⟨hend.inv, hend.kept, hend.fine, fun _ => Or.inl,
    fun hfine halone => (hend.alone hfine halone).imp_right Or.inr⟩

/-- What an action makes of its result. -/
theorem map {f : α → β} (h : Reveals watch before action Kept Seen)
    (hseen : ∀ a, Seen a → Seen' (f a)) :
    Reveals watch before (do return f (← action)) (fun _ => True) Seen' :=
  h.bind fun a _ => .pure trivial (hseen a)

theorem withoutLog (h : Reveals watch before action Kept Seen) :
    Reveals watch before (Resolution.withoutLog action) Kept Seen := by
  intro state hinv
  have hend := h state hinv
  exact ⟨hend.inv, hend.kept, hend.fine, hend.passed, hend.alone⟩

theorem report (category : Category) (span : Span) (message : String) :
    Reveals watch before (Resolution.report category span message) (fun _ => True)
      fun _ => before :=
  fun _ hinv => ⟨hinv, trivial, id, fun _ h => h, fun _ => Or.inl⟩

end Reveals

/--
A resolution that leaves names alone if they are unknown. A call with an argument in which
something shows is a loss, and so is a name that is not in `left`.
-/
structure Watched (resolution : Resolution σ) (watch : Watch σ) (unknown : String → Prop)
    (left : List String) : Prop where
  stopsAt : ∀ kind text, Reveals watch False (resolution.stopsAt kind text)
    (fun stopped => stopped = true ↔ kind = .name ∧ unknown text)
    fun stopped => stopped = true ∧ text ∈ left
  member : ∀ target name site, Reveals watch False (resolution.member? target name site)
    (fun found => target = resolution.scope → name ≠ nullName → ¬ unknown name → found ≠ none)
    fun _ => False
  invoke : ∀ target name args site,
    Reveals watch (Trace.within.SeenAmong args) (resolution.invoke target name args site)
      (fun _ => True) fun _ => False

section Actions

variable {resolution : Resolution σ} {trace : Trace}

theorem reveals_unresolved (hbefore : before → trace ≠ .none) (text : String) :
    Reveals watch before (Pure.pure (.unresolved text) : Resolve σ Value) (fun _ => True)
      trace.Seen :=
  .pure trivial fun h => Trace.seen_unresolved (hbefore h) text

theorem reveals_fail (hbefore : before → trace ≠ .none) (span : Span) (error : ResolveError) :
    Reveals watch before (resolution.fail span error) (fun _ => True) trace.Seen :=
  (Reveals.report .resolution span error.message).bind fun _ _ => reveals_unresolved hbefore _

/-- The result of an operator whose operands are all that may show something. -/
theorem reveals_binaryValue (span : Span) (op : Operator) (a b : Value) :
    Reveals watch (trace.operand.Seen a ∨ trace.operand.Seen b)
      (resolution.binaryValue span op a b) (fun _ => True) trace.Seen := by
  unfold binaryValue
  split
  · refine reveals_unresolved ?_ _
    rintro (hseen | hseen)
    · exact hseen.of_operand.1
    · exact hseen.of_operand.1
  · rename_i hresolved
    have hbefore : ¬ (trace.operand.Seen a ∨ trace.operand.Seen b) := by
      rintro (hseen | hseen)
      · exact hresolved (Bool.or_eq_true_iff.mpr (Or.inl hseen.of_operand.2))
      · exact hresolved (Bool.or_eq_true_iff.mpr (Or.inr hseen.of_operand.2))
    unfold orFail
    split
    · exact .pure trivial fun h => absurd h hbefore
    · exact reveals_fail (fun h => absurd h hbefore) span _

/-- The case that a condition chooses, if the condition itself is all that may show something. -/
theorem reveals_chosen {test : Value} (text : String) {yes no : Resolve σ Value}
    (hyes : Revealing watch yes trace.Seen) (hno : Revealing watch no trace.Seen) :
    Reveals watch (trace.operand.Seen test)
      (if test.isUnresolved then return .unresolved text
        else if test.conditionHolds then yes else no)
      (fun _ => True) trace.Seen := by
  split
  · exact reveals_unresolved (fun h => h.of_operand.1) text
  · rename_i hresolved
    split
    · exact hyes.first fun h => hresolved h.of_operand.2
    · exact hno.first fun h => hresolved h.of_operand.2

section Questions

variable {unknown : String → Prop} {left : List String}
  (h : resolution.Watched watch unknown left)

include h

/-- The links of a chain, by induction on them. -/
theorem reveals_followLinks (span : Span) (callFollows : Bool) (links : List Link)
    (current : Value) :
    Reveals watch (trace.Seen current) (resolution.followLinks span callFollows links current)
      (fun _ => True) trace.Seen := by
  induction links generalizing current with
  | nil => exact .pure trivial id
  | cons link links ih =>
      have hfail : ∀ error, Reveals watch (trace.Seen current) (resolution.fail span error)
          (fun _ => True) trace.Seen := reveals_fail Trace.Seen.ne_none span
      unfold followLinks
      split
      · exact reveals_unresolved Trace.Seen.ne_none _
      · split
        · rename_i hnull
          refine .pure trivial fun hseen => ?_
          cases current with
          | null => exact hseen
          | _ => exact absurd hnull.2 Bool.false_ne_true
        · simp only
          split
          · exact hfail _
          · split
            · rename_i ref _ _
              have hbefore : ¬ trace.Seen (.object ref) :=
                Trace.not_seen_of_lacks (Value.lacks_of_forall_ne_list (fun _ h => nomatch h) rfl)
              refine ((h.member ref _ _).first hbefore).bind fun found _ => ?_
              cases found with
              | some value => exact (ih value).ofBefore False.elim
              | none =>
                  simp only
                  split
                  · exact .pure trivial False.elim
                  · exact reveals_fail False.elim span _
            · exact hfail _

/-- A term that is no name is never left alone. -/
theorem revealing_unlessStopped {term : Term} {action : Resolve σ Value}
    (hterm : term.isName = false) (haction : Revealing watch action trace.Seen) :
    Revealing watch (resolution.unlessStopped term action) trace.Seen := by
  rw [unlessStopped_eq]
  refine (h.stopsAt _ _).bind fun stopped hstopped => ?_
  cases stopped with
  | true => exact absurd (hstopped.mp rfl).1 (Term.kind_ne_name hterm)
  | false => exact haction.first fun hseen => nomatch hseen.1

/-- The value of a name that is not left alone; nothing shows in it. -/
theorem revealing_nameValue (span : Span) :
    Revealing watch (resolution.nameValue span) trace.Seen := by
  unfold nameValue
  simp only
  split
  · exact .pure trivial False.elim
  · exact (h.member _ _ _).map fun _ => False.elim

omit h in
theorem ne_none_of_shows_name {span : Span}
    (hshows : resolution.shows left trace (.name span) = true)
    (hleft : resolution.textOf span ∈ left) : trace ≠ .none := by
  rintro rfl
  simp only [shows, bne_self_eq_false, Bool.false_or, Bool.not_eq_true'] at hshows
  exact Bool.eq_false_iff.mp hshows (List.contains_iff_mem.mpr hleft)

/-- A name that is left alone shows, or is none of those that have to. -/
theorem revealing_name {span : Span} {callFollows : Bool}
    (hshows : resolution.shows left trace (.name span) = true) :
    Revealing watch
      (resolution.unlessStopped (.name span) (resolution.value callFollows (.name span)))
      trace.Seen := by
  rw [unlessStopped_eq, value]
  refine (h.stopsAt _ _).bind fun stopped _ => ?_
  cases stopped with
  | true => exact reveals_unresolved (fun hseen => ne_none_of_shows_name hshows hseen.2) _
  | false => exact (revealing_nameValue h span).first fun hseen => nomatch hseen.1

/-- An unknown name is left alone whenever the question is asked. -/
theorem reveals_stopped {span : Span} {action : Resolve σ Value}
    (hunknown : unknown (resolution.textOf span)) :
    Reveals watch (resolution.textOf span ∈ left) (resolution.unlessStopped (.name span) action)
      (fun value => value = .unresolved (resolution.textOf span))
      fun _ => resolution.textOf span ∈ left := by
  rw [unlessStopped_eq]
  refine (h.stopsAt _ _).carry.bind fun stopped hstopped => ?_
  cases stopped with
  | true => exact .pure rfl fun hseen => hseen.elim id And.right
  | false => exact absurd (hstopped.mpr ⟨rfl, hunknown⟩) Bool.false_ne_true

/-- The look-up of a name; an unknown one is left alone, so that what it gives is a value. -/
theorem reveals_lookUp {name : String} (hname : name ≠ nullName) (site : Span) :
    Reveals watch False (resolution.lookUp name site)
      (fun found => found ≠ some none ∧ (found = none → unknown name))
      fun found => found = none ∧ name ∈ left := by
  refine (h.stopsAt .name name).bind fun stopped hstopped => ?_
  cases stopped with
  | true =>
      exact .pure ⟨nofun, fun _ => (hstopped.mp rfl).2⟩ fun hseen => ⟨rfl, hseen.2⟩
  | false =>
      have hknown : ¬ unknown name := fun h => Bool.false_ne_true (hstopped.mpr ⟨rfl, h⟩)
      refine ((h.member _ name site).first fun hseen => nomatch hseen.1).bind fun found hfound => ?_
      refine .pure ⟨fun hnone => hfound rfl hname hknown (Option.some.inj hnone), ?_⟩ False.elim
      rintro ⟨⟩

theorem reveals_callMember (target : ObjectRef) (name : String) (args : List Value)
    (span site : Span) :
    Reveals watch (trace.SeenAmong args) (resolution.callMember target name args span site)
      (fun _ => True) fun _ => False := by
  refine ((h.invoke target name args site).ofBefore Trace.SeenAmong.occurs).bind
    fun result _ => ?_
  cases result with
  | ok value => exact .pure trivial False.elim
  | error error =>
      have hfail : Revealing watch (resolution.fail (span.merge site) (.invocation error))
          Trace.none.Seen := reveals_fail False.elim _ _
      exact hfail

/-- A term in front of a group: where it is called, nothing shows in the arguments. -/
theorem revealing_takeTerm (term : Term) (site : Span) {action : Resolve σ Value}
    {arguments : Resolve σ (List Value)}
    (haction : Revealing watch (resolution.unlessStopped term action) trace.Seen)
    (harguments : Revealing watch arguments trace.SeenAmong) :
    Revealing watch (resolution.takeTerm term site action arguments)
      fun taken => trace.SeenAmong taken.1 := by
  refine haction.bind fun value _ => ?_
  split
  · rename_i target name
    have hvalue : ¬ trace.Seen (.invocation target name) :=
      Trace.not_seen_of_lacks (Value.lacks_of_forall_ne_list (fun _ h => nomatch h) rfl)
    refine (harguments.first hvalue).bind fun args _ => ?_
    exact (reveals_callMember h target name args _ site).map fun _ => False.elim
  · exact .pure trivial fun hseen => ⟨value, List.mem_cons_self, hseen⟩

theorem revealing_takeName {span : Span} {callFollows : Bool} (rules : RuleSetId) (site : Span)
    {arguments : Resolve σ (List Value)}
    (hshows : resolution.shows left trace (.name span) = true)
    (harguments : Revealing watch arguments trace.SeenAmong) :
    Revealing watch (resolution.takeName (.name span) rules site
      (resolution.value callFollows (.name span)) arguments)
      fun taken => trace.SeenAmong taken.1 := by
  by_cases hname : resolution.textOf span = nullName
  · unfold takeName
    simp only [Term.span, hname, if_true]
    exact revealing_takeTerm h _ site (revealing_name h hshows) harguments
  · rw [takeName_eq hname]
    refine (reveals_lookUp h hname _).bind fun found hfound => ?_
    cases found with
    | none =>
        refine ((reveals_stopped h (hfound.2 rfl)).ofBefore And.right).bind fun value hvalue => ?_
        rw [hvalue]
        refine .pure trivial fun hleft => ?_
        exact ⟨_, List.mem_cons_self,
          Trace.seen_unresolved (ne_none_of_shows_name hshows hleft) _⟩
    | some found =>
        cases found with
        | none => exact absurd rfl hfound.1
        | some value => exact .pure trivial fun hseen => absurd hseen.1 (Option.some_ne_none _)

end Questions

end Actions

section Terms

variable {resolution : Resolution σ} {unknown : String → Prop} {left : List String} {trace : Trace}

theorem revealing_reportSeparator (expected : Bool) (span : Span) (separator : String) :
    Revealing watch (reportSeparator expected span separator : Resolve σ Unit) fun _ => False := by
  unfold reportSeparator
  split
  · exact .report _ _ _
  · exact .pure trivial False.elim

/-- A term with the question before it, which names are asked only. -/
theorem revealing_guarded (h : resolution.Watched watch unknown left) (callFollows : Bool)
    {term : Term} (hshows : resolution.shows left trace term = true)
    (hterm : term.isName = false → Revealing watch (resolution.value callFollows term) trace.Seen) :
    Revealing watch (resolution.unlessStopped term (resolution.value callFollows term))
      trace.Seen := by
  cases term with
  | name span => exact revealing_name h hshows
  | _ => exact revealing_unlessStopped h rfl (hterm rfl)

/-- Values in a row: the first one, and the others after it. -/
theorem revealing_cons {first : Resolve σ Value} {others : Resolve σ (List Value)}
    (hfirst : Revealing watch first trace.Seen)
    (hothers : Revealing watch others trace.SeenAmong) :
    Revealing watch (do let value ← first; return value :: (← others)) trace.SeenAmong := by
  refine hfirst.bind fun value _ => hothers.carry.map fun values hseen => ?_
  exact Trace.seenAmong_cons.mpr hseen

theorem reveals_append {values : List Value} {others : Resolve σ (List Value)}
    (hothers : Revealing watch others trace.SeenAmong) :
    Reveals watch (trace.SeenAmong values) (do return values ++ (← others)) (fun _ => True)
      trace.SeenAmong :=
  hothers.carry.map fun _ hseen => Trace.seenAmong_append.mpr hseen

/-- The items of a group that is no comment, or that may be the arguments of a call. -/
theorem revealing_innerValues {span : Span} {rules : RuleSetId} {contextClass : ContextClass}
    {items : List Term} (htrace : trace ≠ .whole)
    (hcomment : contextClass.has .comment = true → resolution.isParens rules = true)
    (hshows : resolution.shows left trace (.group span rules contextClass items) = true)
    (hpieces : resolution.piecesShow left items = true →
      Revealing watch (resolution.pieces items) fun _ => False)
    (hitems : ∀ trace, trace ≠ .whole → resolution.allShow left trace items = true →
      Revealing watch (resolution.itemValues true items) trace.SeenAmong) :
    Revealing watch (resolution.innerValues contextClass items)
      fun values => resolution.keepsItems rules = true ∧ trace.SeenAmong values := by
  have hvalued : (contextClass.has .comment && !resolution.isParens rules) = false := by
    cases hclass : contextClass.has .comment with
    | false => rfl
    | true => rw [hcomment hclass]; rfl
  rw [shows] at hshows
  simp only [hvalued, htrace, Bool.false_eq_true, if_false] at hshows
  unfold innerValues
  split
  · rename_i htext
    rw [if_pos htext] at hshows
    exact (hpieces hshows).weaken fun _ => False.elim
  · rename_i htext
    rw [if_neg htext] at hshows
    split at hshows
    · rename_i hkeeps
      exact (hitems trace htrace hshows).weaken fun _ hseen => ⟨hkeeps, hseen⟩
    · refine (hitems .none nofun hshows).weaken ?_
      rintro _ ⟨_, -, hseen⟩
      exact hseen.elim

/-- The items of a group as an operand: where they show, there is one only. -/
theorem revealing_wholeValues {span : Span} {rules : RuleSetId} {contextClass : ContextClass}
    {items : List Term} (hcomment : ¬ contextClass.has .comment = true)
    (hshows : resolution.shows left .whole (.group span rules contextClass items) = true)
    (hpieces : resolution.piecesShow left items = true →
      Revealing watch (resolution.pieces items) fun _ => False)
    (hitems : resolution.allShow left .none items = true →
      Revealing watch (resolution.itemValues true items) Trace.none.SeenAmong)
    (honly : resolution.onlyShows left items = true →
      Revealing watch (resolution.itemValues true items)
        fun values => ∃ value, values = [value] ∧ Trace.whole.Seen value) :
    Revealing watch (resolution.innerValues contextClass items)
      fun values => resolution.isSingle rules = true ∧
        ∃ value, values = [value] ∧ Trace.whole.Seen value := by
  rw [shows] at hshows
  simp only [hcomment, Bool.false_and, Bool.false_eq_true, if_false, if_true] at hshows
  unfold innerValues
  split
  · rename_i htext
    rw [if_pos htext] at hshows
    exact (hpieces hshows).weaken fun _ => False.elim
  · rename_i htext
    rw [if_neg htext] at hshows
    rcases Bool.or_eq_true_iff.mp hshows with hone | hnone
    · obtain ⟨hsingle, hshows⟩ := Bool.and_eq_true_iff.mp hone
      exact (honly hshows).weaken fun _ hseen => ⟨hsingle, hseen⟩
    · refine (hitems hnone).weaken ?_
      rintro _ ⟨_, -, hseen⟩
      exact hseen.elim

/-- A term in a list and the others, unless the first two of them are a call. -/
theorem revealing_item {term : Term} {rest : List Term} (expected : Bool)
    (hseparator : resolution.separator? term = none)
    (hcall : ∀ site rules contextClass items behind,
      rest = .group site rules contextClass items :: behind → resolution.isParens rules = false)
    (hterm : Revealing watch (resolution.unlessStopped term (resolution.value false term))
      trace.Seen)
    (hrest : Revealing watch (resolution.itemValues false rest) trace.SeenAmong) :
    Revealing watch (resolution.itemValues expected (term :: rest)) trace.SeenAmong := by
  rw [itemValues_term hseparator hcall]
  exact revealing_cons hterm hrest

/-- A term with a group in parentheses behind it. -/
theorem revealing_takeFirst (h : resolution.Watched watch unknown left) {term : Term} (site : Span)
    (rules : RuleSetId) {contextClass : ContextClass} {items : List Term}
    (hshows : resolution.shows left trace term = true)
    (hterm : term.isName = false → Revealing watch (resolution.value true term) trace.Seen)
    (hinner : Revealing watch (resolution.innerValues contextClass items) trace.SeenAmong) :
    Revealing watch (resolution.takeFirst term site rules contextClass items)
      fun taken => trace.SeenAmong taken.1 := by
  cases term with
  | name span => exact revealing_takeName h rules site hshows hinner
  | _ => exact revealing_takeTerm h _ site (revealing_guarded h true hshows hterm) hinner

mutual

theorem reveals_value (h : resolution.Watched watch unknown left) (callFollows : Bool) :
    ∀ (trace : Trace) (term : Term), resolution.shows left trace term = true →
      term.isName = false → Revealing watch (resolution.value callFollows term) trace.Seen
  | _, .name _, _, hname => nomatch hname
  | _, .literal _ _, _, _ => by
      rw [value]
      exact .pure trivial False.elim
  | _, .delimiter _ _, _, _ => by
      rw [value]
      exact .pure trivial False.elim
  | trace, .group span rules contextClass items, hshows, _ => by
      rw [value_group]
      split
      · exact .pure trivial False.elim
      · rename_i hcomment
        -- In an operand the group itself has to be what shows, elsewhere one of its items.
        by_cases htrace : trace = .whole
        · subst htrace
          refine (revealing_wholeValues hcomment hshows (reveals_pieces h items)
            (reveals_itemValues h .none nofun true items)
            (reveals_only h items)).map ?_
          rintro _ ⟨hsingle, value, rfl, hseen⟩
          exact seen_simplify_single hsingle hseen
        · refine (revealing_innerValues htrace (fun hclass => absurd hclass hcomment) hshows
            (reveals_pieces h items)
            (fun trace htrace => reveals_itemValues h trace htrace true items)).map ?_
          intro values hseen
          exact seen_simplify htrace hseen.1 hseen.2
  | trace, .chain span _ first links, hshows, _ => by
      rw [shows] at hshows
      rw [value]
      refine (revealing_guarded h false hshows (reveals_value h false trace first hshows)).bind
        fun start _ => ?_
      exact reveals_followLinks h span callFollows links start
  | trace, .binary span op left right, hshows, _ => by
      rw [shows] at hshows
      obtain ⟨hleft, hright⟩ := Bool.and_eq_true_iff.mp hshows
      rw [value]
      refine (revealing_guarded h false hleft (reveals_value h false _ left hleft)).bind
        fun a _ => ?_
      refine ((revealing_guarded h false hright
        (reveals_value h false _ right hright)).carry).bind fun b _ => ?_
      exact reveals_binaryValue span op a b
  | trace, .prefixed _ op operand, hshows, _ => by
      rw [shows] at hshows
      have hoperand := revealing_guarded h false hshows (reveals_value h false _ operand hshows)
      rw [value]
      by_cases hop : op = .maybe
      · rw [if_pos hop]
        rw [if_pos hop] at hoperand
        exact hoperand.withoutLog.map fun _ => False.elim
      · rw [if_neg hop]
        rw [if_neg hop] at hoperand
        exact hoperand.map fun _ => seen_negate
  | trace, .ifThen span condition trueCase, hshows, _ => by
      rw [shows] at hshows
      obtain ⟨hcondition, htrue⟩ := Bool.and_eq_true_iff.mp hshows
      rw [value]
      refine (revealing_guarded h false hcondition
        (reveals_value h false _ condition hcondition)).bind fun test _ => ?_
      exact reveals_chosen _
        (revealing_guarded h false htrue (reveals_value h false trace trueCase htrue))
        (.pure trivial False.elim)
  | trace, .ifThenElse span condition trueCase falseCase, hshows, _ => by
      rw [shows] at hshows
      obtain ⟨hparts, hfalse⟩ := Bool.and_eq_true_iff.mp hshows
      obtain ⟨hcondition, htrue⟩ := Bool.and_eq_true_iff.mp hparts
      rw [value]
      refine (revealing_guarded h false hcondition
        (reveals_value h false _ condition hcondition)).bind fun test _ => ?_
      exact reveals_chosen _
        (revealing_guarded h false htrue (reveals_value h false trace trueCase htrue))
        (revealing_guarded h false hfalse (reveals_value h false trace falseCase hfalse))

/-- In a text literal nothing shows, and nothing is left alone. -/
theorem reveals_pieces (h : resolution.Watched watch unknown left) : ∀ terms : List Term,
    resolution.piecesShow left terms = true →
      Revealing watch (resolution.pieces terms) fun _ => False
  | [], _ => by
      rw [pieces]
      exact .pure trivial False.elim
  | term :: rest, hshows => by
      rw [piecesShow] at hshows
      obtain ⟨hterm, hrest⟩ := Bool.and_eq_true_iff.mp hshows
      have hpiece : Revealing watch (resolution.piece term) Trace.none.Seen := by
        cases term with
        | name span => exact .pure trivial False.elim
        | delimiter span id => exact .pure trivial False.elim
        | _ => exact reveals_value h false .none _ hterm rfl
      rw [pieces_cons]
      refine hpiece.bind fun _ _ => ?_
      exact (reveals_pieces h rest hrest).map fun _ => False.elim

theorem reveals_itemValues (h : resolution.Watched watch unknown left) (trace : Trace)
    (htrace : trace ≠ .whole) (expected : Bool) : ∀ terms : List Term,
      resolution.allShow left trace terms = true →
        Revealing watch (resolution.itemValues expected terms) trace.SeenAmong
  | [], _ => by
      rw [itemValues_nil]
      exact .pure trivial False.elim
  | term :: rest, hshows => by
      rw [allShow] at hshows
      obtain ⟨hterm, hrest⟩ := Bool.and_eq_true_iff.mp hshows
      have hothers := reveals_itemValues h trace htrace false rest hrest
      cases hseparator : resolution.separator? term with
      | some separator =>
          rw [itemValues_separator hseparator]
          refine (revealing_reportSeparator expected term.span separator).bind fun _ _ => ?_
          exact reveals_itemValues h trace htrace true rest hrest
      | none =>
          have hplain := fun hcall => revealing_item expected hseparator hcall
            (revealing_guarded h false hterm (reveals_value h false trace term hterm)) hothers
          cases rest with
          | nil => exact hplain (fun _ _ _ _ _ h => nomatch h)
          | cons next behind =>
              cases next with
              | group site rules contextClass items =>
                  -- The group may be used up as the arguments of a call.
                  by_cases hparens : resolution.isParens rules = true
                  · rw [allShow] at hrest
                    obtain ⟨hgroup, hbehind⟩ := Bool.and_eq_true_iff.mp hrest
                    have hinner : Revealing watch (resolution.innerValues contextClass items)
                        trace.SeenAmong :=
                      (revealing_innerValues htrace (fun _ => hparens) hgroup
                        (reveals_pieces h items)
                        fun trace htrace => reveals_itemValues h trace htrace true items).weaken
                        fun _ => And.right
                    rw [itemValues_call hseparator hparens]
                    refine (revealing_takeFirst h site rules hterm
                      (reveals_value h true trace term hterm) hinner).bind fun taken _ => ?_
                    split
                    · exact reveals_append (reveals_itemValues h trace htrace false behind hbehind)
                    · exact reveals_append hothers
                  · refine hplain ?_
                    rintro _ _ _ _ _ ⟨⟩
                    exact Bool.not_eq_true _ ▸ hparens
              | _ => exact hplain (fun _ _ _ _ _ h => nomatch h)

/-- The only item of a context, which may be missing or a separator. -/
theorem reveals_only (h : resolution.Watched watch unknown left) : ∀ terms : List Term,
    resolution.onlyShows left terms = true →
      Revealing watch (resolution.itemValues true terms)
        fun values => ∃ value, values = [value] ∧ Trace.whole.Seen value
  | [], hshows => by simp [onlyShows] at hshows
  | _ :: _ :: _, hshows => by simp [onlyShows] at hshows
  | [term], hshows => by
      rw [onlyShows] at hshows
      cases hseparator : resolution.separator? term with
      | some separator =>
          rw [itemValues_separator hseparator, itemValues_nil]
          refine (revealing_reportSeparator true term.span separator).bind fun _ _ => ?_
          exact .pure trivial False.elim
      | none =>
          have hcall : ∀ site rules contextClass items behind,
              ([] : List Term) = .group site rules contextClass items :: behind →
                resolution.isParens rules = false := fun _ _ _ _ _ h => nomatch h
          rw [itemValues_term hseparator hcall, itemValues_nil]
          exact (revealing_guarded h false hshows (reveals_value h false .whole term hshows)).map
            fun value hseen => ⟨value, rfl, hseen⟩

end

end Terms

end Resolution
end ExprLang
