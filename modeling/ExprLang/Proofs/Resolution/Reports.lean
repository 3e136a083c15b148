import ExprLang.Host.Store
import ExprLang.Language
import ExprLang.Proofs.Resolution.NodeTerms
import ExprLang.Proofs.Resolution.Parallel

/-!
# Reports are never taken back

Whatever is resolved, the log of before is the beginning of the log of after. The operator
`maybe` cuts the log back to its length of before, and as everything below only adds to the
log, this takes back the reports of its operand and no others.

Main definitions:
* `Log.Extends`: a log begins with the entries of another one;
* `Resolution.Grows`, `Resolution.Silent`: an action that only adds to the log, and one that
  leaves it as it is.

Main results:
* `Resolution.grows`: what a resolution is made of only adds to the log;
* `Resolution.silent_maybe`: the operator `maybe` takes back what its operand reports;
* `LexInput.extends_resolve`: the tokens and nodes of a parsed text.
-/

namespace ExprLang

/-- The entries of a log are the first ones of another log for the same lines. -/
structure Log.Extends (before after : Log) : Prop where
  lines : after.lines = before.lines
  entries : before.entries.toList <+: after.entries.toList

namespace Log

variable {first second third : Log}

theorem extends_refl (log : Log) : log.Extends log :=
  ⟨rfl, List.prefix_refl _⟩

theorem Extends.trans (h : first.Extends second) (h' : second.Extends third) :
    first.Extends third :=
  ⟨h'.lines.trans h.lines, h.entries.trans h'.entries⟩

theorem extends_report (log : Log) (category : Category) (span : Span) (message : String) :
    log.Extends (log.report category span message) := by
  refine ⟨log.lines_report category span message, ?_⟩
  rw [toList_report]
  exact List.prefix_append _ _

/-- Cutting a log back to the length of before leaves the log of before. -/
theorem Extends.rollback (h : first.Extends second) : second.rollback first.length = first := by
  obtain ⟨hlines, reports, hentries⟩ := h
  obtain ⟨lines, entries⟩ := first
  have htake : (second.rollback entries.size).entries.toList = entries.toList := by
    rw [toList_rollback, ← hentries, ← Array.length_toList, List.take_left]
  exact congrArg₂ Log.mk hlines (Array.toList_inj.mp htake)

end Log

namespace Resolution

variable {σ α : Type}

/-- An action that only adds to the log. -/
def Grows (action : Resolve σ α) : Prop :=
  ∀ state : ResolutionState σ, state.log.Extends (action.run state).2.log

/-- An action that leaves the log as it is. -/
def Silent (action : Resolve σ α) : Prop :=
  ∀ state : ResolutionState σ, (action.run state).2.log = state.log

theorem Silent.grows {action : Resolve σ α} (h : Silent action) : Grows action := by
  intro state
  rw [h state]
  exact state.log.extends_refl

section Sequences

variable {β : Type} {action : Resolve σ α} {next : α → Resolve σ β}

theorem grows_bind (h : Grows action) (hnext : ∀ result, Grows (next result)) :
    Grows (action >>= next) :=
  fun state => (h state).trans (hnext (action.run state).1 (action.run state).2)

theorem silent_bind (h : Silent action) (hnext : ∀ result, Silent (next result)) :
    Silent (action >>= next) :=
  fun state => (hnext (action.run state).1 (action.run state).2).trans (h state)

/-- Without its reports an action leaves the log as it was. -/
theorem Grows.silent_withoutLog (h : Grows action) : Silent (withoutLog action) :=
  fun state => (h state).rollback

end Sequences

variable (resolution : Resolution σ)

section Actions

theorem silent_pure (result : α) : Silent (pure result : Resolve σ α) :=
  fun _ => rfl

theorem silent_stopsAt (kind : TermKind) (text : String) :
    Silent (resolution.stopsAt kind text) := by
  unfold stopsAt
  split
  · exact silent_pure false
  · exact fun _ => rfl

theorem silent_unlessStopped (term : Term) {action : Resolve σ Value} (h : Silent action) :
    Silent (resolution.unlessStopped term action) := by
  rw [unlessStopped_eq]
  refine silent_bind (silent_stopsAt resolution _ _) fun stopped => ?_
  split
  · exact silent_pure _
  · exact h

theorem grows_report (category : Category) (span : Span) (message : String) :
    Grows (report category span message : Resolve σ Unit) :=
  fun state => state.log.extends_report category span message

end Actions

/-- What only adds to the log is made of what only adds to the log. -/
theorem grows : Parallel Eq (fun {_} action _ => Grows action) resolution resolution where
  table := rfl
  scope := rfl
  textOf := fun h => congrArg resolution.textOf h
  merge := fun h h' => congrArg₂ Span.merge h h'
  pure := fun result => (silent_pure result).grows
  bind := fun h hnext => grows_bind h hnext
  withoutLog := fun h => h.silent_withoutLog.grows
  report := fun category span _ message _ => grows_report category span message
  stopsAt := fun kind text => (silent_stopsAt resolution kind text).grows
  member := fun _ _ _ _ _ => Silent.grows fun _ => rfl
  invoke := fun _ _ _ _ _ _ => Silent.grows fun _ => rfl

section Terms

variable (callFollows : Bool) (term : Term)

theorem grows_value : Grows (resolution.value callFollows term) :=
  resolution.grows.value callFollows (Term.moved_rfl (fun _ => rfl) term)

theorem grows_unlessStopped :
    Grows (resolution.unlessStopped term (resolution.value callFollows term)) :=
  resolution.grows.unlessStopped (b := resolution.value callFollows term)
    (Term.moved_rfl (fun _ => rfl) term) (resolution.grows_value callFollows term)

theorem grows_itemValues (expected : Bool) (items : List Term) :
    Grows (resolution.itemValues expected items) :=
  resolution.grows.itemValues expected (Term.forall₂_moved_rfl (fun _ => rfl) items)

/-- The operator `maybe` leaves the log as it was. -/
theorem silent_maybe (span : Span) (operand : Term) :
    Silent (resolution.value callFollows (.prefixed span .maybe operand)) := by
  rw [value, if_pos rfl]
  exact silent_bind (resolution.grows_unlessStopped false operand).silent_withoutLog
    fun inner => silent_pure _

end Terms

end Resolution

section Parsed

variable {σ : Type} (input : LexInput) (host : Host σ) (scope : ObjectRef)
  (mode : ResolutionMode σ)

/--
Resolving a token, a node or the items of a node of a parsed text only adds to the log, and
resolving a node of `maybe` leaves the log as it was.
-/
theorem LexInput.extends_resolve (callFollows : Bool) (state : ResolutionState σ) :
    let forest := input.parse.forest
    let resolution := input.resolution host scope mode
    (∀ owner, ∀ token ∈ forest.tokenList owner, ∀ term, forest.tokenTerm? owner token = some term →
      state.log.Extends
        ((resolution.unlessStopped term (resolution.value callFollows term)).run state).2.log) ∧
    (∀ id, state.log.Extends
      ((resolution.value callFollows (forest.nodeTerm id)).run state).2.log) ∧
    (∀ id expected, state.log.Extends
      ((resolution.itemValues expected
        (Term.itemsOf (forest.header id).contextClass (forest.itemTerms id))).run state).2.log) ∧
    ∀ id, (forest.header id).operator = some .maybe →
      ((resolution.value callFollows (forest.nodeTerm id)).run state).2.log = state.log ∧
      ((resolution.unlessStopped (forest.nodeTerm id)
        (resolution.value callFollows (forest.nodeTerm id))).run state).2.log = state.log := by
  intro forest resolution
  refine ⟨fun _ _ _ term _ => resolution.grows_unlessStopped callFollows term state,
    fun id => resolution.grows_value callFollows (forest.nodeTerm id) state,
    fun id expected => resolution.grows_itemValues expected _ state, ?_⟩
  intro id hid
  obtain ⟨operand, hterm⟩ := nodeTerm_of_prefixed hid rfl
  have hsilent : Resolution.Silent (resolution.value callFollows (forest.nodeTerm id)) := by
    rw [hterm]
    exact resolution.silent_maybe callFollows _ operand
  exact ⟨hsilent state, resolution.silent_unlessStopped _ hsilent state⟩

/-- An operand with a separator where an item has to be: a report that is taken back. -/
theorem extends_resolve_separator :
    ((Language.input "maybe (, 1)").parse.forest.header ⟨2⟩).operator = some .maybe ∧
      ((((Language.input "maybe (, 1)").resolution Store.host ⟨0⟩ .full).value false
        ((Language.input "maybe (, 1)").parse.forest.nodeTerm ⟨2⟩)).run
          ⟨⟨#[]⟩, (Language.input "maybe (, 1)").parse.log⟩).2.log =
        (Language.input "maybe (, 1)").parse.log := by
  have hmaybe : ((Language.input "maybe (, 1)").parse.forest.header ⟨2⟩).operator =
      some .maybe := by
    decide +kernel
  obtain ⟨-, -, -, hlog⟩ := (Language.input "maybe (, 1)").extends_resolve Store.host ⟨0⟩ .full
    false ⟨⟨#[]⟩, (Language.input "maybe (, 1)").parse.log⟩
  exact ⟨hmaybe, (hlog ⟨2⟩ hmaybe).1⟩

end Parsed

end ExprLang
