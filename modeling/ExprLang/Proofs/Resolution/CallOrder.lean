import ExprLang.Host.Store
import ExprLang.Language
import ExprLang.Proofs.Resolution.Parallel
import ExprLang.Proofs.Resolution.Sites

/-!
# The order in which a host is asked

In full mode a term has the host asked for some of its sites, each at most once and in their
order. In a parsed text this means from left to right: members are looked up in the order of
their names, and a function is called after everything in its arguments is resolved and before
anything behind them is.

Main definitions:
* `HostCall`, `Host.traced`: what a host was asked, and for which site;
* `Asks`: an action that asks for some of these sites, in their order;
* `LeftToRight`: calls from left to right.

Main results:
* `asks_value`, `asks_pieces`, `asks_itemValues`: resolving terms, by induction on them;
* `LexInput.leftToRight_evaluate`: the calls of an evaluation;
* `host_value_binary`: both operands of an operator are resolved.
-/

namespace ExprLang

/-- What a host was asked, and for which part of the text. -/
inductive HostCall where
  | member (target : ObjectRef) (name : String) (site : Span)
  | invoke (target : ObjectRef) (name : String) (args : List Value) (site : Span)

namespace HostCall

/-- The site that a call is made for. -/
def site : HostCall → Site
  | member _ _ site => .name site
  | invoke _ _ _ site => .arguments site

/-- The offset of the name that is looked up. -/
def lookUp? : HostCall → Option Nat
  | member _ _ site => some site.start
  | invoke .. => none

/-- The arguments that a function is called with, where they are written. -/
def arguments? : HostCall → Option Span
  | member .. => none
  | invoke _ _ _ site => some site

end HostCall

/-- A state with the calls that led to it. -/
structure Traced (σ : Type) where
  state : σ
  calls : List HostCall := []

/-- A host that writes down its calls, with their sites. -/
def Host.traced {σ : Type} (host : Host σ) : Host (Traced σ) where
  member target name site traced :=
    let (found, state) := host.member target name site traced.state
    (found, ⟨state, traced.calls ++ [.member target name site]⟩)
  assign target name value traced :=
    let (set, state) := host.assign target name value traced.state
    (set, { traced with state := state })
  invoke target name args site traced :=
    let (result, state) := host.invoke target name args site traced.state
    (result, ⟨state, traced.calls ++ [.invoke target name args site]⟩)

namespace Resolution

variable {σ α β : Type}

section Tracing

/-- The first action does what the second one does, in a state that may hold more. -/
def Does {τ : Type} (forget : τ → σ) (first : Resolve τ α) (second : Resolve σ α) : Prop :=
  ∀ state : ResolutionState τ,
    second.run ⟨forget state.host, state.log⟩ =
      ((first.run state).1, ⟨forget (first.run state).2.host, (first.run state).2.log⟩)

theorem does_bind {τ : Type} {forget : τ → σ} {first : Resolve τ α} {second : Resolve σ α}
    {next : α → Resolve τ β} {next' : α → Resolve σ β} (h : Does forget first second)
    (hnext : ∀ result, Does forget (next result) (next' result)) :
    Does forget (first >>= next) (second >>= next') := by
  intro state
  have hsecond : (second >>= next').run ⟨forget state.host, state.log⟩ =
      (next' (first.run state).1).run
        ⟨forget (first.run state).2.host, (first.run state).2.log⟩ :=
    congrArg (fun run : α × ResolutionState σ => (next' run.1).run run.2) (h state)
  rw [hsecond]
  exact hnext (first.run state).1 (first.run state).2

theorem does_withoutLog {τ : Type} {forget : τ → σ} {first : Resolve τ α} {second : Resolve σ α}
    (h : Does forget first second) : Does forget (withoutLog first) (withoutLog second) := by
  intro state
  exact congrArg (fun run : α × ResolutionState σ =>
    (run.1, ({ run.2 with log := run.2.log.rollback state.log.length } : ResolutionState σ)))
      (h state)

/-- Writing the calls down changes nothing else. -/
theorem traced_parallel (input : LexInput) (host : Host σ) (scope : ObjectRef) :
    Parallel Eq (fun {_} first second => Does Traced.state first second)
      (input.resolution host.traced scope .full) (input.resolution host scope .full) where
  table := rfl
  scope := rfl
  textOf := fun h => congrArg _ h
  merge := fun h h' => congrArg₂ Span.merge h h'
  pure := fun _ _ => rfl
  bind := fun h hnext => does_bind h hnext
  withoutLog := fun h => does_withoutLog h
  report := fun _ _ _ _ h _ => by rw [h]; rfl
  stopsAt := fun _ _ _ => rfl
  member := fun _ _ _ _ h _ => by rw [h]; rfl
  invoke := fun _ _ _ _ _ h _ => by rw [h]; rfl

end Tracing

section Asking

variable (resolution : Resolution (Traced σ))

/-- A look-up is one of the text at its site. -/
def Names : HostCall → Prop
  | .member _ name site => name = resolution.textOf site
  | .invoke .. => True

/-- The calls of an action are made for some of these sites, in their order. -/
def Asks (action : Resolve (Traced σ) α) (sites : α → List Site) : Prop :=
  ∀ state : ResolutionState (Traced σ), ∃ made,
    (action.run state).2.host.calls = state.host.calls ++ made ∧
      (made.map HostCall.site).Sublist (sites (action.run state).1) ∧
        ∀ call ∈ made, resolution.Names call

variable {resolution} {action : Resolve (Traced σ) α}

/-- What makes no call asks for nothing. -/
theorem asks_of_calls_eq (h : ∀ state, (action.run state).2.host.calls = state.host.calls)
    (sites : α → List Site) : resolution.Asks action sites :=
  fun state => ⟨[], by rw [h, List.append_nil], List.nil_sublist _, by simp⟩

theorem asks_pure (result : α) (sites : α → List Site) :
    resolution.Asks (pure result) sites :=
  asks_of_calls_eq (fun _ => rfl) sites

theorem Asks.mono {sites more : α → List Site} (h : resolution.Asks action sites)
    (hmore : ∀ result, (sites result).Sublist (more result)) : resolution.Asks action more := by
  intro state
  obtain ⟨made, hcalls, hsub, hnames⟩ := h state
  exact ⟨made, hcalls, hsub.trans (hmore _), hnames⟩

/-- What an action asks for, and then the next one. -/
theorem Asks.bind {next : α → Resolve (Traced σ) β} {sites : α → List Site}
    {all : β → List Site} (h : resolution.Asks action sites) (others : α → β → List Site)
    (hnext : ∀ result, resolution.Asks (next result) (others result))
    (hall : ∀ result last, (sites result ++ others result last).Sublist (all last)) :
    resolution.Asks (action >>= next) all := by
  intro state
  obtain ⟨made, hcalls, hsub, hnames⟩ := h state
  obtain ⟨made', hcalls', hsub', hnames'⟩ := hnext (action.run state).1 (action.run state).2
  refine ⟨made ++ made', ?_, ?_, ?_⟩
  · rw [← List.append_assoc, ← hcalls]
    exact hcalls'
  · rw [List.map_append]
    exact (hsub.append hsub').trans (hall _ _)
  · intro call hcall
    rcases List.mem_append.mp hcall with hcall | hcall
    · exact hnames call hcall
    · exact hnames' call hcall

variable {sites others : List Site}

theorem Asks.followed {next : α → Resolve (Traced σ) β}
    (h : resolution.Asks action fun _ => sites)
    (hnext : ∀ result, resolution.Asks (next result) fun _ => others) :
    resolution.Asks (action >>= next) fun _ => sites ++ others :=
  h.bind (fun _ _ => others) hnext fun _ _ => List.Sublist.refl _

/-- What comes behind an action asks for nothing. -/
theorem Asks.ends {next : α → Resolve (Traced σ) β} (h : resolution.Asks action fun _ => sites)
    (hnext : ∀ result, resolution.Asks (next result) fun _ => []) :
    resolution.Asks (action >>= next) fun _ => sites :=
  h.bind (fun _ _ => []) hnext fun _ _ => by rw [List.append_nil]

/-- What is made of a result, when the sites depend on this. -/
theorem Asks.map {f : α → β} {all : β → List Site} (h : resolution.Asks action fun _ => sites)
    (hall : ∀ result, sites.Sublist (all (f result))) :
    resolution.Asks (do return f (← action)) all := by
  intro state
  obtain ⟨made, hcalls, hsub, hnames⟩ := h state
  exact ⟨made, hcalls, hsub.trans (hall _), hnames⟩

theorem Asks.withoutLog {sites : α → List Site} (h : resolution.Asks action sites) :
    resolution.Asks (Resolution.withoutLog action) sites :=
  fun state => h state

theorem asks_report (category : Category) (span : Span) (message : String) :
    resolution.Asks (report category span message) fun _ => [] :=
  asks_of_calls_eq (fun _ => rfl) _

theorem asks_fail (span : Span) (error : ResolveError) :
    resolution.Asks (resolution.fail span error) fun _ => [] :=
  asks_of_calls_eq (fun _ => rfl) _

end Asking

section Terms

variable {host : Host σ} {resolution : Resolution (Traced σ)}

theorem asks_member? (hhost : resolution.host = host.traced) (target : ObjectRef) (span : Span) :
    resolution.Asks (resolution.member? target (resolution.textOf span) span)
      fun _ => [.name span] := by
  intro state
  refine ⟨[.member target (resolution.textOf span) span], ?_, List.Sublist.refl _, ?_⟩
  · unfold member?
    rw [hhost]
    rfl
  · simp [Names]

theorem asks_invoke (hhost : resolution.host = host.traced) (target : ObjectRef) (name : String)
    (args : List Value) (site : Span) :
    resolution.Asks (resolution.invoke target name args site) fun _ => [.arguments site] := by
  intro state
  refine ⟨[.invoke target name args site], ?_, List.Sublist.refl _, ?_⟩
  · unfold invoke
    rw [hhost]
    rfl
  · simp [Names]

theorem asks_nameValue (hhost : resolution.host = host.traced) (span : Span) :
    resolution.Asks (resolution.nameValue span) fun _ => [.name span] := by
  unfold nameValue
  simp only
  split
  · exact asks_pure _ _
  · exact (asks_member? hhost _ span).ends fun _ => asks_pure _ _

theorem asks_orFail (span : Span) (result : Except ResolveError Value) :
    resolution.Asks (resolution.orFail span result) fun _ => [] := by
  unfold orFail
  split
  · exact asks_pure _ _
  · exact asks_fail _ _

theorem asks_binaryValue (span : Span) (op : Operator) (left right : Value) :
    resolution.Asks (resolution.binaryValue span op left right) fun _ => [] := by
  unfold binaryValue
  split
  · exact asks_pure _ _
  · exact asks_orFail _ _

theorem asks_reportSeparator (expected : Bool) (span : Span) (separator : String) :
    resolution.Asks (reportSeparator expected span separator) fun _ => [] := by
  unfold reportSeparator
  split
  · exact asks_report _ _ _
  · exact asks_pure _ _

/-- The links of a chain, by induction on them. -/
theorem asks_followLinks (hhost : resolution.host = host.traced) (span : Span)
    (callFollows : Bool) (links : List Link) (current : Value) :
    resolution.Asks (resolution.followLinks span callFollows links current)
      fun _ => links.filterMap Link.site? := by
  induction links generalizing current with
  | nil => exact asks_pure _ _
  | cons link links ih =>
      unfold followLinks
      simp only
      split
      · exact asks_pure _ _
      · split
        · exact asks_pure _ _
        · split
          · exact (asks_fail _ _).mono fun _ => List.nil_sublist _
          · rename_i hname
            have hsite : link.site? = some (.name link.span) := by
              unfold Link.site?
              rw [if_pos (by simpa using hname)]
            rw [List.filterMap_cons_some hsite]
            split
            · rename_i ref _ _
              refine (asks_member? hhost ref link.span).followed fun found => ?_
              split
              · exact ih _
              · split
                · exact asks_pure _ _
                · exact (asks_fail _ _).mono fun _ => List.nil_sublist _
            · exact (asks_fail _ _).mono fun _ => List.nil_sublist _

section Calls

variable (hhost : resolution.host = host.traced) (hmode : resolution.mode = .full) (site : Span)

include hhost

theorem asks_callMember (target : ObjectRef) (name : String) (args : List Value) (span : Span) :
    resolution.Asks (resolution.callMember target name args span site)
      fun _ => [.arguments site] := by
  refine (asks_invoke hhost target name args site).ends fun result => ?_
  cases result with
  | ok value => exact asks_pure _ _
  | error error => exact asks_fail _ _

theorem asks_callName (name : String) (rules : RuleSetId) (args : List Value) (span : Span) :
    resolution.Asks (resolution.callName name rules args span site)
      fun _ => [.arguments site] := by
  unfold callName
  refine (asks_invoke hhost resolution.scope name args site).ends fun result => ?_
  split
  · exact asks_pure _ _
  · exact asks_pure _ _
  · exact (asks_fail _ _).ends fun _ => asks_pure _ _

/-- The sites of a term with those of its arguments, or only the first if they stay behind. -/
def takenSites (sites inner : List Site) (site : Span) (taken : Taken) : List Site :=
  if taken.2 then sites ++ (inner ++ [.arguments site]) else sites

variable {term : Term} {action : Resolve (Traced σ) Value}
  {arguments : Resolve (Traced σ) (List Value)} {sites inner : List Site}
  (haction : resolution.Asks action fun _ => sites)
  (harguments : resolution.Asks arguments fun _ => inner)

include hmode haction harguments

theorem asks_takeTerm :
    resolution.Asks (resolution.takeTerm term site action arguments)
      (takenSites sites inner site) := by
  unfold takeTerm
  rw [unlessStopped_full hmode]
  refine haction.bind (fun _ => takenSites [] inner site) (fun value => ?_) ?_
  · split
    · rename_i target name
      have hcall : resolution.Asks
          (do
            let args ← arguments
            resolution.callMember target name args term.span site)
          fun _ => inner ++ [.arguments site] :=
        harguments.followed fun args => asks_callMember hhost site target name args term.span
      exact hcall.map (f := fun value => (([value], true) : Taken)) fun _ => List.Sublist.refl _
    · exact asks_pure _ _
  · intro value taken
    unfold takenSites
    split
    · exact List.Sublist.refl _
    · rw [List.append_nil]

theorem asks_takeName (rules : RuleSetId) (hsites : sites = [.name term.span]) :
    resolution.Asks (resolution.takeName term rules site action arguments)
      (takenSites sites inner site) := by
  unfold takeName
  simp only
  split
  · exact asks_takeTerm hhost hmode site haction harguments
  · rw [stopsAt_full hmode, pure_bind, if_neg Bool.false_ne_true, hsites]
    refine (asks_member? hhost resolution.scope term.span).bind
      (fun _ => takenSites [] inner site) (fun found => ?_) ?_
    · split
      · exact asks_pure _ _
      · have hcall : resolution.Asks
            (do
              let args ← arguments
              resolution.callName (resolution.textOf term.span) rules args term.span site)
            fun _ => inner ++ [.arguments site] :=
          harguments.followed fun args => asks_callName hhost site _ rules args term.span
        exact hcall.map (f := fun values => ((values, true) : Taken)) fun _ => List.Sublist.refl _
    · intro found taken
      unfold takenSites
      split
      · exact List.Sublist.refl _
      · rw [List.append_nil]

end Calls

section Induction

/-- The case that a condition chooses has some of the sites of both. -/
theorem asks_chosen {yes no : Resolve (Traced σ) Value} {first second : List Site}
    (hyes : resolution.Asks yes fun _ => first) (hno : resolution.Asks no fun _ => second)
    (test : Value) (text : String) :
    resolution.Asks
      (if test.isUnresolved then return .unresolved text
        else if test.conditionHolds then yes else no) fun _ => first ++ second := by
  split
  · exact asks_pure _ _
  · split
    · exact hyes.mono fun _ => List.sublist_append_left _ _
    · exact hno.mono fun _ => List.sublist_append_right _ _

/-- Values in a row: the first one, and the others after it. -/
theorem asks_cons {first : Resolve (Traced σ) Value} {rest : Resolve (Traced σ) (List Value)}
    {sites others : List Site} (hfirst : resolution.Asks first fun _ => sites)
    (hrest : resolution.Asks rest fun _ => others) :
    resolution.Asks (do let value ← first; return value :: (← rest)) fun _ => sites ++ others :=
  hfirst.followed fun _ => hrest.ends fun _ => asks_pure _ _

theorem asks_innerValues {contextClass : ContextClass} {items : List Term} {sites : List Site}
    (hpieces : resolution.Asks (resolution.pieces items) fun _ => sites)
    (hitems : resolution.Asks (resolution.itemValues true items) fun _ => sites) :
    resolution.Asks (resolution.innerValues contextClass items) fun _ => sites := by
  unfold innerValues
  split
  · exact hpieces
  · exact hitems

theorem asks_takeFirst (hhost : resolution.host = host.traced) (hmode : resolution.mode = .full)
    {term : Term} {site : Span} {rules : RuleSetId} {contextClass : ContextClass}
    {items : List Term} {inner : List Site}
    (hvalue : resolution.Asks (resolution.value true term) fun _ => term.sites resolution.table)
    (hinner : resolution.Asks (resolution.innerValues contextClass items) fun _ => inner) :
    resolution.Asks (resolution.takeFirst term site rules contextClass items)
      (takenSites (term.sites resolution.table) inner site) := by
  unfold takeFirst
  split
  · rename_i hname
    refine asks_takeName hhost hmode site hvalue hinner rules ?_
    cases term with
    | name span => rfl
    | _ => cases hname
  · exact asks_takeTerm hhost hmode site hvalue hinner

mutual

theorem asks_value (hhost : resolution.host = host.traced)
    (hmode : resolution.mode = .full) (callFollows : Bool) : ∀ term : Term,
    resolution.Asks (resolution.value callFollows term) fun _ => term.sites resolution.table
  | .name span => by
      rw [value]
      exact asks_nameValue hhost span
  | .literal _ _ => by
      rw [value]
      exact asks_pure _ _
  | .delimiter _ _ => by
      rw [value]
      exact asks_pure _ _
  | .group _ rules contextClass items => by
      rw [value_group]
      split
      · exact asks_pure _ _
      · refine ((asks_innerValues (asks_pieces hhost hmode items) (asks_itemValues hhost hmode true items)).ends
          fun _ => asks_pure _ _).mono fun _ => ?_
        rw [Term.sites]
        exact List.sublist_append_left _ _
  | .chain span _ first links => by
      rw [value, unlessStopped_full hmode, Term.sites]
      exact (asks_value hhost hmode false first).followed fun start =>
        asks_followLinks hhost span callFollows links start
  | .binary span op left right => by
      rw [value, unlessStopped_full hmode, unlessStopped_full hmode, Term.sites]
      exact (asks_value hhost hmode false left).followed fun a =>
        (asks_value hhost hmode false right).ends fun b => asks_binaryValue span op a b
  | .prefixed _ op operand => by
      rw [value, unlessStopped_full hmode, Term.sites]
      split
      · exact (asks_value hhost hmode false operand).withoutLog.ends fun _ => asks_pure _ _
      · exact (asks_value hhost hmode false operand).ends fun _ => asks_pure _ _
  | .ifThen span condition trueCase => by
      rw [value, unlessStopped_full hmode, unlessStopped_full hmode, Term.sites]
      refine (asks_value hhost hmode false condition).followed fun test => ?_
      refine (asks_chosen (asks_value hhost hmode false trueCase) (asks_pure .null fun _ => []) test _).mono
        fun _ => ?_
      rw [List.append_nil]
  | .ifThenElse span condition trueCase falseCase => by
      rw [value, unlessStopped_full hmode, unlessStopped_full hmode, unlessStopped_full hmode,
        Term.sites]
      exact (asks_value hhost hmode false condition).followed fun test =>
        asks_chosen (asks_value hhost hmode false trueCase) (asks_value hhost hmode false falseCase) test _

theorem asks_pieces (hhost : resolution.host = host.traced)
    (hmode : resolution.mode = .full) : ∀ terms : List Term,
    resolution.Asks (resolution.pieces terms) fun _ => Term.sitesOf resolution.table terms
  | [] => by
      rw [pieces]
      exact asks_pure _ _
  | term :: rest => by
      rw [pieces_cons, Term.sitesOf]
      refine asks_cons ?_ (asks_pieces hhost hmode rest)
      cases term with
      | name span => exact asks_pure _ _
      | delimiter span id => exact asks_pure _ _
      | _ => exact asks_value hhost hmode false _

theorem asks_itemValues (hhost : resolution.host = host.traced)
    (hmode : resolution.mode = .full) (expected : Bool) : ∀ terms : List Term,
    resolution.Asks (resolution.itemValues expected terms)
      fun _ => Term.sitesOf resolution.table terms
  | [] => by
      rw [itemValues_nil]
      exact asks_pure _ _
  | term :: rest => by
      rw [Term.sitesOf]
      cases hseparator : resolution.separator? term with
      | some separator =>
          rw [itemValues_separator hseparator]
          refine ((asks_reportSeparator _ _ _).followed fun _ =>
            asks_itemValues hhost hmode true rest).mono fun _ => ?_
          exact List.sublist_append_right _ _
      | none =>
          have hplain : (∀ site rules contextClass items behind,
              rest = .group site rules contextClass items :: behind →
                resolution.isParens rules = false) →
              resolution.Asks (resolution.itemValues expected (term :: rest))
                fun _ => term.sites resolution.table ++ Term.sitesOf resolution.table rest := by
            intro hcall
            rw [itemValues_term hseparator hcall, unlessStopped_full hmode]
            exact asks_cons (asks_value hhost hmode false term) (asks_itemValues hhost hmode false rest)
          cases rest with
          | nil => exact hplain (fun _ _ _ _ _ h => nomatch h)
          | cons next behind =>
              cases next with
              | group site rules contextClass items =>
                  by_cases hparens : resolution.isParens rules = true
                  · rw [itemValues_call hseparator hparens]
                    refine (asks_takeFirst hhost hmode (asks_value hhost hmode true term)
                      (asks_innerValues (asks_pieces hhost hmode items) (asks_itemValues hhost hmode true items))).bind
                        (fun taken _ =>
                          if taken.2 then Term.sitesOf resolution.table behind
                          else Term.sitesOf resolution.table
                            (.group site rules contextClass items :: behind))
                        (fun taken => ?_) fun taken _ => ?_
                    · split
                      · exact (asks_itemValues hhost hmode false behind).ends fun _ => asks_pure _ _
                      · exact (asks_itemValues hhost hmode false _).ends fun _ => asks_pure _ _
                    · -- the arguments are asked for once, as such or as a group
                      unfold takenSites
                      split
                      · have hname : ((resolution.table.ruleSet rules).name ==
                            Grammar.parensName) = true := hparens
                        rw [Term.sitesOf, Term.sites, if_pos hname, List.append_assoc]
                      · exact List.Sublist.refl _
                  · refine hplain ?_
                    rintro _ _ _ _ _ ⟨⟩
                    exact Bool.not_eq_true _ ▸ hparens
              | _ => exact hplain (fun _ _ _ _ _ h => nomatch h)

end

end Induction

end Terms

end Resolution

/-- Calls that are made from left to right. -/
structure LeftToRight (calls : List HostCall) : Prop where
  /-- Names are looked up in the order in which they are written, each at most once. -/
  lookUps : (calls.filterMap HostCall.lookUp?).Pairwise (· < ·)
  /-- No arguments are passed twice. -/
  once : (calls.filterMap HostCall.arguments?).Nodup
  /-- When arguments are passed nothing behind them has been asked for. -/
  passed : ∀ front target name args site behind,
    calls = front ++ .invoke target name args site :: behind →
      ∀ call ∈ front, call.site.span.stop ≤ site.stop
  /-- Then only what is behind them is asked for, and calls that they are arguments within. -/
  behind : ∀ front target name args site behind,
    calls = front ++ .invoke target name args site :: behind →
      ∀ call ∈ behind, site.stop ≤ call.site.span.start ∨
        ∃ outer ∈ call.arguments?, outer.start < site.start ∧ site.stop ≤ outer.stop

/-- Calls for sites in their order are made from left to right. -/
theorem LeftToRight.of_inTurn {table : RuleSetTable} {forest : Forest} {whole : Span}
    {calls : List HostCall} (h : InTurn table forest whole (calls.map HostCall.site)) :
    LeftToRight calls := by
  have hpos : ∀ call ∈ calls, call.site.span.start < call.site.span.stop :=
    fun call hcall => h.nonempty _ (List.mem_map_of_mem hcall)
  have hordered : calls.Pairwise fun a b => a.site.Before b.site := List.pairwise_map.mp h.ordered
  constructor
  · refine List.pairwise_filterMap.mpr (hordered.imp_of_mem ?_)
    intro a b ha _ hbefore i hi j hj
    cases a with
    | invoke => cases hi
    | member target name site =>
        cases b with
        | invoke => cases hj
        | member target' name' site' =>
            obtain rfl := Option.some.inj hi
            obtain rfl := Option.some.inj hj
            exact Nat.lt_of_lt_of_le (hpos _ ha) hbefore
  · refine List.pairwise_filterMap.mpr (hordered.imp_of_mem ?_)
    intro a b ha _ hbefore s hs t ht
    cases a with
    | member => cases hs
    | invoke target name args site =>
        cases b with
        | member => cases ht
        | invoke target' name' args' site' =>
            obtain rfl := Option.some.inj hs
            obtain rfl := Option.some.inj ht
            have hlt := hpos _ ha
            rintro rfl
            rcases hbefore with hle | ⟨hlt', -⟩
            · exact absurd hlt (Nat.not_lt.mpr hle)
            · exact absurd hlt' (Nat.lt_irrefl _)
  · rintro front target name args site behind rfl call hcall
    have hbefore := (List.pairwise_append.mp hordered).2.2 call hcall _ List.mem_cons_self
    have hlt := hpos (.invoke target name args site) (by simp)
    rcases hbefore with hle | ⟨-, hle⟩
    · exact hle.trans (Nat.le_of_lt hlt)
    · exact hle
  · rintro front target name args site behind rfl call hcall
    have hbefore := (List.pairwise_cons.mp (List.pairwise_append.mp hordered).2.1).1 call hcall
    cases call with
    | member target' name' site' => exact Or.inl hbefore
    | invoke target' name' args' site' =>
        rcases hbefore with hle | hwithin
        · exact Or.inl hle
        · exact Or.inr ⟨site', rfl, hwithin⟩

section Logical

variable {σ : Type} {resolution : Resolution σ}

open Resolution

/-- What an operator makes of its operands does not concern the host. -/
theorem host_binaryValue (span : Span) (op : Operator) (left right : Value)
    (state : ResolutionState σ) :
    ((resolution.binaryValue span op left right).run state).2.host = state.host := by
  unfold binaryValue orFail
  split
  · rfl
  · split
    · rfl
    · rfl

/-- The operands of a binary operator are resolved one after the other. -/
theorem host_value_binary (hmode : resolution.mode = .full) (callFollows : Bool) (span : Span)
    (op : Operator) (left right : Term) (state : ResolutionState σ) :
    ((resolution.value callFollows (.binary span op left right)).run state).2.host =
      ((resolution.value false right).run ((resolution.value false left).run state).2).2.host := by
  rw [value, unlessStopped_full hmode, unlessStopped_full hmode]
  exact host_binaryValue span op _ _ _

/-- The node of a logical operator is read as the operator with two operands. -/
theorem LexInput.nodeTerm_of_logical {input : LexInput} {id : NodeId} {op : Operator}
    (hid : (input.parse.forest.header id).operator = some op) (hop : op = .and ∨ op = .or) :
    ∃ left right, input.parse.forest.itemTerms id = [left, right] ∧
      input.parse.forest.nodeTerm id =
        .binary (input.parse.forest.header id).span op left right := by
  have hterm := Forest.nodeTerm_of_operator input.arranged_parse input.operated_parse hid
  have hadmits := (input.operated_parse id op hid).admits
  have hshape : op.shape = .binary := by
    rcases hop with rfl | rfl
    · rfl
    · rfl
  have hmember : op.isMember = false := by
    rcases hop with rfl | rfl
    · rfl
    · rfl
  rw [hshape, ← Forest.length_itemTerms input.arranged_parse (Forest.index_lt_of_operator hid)]
    at hadmits
  obtain ⟨left, right, hitems⟩ := List.length_eq_two.mp hadmits
  refine ⟨left, right, hitems, ?_⟩
  unfold Term.ofOperator? at hterm
  rw [hitems, hshape] at hterm
  simp only [hmember, Bool.false_eq_true, if_false] at hterm
  exact (Option.some.inj hterm).symm

end Logical

section Evaluation

variable {σ : Type} (input : LexInput) (host : Host σ) (scope : ObjectRef)

open Resolution

/-- A look-up of a token's text, or a call with the values of a context in parentheses. -/
def HostCall.IsMadeFor (input : LexInput) : HostCall → Prop
  | member _ name site =>
      (∃ owner, ⟨site, .text⟩ ∈ input.parse.forest.tokenList owner) ∧
        name = String.ofList (input.parse.forest.spanText site)
  | invoke _ _ _ site => (Site.arguments site).IsOf input.table input.parse.forest

/-- The calls for sites of a parsed text are made for its tokens and contexts. -/
theorem HostCall.isMadeFor_of_isOf {mode : ResolutionMode (Traced σ)} {call : HostCall}
    (h : call.site.IsOf input.table input.parse.forest)
    (hname : (input.resolution host.traced scope mode).Names call) : call.IsMadeFor input := by
  cases call with
  | member target name site => exact ⟨h, hname⟩
  | invoke target name args site => exact h

/--
An evaluation in full mode asks its host from left to right, for tokens of plain text and for
contexts in parentheses; writing the calls down makes no difference to it. Both operands of a
logical operator are resolved, one after the other.
-/
theorem LexInput.leftToRight_evaluate (state : σ) :
    let traced := input.evaluate host.traced scope .full ⟨state, []⟩
    let resolution := input.resolution host scope .full
    input.evaluate host scope .full state = (traced.1, traced.2.state) ∧
      (∀ call ∈ traced.2.calls, call.IsMadeFor input) ∧ LeftToRight traced.2.calls ∧
      ∀ id op, (input.parse.forest.header id).operator = some op → op = .and ∨ op = .or →
        ∃ left right, input.parse.forest.itemTerms id = [left, right] ∧
          ∀ callFollows before,
            ((resolution.value callFollows (input.parse.forest.nodeTerm id)).run before).2.host =
              ((resolution.value false right).run
                ((resolution.value false left).run before).2).2.host := by
  intro traced resolution
  have hdoes : Does Traced.state (input.resolution host.traced scope .full).total
      (input.resolution host scope .full).total :=
    (traced_parallel input host scope).map ((traced_parallel input host scope).itemValues true
      (Term.forall₂_moved_rfl (fun _ => rfl) input.parse.forest.terms))
  have hitems : (input.resolution host.traced scope .full).Asks
      ((input.resolution host.traced scope .full).itemValues true input.parse.forest.terms)
      fun _ => Term.sitesOf input.table input.parse.forest.terms :=
    asks_itemValues (show (input.resolution host.traced scope .full).host = host.traced from rfl)
      rfl true input.parse.forest.terms
  have hasks : (input.resolution host.traced scope .full).Asks
      (input.resolution host.traced scope .full).total
      fun _ => Term.sitesOf input.table input.parse.forest.terms :=
    hitems.ends fun _ => asks_pure _ _
  obtain ⟨value, final, hrun⟩ : ∃ value final,
      (input.resolution host.traced scope .full).total.run ⟨⟨state, []⟩, input.parse.log⟩ =
        (value, final) := ⟨_, _, rfl⟩
  have htraced : traced = (⟨value, final.log⟩, final.host) :=
    input.evaluate_eq host.traced scope .full ⟨state, []⟩ hrun
  have hplain := hdoes ⟨⟨state, []⟩, input.parse.log⟩
  obtain ⟨made, hmade, hsub, hnames⟩ := hasks ⟨⟨state, []⟩, input.parse.log⟩
  rw [hrun] at hplain hmade hsub
  rw [List.nil_append] at hmade
  rw [← hmade] at hsub hnames
  have hinTurn := input.inTurn_parse.sublist hsub
  rw [htraced]
  refine ⟨input.evaluate_eq host scope .full state hplain, ?_, .of_inTurn hinTurn, ?_⟩
  · intro call hcall
    exact call.isMadeFor_of_isOf input host scope
      (hinTurn.known _ (List.mem_map_of_mem hcall)) (hnames call hcall)
  · intro id op hid hop
    obtain ⟨left, right, hitems, hterm⟩ := LexInput.nodeTerm_of_logical hid hop
    refine ⟨left, right, hitems, fun callFollows before => ?_⟩
    rw [hterm]
    exact host_value_binary rfl callFollows _ op left right before

/-- A function is looked up first, and called when its argument is resolved. -/
example :
    ((Language.input "f (x) y").evaluate Store.host.traced ⟨0⟩ .full ⟨⟨#[]⟩, []⟩).2.calls.map
      HostCall.site = [.name ⟨0, 1⟩, .name ⟨3, 4⟩, .arguments ⟨2, 5⟩, .name ⟨6, 7⟩] := by
  decide +kernel

end Evaluation

end ExprLang
