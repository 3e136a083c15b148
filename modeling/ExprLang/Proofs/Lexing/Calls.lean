import ExprLang.Lexer
import Mathlib.Tactic

/-!
# Calls of the lexer

A lexer is driven by calls: single steps, bounded and unbounded runs, runs under a
condition, and early stops. Whatever is called, a run to the end is all that is left
to do, and it ends, since a step reads at least one character or ends the run.

Main definitions:
* `LexInput.after`: the state after some calls;
* `LexInput.final`, `LexInput.finish`: the state and the result when a run to the end
  follows; `finish_nil` says that without any call this is a plain reading of the text.

Main results:
* `step_cases`, `placeDelimiter_cases`: everything that a step can do;
* `stop_eq`: what the end of a run does;
* `call_preserves`: what steps and stops preserve, every call preserves;
* `finished_final`: a run to the end finishes.
-/

namespace ExprLang

/-- What can be asked of a lexer. -/
inductive LexCall where
  | step
  | runSteps (count : Nat)
  | run
  | runWhile (holds : LexProgress → Bool)
  | stop

/-- The root gets the tokens that are left, and the run has ended. -/
def LexState.closeRoot (state : LexState) (stop : Nat) : LexState :=
  { state with
    forest := state.forest.closeNode Forest.root state.pending none stop
    pending := #[]
    finished := true }

@[simp]
theorem LexState.forest_closeRoot (state : LexState) (stop : Nat) :
    (state.closeRoot stop).forest =
      state.forest.closeNode Forest.root state.pending none stop := rfl

namespace LexInput

variable (input : LexInput)

/-- The state after one call. -/
def call (state : LexState) : LexCall → LexState
  | .step => input.step state
  | .runSteps count => input.runSteps count state
  | .run => input.run state
  | .runWhile holds => input.runWhile holds state
  | .stop => input.stop state

/-- The state after calls of a new lexer. -/
def after (calls : List LexCall) : LexState :=
  calls.foldl input.call input.start

/-- The state in which a lexer ends after some calls. -/
def final (calls : List LexCall) : LexState :=
  input.run (input.after calls)

/-- The result of a lexer that is finished after some calls. -/
def finish (calls : List LexCall) : LexOutput :=
  (input.final calls).output

/-- Reading the whole text is finishing a new lexer. -/
theorem finish_nil : input.finish [] = input.lex := rfl

section Steps

variable {input} {state : LexState}

/-- Everything that a step can do to a lexer that is not finished. -/
theorem step_cases (input : LexInput) (hopen : state.finished = false) :
    (state.rest = [] ∧ input.step state = input.stop state) ∨
    ∃ c rest, state.rest = c :: rest ∧
      ((input.table.isWhitespace (input.currentRules state) input.rules c = true ∧
          input.step state = state.flushText.advance c.utf8Size rest) ∨
        (∃ id, input.table.findIn (input.currentRules state) input.rules input.source
            state.cursor state.rest state.textStart.isSome = some id ∧
          input.step state = input.readDelimiter state.flushText id) ∨
        input.step state =
          { state with textStart := state.textStart <|> some state.cursor }.advance
            c.utf8Size rest) := by
  cases hrest : state.rest with
  | nil =>
      left
      refine ⟨rfl, ?_⟩
      simp [step, hopen, hrest]
  | cons c rest =>
      right
      refine ⟨c, rest, rfl, ?_⟩
      by_cases hblank :
          input.table.isWhitespace (input.currentRules state) input.rules c = true
      · left
        refine ⟨hblank, ?_⟩
        simp [step, hopen, hrest, hblank]
      · right
        cases hfind : input.table.findIn (input.currentRules state) input.rules input.source
            state.cursor (c :: rest) state.textStart.isSome with
        | some id =>
            left
            refine ⟨id, rfl, ?_⟩
            simp [step, hopen, hrest, hblank, hfind]
        | none =>
            right
            simp [step, hopen, hrest, hblank, hfind]

variable {P : LexState → Prop}

theorem runSteps_preserves (hstep : ∀ s, P s → P (input.step s)) (count : Nat)
    (h : P state) : P (input.runSteps count state) := by
  induction count generalizing state with
  | zero => exact h
  | succ count ih => exact ih (hstep state h)

theorem runWhileWithin_preserves (hstep : ∀ s, P s → P (input.step s))
    (hstop : ∀ s, P s → P (input.stop s)) (holds : LexProgress → Bool) (count : Nat)
    (h : P state) : P (input.runWhileWithin holds count state) := by
  induction count generalizing state with
  | zero => exact h
  | succ count ih =>
      rw [runWhileWithin]
      split
      · exact h
      · split
        · exact ih (hstep state h)
        · exact hstop state h

/-- All calls consist of steps and stops. -/
theorem call_preserves (hstep : ∀ s, P s → P (input.step s))
    (hstop : ∀ s, P s → P (input.stop s)) (c : LexCall) (h : P state) :
    P (input.call state c) := by
  cases c with
  | step => exact hstep state h
  | runSteps count => exact runSteps_preserves hstep count h
  | run => exact runSteps_preserves hstep _ h
  | runWhile holds => exact runWhileWithin_preserves hstep hstop holds _ h
  | stop => exact hstop state h

/-- What holds at the start, and is preserved by steps and stops, holds after any calls. -/
theorem after_induction (hstart : P input.start) (hstep : ∀ s, P s → P (input.step s))
    (hstop : ∀ s, P s → P (input.stop s)) (calls : List LexCall) : P (input.after calls) := by
  have hfold : ∀ s, P s → P (calls.foldl input.call s) := by
    induction calls with
    | nil =>
        intro s h
        exact h
    | cons c calls ih =>
        intro s h
        exact ih _ (call_preserves hstep hstop c h)
  exact hfold _ hstart

/-- The same for the state in which a lexer ends. -/
theorem final_induction (hstart : P input.start) (hstep : ∀ s, P s → P (input.step s))
    (hstop : ∀ s, P s → P (input.stop s)) (calls : List LexCall) : P (input.final calls) :=
  runSteps_preserves hstep _ (after_induction hstart hstep hstop calls)

end Steps

/-- Two states at the same place of the text, which may differ in what is built. -/
structure SamePlace (a b : LexState) : Prop where
  cursor : a.cursor = b.cursor
  rest : a.rest = b.rest
  textStart : a.textStart = b.textStart
  finished : a.finished = b.finished

section Places

variable {input} {state : LexState}

theorem SamePlace.trans {a b c : LexState} (hab : SamePlace a b) (hbc : SamePlace b c) :
    SamePlace a c :=
  ⟨hab.cursor.trans hbc.cursor, hab.rest.trans hbc.rest, hab.textStart.trans hbc.textStart,
    hab.finished.trans hbc.finished⟩

theorem samePlace_pushToken (state : LexState) (token : Token) :
    SamePlace (state.pushToken token) state :=
  ⟨rfl, rfl, rfl, rfl⟩

theorem samePlace_closeContext (state : LexState) (closer : Option DelimiterId) (stop : Nat) :
    SamePlace (state.closeContext closer stop) state := by
  unfold LexState.closeContext
  split
  · exact ⟨rfl, rfl, rfl, rfl⟩
  · exact ⟨rfl, rfl, rfl, rfl⟩

theorem stack_closeContext (state : LexState) (closer : Option DelimiterId) (stop : Nat) :
    (state.closeContext closer stop).stack = state.stack.tail := by
  unfold LexState.closeContext
  cases hstack : state.stack with
  | nil => exact hstack
  | cons context outer => rfl

theorem samePlace_pushDelimiter (state : LexState) (id : DelimiterId) (span : Span)
    (value : Option Literal) : SamePlace (pushDelimiter state id span value) state := by
  unfold pushDelimiter
  cases value with
  | none => exact samePlace_pushToken _ _
  | some literal => exact (samePlace_pushToken _ _).trans ⟨rfl, rfl, rfl, rfl⟩

theorem samePlace_openContext (state : LexState) (id : DelimiterId) (span : Span) :
    SamePlace (input.openContext state id span) state := by
  simp only [openContext]
  split
  · exact ⟨rfl, rfl, rfl, rfl⟩
  · exact ⟨rfl, rfl, rfl, rfl⟩

/-- Everything that the placing of a delimiter can do. -/
theorem placeDelimiter_cases (input : LexInput) (state : LexState) (id : DelimiterId)
    (span : Span) (value : Option Literal) :
    ((input.table.delimiter id).closes = true ∧
        input.belongsToInnermost state (input.table.delimiter id) = true ∧
        input.placeDelimiter state id span value =
          (state.pushToken ⟨span, .node state.currentNode⟩).closeContext (some id) span.stop) ∨
      ((input.table.delimiter id).opens = true ∧
        input.placeDelimiter state id span value = input.openContext state id span) ∨
      ((input.table.delimiter id).closes = true ∧
        input.placeDelimiter state id span value =
          pushDelimiter
            (state.report .structural span
              (ContextFault.unexpectedCloser
                (String.ofList (input.table.delimiter id).text)).message)
            id span value) ∨
      ((input.table.delimiter id).closes = false ∧
        input.placeDelimiter state id span value = pushDelimiter state id span value) := by
  simp only [placeDelimiter]
  split
  · rename_i hcloses
    left
    obtain ⟨hcloses, hbelongs⟩ := Bool.and_eq_true_iff.mp hcloses
    exact ⟨hcloses, hbelongs, rfl⟩
  · right
    split
    · rename_i hopens
      exact Or.inl ⟨hopens, rfl⟩
    · right
      split
      · rename_i hcloses
        exact Or.inl ⟨hcloses, rfl⟩
      · rename_i hcloses
        exact Or.inr ⟨Bool.eq_false_iff.mpr hcloses, rfl⟩

/-- Placing a delimiter does not move the cursor. -/
theorem samePlace_placeDelimiter (input : LexInput) (state : LexState) (id : DelimiterId)
    (span : Span) (value : Option Literal) :
    SamePlace (input.placeDelimiter state id span value) state := by
  rcases placeDelimiter_cases input state id span value with
    ⟨-, -, hclose⟩ | ⟨-, hopen⟩ | ⟨-, hreport⟩ | ⟨-, hplain⟩
  · rw [hclose]
    exact (samePlace_closeContext _ _ _).trans (samePlace_pushToken _ _)
  · rw [hopen]
    exact samePlace_openContext _ _ _
  · rw [hreport]
    exact (samePlace_pushDelimiter _ _ _ _).trans ⟨rfl, rfl, rfl, rfl⟩
  · rw [hplain]
    exact samePlace_pushDelimiter _ _ _ _

theorem rest_flushText (state : LexState) : state.flushText.rest = state.rest := by
  unfold LexState.flushText
  split
  · rfl
  · exact (samePlace_pushToken _ _).rest

/-- The end of the plain text leaves the place in the text, and no text is in progress. -/
theorem samePlace_flushText (state : LexState) :
    state.flushText.cursor = state.cursor ∧ state.flushText.finished = state.finished ∧
      state.flushText.textStart = none := by
  unfold LexState.flushText
  split
  · exact ⟨rfl, rfl, ‹_›⟩
  · exact ⟨rfl, rfl, rfl⟩

/-- The end of the plain text leaves the contexts, what is built and what is reported. -/
theorem stack_flushText (state : LexState) : state.flushText.stack = state.stack := by
  unfold LexState.flushText
  split
  · rfl
  · rfl

theorem forest_flushText (state : LexState) : state.flushText.forest = state.forest := by
  unfold LexState.flushText
  split
  · rfl
  · rfl

theorem log_flushText (state : LexState) : state.flushText.log = state.log := by
  unfold LexState.flushText
  split
  · rfl
  · rfl

end Places

section Ending

variable {input} {state : LexState}

/-- Splitting off at least one byte takes away a character. -/
theorem length_splitReaching_lt {n : Nat} (hn : 0 < n) (c : Char) (cs : List Char) :
    (Text.splitReaching n (c :: cs)).2.length < (c :: cs).length := by
  have hle : ∀ (m : Nat) (text : List Char),
      (Text.splitReaching m text).2.length ≤ text.length := by
    intro m text
    induction text generalizing m with
    | nil => cases m <;> simp [Text.splitReaching]
    | cons a as ih =>
        cases m with
        | zero => simp [Text.splitReaching]
        | succ m =>
            have := ih (m + 1 - a.utf8Size)
            simp only [Text.splitReaching, List.length_cons]
            omega
  obtain ⟨m, rfl⟩ : ∃ m, n = m + 1 := ⟨n - 1, by omega⟩
  have := hle (m + 1 - c.utf8Size) cs
  simp only [Text.splitReaching, List.length_cons]
  omega

/-- A run that ends, when its last text is a token and its open contexts are reported. -/
def reported (input : LexInput) (state : LexState) : LexState :=
  { state.flushText with
    log := state.flushText.stack.reverse.foldl input.reportOpen state.flushText.log }

/-- A run ends in three moves: it reports what is open, closes it, and closes the root. -/
theorem stop_eq (hopen : state.finished = false) :
    input.stop state =
      (closeAll state.cursor (input.reported state).stack.length (input.reported state)).closeRoot
        state.cursor := by
  rw [stop, if_neg (by simp [hopen])]
  rfl

@[simp]
theorem finished_stop : (input.stop state).finished = true := by
  unfold stop
  split
  · assumption
  · rfl

/-- A step reads a character or ends the run. -/
theorem step_advances (input : LexInput) (hopen : state.finished = false) :
    (input.step state).finished = true ∨ (input.step state).rest.length < state.rest.length := by
  rcases step_cases input hopen with
    ⟨-, hstop⟩ | ⟨c, rest, hrest, ⟨-, hblank⟩ | ⟨id, -, hread⟩ | htext⟩
  · left
    rw [hstop, finished_stop]
  · right
    simp [hblank, LexState.advance, hrest]
  · right
    rw [hread, readDelimiter]
    simp only [(samePlace_placeDelimiter _ _ _ _ _).rest, LexState.advance, rest_flushText, hrest]
    exact length_splitReaching_lt (by omega) c rest
  · right
    simp [htext, LexState.advance, hrest]

theorem runSteps_of_finished (hdone : state.finished = true) (count : Nat) :
    input.runSteps count state = state := by
  induction count with
  | zero => rfl
  | succ count ih => rw [runSteps, step_of_finished input state hdone, ih]

theorem finished_runSteps (count : Nat) (hcount : state.rest.length < count) :
    (input.runSteps count state).finished = true := by
  induction count generalizing state with
  | zero => omega
  | succ count ih =>
      by_cases hdone : state.finished = true
      · rw [runSteps_of_finished hdone]
        exact hdone
      · rcases step_advances input (by simpa using hdone) with hdone' | hless
        · rw [runSteps, runSteps_of_finished hdone']
          exact hdone'
        · exact ih (by omega)

/-- A run to the end finishes. -/
theorem finished_final (input : LexInput) (calls : List LexCall) :
    (input.final calls).finished = true :=
  finished_runSteps _ (Nat.lt_succ_self _)

end Ending

end LexInput
end ExprLang
