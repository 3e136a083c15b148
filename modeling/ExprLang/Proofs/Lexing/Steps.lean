import ExprLang.Proofs.Lexing.Lookahead
import ExprLang.Proofs.Lexing.Reading

/-!
# Single steps

What a step does where it is known which of the three cases it is in, what is left to read of a
delimiter whose scan is known, and how runs are put together from steps.

Main results:
* `step_of_whitespace`, `step_of_delimiter`, `step_of_text`: the three cases;
* `exists_readDelimiter`, `readDelimiter_of_scan`: what is read of a delimiter;
* `exists_final_eq_stop`: what steps preserve holds where a lexer is stopped;
* `finish_of_size_le`: a text that is too large is not read;
* `run_eq_of_finished`, `lex_eq_stop`: a run to the end is any run that is finished.
-/

namespace ExprLang
namespace LexInput

variable {input : LexInput} {state : LexState}

section Cases

variable {c : Char} {rest : List Char} (hopen : state.finished = false)
  (hrest : state.rest = c :: rest)

include hopen hrest

/-- A blank ends the plain text. -/
theorem step_of_whitespace
    (hblank : input.table.isWhitespace (input.currentRules state) input.rules c = true) :
    input.step state = state.flushText.advance c.utf8Size rest := by
  unfold step
  simp only [hopen, hrest, hblank, Bool.false_eq_true, if_false, if_true]

/-- A delimiter ends the plain text and is read. -/
theorem step_of_delimiter {id : DelimiterId}
    (hblank : input.table.isWhitespace (input.currentRules state) input.rules c = false)
    (hfind : input.table.findIn (input.currentRules state) input.rules input.source state.cursor
      (c :: rest) state.textStart.isSome = some id) :
    input.step state = input.readDelimiter state.flushText id := by
  unfold step
  simp only [hopen, hrest, hblank, hfind, Bool.false_eq_true, if_false]

/-- Any other character is plain text. -/
theorem step_of_text
    (hblank : input.table.isWhitespace (input.currentRules state) input.rules c = false)
    (hfind : input.table.findIn (input.currentRules state) input.rules input.source state.cursor
      (c :: rest) state.textStart.isSome = none) :
    input.step state =
      { state with textStart := state.textStart <|> some state.cursor }.advance c.utf8Size
        rest := by
  unfold step
  simp only [hopen, hrest, hblank, hfind, Bool.false_eq_true, if_false]

/-- A step that is not at the end of the text does not finish the run. -/
theorem finished_step : (input.step state).finished = false := by
  have hflushed : state.flushText.finished = false := by
    unfold LexState.flushText
    split
    · exact hopen
    · exact hopen
  rcases step_cases input hopen with
    ⟨hnil, -⟩ | ⟨_, _, -, ⟨-, hblank⟩ | ⟨id, -, hread⟩ | htext⟩
  · rw [hrest] at hnil
    cases hnil
  · rw [hblank]
    exact hflushed
  · rw [hread, readDelimiter]
    simp only [(samePlace_placeDelimiter _ _ _ _ _).finished]
    split
    · exact hflushed
    · exact hflushed
  · rw [htext]
    exact hopen

end Cases

/-- In front of a character a step reads on. -/
theorem Reads.next (h : input.Reads state)
    (hrest : state.rest ≠ []) : input.Reads (input.step state) := by
  rcases h.step with hnext | hstop
  · exact hnext
  · obtain ⟨c, rest, hcons⟩ := List.exists_cons_of_ne_nil hrest
    have hopen : (input.step state).finished = false := finished_step h.unfinished hcons
    rw [hstop, finished_stop] at hopen
    cases hopen

/-- At the end of the text a step ends the run. -/
theorem step_of_rest_eq_nil (hopen : state.finished = false) (hrest : state.rest = []) :
    input.step state = input.stop state := by
  unfold step
  simp only [hopen, hrest, Bool.false_eq_true, if_false]

theorem stack_pushDelimiter (state : LexState) (id : DelimiterId) (span : Span)
    (value : Option Literal) : (pushDelimiter state id span value).stack = state.stack := by
  unfold pushDelimiter
  split
  · rfl
  · rfl

theorem flushText_of_eq_none (h : state.textStart = none) : state.flushText = state := by
  unfold LexState.flushText
  rw [h]

/-- A run that ends without an open context closes the root. -/
theorem stop_of_stack_eq_nil (hopen : state.finished = false) (hstack : state.stack = []) :
    input.stop state = state.flushText.closeRoot state.cursor := by
  have hnone : state.flushText.stack = [] := (stack_flushText state).trans hstack
  have hlog : state.flushText.stack.reverse.foldl input.reportOpen state.flushText.log =
      state.flushText.log := by
    rw [hnone]
    rfl
  have hreported : input.reported state = state.flushText := by rw [reported, hlog]
  rw [stop_eq hopen, hreported, hnone]
  rfl

/--
A delimiter is placed behind all that is read of it, which is its text unless it has a scan rule.
What the rule finds fault with is reported before.
-/
theorem exists_readDelimiter {id : DelimiterId} {c : Char} {text behind : List Char}
    (htext : (input.table.delimiter id).text = c :: text)
    (hrest : state.rest = c :: text ++ behind) :
    ∃ taken rest reported, taken ≠ [] ∧ state.rest = taken ++ rest ∧
      ((input.table.delimiter id).scan = none → taken = c :: text) ∧
      (reported = state ∨ ∃ error,
        ((input.table.delimiter id).scanAt input.source state.cursor).error = some error ∧
          reported = state.report .lex (.ofLength (state.cursor + error.offset) error.length)
            error.fault.message) ∧
      input.readDelimiter state id =
        input.placeDelimiter (reported.advance (Text.byteSize taken) rest) id
          (.ofLength state.cursor (Text.byteSize taken))
          ((input.table.delimiter id).scanAt input.source state.cursor).value := by
  have hsame : input.scanDelimiter state (input.table.delimiter id) =
      (input.table.delimiter id).scanAt input.source state.cursor := rfl
  have hbare : (input.table.delimiter id).scan = none →
      (input.table.delimiter id).scanAt input.source state.cursor =
        .plain (Text.byteSize (c :: text)) := by
    intro hnone
    unfold Delimiter.scanAt
    rw [hnone, htext]
  unfold readDelimiter
  simp only [hsame]
  generalize (input.table.delimiter id).scanAt input.source state.cursor = scan at *
  obtain ⟨taken, htaken, hsize⟩ := splitReaching_spec (max 1 scan.consumed) state.rest
  have hfirst := splitReaching_fst_pos (show 0 < max 1 scan.consumed by omega) c (text ++ behind)
  refine ⟨taken, (Text.splitReaching (max 1 scan.consumed) state.rest).2,
    scan.error.elim state fun error => state.report .lex
      (.ofLength (state.cursor + error.offset) error.length) error.fault.message,
    ?_, htaken, ?_, ?_, ?_⟩
  · rintro rfl
    rw [hrest] at hsize
    exact hfirst.ne hsize
  · intro hnone
    have hpos : 1 ≤ Text.byteSize (c :: text) :=
      (List.length_pos_of_ne_nil (List.cons_ne_nil c text)).trans_le (Text.length_le_byteSize _)
    have hconsumed : scan.consumed = Text.byteSize (c :: text) := by rw [hbare hnone]; rfl
    rw [hconsumed, Nat.max_eq_right hpos, hrest, Text.splitReaching_byteSize] at htaken
    exact (List.append_cancel_right htaken).symm
  · cases scan.error with
    | none => exact Or.inl rfl
    | some error => exact Or.inr ⟨error, rfl, rfl⟩
  · rw [hsize]
    cases scan.error with
    | none => rfl
    | some error => rfl

/-- A delimiter that is read without a fault is placed behind its text. -/
theorem readDelimiter_of_scan {id : DelimiterId} {head rest : List Char} {value : Option Literal}
    (hscan : (input.table.delimiter id).scanAt input.source state.cursor =
      ⟨Text.byteSize head, value, none⟩)
    (hrest : state.rest = head ++ rest) (hhead : head ≠ []) :
    input.readDelimiter state id =
      input.placeDelimiter (state.advance (Text.byteSize head) rest) id
        (.ofLength state.cursor (Text.byteSize head)) value := by
  have hpos : 1 ≤ Text.byteSize head :=
    (List.length_pos_of_ne_nil hhead).trans_le (Text.length_le_byteSize head)
  have hreached := Text.splitReaching_byteSize head rest
  have hsame : input.scanDelimiter state (input.table.delimiter id) =
      (input.table.delimiter id).scanAt input.source state.cursor := rfl
  unfold readDelimiter
  simp only [hsame, hscan, Nat.max_eq_right hpos, hrest, hreached]

/-- A delimiter without a scan rule is placed behind its text. -/
theorem readDelimiter_of_isNone {id : DelimiterId} {head rest : List Char}
    (hscan : (input.table.delimiter id).scan.isNone = true)
    (htext : (input.table.delimiter id).text = head) (hrest : state.rest = head ++ rest)
    (hhead : head ≠ []) :
    input.readDelimiter state id =
      input.placeDelimiter (state.advance (Text.byteSize head) rest) id
        (.ofLength state.cursor (Text.byteSize head)) none := by
  refine readDelimiter_of_scan ?_ hrest hhead
  unfold Delimiter.scanAt
  rw [Option.isNone_iff_eq_none.mp hscan, htext]
  rfl

section Placing

variable {id : DelimiterId} (span : Span) (value : Option Literal)

/-- A delimiter that ends the innermost context closes it. -/
theorem placeDelimiter_of_belongs (hcloses : (input.table.delimiter id).closes = true)
    (hbelongs : input.belongsToInnermost state (input.table.delimiter id) = true) :
    input.placeDelimiter state id span value =
      (state.pushToken ⟨span, .node state.currentNode⟩).closeContext (some id) span.stop := by
  unfold placeDelimiter
  simp only [hcloses, hbelongs, Bool.and_self, if_true]

/-- A delimiter that only opens contexts opens its own. -/
theorem placeDelimiter_of_opens (hcloses : (input.table.delimiter id).closes = false)
    (hopens : (input.table.delimiter id).opens = true) :
    input.placeDelimiter state id span value = input.openContext state id span := by
  unfold placeDelimiter
  simp only [hcloses, hopens, Bool.false_and, Bool.false_eq_true, if_false, if_true]

/-- A delimiter that only closes contexts, but not the innermost one, is reported. -/
theorem placeDelimiter_of_stray (hcloses : (input.table.delimiter id).closes = true)
    (hopens : (input.table.delimiter id).opens = false)
    (hbelongs : input.belongsToInnermost state (input.table.delimiter id) = false) :
    input.placeDelimiter state id span value =
      pushDelimiter
        (state.report .structural span
          (ContextFault.unexpectedCloser (String.ofList (input.table.delimiter id).text)).message)
        id span value := by
  unfold placeDelimiter
  simp only [hcloses, hopens, hbelongs, Bool.and_false, Bool.false_eq_true, if_false, if_true]

/-- A delimiter that neither opens nor closes contexts is a token. -/
theorem placeDelimiter_of_token (hcloses : (input.table.delimiter id).closes = false)
    (hopens : (input.table.delimiter id).opens = false) :
    input.placeDelimiter state id span value = pushDelimiter state id span value := by
  unfold placeDelimiter
  simp only [hcloses, hopens, Bool.false_and, Bool.false_eq_true, if_false]

/-- A context that is opened is the innermost one; nothing is reported. -/
theorem exists_openContext {rules : RuleSetId}
    (hfind : (input.table.delimiter id).contextName?.bind input.table.find? = some rules) :
    ∃ node, (input.openContext state id span).stack =
        ⟨node, rules, id, state.pending.size, span.start⟩ :: state.stack ∧
      (input.openContext state id span).log = state.log := by
  unfold openContext
  simp only [hfind]
  exact ⟨_, rfl, rfl⟩

end Placing

/--
What holds before the first step, and is preserved by steps in front of a character, holds in the
state that a lexer is in when it is stopped.
-/
theorem exists_final_eq_stop {P : LexState → Prop} (hsize : input.source.size < Span.offsetCount)
    (hfresh : P input.fresh)
    (hstep : ∀ s c rest, input.Reads s → P s → s.rest = c :: rest → P (input.step s))
    (calls : List LexCall) :
    ∃ last, input.Reads last ∧ P last ∧ input.final calls = input.stop last := by
  have hrun : (input.Reads (input.final calls) ∧ P (input.final calls)) ∨
      ∃ last, input.Reads last ∧ P last ∧ input.final calls = input.stop last := by
    refine final_induction (P := fun s => (input.Reads s ∧ P s) ∨
      ∃ last, input.Reads last ∧ P last ∧ s = input.stop last) ?_ ?_ ?_ calls
    · have hstart : input.start = input.fresh := if_pos hsize
      rw [hstart]
      exact Or.inl ⟨reads_fresh input, hfresh⟩
    · rintro s (⟨hreads, hs⟩ | ⟨last, hreads, hs, rfl⟩)
      · cases hrest : s.rest with
        | nil => exact Or.inr ⟨s, hreads, hs, step_of_rest_eq_nil hreads.unfinished hrest⟩
        | cons c rest =>
            exact Or.inl ⟨hreads.next (by simp [hrest]), hstep s c rest hreads hs hrest⟩
      · exact Or.inr ⟨last, hreads, hs, step_of_finished input _ finished_stop⟩
    · rintro s (⟨hreads, hs⟩ | ⟨last, hreads, hs, rfl⟩)
      · exact Or.inr ⟨s, hreads, hs, rfl⟩
      · exact Or.inr ⟨last, hreads, hs, stop_of_finished input _ finished_stop⟩
  rcases hrun with ⟨hreads, -⟩ | hstopped
  · have hdone := finished_final input calls
    rw [hreads.unfinished] at hdone
    cases hdone
  · exact hstopped

/-- A text that is too large has nothing in it, and no other report than that it is. -/
theorem finish_of_size_le (input : LexInput) (h : Span.offsetCount ≤ input.source.size)
    (calls : List LexCall) :
    input.finish calls = ⟨input.fresh.forest.closeNode Forest.root #[] none 0,
      (Log.ofSource input.source).report .lex (.point 0) (tooLargeMessage input.source.size)⟩ := by
  have hstart : input.start = { input.fresh with
      forest := input.fresh.forest.closeNode Forest.root #[] none 0
      log := input.fresh.log.report .lex (.point 0) (tooLargeMessage input.source.size)
      finished := true } := if_neg (Nat.not_lt.mpr h)
  have hdone : input.start.finished = true := by rw [hstart]
  have hfinal : input.final calls = input.start := by
    refine final_induction (P := fun s => s = input.start) rfl ?_ ?_ calls
    · rintro s rfl
      exact step_of_finished input _ hdone
    · rintro s rfl
      exact stop_of_finished input _ hdone
  unfold finish
  rw [hfinal, hstart]
  rfl

/-- A run to the end is any run that is finished. -/
theorem run_eq_of_finished {count : Nat} (h : (input.runSteps count state).finished = true) :
    input.run state = input.runSteps count state := by
  have hrun : (input.runSteps (state.rest.length + 1) state).finished = true :=
    finished_runSteps _ (Nat.lt_succ_self _)
  have hboth := runSteps_add input state (state.rest.length + 1) count
  rw [runSteps_of_finished hrun, Nat.add_comm, runSteps_add, runSteps_of_finished h] at hboth
  exact hboth.symm

/-- A text that has been read is read as it is when the run ends there. -/
theorem lex_eq_stop (hsize : input.source.size < Span.offsetCount) {count : Nat}
    (hopen : (input.runSteps count input.fresh).finished = false)
    (hrest : (input.runSteps count input.fresh).rest = []) :
    input.lex = (input.stop (input.runSteps count input.fresh)).output := by
  have hlast : input.runSteps (count + 1) input.fresh =
      input.stop (input.runSteps count input.fresh) := by
    rw [runSteps_add]
    exact step_of_rest_eq_nil hopen hrest
  have hdone : (input.runSteps (count + 1) input.fresh).finished = true := by
    rw [hlast]
    exact finished_stop
  have hstart : input.start = input.fresh := if_pos hsize
  rw [lex, hstart, run_eq_of_finished hdone, hlast]

end LexInput
end ExprLang
