import ExprLang.Proofs.Lexing.Access

/-!
# Reading stays within the text

Whatever a lexer of the built-in grammars has been asked, its next step makes no access out of range
or off a character boundary, and as long as the run goes on it goes to a later place of the text. So
there are no more steps than characters, and one that ends the run. What the scan rules have read
need not be corrected.

Main definitions:
* `LexInput.Advances`: going on to a later place.

Main results:
* `LexInput.reads_after`: the invariant of a lexer that is not finished;
* `LexInput.step_withinText`: what the next step does, and what scan rules read.
-/

namespace ExprLang

/-- What is read where a delimiter with a rule stands are whole characters of the text. -/
theorem Delimiter.Known.exact_rule {d : Delimiter} (hd : d.Known) {rule : ScanRule}
    (hscan : d.scan = some rule) {source : Source} {index : Nat}
    (hat : d.isAt source index = true) :
    (∃ builtin : ScanRules.Builtin, builtin.rule = rule ∧
      builtin.scan? source index = some (rule source index)) ∧
        (rule source index).Exact source index := by
  unfold isAt at hat
  split at hat
  · cases hat
  · rename_i rest hdrop
    have hplace := Source.isAt_of_drop? hdrop
    obtain ⟨behind, rfl⟩ := Text.startsWith_iff.mp (Bool.and_eq_true_iff.mp hat).1
    have hsame : d.scanAt source index = rule source index := by
      unfold scanAt
      rw [hscan]
    have hrule := hd.scan_eq
    rw [hscan] at hrule
    obtain ⟨builtin, hbuiltin, rfl⟩ := Option.map_eq_some_iff.mp hrule.symm
    refine ⟨⟨builtin, rfl, ?_⟩, ?_⟩
    · obtain ⟨more, hmore⟩ := mark_isPrefix hbuiltin
      rw [← hmore, List.append_assoc] at hplace
      exact ScanRules.Builtin.scan?_eq hplace.behind
    · have hruled : d.scan ≠ none := by simp [hscan]
      exact hsame ▸ hplace.exact (hd.takes_scanAt (absurd · hruled) hplace hat)

namespace LexInput

/-- One state is at a later place of the text than another one. -/
structure Advances (source : Source) (before after : LexState) : Prop where
  forward : before.cursor < after.cursor
  inside : after.cursor ≤ source.size
  boundary : (source.drop? after.cursor).isSome = true

variable {input : LexInput} {state : LexState}

/-- What is left of the text is shorter, so that more of it is in front of the cursor. -/
theorem Reads.advances {before after : LexState} (h : input.Reads before) (h' : input.Reads after)
    (hless : after.rest.length < before.rest.length) : Advances input.source before after := by
  obtain ⟨front, hchars, hfront⟩ := h.place
  have hat : input.source.IsAt after.cursor after.rest := h'.place
  obtain ⟨front', hchars', hfront'⟩ := h'.place
  refine ⟨?_, ?_, ?_⟩
  · have hlength := congrArg List.length (hchars.symm.trans hchars')
    rw [List.length_append, List.length_append] at hlength
    obtain ⟨more, rfl⟩ : front <+: front' := by
      refine List.prefix_of_prefix_length_le ⟨before.rest, hchars.symm⟩
        ⟨after.rest, hchars'.symm⟩ ?_
      omega
    have hmore : more ≠ [] := by
      rintro rfl
      rw [List.append_nil] at hlength
      omega
    have hpos := (List.length_pos_of_ne_nil hmore).trans_le (Text.length_le_byteSize more)
    rw [← hfront, ← hfront', Text.byteSize_append]
    exact Nat.lt_add_of_pos_right hpos
  · rw [hat.size_eq]
    exact Nat.le_add_right _ _
  · rw [hat.drop?_eq]
    rfl

/-- A step that does not end the run goes on. -/
theorem Reads.advances_step (h : input.Reads state)
    (hopen : (input.step state).finished = false) :
    Advances input.source state (input.step state) := by
  rcases h.step with hreads | hstop
  · rcases step_advances input h.unfinished with hdone | hless
    · rw [hopen] at hdone
      cases hdone
    · exact h.advances hreads hless
  · rw [hstop, finished_stop] at hopen
    cases hopen

/-- A lexer that is not finished is at a place of the text, and keeps only numbers in range. -/
theorem reads_after (hindexed : input.table.Indexed) (calls : List LexCall)
    (hopen : (input.after calls).finished = false) :
    input.Reads (input.after calls) ∧ input.InRange (input.after calls) := by
  have hsound : (input.after calls).finished = false →
      input.Reads (input.after calls) ∧ input.InRange (input.after calls) := by
    refine after_induction (P := fun s => s.finished = false → input.Reads s ∧ input.InRange s)
      ?_ ?_ ?_ calls
    · unfold start
      split
      · exact fun _ => ⟨reads_fresh input, .fresh input⟩
      · exact fun hdone => (nomatch hdone)
    · intro s ih hnext
      by_cases hdone : s.finished = false
      · obtain ⟨hreads, hrange⟩ := ih hdone
        rcases hreads.step with hreads' | hstop
        · exact ⟨hreads', hrange.step hindexed hnext⟩
        · rw [hstop, finished_stop] at hnext
          cases hnext
      · rw [step_of_finished input s (by simpa using hdone)] at hnext
        exact absurd hnext hdone
    · intro s _ hnext
      rw [finished_stop] at hnext
      cases hnext
  exact hsound hopen

/-- What the next step of a lexer does, whatever it has been asked, if all delimiters are known. -/
theorem step?_after (hindexed : input.table.Indexed)
    (hknown : ∀ id, (input.table.delimiter id).Known)
    (hrules : input.rules.index < input.table.length) (calls : List LexCall) :
    input.step? (input.after calls) = some (input.step (input.after calls)) ∧
    ((input.step (input.after calls)).finished = false →
      Advances input.source (input.after calls) (input.step (input.after calls))) ∧
    (input.runSteps (input.source.chars.length + 1) (input.after calls)).finished = true := by
  cases hdone : (input.after calls).finished with
  | true =>
      have hsame := step_of_finished input _ hdone
      refine ⟨by rw [hsame, step?, if_pos hdone], fun hopen => ?_, ?_⟩
      · rw [hsame, hdone] at hopen
        cases hopen
      · rw [runSteps_of_finished hdone, hdone]
  | false =>
      obtain ⟨hreads, hrange⟩ := reads_after hindexed calls hdone
      have hrest : (input.after calls).rest.length < input.source.chars.length + 1 := by
        obtain ⟨before, hchars, -⟩ := hreads.place
        rw [hchars, List.length_append]
        omega
      exact ⟨step?_eq hrange hreads hindexed hknown hrules, hreads.advances_step,
        finished_runSteps _ hrest⟩

/--
Whatever a lexer of the built-in grammars has been asked: its next step makes no access out of range
or off a character boundary, and does not have to correct a scan rule; it goes to a later place of
the text, unless it ends the run; and there are at most as many steps as characters before the one
that ends it. Where a delimiter with a scan rule stands, the rule takes parts of the text only, and
reads whole characters.
-/
theorem step_withinText (source : Source) (rules : RuleSetId)
    (hrules : rules.index < Grammar.builtin.length) (calls : List LexCall) :
    let input : LexInput := ⟨Grammar.builtin, source, rules⟩
    let state := input.after calls
    input.step? state = some (input.step state) ∧
    ((input.step state).finished = false → Advances source state (input.step state)) ∧
    (input.runSteps (source.chars.length + 1) state).finished = true ∧
    ∀ id rule, (Grammar.builtin.delimiter id).scan = some rule →
      ∀ index, (Grammar.builtin.delimiter id).isAt source index = true →
        (∃ builtin : ScanRules.Builtin, builtin.rule = rule ∧
          builtin.scan? source index = some (rule source index)) ∧
        (rule source index).Exact source index := by
  intro input state
  obtain ⟨definitions, hdeclared⟩ := RuleSetTable.exists_declared_builtin
  have hindexed : input.table.Indexed := hdeclared.indexed
  obtain ⟨hstep, hadvances, hfinished⟩ :=
    step?_after hindexed Grammar.known_delimiter hrules calls
  exact ⟨hstep, hadvances, hfinished, fun id rule hscan index hat =>
    (Grammar.known_delimiter id).exact_rule hscan hat⟩

/-- Behind the quote of a text literal a step reads an escape of one digit, up to the `é`. -/
theorem step_withinText_escape :
    Language.startRules.index < Grammar.builtin.length ∧
      (Language.input "'\\x4é").step? ((Language.input "'\\x4é").after [.step]) =
        some ((Language.input "'\\x4é").after [.step, .step]) ∧
      ((Language.input "'\\x4é").after [.step, .step]).cursor = 4 ∧
      ((Language.input "'\\x4é").runSteps 6 ((Language.input "'\\x4é").after [.step])).finished =
        true := by
  have hrules : Language.startRules.index < Grammar.builtin.length := by decide +kernel
  obtain ⟨hstep, -, hfinished, -⟩ :=
    step_withinText (.ofString "'\\x4é") Language.startRules hrules [.step]
  exact ⟨hrules, hstep, by decide +kernel, hfinished⟩

end LexInput
end ExprLang
