import ExprLang.Proofs.Grammar.Brackets
import ExprLang.Proofs.Lexing.Enclosure

/-!
# Reading brackets

A text of letters, blanks and brackets is read with the open contexts as the stack of the brackets
that are open. A closing bracket that does not match the innermost one is reported and stays a
token; at the end the contexts that are still open are reported, the outermost one first. So the
reports are those of the brackets that keep the text from being balanced.

Main definitions:
* `IsBracketText`: the characters of such a text;
* `LexInput.InBrackets`: a state in which these brackets are open.

Main results:
* `InBrackets.opener_next`, `InBrackets.closer_next`, `InBrackets.ignored_next`: the steps at
  brackets;
* `InBrackets.runSteps`: a run to the end;
* `lex_brackets`: the reports on a whole text.
-/

namespace ExprLang

/-- A letter, a blank or a bracket. -/
def IsBracketText (c : Char) : Prop :=
  c.isAlpha = true ∨ c = ' ' ∨ (Text.closerOf? c).isSome = true ∨ Text.isCloser c = true

instance : DecidablePred IsBracketText := fun c =>
  inferInstanceAs (Decidable (c.isAlpha = true ∨ c = ' ' ∨ _ ∨ _))

/-- The report on a closing bracket that does not match the innermost open one. -/
def Log.ignoredBracket (log : Log) (bracket : Text.BracketAt) : Diagnostic :=
  log.entry .structural (.ofLength bracket.1 1)
    (ContextFault.unexpectedCloser (String.ofList [bracket.2])).message

/-- The report on a bracket that is still open at the end. -/
def Log.unclosedBracket (log : Log) (bracket : Text.BracketAt) : Diagnostic :=
  log.entry .lex (.ofLength bracket.1 1)
    (ContextFault.missingCloser (String.ofList [bracket.2])).message

namespace LexInput

open Grammar Text

/-- An open context is that of an opening bracket. -/
def OpensAt (context : OpenContext) (bracket : BracketAt) : Prop :=
  context.start = bracket.1 ∧ ∃ pair ∈ bracketPairs, pair.opener = bracket.2 ∧
    context.rules = pair.rules ∧ context.opener = bracketId pair.opener

/-- The contexts that are open at the end are reported as the brackets are. -/
theorem toList_reportOpen {source : Source} {rules : RuleSetId} {contexts : List OpenContext}
    {brackets : List BracketAt} (hcontexts : contexts.Forall₂ OpensAt brackets) {log : Log}
    (hlines : log.lines = (Log.ofSource source).lines) :
    (contexts.foldl (reportOpen ⟨builtin, source, rules⟩) log).entries.toList =
      log.entries.toList ++ brackets.map (Log.ofSource source).unclosedBracket := by
  rw [(foldl_reportOpen _ _ _).2]
  congr 1
  induction hcontexts with
  | nil => rfl
  | @cons context bracket contexts brackets hopens _ ih =>
      obtain ⟨hstart, pair, hpair, hbracket, hrules, hopener⟩ := hopens
      have hclass := (BracketPair.context_rules hpair).2.2.2
      have htext := (delimiter_bracket hpair List.mem_cons_self).1
      have hsize : Text.byteSize [pair.opener] = 1 := utf8Size_bracket hpair List.mem_cons_self
      have hneeds : needsCloser ⟨builtin, source, rules⟩ context = true := by
        simp only [needsCloser, hrules, hclass, Bool.not_false]
      have hreport : missingCloser ⟨builtin, source, rules⟩ log context =
          (Log.ofSource source).unclosedBracket bracket := by
        unfold missingCloser Log.unclosedBracket
        simp only [hopener, htext, hsize, hstart, ← hbracket]
        exact Log.entry_congr hlines _ _ _
      rw [List.filter_cons_of_pos hneeds, List.map_cons, List.map_cons, hreport, ih]

/-- The reports on what keeps a text from being balanced. -/
def bracketReports (log : Log) (faults : BracketFaults) : List Diagnostic :=
  faults.ignored.map log.ignoredBracket ++ faults.unclosed.reverse.map log.unclosedBracket

/--
The open contexts are those of the brackets that are open. What has been reported, and what is to be
reported on the text that is left, is what is expected.
-/
structure InBrackets (source : Source) (rules : RuleSetId) (expected : List Diagnostic)
    (state : LexState) (opened : List BracketAt) : Prop where
  reads : LexInput.Reads ⟨builtin, source, rules⟩ state
  text : ∀ c ∈ state.rest, IsBracketText c
  contexts : state.stack.Forall₂ OpensAt opened
  lines : state.log.lines = (Log.ofSource source).lines
  reports : state.log.entries.toList ++ bracketReports (Log.ofSource source)
    (readBrackets state.cursor opened state.rest) = expected

namespace InBrackets

variable {source : Source} {rules : RuleSetId} {state : LexState} {opened : List BracketAt}
  {expected : List Diagnostic} (hrules : IsTopLevel rules)
  (h : InBrackets source rules expected state opened)

include h

section Lookups

/-- The open contexts inherit from where the text starts. -/
theorem currentRules_cases :
    currentRules ⟨builtin, source, rules⟩ state = rules ∨
      Inherits (currentRules ⟨builtin, source, rules⟩ state) := by
  unfold currentRules
  split
  · exact Or.inl rfl
  · rename_i context _ hstack
    have hcontexts := h.contexts
    rw [hstack] at hcontexts
    cases hcontexts with
    | cons hopens _ =>
        obtain ⟨-, pair, hpair, -, hpairRules, -⟩ := hopens
        right
        rw [hpairRules]
        exact (BracketPair.context_rules hpair).2.2.1

theorem findIn_eq (index : Nat) (rest : List Char) (started : Bool) :
    builtin.findIn (currentRules ⟨builtin, source, rules⟩ state) rules source index rest started =
      builtin.findIn rules rules source index rest started := by
  rcases h.currentRules_cases with heq | hinherits
  · rw [heq]
  · exact hinherits.findIn_eq rules source index rest started

include hrules in
theorem isWhitespace_eq (c : Char) :
    builtin.isWhitespace (currentRules ⟨builtin, source, rules⟩ state) rules c =
      whitespace.contains c := by
  rw [← hrules.isWhitespace_eq]
  rcases h.currentRules_cases with heq | hinherits
  · rw [heq]
  · exact hinherits.isWhitespace_eq rules c

/-- A closing bracket belongs to the innermost context if it closes the innermost bracket. -/
theorem belongsToInnermost_eq {pair : BracketPair} (hpair : pair ∈ bracketPairs) {past : LexState}
    (hstack : past.stack = state.stack) :
    belongsToInnermost ⟨builtin, source, rules⟩ past
        (builtin.delimiter (bracketId pair.closer)) = closesInnermost opened pair.closer := by
  have hname := (BracketPair.delimiter_closer hpair).2.2
  have hcontexts := h.contexts
  unfold belongsToInnermost
  rw [hstack, hname]
  generalize state.stack = stack at hcontexts
  cases hcontexts with
  | nil => rfl
  | @cons context bracket stack opened hopens _ =>
      obtain ⟨-, other, hother, hopener, hotherRules, -⟩ := hopens
      have hcontext := (BracketPair.context_rules hother).2.1
      simp only [closesInnermost]
      rw [hotherRules, hcontext, Bool.eq_iff_iff, beq_iff_eq, decide_eq_true_iff, ← hopener,
        closerOf?_eq_some_iff]
      constructor
      · intro heq
        exact ⟨other, hother, rfl, by rw [BracketPair.eq_of_eq hother hpair (Or.inl heq)]⟩
      · rintro ⟨third, hthird, hopener, hcloser⟩
        rw [← BracketPair.eq_of_eq hthird hother (Or.inr (Or.inl hopener)),
          BracketPair.eq_of_eq hthird hpair (Or.inr (Or.inr hcloser))]

end Lookups

section Passing

/-- A text without brackets is passed over, and nothing is reported. -/
theorem passed {next : LexState} (taken : List Char)
    (hreads : LexInput.Reads ⟨builtin, source, rules⟩ next) (hstack : next.stack = state.stack)
    (hlog : next.log = state.log) (hsplit : state.rest = taken ++ next.rest)
    (htaken : ∀ c ∈ taken, closerOf? c = none ∧ isCloser c = false)
    (hcursor : next.cursor = state.cursor + taken.length) :
    InBrackets source rules expected next opened where
  reads := hreads
  text := fun c hc => h.text c (hsplit ▸ List.mem_append_right taken hc)
  contexts := hstack ▸ h.contexts
  lines := hlog ▸ h.lines
  reports := by
    rw [← h.reports, hsplit, readBrackets_append (balanced_of_forall htaken), hcursor, hlog]

end Passing

section Steps

variable {c : Char} {rest : List Char} (hrest : state.rest = c :: rest)

include hrest

theorem reads_step :
    LexInput.Reads ⟨builtin, source, rules⟩ (step ⟨builtin, source, rules⟩ state) :=
  h.reads.next (by simp [hrest])

include hrules

/-- A blank is passed over. -/
theorem blank_next (hc : c = ' ') :
    InBrackets source rules expected (step ⟨builtin, source, rules⟩ state) opened := by
  subst hc
  have hreads := h.reads_step hrest
  have hwhitespace : whitespace.contains ' ' = true := by decide
  have hblank := (h.isWhitespace_eq hrules ' ').trans hwhitespace
  have hstep := step_of_whitespace h.reads.unfinished hrest hblank
  rw [hstep] at hreads ⊢
  refine h.passed [' '] hreads (stack_flushText state) (log_flushText state) hrest
    (List.forall_mem_singleton.mpr (by decide)) ?_
  exact congrArg (· + 1) (samePlace_flushText state).1

/-- A letter is text, or a word that is read. -/
theorem word_next (hc : c.isAlpha = true) :
    InBrackets source rules expected (step ⟨builtin, source, rules⟩ state) opened := by
  have hreads := h.reads_step hrest
  have hblank := (h.isWhitespace_eq hrules c).trans (not_bracket_of_isAlpha hc).1
  have hplain : ∀ a : Char, a.isAlpha = true → closerOf? a = none ∧ isCloser a = false :=
    fun a ha => (not_bracket_of_isAlpha ha).2
  cases hfind : builtin.findIn (currentRules ⟨builtin, source, rules⟩ state) rules source
      state.cursor (c :: rest) state.textStart.isSome with
  | none =>
      have hstep : step ⟨builtin, source, rules⟩ state = _ :=
        step_of_text h.reads.unfinished hrest hblank hfind
      rw [hstep] at hreads ⊢
      refine h.passed [c] hreads rfl rfl hrest (by simpa using hplain c hc) ?_
      exact congrArg (state.cursor + ·) (utf8Size_of_isAlpha hc)
  | some id =>
      obtain ⟨text, behind, htext, rfl⟩ := exists_text_of_findIn hfind
      have hat : source.IsAt state.cursor (c :: text ++ behind) := by
        rw [List.cons_append, ← hrest]
        exact h.reads.place
      obtain ⟨hopens, hcloses, hletters⟩ := delimiter_word htext hc
      obtain ⟨value, hscan⟩ := scanAt_word htext hc hat
      have hcursor := (samePlace_flushText state).1
      rw [← hcursor] at hscan
      have hstep : step ⟨builtin, source, rules⟩ state = _ :=
        step_of_delimiter h.reads.unfinished hrest hblank hfind
      rw [readDelimiter_of_scan hscan ((rest_flushText state).trans hrest) (List.cons_ne_nil _ _),
        placeDelimiter_of_token _ _ hcloses hopens] at hstep
      have hplace := samePlace_pushDelimiter
        (state.flushText.advance (Text.byteSize (c :: text)) behind) id
        (.ofLength state.flushText.cursor (Text.byteSize (c :: text))) value
      rw [← hstep] at hplace
      rw [htext] at hletters
      refine h.passed (c :: text) hreads ?_ ?_ ?_ ?_ ?_
      · rw [hstep, stack_pushDelimiter]
        exact stack_flushText state
      · rw [hstep, log_pushDelimiter]
        exact log_flushText state
      · rw [hrest, hplace.rest]
        rfl
      · exact fun a ha => hplain a (hletters a ha)
      · rw [hplace.cursor, ← byteSize_eq_length fun a ha => utf8Size_of_isAlpha (hletters a ha),
          ← hcursor]
        rfl

/-- A bracket is read as it is. -/
theorem step_bracket {pair : BracketPair} (hpair : pair ∈ bracketPairs)
    (hc : c ∈ [pair.opener, pair.closer]) :
    step ⟨builtin, source, rules⟩ state =
      placeDelimiter ⟨builtin, source, rules⟩ (state.flushText.advance 1 rest) (bracketId c)
        (.ofLength state.cursor 1) none := by
  obtain ⟨htext, -, hscan, -, hblank⟩ := delimiter_bracket hpair hc
  obtain ⟨hcursor, -⟩ := samePlace_flushText state
  have hsize : Text.byteSize [c] = 1 := utf8Size_bracket hpair hc
  have hread := @readDelimiter_of_isNone ⟨builtin, source, rules⟩ state.flushText (bracketId c) [c]
    rest hscan htext ((rest_flushText state).trans hrest) (List.cons_ne_nil c [])
  rw [hsize, hcursor] at hread
  rw [← hread]
  refine step_of_delimiter h.reads.unfinished hrest ?_ ?_
  · exact (h.isWhitespace_eq hrules c).trans hblank
  · exact (h.findIn_eq _ _ _).trans (hrules.findIn_bracket hpair hc _ _ _ _)

/-- After a bracket the text is read up to behind it. -/
theorem place_step {pair : BracketPair} (hpair : pair ∈ bracketPairs)
    (hc : c ∈ [pair.opener, pair.closer]) :
    (step ⟨builtin, source, rules⟩ state).cursor = state.cursor + 1 ∧
      (step ⟨builtin, source, rules⟩ state).rest = rest := by
  have hplace := samePlace_placeDelimiter ⟨builtin, source, rules⟩
    (state.flushText.advance 1 rest) (bracketId c) (.ofLength state.cursor 1) none
  rw [h.step_bracket hrules hrest hpair hc, hplace.cursor, hplace.rest]
  exact ⟨congrArg (· + 1) (samePlace_flushText state).1, rfl⟩

/-- An opening bracket opens its context. -/
theorem opener_next {pair : BracketPair} (hpair : pair ∈ bracketPairs) (hc : c = pair.opener) :
    InBrackets source rules expected (step ⟨builtin, source, rules⟩ state)
      ((state.cursor, c) :: opened) := by
  have hmem : c ∈ [pair.opener, pair.closer] := by simp [hc]
  obtain ⟨hcursor, hbehind⟩ := h.place_step hrules hrest hpair hmem
  obtain ⟨hopens, hcloses, hname⟩ := BracketPair.delimiter_opener hpair
  have hopener : (closerOf? c).isSome = true :=
    Option.isSome_iff_exists.mpr ⟨_, closerOf?_eq_some_iff.mpr ⟨pair, hpair, hc.symm, rfl⟩⟩
  rw [← hc] at hopens hcloses hname
  have hstep := h.step_bracket hrules hrest hpair hmem
  rw [placeDelimiter_of_opens _ _ hcloses hopens] at hstep
  have hfind : (builtin.delimiter (bracketId c)).contextName?.bind builtin.find? =
      some pair.rules := by
    rw [hname]
    exact (BracketPair.context_rules hpair).1
  obtain ⟨node, hstack, hlog⟩ := @exists_openContext ⟨builtin, source, rules⟩
    (state.flushText.advance 1 rest) _ (.ofLength state.cursor 1) _ hfind
  rw [← hstep] at hstack hlog
  have hlog : (step ⟨builtin, source, rules⟩ state).log = state.log :=
    hlog.trans (log_flushText state)
  refine ⟨h.reads_step hrest, ?_, ?_, hlog ▸ h.lines, ?_⟩
  · rw [hbehind]
    exact fun a ha => h.text a (hrest ▸ List.mem_cons_of_mem c ha)
  · rw [hstack]
    refine .cons ⟨rfl, pair, hpair, hc.symm, rfl, by rw [hc]⟩ ?_
    exact (stack_flushText state).symm ▸ h.contexts
  · rw [← h.reports, hrest, readBrackets_opener hopener, hlog, hcursor, hbehind]

/-- A closing bracket closes the innermost context if it matches. -/
theorem closer_next {pair : BracketPair} (hpair : pair ∈ bracketPairs) (hc : c = pair.closer)
    (hinnermost : closesInnermost opened c = true) :
    InBrackets source rules expected (step ⟨builtin, source, rules⟩ state) opened.tail := by
  have hmem : c ∈ [pair.opener, pair.closer] := by simp [hc]
  obtain ⟨hcursor, hbehind⟩ := h.place_step hrules hrest hpair hmem
  obtain ⟨-, hcloses, -⟩ := BracketPair.delimiter_closer hpair
  have hflushed : (state.flushText.advance 1 rest).stack = state.stack := stack_flushText state
  have hbelongs := h.belongsToInnermost_eq hpair hflushed
  rw [← hc] at hcloses hbelongs
  have hstep := h.step_bracket hrules hrest hpair hmem
  rw [placeDelimiter_of_belongs _ _ hcloses (hbelongs.trans hinnermost)] at hstep
  cases hopened : opened with
  | nil =>
      rw [hopened] at hinnermost
      cases hinnermost
  | cons bracket outer =>
      rw [hopened] at hinnermost
      have hcontexts := h.contexts
      have hreports := h.reports
      rw [hrest, hopened, readBrackets_closer (of_decide_eq_true hinnermost)] at hreports
      rw [hopened] at hcontexts
      obtain ⟨context, contexts, -, houter, hstack⟩ :=
        List.forall₂_cons_right_iff.mp hcontexts
      have hlog : (step ⟨builtin, source, rules⟩ state).log = state.log := by
        rw [hstep, log_closeContext]
        exact log_flushText state
      have houtside : (step ⟨builtin, source, rules⟩ state).stack = contexts := by
        rw [hstep, stack_closeContext]
        exact congrArg List.tail (hflushed.trans hstack)
      refine ⟨h.reads_step hrest, ?_, houtside ▸ houter, hlog ▸ h.lines, ?_⟩
      · rw [hbehind]
        exact fun a ha => h.text a (hrest ▸ List.mem_cons_of_mem c ha)
      · rw [← hreports, hlog, hcursor, hbehind]
        rfl

/-- A closing bracket that does not match is reported. -/
theorem ignored_next {pair : BracketPair} (hpair : pair ∈ bracketPairs) (hc : c = pair.closer)
    (hinnermost : closesInnermost opened c = false) :
    InBrackets source rules expected (step ⟨builtin, source, rules⟩ state) opened := by
  have hmem : c ∈ [pair.opener, pair.closer] := by simp [hc]
  obtain ⟨hcursor, hbehind⟩ := h.place_step hrules hrest hpair hmem
  obtain ⟨hopens, hcloses, -⟩ := BracketPair.delimiter_closer hpair
  obtain ⟨htext, -⟩ := delimiter_bracket hpair hmem
  have hflushed : (state.flushText.advance 1 rest).stack = state.stack := stack_flushText state
  have hbelongs := h.belongsToInnermost_eq hpair hflushed
  have hcloser : closerOf? c = none ∧ isCloser c = true := by
    have hpaired : closerOf? pair.opener = some c :=
      closerOf?_eq_some_iff.mpr ⟨pair, hpair, rfl, hc.symm⟩
    exact (isCloser_of_closerOf? hpaired).symm
  rw [← hc] at hopens hcloses hbelongs
  have hstep := h.step_bracket hrules hrest hpair hmem
  rw [placeDelimiter_of_stray _ _ hcloses hopens (hbelongs.trans hinnermost), htext] at hstep
  have hlog : (step ⟨builtin, source, rules⟩ state).log =
      state.log.report .structural (.ofLength state.cursor 1)
        (ContextFault.unexpectedCloser (String.ofList [c])).message := by
    rw [hstep, log_pushDelimiter, ← log_flushText state]
    rfl
  refine ⟨h.reads_step hrest, ?_, ?_, ?_, ?_⟩
  · rw [hbehind]
    exact fun a ha => h.text a (hrest ▸ List.mem_cons_of_mem c ha)
  · rw [hstep, stack_pushDelimiter]
    exact (stack_flushText state).symm ▸ h.contexts
  · rw [hlog]
    exact h.lines
  · rw [← h.reports, hrest, readBrackets_ignored hcloser.1 hcloser.2 hinnermost, hlog,
      Log.toList_report, Log.entry_congr h.lines, hcursor, hbehind, List.append_assoc]
    rfl

/-- Each step reads on, with the brackets that are open then. -/
theorem next : ∃ opened',
    InBrackets source rules expected (step ⟨builtin, source, rules⟩ state) opened' := by
  rcases h.text c (hrest ▸ List.mem_cons_self) with hletter | hblank | hopener | hcloser
  · exact ⟨_, h.word_next hrules hrest hletter⟩
  · exact ⟨_, h.blank_next hrules hrest hblank⟩
  · obtain ⟨closer, hpaired⟩ := Option.isSome_iff_exists.mp hopener
    obtain ⟨pair, hpair, hc, -⟩ := closerOf?_eq_some_iff.mp hpaired
    exact ⟨_, h.opener_next hrules hrest hpair hc.symm⟩
  · obtain ⟨pair, hpair, hc⟩ := isCloser_iff.mp hcloser
    cases hinnermost : closesInnermost opened c with
    | true => exact ⟨_, h.closer_next hrules hrest hpair hc.symm hinnermost⟩
    | false => exact ⟨_, h.ignored_next hrules hrest hpair hc.symm hinnermost⟩

end Steps

section Ending

/-- At the end of the text what is expected has been reported. -/
theorem toList_stop (hrest : state.rest = []) :
    (stop ⟨builtin, source, rules⟩ state).log.entries.toList = expected := by
  rw [log_stop h.reads.unfinished, ← h.reports, hrest]
  exact toList_reportOpen (List.forall₂_reverse_iff.mpr h.contexts) h.lines

include hrules in
/-- A run to the end reports what is expected. -/
theorem toList_runSteps {count : Nat} (hcount : state.rest.length < count) :
    (runSteps ⟨builtin, source, rules⟩ count state).log.entries.toList = expected := by
  induction count generalizing state opened with
  | zero => exact absurd hcount (Nat.not_lt_zero _)
  | succ count ih =>
      rw [runSteps]
      cases hrest : state.rest with
      | nil =>
          rw [step_of_rest_eq_nil h.reads.unfinished hrest, runSteps_of_finished finished_stop]
          exact h.toList_stop hrest
      | cons c rest =>
          obtain ⟨opened', hnext⟩ := h.next hrules hrest
          have hless : (step ⟨builtin, source, rules⟩ state).rest.length < state.rest.length := by
            rcases step_advances ⟨builtin, source, rules⟩ h.reads.unfinished with hdone | hless
            · rw [hnext.reads.unfinished] at hdone
              cases hdone
            · exact hless
          exact ih hnext (by omega)

end Ending

end InBrackets

/--
Lexing a text of letters, blanks and brackets reports the closing brackets that do not match the
innermost open one, in the order of the text, and then the brackets that are still open, the
outermost one first. So it reports nothing if and only if the text is balanced. A text with more
bytes than there are offsets is not read, which is the only report then.
-/
theorem lex_brackets {rules : RuleSetId} (hrules : IsTopLevel rules) {text : List Char}
    (htext : ∀ c ∈ text, IsBracketText c) :
    let source := Source.ofChars text
    let reports := (LexInput.lex ⟨builtin, source, rules⟩).log.entries.toList
    let log := Log.ofSource source
    if source.size < Span.offsetCount then
      reports = (readBrackets 0 [] text).ignored.map log.ignoredBracket ++
          (readBrackets 0 [] text).unclosed.reverse.map log.unclosedBracket ∧
        (reports = [] ↔ Balanced text)
    else
      reports = [log.entry .lex (.point 0) (tooLargeMessage source.size)] := by
  intro source reports log
  split
  · rename_i hsize
    have hstart : start ⟨builtin, source, rules⟩ = fresh ⟨builtin, source, rules⟩ := if_pos hsize
    have hfresh : InBrackets source rules (bracketReports log (readBrackets 0 [] text))
        (fresh ⟨builtin, source, rules⟩) [] :=
      ⟨reads_fresh _, htext, .nil, rfl, rfl⟩
    have hreports : reports = bracketReports log (readBrackets 0 [] text) := by
      have hrun := hfresh.toList_runSteps hrules (Nat.lt_succ_self _)
      rw [← hstart] at hrun
      exact hrun
    refine ⟨hreports, ?_⟩
    rw [hreports, ← readBrackets_eq_nil_iff 0]
    generalize readBrackets 0 [] text = faults
    obtain ⟨ignored, unclosed⟩ := faults
    simp [bracketReports]
  · rename_i hsize
    have hstart : start ⟨builtin, source, rules⟩ =
        { fresh ⟨builtin, source, rules⟩ with
          forest := (fresh ⟨builtin, source, rules⟩).forest.closeNode Forest.root #[] none 0
          log := log.report .lex (.point 0) (tooLargeMessage source.size)
          finished := true } := if_neg hsize
    have hdone : (start ⟨builtin, source, rules⟩).finished = true := by rw [hstart]
    have hlex : reports = (start ⟨builtin, source, rules⟩).log.entries.toList :=
      congrArg (fun state => state.log.entries.toList) (runSteps_of_finished hdone _)
    rw [hlex, hstart]
    rfl

/-- A closing bracket of another kind, and a bracket without a closing one. -/
theorem lex_brackets_mismatched :
    ∃ rules, IsTopLevel rules ∧ (∀ c ∈ "(a ] b".toList, IsBracketText c) ∧
      (LexInput.lex ⟨builtin, .ofString "(a ] b", rules⟩).log.entries.toList =
        [(Log.ofSource (.ofString "(a ] b")).ignoredBracket (3, ']'),
          (Log.ofSource (.ofString "(a ] b")).unclosedBracket (0, '(')] := by
  have hname : IsTopLevel builtin.startRules := Or.inl (by decide +kernel)
  have htext : ∀ c ∈ "(a ] b".toList, IsBracketText c := by
    have hall : ("(a ] b".toList.all fun c => decide (IsBracketText c)) = true := by decide
    exact fun c hc => of_decide_eq_true (List.all_eq_true.mp hall c hc)
  have hsize : (Source.ofChars "(a ] b".toList).size < Span.offsetCount := by decide
  have hreports := lex_brackets hname htext
  simp only [hsize, if_true] at hreports
  exact ⟨_, hname, htext, hreports.1⟩

end LexInput
end ExprLang
