import ExprLang.Proofs.Grouping.Layout
import ExprLang.Proofs.Lexing.Placement

/-!
# Closing delimiters that close nothing

A delimiter that closes contexts, but neither belongs to the innermost one nor opens its own, stays
a token and is reported. With the built-in grammars nothing else is reported as a matter of
structure: there is a rule set for each context, and such a delimiter never stands for a value. So
these reports are those of the tokens, in the order of the text.

Main definitions:
* `Log.strayCloser?`: the report on a closing delimiter that is a token;
* `LexState.ReportsStrays`: a state in which these are reported.

Main results:
* `LexInput.reportsStrays_placeDelimiter`, `LexInput.reportsStrays_step`: what a delimiter and what
  a step does;
* `LexInput.Reads.ofCategory_stop`: what is reported of the structure, wherever a run ends.
-/

namespace ExprLang

/-- The entries of a category, in their order. -/
def Log.ofCategory (log : Log) (category : Category) : List Diagnostic :=
  log.entries.toList.filter (·.category = category)

/-- The report on a token that is a closing delimiter. -/
def Log.strayCloser? (log : Log) (table : RuleSetTable) (token : Token) : Option Diagnostic :=
  match token.kind with
  | .delimiter id =>
      if (table.delimiter id).closes then
        some (log.entry .structural token.span
          (ContextFault.unexpectedCloser (String.ofList (table.delimiter id).text)).message)
      else
        none
  | _ => none

/-- All tokens so far: those of the lists that are being read, and those of closed nodes. -/
def LexState.tokens (state : LexState) : List Token :=
  state.pending.toList ++ state.forest.arena.toList

namespace Grammar

variable {id : DelimiterId}

/-- The ends of contexts in the lists: what opens one has no scan rule and names a rule set, and
what closes one has no scan rule but that of a line break. -/
theorem forall_contextEnds :
    ∀ d ∈ delimiterList,
      (d.opens = true → d.scan.isNone = true ∧ (d.contextName?.bind builtin.find?).isSome = true) ∧
      (d.closes = true → d.builtinRule? = none ∨ d.builtinRule? = some .lineBreakInLiteral) := by
  decide +kernel

/-- A delimiter that opens a context is read as it is, and there is a rule set for the context. -/
theorem exists_rules_of_opens (hopens : (builtin.delimiter id).opens = true) :
    (builtin.delimiter id).scan = none ∧
      ∃ rules, (builtin.delimiter id).contextName?.bind builtin.find? = some rules := by
  rcases mem_delimiterList id with hmem | hdefault
  · obtain ⟨hscan, hrules⟩ := (forall_contextEnds _ hmem).1 hopens
    exact ⟨Option.isNone_iff_eq_none.mp hscan, Option.isSome_iff_exists.mp hrules⟩
  · rw [hdefault] at hopens
    cases hopens

/-- A delimiter that closes a context never stands for a value. -/
theorem value_scanAt_of_closes (hcloses : (builtin.delimiter id).closes = true) (source : Source)
    (index : Nat) : ((builtin.delimiter id).scanAt source index).value = none := by
  have hscan := (known_delimiter id).scan_eq
  unfold Delimiter.scanAt
  rcases mem_delimiterList id with hmem | hdefault
  · rcases (forall_contextEnds _ hmem).2 hcloses with hrule | hrule
    · rw [hscan, hrule]
      rfl
    · rw [hscan, hrule]
      rfl
  · rw [hdefault] at hcloses
    cases hcloses

end Grammar

namespace Log

variable {log : Log} {category : Category} {span : Span} {message : String} {table : RuleSetTable}
  {token : Token}

/-- A report is the last one of its category, and no other category gets one. -/
theorem ofCategory_report (other : Category) :
    (log.report category span message).ofCategory other =
      log.ofCategory other ++
        if category = other then [log.entry category span message] else [] := by
  have hcategory : (log.entry category span message).category = category := rfl
  unfold ofCategory
  rw [toList_report, List.filter_append, List.filter_singleton, hcategory]
  by_cases h : category = other
  · rw [if_pos h, decide_eq_true h]
    rfl
  · rw [if_neg h, decide_eq_false h]
    rfl

/-- A token that is no delimiter is no closing one. -/
theorem strayCloser?_eq_none (h : ∀ id, token.kind ≠ .delimiter id) :
    log.strayCloser? table token = none := by
  unfold strayCloser?
  split
  · rename_i id hkind
    exact absurd hkind (h id)
  · rfl

/-- A closing delimiter is reported where it stands. -/
theorem of_strayCloser? {report : Diagnostic} (h : log.strayCloser? table token = some report) :
    report.span = token.span ∧ ∀ id, token.kind ≠ .node id := by
  unfold strayCloser? at h
  split at h
  · rename_i id hkind
    split at h
    · rw [← Option.some.inj h]
      exact ⟨rfl, fun node hnode => nomatch hkind.symm.trans hnode⟩
    · cases h
  · cases h

/-- The reports on the tokens of a list stand where the tokens stand. -/
theorem sublist_span_strayCloser? (tokens : List Token) :
    ((tokens.filterMap (log.strayCloser? table)).map Diagnostic.span).Sublist
      (tokens.map Token.span) := by
  induction tokens with
  | nil => exact List.Sublist.refl _
  | cons token tokens ih =>
      cases hstray : log.strayCloser? table token with
      | none =>
          rw [List.filterMap_cons_none hstray]
          exact ih.cons _
      | some report =>
          rw [List.filterMap_cons_some hstray, List.map_cons, List.map_cons,
            (of_strayCloser? hstray).1]
          exact ih.cons_cons _

end Log

/--
A state in which the reports on the structure are those on its closing delimiters, in the order of
the text up to `reach`.
-/
structure LexState.ReportsStrays (table : RuleSetTable) (source : Source) (state : LexState)
    (reach : Nat) : Prop where
  lines : state.log.lines = LineTable.ofSource source
  ordered : InOrder ⟨0, reach⟩ ((state.log.ofCategory .structural).map Diagnostic.span)
  mem_iff : ∀ report, report ∈ state.log.ofCategory .structural ↔
    ∃ token ∈ state.tokens, (Log.ofSource source).strayCloser? table token = some report

namespace LexState.ReportsStrays

variable {table : RuleSetTable} {source : Source} {state : LexState} {reach : Nat}

/-- Tokens that are no closing delimiters need no reports. -/
theorem extend (h : state.ReportsStrays table source reach) {next : LexState} {added : List Token}
    (hlog : next.log.lines = state.log.lines ∧
      next.log.ofCategory .structural = state.log.ofCategory .structural)
    (htokens : ∀ token, token ∈ next.tokens ↔ token ∈ state.tokens ∨ token ∈ added)
    (hadded : ∀ token ∈ added, (Log.ofSource source).strayCloser? table token = none) :
    next.ReportsStrays table source reach where
  lines := hlog.1.trans h.lines
  ordered := hlog.2 ▸ h.ordered
  mem_iff := by
    intro report
    rw [hlog.2, h.mem_iff]
    constructor
    · rintro ⟨token, htoken, hstray⟩
      exact ⟨token, (htokens token).mpr (Or.inl htoken), hstray⟩
    · rintro ⟨token, htoken, hstray⟩
      rcases (htokens token).mp htoken with hold | hnew
      · exact ⟨token, hold, hstray⟩
      · rw [hadded token hnew] at hstray
        cases hstray

theorem mem_tokens_pushToken (state : LexState) (added token : Token) :
    token ∈ (state.pushToken added).tokens ↔ token ∈ state.tokens ∨ token ∈ [added] := by
  unfold tokens pushToken
  rw [Array.toList_push, List.mem_append, List.mem_append, List.mem_append]
  exact or_right_comm

/-- A token that is no closing delimiter needs no report. -/
theorem pushToken (h : state.ReportsStrays table source reach) {added : Token}
    (hadded : (Log.ofSource source).strayCloser? table added = none) :
    (state.pushToken added).ReportsStrays table source reach :=
  h.extend ⟨rfl, rfl⟩ (mem_tokens_pushToken state added) (List.forall_mem_singleton.mpr hadded)

theorem flushText (h : state.ReportsStrays table source reach) :
    state.flushText.ReportsStrays table source reach := by
  unfold LexState.flushText
  split
  · exact h
  · have hended : { state with textStart := none }.ReportsStrays table source reach :=
      ⟨h.lines, h.ordered, h.mem_iff⟩
    exact hended.pushToken (Log.strayCloser?_eq_none fun _ hkind => nomatch hkind)

/-- A node that is closed takes pending tokens. -/
theorem mem_tokens_closeNode (state : LexState) (first : Nat) (id : NodeId)
    (closer : Option DelimiterId) (stop : Nat) (token : Token) :
    token ∈ (state.pending.shrink first).toList ++
        (state.forest.closeNode id (state.pending.extract first) closer stop).arena.toList ↔
      token ∈ state.tokens := by
  have hsplit : (state.pending.shrink first).toList ++ (state.pending.extract first).toList =
      state.pending.toList := by
    rw [← Array.toList_append, Array.shrink_eq_take, Array.take, Array.extract_append_extract]
    simp
  unfold tokens
  rw [← hsplit, List.mem_append, Forest.mem_arena_closeNode, List.mem_append, List.mem_append]
  tauto

/-- A context that is closed keeps its tokens, and gets one for itself. -/
theorem closeContext (h : state.ReportsStrays table source reach) (closer : Option DelimiterId)
    (stop : Nat) : (state.closeContext closer stop).ReportsStrays table source reach := by
  unfold LexState.closeContext
  cases hstack : state.stack with
  | nil => exact h
  | cons context outer =>
      refine pushToken ?_ (Log.strayCloser?_eq_none fun _ hkind => nomatch hkind)
      refine h.extend ⟨rfl, rfl⟩ (fun token => ?_) (List.forall_mem_nil _)
      rw [or_iff_left List.not_mem_nil]
      exact mem_tokens_closeNode state context.first context.node closer stop token

/-- A value is kept for a literal. -/
theorem pushLiteral (h : state.ReportsStrays table source reach) (literal : Literal) :
    { state with forest := (state.forest.pushLiteral literal).2 }.ReportsStrays table source
      reach :=
  ⟨h.lines, h.ordered, h.mem_iff⟩

theorem advance (h : state.ReportsStrays table source reach) (size : Nat) (rest : List Char) :
    (state.advance size rest).ReportsStrays table source reach :=
  ⟨h.lines, h.ordered, h.mem_iff⟩

theorem mono (h : state.ReportsStrays table source reach) {stop : Nat} (hle : reach ≤ stop) :
    state.ReportsStrays table source stop :=
  ⟨h.lines, h.ordered.mono hle, h.mem_iff⟩

/-- A report of another category says nothing about the structure. -/
theorem report (h : state.ReportsStrays table source reach) {category : Category}
    (hcategory : category ≠ .structural) (span : Span) (message : String) :
    (state.report category span message).ReportsStrays table source reach := by
  refine h.extend ⟨rfl, ?_⟩ (fun token => (or_iff_left List.not_mem_nil).symm)
    (List.forall_mem_nil _)
  unfold LexState.report
  rw [Log.ofCategory_report, if_neg hcategory, List.append_nil]

/-- A delimiter that closes no context may be a token. -/
theorem pushDelimiter (h : state.ReportsStrays table source reach) {id : DelimiterId}
    (hcloses : (table.delimiter id).closes = false) (span : Span) (value : Option Literal) :
    (LexInput.pushDelimiter state id span value).ReportsStrays table source reach := by
  unfold LexInput.pushDelimiter
  cases value with
  | none =>
      refine h.pushToken ?_
      simp only [Log.strayCloser?, hcloses, Bool.false_eq_true, if_false]
  | some literal =>
      exact (h.pushLiteral literal).pushToken
        (Log.strayCloser?_eq_none fun _ hkind => nomatch hkind)

/-- A closing delimiter is a token and reported. -/
theorem pushStray {id : DelimiterId} {span : Span}
    (h : state.ReportsStrays table source span.start) (hpos : span.start < span.stop)
    (hcloses : (table.delimiter id).closes = true) :
    ((state.report .structural span
        (ContextFault.unexpectedCloser (String.ofList (table.delimiter id).text)).message).pushToken
      ⟨span, .delimiter id⟩).ReportsStrays table source span.stop := by
  have hentry : state.log.entry .structural span
      (ContextFault.unexpectedCloser (String.ofList (table.delimiter id).text)).message =
        (Log.ofSource source).entry .structural span
          (ContextFault.unexpectedCloser (String.ofList (table.delimiter id).text)).message :=
    Log.entry_congr h.lines _ _ _
  have hstray : (Log.ofSource source).strayCloser? table ⟨span, .delimiter id⟩ =
      some (state.log.entry .structural span
        (ContextFault.unexpectedCloser (String.ofList (table.delimiter id).text)).message) := by
    simp only [Log.strayCloser?, hcloses, if_true, hentry]
  have hlog := @Log.ofCategory_report state.log .structural span
    (ContextFault.unexpectedCloser (String.ofList (table.delimiter id).text)).message .structural
  rw [if_pos rfl] at hlog
  refine ⟨h.lines, ?_, fun report => ?_⟩
  · show InOrder _ (List.map _ (Log.ofCategory (Log.report _ _ _ _) _))
    rw [hlog, List.map_append]
    exact h.ordered.concat (Nat.zero_le _) le_rfl hpos
  · show report ∈ Log.ofCategory (Log.report _ _ _ _) _ ↔ _
    rw [hlog, List.mem_append, h.mem_iff, List.mem_singleton]
    constructor
    · rintro (⟨token, htoken, hreport⟩ | rfl)
      · exact ⟨token, (mem_tokens_pushToken state _ token).mpr (Or.inl htoken), hreport⟩
      · exact ⟨_, (mem_tokens_pushToken state _ _).mpr (Or.inr (List.mem_singleton_self _)), hstray⟩
    · rintro ⟨token, htoken, hreport⟩
      rcases (mem_tokens_pushToken state _ token).mp htoken with hold | hnew
      · exact Or.inl ⟨token, hold, hreport⟩
      · rw [List.mem_singleton.mp hnew, hstray] at hreport
        exact Or.inr (Option.some.inj hreport).symm

theorem closeAll (h : state.ReportsStrays table source reach) (stop count : Nat) :
    (LexInput.closeAll stop count state).ReportsStrays table source reach := by
  induction count generalizing state with
  | zero => exact h
  | succ count ih => exact ih (h.closeContext none stop)

end LexState.ReportsStrays

namespace LexInput

variable {input : LexInput} {state : LexState} (htable : input.table = Grammar.builtin)

include htable

/-- A closing delimiter that is placed is reported if it closes nothing and opens nothing. -/
theorem reportsStrays_placeDelimiter {id : DelimiterId} {span : Span}
    (h : state.ReportsStrays input.table input.source span.start) (hpos : span.start < span.stop)
    {value : Option Literal} (hvalue : (input.table.delimiter id).closes = true → value = none) :
    (input.placeDelimiter state id span value).ReportsStrays input.table input.source
      span.stop := by
  rcases placeDelimiter_cases input state id span value with
    ⟨-, -, hclose⟩ | ⟨hopens, hopen⟩ | ⟨hcloses, hreport⟩ | ⟨hcloses, hplain⟩
  · rw [hclose]
    refine ((h.pushToken ?_).closeContext (some id) span.stop).mono hpos.le
    exact Log.strayCloser?_eq_none fun _ hkind => nomatch hkind
  · rw [hopen]
    rw [htable] at hopens
    obtain ⟨-, rules, hfind⟩ := Grammar.exists_rules_of_opens hopens
    rw [← htable] at hfind
    unfold openContext
    simp only [hfind]
    refine (LexState.ReportsStrays.pushToken ?_ ?_).mono hpos.le
    · exact ⟨h.lines, h.ordered, h.mem_iff⟩
    · exact Log.strayCloser?_eq_none fun _ hkind => nomatch hkind
  · rw [hreport, hvalue hcloses]
    exact h.pushStray hpos hcloses
  · rw [hplain]
    exact (h.pushDelimiter hcloses span value).mono hpos.le

/-- Steps report the closing delimiters that they add, and nothing else of the structure. -/
theorem reportsStrays_step (hreads : input.Reads state)
    (h : state.ReportsStrays input.table input.source state.cursor) {c : Char} {rest : List Char}
    (hrest : state.rest = c :: rest) :
    (input.step state).ReportsStrays input.table input.source (input.step state).cursor := by
  have hflushed := h.flushText
  obtain ⟨hcursor, -, -⟩ := samePlace_flushText state
  rcases step_cases input hreads.unfinished with
    ⟨hnil, -⟩ | ⟨_, _, -, ⟨-, hblank⟩ | ⟨id, hfind, hread⟩ | htext⟩
  · rw [hrest] at hnil
    cases hnil
  · rw [hblank]
    exact (hflushed.advance _ _).mono (hcursor.ge.trans (Nat.le_add_right _ _))
  · rw [htable, hrest] at hfind
    obtain ⟨text, behind, htext, rfl⟩ := Grammar.exists_text_of_findIn hfind
    rw [← htable] at htext
    obtain ⟨taken, rest, reported, hne, -, -, hreported, hplace⟩ :=
      exists_readDelimiter htext ((rest_flushText state).trans hrest)
    have hpos : 0 < Text.byteSize taken :=
      (List.length_pos_of_ne_nil hne).trans_le (Text.length_le_byteSize taken)
    have hbefore : reported.ReportsStrays input.table input.source state.flushText.cursor ∧
        reported.cursor = state.flushText.cursor := by
      rw [hcursor]
      rcases hreported with rfl | ⟨error, -, rfl⟩
      · exact ⟨hflushed, hcursor⟩
      · exact ⟨hflushed.report (by decide) _ _, hcursor⟩
    have hend : (input.step state).cursor = state.flushText.cursor + Text.byteSize taken := by
      rw [hread, hplace, (samePlace_placeDelimiter _ _ _ _ _).cursor, ← hbefore.2]
      rfl
    rw [hend, hread, hplace]
    refine reportsStrays_placeDelimiter htable (hbefore.1.advance _ _)
      (Nat.lt_add_of_pos_right hpos) fun hcloses => ?_
    rw [htable] at hcloses ⊢
    exact Grammar.value_scanAt_of_closes hcloses _ _
  · rw [htext]
    have hstarted : ({ state with textStart := state.textStart <|> some state.cursor } :
        LexState).ReportsStrays input.table input.source state.cursor :=
      ⟨h.lines, h.ordered, h.mem_iff⟩
    exact (hstarted.advance _ _).mono (Nat.le_add_right _ _)

omit htable in
/-- The end of a run adds no closing delimiters, and reports none. -/
theorem reportsStrays_stop (hopen : state.finished = false)
    (h : state.ReportsStrays input.table input.source state.cursor) :
    (input.stop state).ReportsStrays input.table input.source state.cursor := by
  have hflushed := h.flushText
  obtain ⟨hlines, hreports⟩ :=
    foldl_reportOpen input state.flushText.stack.reverse state.flushText.log
  have hother : ∀ contexts : List OpenContext, (contexts.map
      (input.missingCloser state.flushText.log)).filter (·.category = .structural) = [] := by
    intro contexts
    rw [List.filter_map, List.map_eq_nil_iff, List.filter_eq_nil_iff]
    exact fun _ _ => Bool.false_ne_true
  have hentries : (state.flushText.stack.reverse.foldl input.reportOpen
      state.flushText.log).ofCategory .structural = state.flushText.log.ofCategory .structural := by
    unfold Log.ofCategory
    rw [hreports, List.filter_append, hother, List.append_nil]
  have hreported : (input.reported state).ReportsStrays input.table input.source state.cursor :=
    ⟨hlines.trans hflushed.lines, hentries ▸ hflushed.ordered, hentries ▸ hflushed.mem_iff⟩
  have hclosed := hreported.closeAll state.cursor (input.reported state).stack.length
  rw [stop_eq hopen]
  refine hclosed.extend ⟨rfl, rfl⟩ (fun token => ?_) (List.forall_mem_nil _)
  rw [or_iff_left List.not_mem_nil]
  show token ∈ [] ++ (Forest.closeNode _ _ _ _ _).arena.toList ↔ _
  rw [List.nil_append, Forest.mem_arena_closeNode]
  unfold LexState.tokens
  rw [List.mem_append]
  exact or_comm

omit htable in
/-- When a run has ended, all tokens are in the lists of nodes. -/
theorem Reads.mem_tokens_stop (hreads : input.Reads state) (token : Token) :
    token ∈ (input.stop state).tokens ↔ ∃ id, token ∈ (input.stop state).forest.tokenList id := by
  have hpending : (input.stop state).pending = #[] := by
    rw [stop_eq hreads.unfinished]
    rfl
  unfold LexState.tokens
  rw [hpending, Array.toList_empty, List.nil_append]
  refine ⟨hreads.stop.exists_mem_tokenList token, ?_⟩
  rintro ⟨id, hmem⟩
  exact Forest.mem_of_mem_extract hmem

omit htable in
theorem reportsStrays_fresh (input : LexInput) :
    input.fresh.ReportsStrays input.table input.source input.fresh.cursor := by
  refine ⟨rfl, ⟨(fun _ h => nomatch h), List.Pairwise.nil, (fun _ h => nomatch h)⟩, fun _ => ?_⟩
  exact ⟨(fun h => nomatch h), (fun ⟨_, h, _⟩ => nomatch h)⟩

omit htable in
/--
The reports on the structure are those on the closing delimiters among the leaves of the forest, one
for each, in the order of the text.
-/
theorem Reads.ofCategory_stop (hreads : input.Reads state)
    (h : state.ReportsStrays input.table input.source state.cursor) :
    (input.stop state).log.ofCategory .structural =
      (Tree.leavesOf (input.stop state).forest.trees).filterMap
        ((Log.ofSource input.source).strayCloser? input.table) := by
  have hstopped := reportsStrays_stop hreads.unfinished h
  have harranged := hreads.stop.arranged
  have hleaves := hreads.stop.laid.inOrder_leafSpans harranged
    (input.stop state).forest.nodes.size harranged.size_pos
  refine InOrder.eq_of_mem_iff hstopped.ordered
    (hleaves.sublist (Log.sublist_span_strayCloser? _)) fun report => ?_
  rw [hstopped.mem_iff, List.mem_filterMap]
  refine exists_congr fun token => and_congr_left fun hstray => ?_
  have hkind := (Log.of_strayCloser? hstray).2
  rw [hreads.mem_tokens_stop, harranged.mem_leaves_iff]
  exact exists_congr fun id =>
    (and_iff_left fun child hchild => absurd hchild (hkind child)).symm

end LexInput

end ExprLang
