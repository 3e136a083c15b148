import ExprLang.Proofs.Lexing.Scans
import ExprLang.Proofs.Lexing.Steps
import ExprLang.Proofs.Lexing.Onward
import ExprLang.Proofs.RuleSet.Access

/-!
# Steps within the text and the table

A step takes the text from the cursor on, looks up rule sets, delimiters and nodes by their
numbers, and cuts the pending tokens at the slot of an open context. The steps here make the same
accesses and come to nothing where one of them is out of range, or off a character boundary. They do
not correct how much a scan rule has read: they go behind it as it is.

Main definitions:
* `LexInput.step?`, `LexInput.stop?`: a step, and the end of a run;
* `LexInput.InRange`: all numbers that a state keeps are in range.

Main results:
* `InRange.step`, `InRange.stop`: what a step and the end of a run keep in range;
* `InRange.stop?_eq`, `InRange.step?_eq`: where they are in range a step makes no other access.
-/

namespace ExprLang

/-- Gives a node its tokens and its end, if there is one of this number. -/
def Forest.closeNode? (forest : Forest) (id : NodeId) (tokens : Array Token)
    (closer : Option DelimiterId) (stop : Nat) : Option Forest := do
  guard (id.index < forest.nodes.size)
  return forest.closeNode id tokens closer stop

namespace LexState

/-- Ends the plain text that is being read, which starts in front of the cursor. -/
def flushText? (state : LexState) : Option LexState :=
  match state.textStart with
  | none => some state
  | some start => do
      guard (start ≤ state.cursor)
      return { state with textStart := none }.pushToken ⟨⟨start, state.cursor⟩, .text⟩

/-- Closes the innermost context, whose first token is pending. -/
def closeContext? (state : LexState) (closer : Option DelimiterId) (stop : Nat) :
    Option LexState :=
  match state.stack with
  | [] => some state
  | context :: outer => do
      guard (context.first ≤ state.pending.size)
      let tokens := state.pending.extract context.first
      let forest ← state.forest.closeNode? context.node tokens closer stop
      return { state with
        pending := state.pending.shrink context.first
        stack := outer
        forest := forest
      }.pushToken ⟨⟨context.start, stop⟩, .node context.node⟩

end LexState

namespace LexInput

section Access

variable (input : LexInput)

/-- Does a delimiter belong to the innermost open context? -/
def belongsToInnermost? (state : LexState) (delimiter : Delimiter) : Option Bool :=
  match state.stack, delimiter.contextName? with
  | context :: _, some name => do
      let rules ← input.table.ruleSet? context.rules
      return rules.name == name
  | _, _ => some false

/-- Does a delimiter close the innermost open context? Only a closing one is compared with it. -/
def closesInnermost? (state : LexState) (delimiter : Delimiter) : Option Bool :=
  if delimiter.closes then input.belongsToInnermost? state delimiter else some false

/-- Opens the context of a delimiter that covers `span`. -/
def openContext? (state : LexState) (id : DelimiterId) (span : Span) : Option LexState := do
  let delimiter ← input.table.delimiter? id
  match delimiter.contextName?.bind input.table.find? with
  | none =>
      let name := delimiter.contextName?.getD delimiter.name
      return (state.report .structural span (ContextFault.unknownContext name).message).pushToken
        ⟨span, .delimiter id⟩
  | some rules =>
      let own ← input.table.ruleSet? rules
      let (node, forest) := state.forest.openNode
        { rules := rules
          contextClass := own.contextClass
          opener := some id
          parent := state.currentNode
          start := span.start }
      return { state with
        forest := forest
        stack :=
          { node := node
            rules := rules
            opener := id
            first := state.pending.size
            start := span.start } :: state.stack
      }.pushToken ⟨span, .node node⟩

/-- What a delimiter that covers `span` does. -/
def placeDelimiter? (state : LexState) (id : DelimiterId) (span : Span) (value : Option Literal) :
    Option LexState := do
  let delimiter ← input.table.delimiter? id
  if ← input.closesInnermost? state delimiter then
    (state.pushToken ⟨span, .node state.currentNode⟩).closeContext? (some id) span.stop
  else if delimiter.opens then
    input.openContext? state id span
  else if delimiter.closes then
    return pushDelimiter
      (state.report .structural span
        (ContextFault.unexpectedCloser (String.ofList delimiter.text)).message) id span value
  else
    return pushDelimiter state id span value

/-- What is read from the start of a delimiter of the built-in grammars. -/
def scanDelimiter? (state : LexState) (delimiter : Delimiter) : Option Scan :=
  match delimiter.builtinRule? with
  | none => some (.plain (Text.byteSize delimiter.text))
  | some rule => rule.scan? input.source state.cursor

/-- Reads the delimiter at the cursor, and goes on behind what its scan rule has read. -/
def readDelimiter? (state : LexState) (id : DelimiterId) : Option LexState := do
  let delimiter ← input.table.delimiter? id
  let scan ← input.scanDelimiter? state delimiter
  let start := state.cursor
  guard (1 ≤ scan.consumed)
  let rest ← input.source.drop? (start + scan.consumed)
  let reported :=
    match scan.error with
    | none => state
    | some error =>
        state.report .lex (.ofLength (start + error.offset) error.length) error.fault.message
  input.placeDelimiter? (reported.advance scan.consumed rest) id (.ofLength start scan.consumed)
    scan.value

/-- Reports an open context, unless it may end with the text. -/
def reportOpen? (log : Log) (context : OpenContext) : Option Log := do
  let rules ← input.table.ruleSet? context.rules
  if rules.contextClass.has .lineComment then
    return log
  else
    let opener ← input.table.delimiter? context.opener
    return log.report .lex (.ofLength context.start (Text.byteSize opener.text))
      (ContextFault.missingCloser (String.ofList opener.text)).message

/-- Closes all open contexts at `stop`, the innermost one first. -/
def closeAll? (stop : Nat) : (count : Nat) → LexState → Option LexState
  | 0, state => some state
  | count + 1, state => do
      let closed ← state.closeContext? none stop
      closeAll? stop count closed

/-- Ends a run at the cursor. -/
def stop? (state : LexState) : Option LexState :=
  if state.finished then
    some state
  else do
    let flushed ← state.flushText?
    let log ← flushed.stack.reverse.foldlM input.reportOpen? flushed.log
    let closed ← closeAll? state.cursor flushed.stack.length { flushed with log := log }
    let forest ← closed.forest.closeNode? Forest.root closed.pending none state.cursor
    return { closed with
      forest := forest
      pending := #[]
      finished := true }

/-- Reads one position; at the end of the text the run ends. -/
def step? (state : LexState) : Option LexState :=
  if state.finished then
    some state
  else do
    match ← input.source.drop? state.cursor with
    | [] => input.stop? state
    | c :: rest =>
        let rules := input.currentRules state
        if ← input.table.isWhitespace? rules input.rules c then
          let flushed ← state.flushText?
          return flushed.advance c.utf8Size rest
        else
          match ← input.table.findIn? rules input.rules input.source state.cursor (c :: rest)
              state.textStart.isSome with
          | some id =>
              let flushed ← state.flushText?
              input.readDelimiter? flushed id
          | none =>
              return { state with textStart := state.textStart <|> some state.cursor }.advance
                c.utf8Size rest

end Access

/-- All numbers that a state keeps are in range. -/
structure InRange (input : LexInput) (state : LexState) : Prop where
  root : Forest.root.index < state.forest.nodes.size
  stacked : Stacked state.stack state.pending.size
  contexts : ∀ context ∈ state.stack, context.node.index < state.forest.nodes.size ∧
    context.rules.index < input.table.length ∧
      context.opener.index < input.table.delimiters.size

namespace InRange

variable {input : LexInput} {state state' : LexState}

theorem fresh (input : LexInput) : input.InRange input.fresh :=
  ⟨Nat.one_pos, trivial, fun _ h => (List.not_mem_nil h).elim⟩

/-- Adding nodes and tokens keeps all numbers in range. -/
theorem of_le (h : input.InRange state) (hstack : state'.stack = state.stack)
    (hpending : state.pending.size ≤ state'.pending.size)
    (hnodes : state.forest.nodes.size ≤ state'.forest.nodes.size) : input.InRange state' := by
  refine ⟨h.root.trans_le hnodes, hstack ▸ h.stacked.mono hpending, fun context hmem => ?_⟩
  obtain ⟨hnode, hrules, hopener⟩ := h.contexts context (hstack ▸ hmem)
  exact ⟨hnode.trans_le hnodes, hrules, hopener⟩

theorem pushToken (h : input.InRange state) (token : Token) :
    input.InRange (state.pushToken token) :=
  h.of_le rfl (by simp [LexState.pushToken]) le_rfl

theorem flushText (h : input.InRange state) : input.InRange state.flushText := by
  unfold LexState.flushText
  split
  · exact h
  · exact (h.of_le rfl le_rfl le_rfl : input.InRange { state with textStart := none }).pushToken _

theorem closeContext (h : input.InRange state) (closer : Option DelimiterId) (stop : Nat) :
    input.InRange (state.closeContext closer stop) := by
  refine ⟨?_, stacked_closeContext h.stacked closer stop, ?_⟩
  · unfold LexState.closeContext
    split
    · exact h.root
    · simpa [LexState.pushToken] using h.root
  · unfold LexState.closeContext
    split
    · exact h.contexts
    · rename_i context outer hstack
      intro other hother
      have hmem : other ∈ state.stack := hstack ▸ List.mem_cons_of_mem context hother
      simpa [LexState.pushToken] using h.contexts other hmem

theorem pushDelimiter (h : input.InRange state) (id : DelimiterId) (span : Span)
    (value : Option Literal) : input.InRange (pushDelimiter state id span value) := by
  unfold LexInput.pushDelimiter
  cases value with
  | none => exact h.pushToken _
  | some literal =>
      have hliteral : input.InRange { state with forest := (state.forest.pushLiteral literal).2 } :=
        h.of_le rfl le_rfl le_rfl
      exact hliteral.pushToken _

theorem openContext (h : input.InRange state) {id : DelimiterId}
    (hid : id.index < input.table.delimiters.size) (span : Span) :
    input.InRange (input.openContext state id span) := by
  simp only [LexInput.openContext]
  split
  · exact (h.of_le rfl le_rfl le_rfl : input.InRange (state.report _ _ _)).pushToken _
  · rename_i rules hrules
    obtain ⟨name, -, hname⟩ := Option.bind_eq_some_iff.mp hrules
    refine pushToken ⟨?_, ?_, ?_⟩ _
    · rw [Forest.size_openNode]
      exact h.root.trans (Nat.lt_succ_self _)
    · exact ⟨le_rfl, h.stacked⟩
    · rw [Forest.size_openNode]
      refine List.forall_mem_cons.mpr ⟨⟨Nat.lt_succ_self _,
        RuleSetTable.index_lt_of_find? hname, hid⟩, fun context hmem => ?_⟩
      obtain ⟨hnode, hrules, hopener⟩ := h.contexts context hmem
      exact ⟨hnode.trans (Nat.lt_succ_self _), hrules, hopener⟩

theorem placeDelimiter (h : input.InRange state) {id : DelimiterId}
    (hid : id.index < input.table.delimiters.size) (span : Span) (value : Option Literal) :
    input.InRange (input.placeDelimiter state id span value) := by
  rcases placeDelimiter_cases input state id span value with
    ⟨-, -, hclose⟩ | ⟨-, hopen⟩ | ⟨-, hreport⟩ | ⟨-, hplain⟩
  · rw [hclose]
    exact (h.pushToken _).closeContext _ _
  · rw [hopen]
    exact h.openContext hid span
  · rw [hreport]
    exact (h.of_le rfl le_rfl le_rfl : input.InRange (state.report _ _ _)).pushDelimiter id span
      value
  · rw [hplain]
    exact h.pushDelimiter id span value

theorem readDelimiter (h : input.InRange state) {id : DelimiterId}
    (hid : id.index < input.table.delimiters.size) :
    input.InRange (input.readDelimiter state id) := by
  unfold LexInput.readDelimiter
  simp only
  split
  · exact (h.of_le rfl le_rfl le_rfl : input.InRange (state.advance _ _)).placeDelimiter hid _ _
  · exact (h.of_le rfl le_rfl le_rfl :
      input.InRange ((state.report _ _ _).advance _ _)).placeDelimiter hid _ _

theorem closeAll (h : input.InRange state) (stop count : Nat) :
    input.InRange (closeAll stop count state) := by
  induction count generalizing state with
  | zero => exact h
  | succ count ih => exact ih (h.closeContext none stop)

/-- A step of a run that does not end keeps all numbers in range. -/
theorem step (h : input.InRange state) (hindexed : input.table.Indexed)
    (hopen : (input.step state).finished = false) : input.InRange (input.step state) := by
  by_cases hdone : state.finished = false
  · rcases step_cases input hdone with
      ⟨-, hstop⟩ | ⟨c, rest, -, ⟨-, hskip⟩ | ⟨id, hfind, hread⟩ | htext⟩
    · rw [hstop, finished_stop] at hopen
      cases hopen
    · rw [hskip]
      exact h.flushText.of_le rfl le_rfl le_rfl
    · rw [hread]
      exact h.flushText.readDelimiter (hindexed.index_lt_of_findIn _ _ _ hfind).1
    · rw [htext]
      exact h.of_le rfl le_rfl le_rfl
  · rw [step_of_finished input state (by simpa using hdone)]
    exact h

end InRange

section Equations

variable {input : LexInput} {state : LexState}

theorem flushText?_eq (h : ∀ start, state.textStart = some start → start ≤ state.cursor) :
    state.flushText? = some state.flushText := by
  unfold LexState.flushText? LexState.flushText
  cases hstart : state.textStart with
  | none => rfl
  | some start => simp [guard, h start hstart]

theorem closeContext?_eq (h : input.InRange state) (closer : Option DelimiterId) (stop : Nat) :
    state.closeContext? closer stop = some (state.closeContext closer stop) := by
  unfold LexState.closeContext? LexState.closeContext
  cases hstack : state.stack with
  | nil => rfl
  | cons context outer =>
      have hnode := (h.contexts context (by rw [hstack]; exact List.mem_cons_self)).1
      have hstacked := h.stacked
      rw [hstack] at hstacked
      simp [guard, Forest.closeNode?, hnode, hstacked.1]

theorem belongsToInnermost?_eq (h : input.InRange state) (delimiter : Delimiter) :
    input.belongsToInnermost? state delimiter =
      some (input.belongsToInnermost state delimiter) := by
  unfold belongsToInnermost? belongsToInnermost
  cases hstack : state.stack with
  | nil => rfl
  | cons context outer =>
      have hrules := (h.contexts context (by rw [hstack]; exact List.mem_cons_self)).2.1
      cases delimiter.contextName? with
      | none => rfl
      | some name =>
          simp only [RuleSetTable.ruleSet?_eq hrules, Option.bind_eq_bind, Option.bind_some,
            Option.pure_def]

theorem closesInnermost?_eq (h : input.InRange state) (delimiter : Delimiter) :
    input.closesInnermost? state delimiter =
      some (delimiter.closes && input.belongsToInnermost state delimiter) := by
  unfold closesInnermost?
  rw [belongsToInnermost?_eq h]
  cases delimiter.closes with
  | true => rfl
  | false => rfl

theorem openContext?_eq {id : DelimiterId} (hid : id.index < input.table.delimiters.size)
    (span : Span) : input.openContext? state id span = some (input.openContext state id span) := by
  unfold openContext? openContext
  rw [RuleSetTable.delimiter?_eq hid]
  simp only [Option.bind_eq_bind, Option.bind_some]
  cases hrules : (input.table.delimiter id).contextName?.bind input.table.find? with
  | none => rfl
  | some rules =>
      obtain ⟨name, -, hname⟩ := Option.bind_eq_some_iff.mp hrules
      simp only [RuleSetTable.ruleSet?_eq (RuleSetTable.index_lt_of_find? hname),
        Option.bind_some, Option.pure_def]

theorem placeDelimiter?_eq (h : input.InRange state) {id : DelimiterId}
    (hid : id.index < input.table.delimiters.size) (span : Span) (value : Option Literal) :
    input.placeDelimiter? state id span value =
      some (input.placeDelimiter state id span value) := by
  unfold placeDelimiter? placeDelimiter
  rw [RuleSetTable.delimiter?_eq hid]
  simp only [Option.bind_eq_bind, Option.bind_some, closesInnermost?_eq h]
  split
  · exact closeContext?_eq (h.pushToken _) _ _
  · split
    · exact openContext?_eq hid span
    · split
      · rfl
      · rfl

theorem reportOpen?_eq (h : input.InRange state) {context : OpenContext}
    (hmem : context ∈ state.stack) (log : Log) :
    input.reportOpen? log context = some (input.reportOpen log context) := by
  obtain ⟨-, hrules, hopener⟩ := h.contexts context hmem
  unfold reportOpen? reportOpen
  rw [RuleSetTable.ruleSet?_eq hrules, RuleSetTable.delimiter?_eq hopener]
  simp only [Option.bind_eq_bind, Option.bind_some]
  split
  · rfl
  · rfl

theorem closeAll?_eq (h : input.InRange state) (stop count : Nat) :
    closeAll? stop count state = some (closeAll stop count state) := by
  induction count generalizing state with
  | zero => rfl
  | succ count ih =>
      rw [closeAll?, closeAll, closeContext?_eq h]
      exact ih (h.closeContext none stop)

theorem foldlM_reportOpen?_eq (h : input.InRange state) {contexts : List OpenContext} (log : Log)
    (hcontexts : ∀ context ∈ contexts, context ∈ state.stack) :
    contexts.foldlM input.reportOpen? log = some (contexts.foldl input.reportOpen log) := by
  induction contexts generalizing log with
  | nil => rfl
  | cons context contexts ih =>
      obtain ⟨hcontext, hrest⟩ := List.forall_mem_cons.mp hcontexts
      rw [List.foldlM_cons, reportOpen?_eq h hcontext, List.foldl_cons]
      exact ih _ hrest

/-- The end of a run makes no other access. -/
theorem stop?_eq (h : input.InRange state)
    (htext : ∀ start, state.textStart = some start → start ≤ state.cursor) :
    input.stop? state = some (input.stop state) := by
  by_cases hopen : state.finished = false
  · have hreported : input.InRange (input.reported state) := h.flushText.of_le rfl le_rfl le_rfl
    have hclosed := hreported.closeAll state.cursor (input.reported state).stack.length
    have hreports := foldlM_reportOpen?_eq h.flushText state.flushText.log
      fun _ => List.mem_reverse.mp
    rw [stop?, if_neg (by simp [hopen]), stop_eq hopen, flushText?_eq htext]
    simp only [Option.bind_eq_bind, Option.bind_some, hreports]
    change (closeAll? state.cursor (input.reported state).stack.length
      (input.reported state)).bind _ = _
    rw [closeAll?_eq hreported]
    simp only [Option.bind_some, Forest.closeNode?, guard, hclosed.root, if_true, Option.pure_def,
      Option.bind_eq_bind]
    rfl
  · have hdone : state.finished = true := by simpa using hopen
    rw [stop?, if_pos hdone, stop_of_finished input state hdone]

end Equations

section Steps

variable {input : LexInput} {state : LexState}

/-- Where a known delimiter stands its scan rule takes parts of the text only. -/
theorem scanDelimiter?_eq {delimiter : Delimiter} (hd : delimiter.Known) {behind : List Char}
    (hat : input.source.IsAt state.cursor (delimiter.text ++ behind)) :
    input.scanDelimiter? state delimiter = some (input.scanDelimiter state delimiter) := by
  have hscan := hd.scan_eq
  unfold scanDelimiter? scanDelimiter
  cases hrule : delimiter.builtinRule? with
  | none =>
      rw [hrule, Option.map_none] at hscan
      rw [hscan]
  | some rule =>
      rw [hrule, Option.map_some] at hscan
      rw [hscan]
      obtain ⟨more, hmore⟩ := Delimiter.mark_isPrefix hrule
      rw [← hmore, List.append_assoc] at hat
      exact ScanRules.Builtin.scan?_eq hat.behind

/-- Where a known delimiter stands there is no need to correct how much is read. -/
theorem readDelimiter?_eq (h : input.InRange state)
    (hat : input.source.IsAt state.cursor state.rest)
    {id : DelimiterId} (hid : id.index < input.table.delimiters.size)
    (hd : (input.table.delimiter id).Known) (hne : (input.table.delimiter id).text ≠ [])
    (hstands : (input.table.delimiter id).standsAt input.source state.cursor state.rest = true) :
    input.readDelimiter? state id = some (input.readDelimiter state id) := by
  obtain ⟨behind, hbehind⟩ := Text.startsWith_iff.mp (Bool.and_eq_true_iff.mp hstands).1
  have hscan := scanDelimiter?_eq hd (hbehind ▸ hat)
  have htakes : (input.scanDelimiter state (input.table.delimiter id)).Takes state.rest :=
    hd.takes_scanAt (fun _ => hne) hat hstands
  unfold readDelimiter? readDelimiter
  rw [RuleSetTable.delimiter?_eq hid]
  simp only [Option.bind_eq_bind, Option.bind_some, hscan]
  generalize input.scanDelimiter state (input.table.delimiter id) = scan at *
  obtain ⟨taken, ⟨rest, hrest⟩, htaken, hsize⟩ := htakes
  have hpos : 1 ≤ scan.consumed := by
    rw [hsize]
    exact (List.length_pos_of_ne_nil htaken).trans_le (Text.length_le_byteSize taken)
  have hnext : input.source.drop? (state.cursor + scan.consumed) = some rest := by
    rw [← hrest] at hat
    rw [hsize]
    exact hat.behind.drop?_eq
  have hsplit : Text.splitReaching (max 1 scan.consumed) state.rest = (scan.consumed, rest) := by
    rw [Nat.max_eq_right hpos, hsize, ← hrest, Text.splitReaching_byteSize]
  simp only [guard, hpos, if_true, Option.pure_def, Option.bind_some, hnext, hsplit]
  refine placeDelimiter?_eq ?_ hid _ _
  split
  · exact h.of_le rfl le_rfl le_rfl
  · exact h.of_le rfl le_rfl le_rfl

/-- A step makes no other access. -/
theorem step?_eq (h : input.InRange state) (hreads : input.Reads state)
    (hindexed : input.table.Indexed) (hknown : ∀ id, (input.table.delimiter id).Known)
    (hrules : input.rules.index < input.table.length) :
    input.step? state = some (input.step state) := by
  have hcurrent : (input.currentRules state).index < input.table.length := by
    unfold currentRules
    cases hstack : state.stack with
    | nil => exact hrules
    | cons context outer =>
        exact (h.contexts context (by rw [hstack]; exact List.mem_cons_self)).2.1
  have htext : ∀ start, state.textStart = some start → start ≤ state.cursor :=
    fun start hstart => (hreads.text start hstart).le
  obtain ⟨hflushed, -, hcursor⟩ := hreads.flushText
  have hat : input.source.IsAt state.cursor state.rest := hreads.place
  unfold step?
  rw [if_neg (by simp [hreads.unfinished]), hat.drop?_eq]
  simp only [Option.bind_eq_bind, Option.bind_some]
  cases hrest : state.rest with
  | nil =>
      rw [step_of_rest_eq_nil hreads.unfinished hrest]
      exact stop?_eq h htext
  | cons c rest =>
      simp only [RuleSetTable.isWhitespace?_eq hcurrent hrules,
        hindexed.findIn?_eq hcurrent hrules, flushText?_eq htext, Option.bind_some,
        Option.pure_def]
      cases hblank : input.table.isWhitespace (input.currentRules state) input.rules c with
      | true =>
          rw [if_pos rfl, step_of_whitespace hreads.unfinished hrest hblank]
      | false =>
          rw [if_neg Bool.false_ne_true]
          cases hfind : input.table.findIn (input.currentRules state) input.rules input.source
              state.cursor (c :: rest) state.textStart.isSome with
          | none =>
              rw [step_of_text hreads.unfinished hrest hblank hfind]
              rfl
          | some id =>
              rw [step_of_delimiter hreads.unfinished hrest hblank hfind]
              obtain ⟨hid, hne⟩ := hindexed.index_lt_of_findIn _ _ _ hfind
              have hstands := (RuleSetTable.of_search_eq_some _ hfind).1
              rw [← hrest, ← rest_flushText state, ← hcursor] at hstands
              exact readDelimiter?_eq h.flushText hflushed.place hid (hknown id) hne hstands

end Steps

end LexInput
end ExprLang
