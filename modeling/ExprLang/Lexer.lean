import ExprLang.Diagnostics.Log
import ExprLang.Forest.Basic
import ExprLang.RuleSet.Lookup

/-!
# The lexer

Reads a text into a forest, one position at a time: a whitespace character, a
delimiter with what its scan rule consumes, or a character of plain text. Open
contexts stand on a stack, and their tokens at the end of one list of pending
tokens; a context that closes hands its tokens to its node and leaves one token in
their place.

Main functions:
* `LexInput.start`, `LexInput.step`: the machine;
* `run`, `runSteps`, `runWhile`, `stop`: ways to drive it; after an early stop
  the text counts as if it ended there;
* `lex`: the forest and the problems of a whole run.
-/

namespace ExprLang

/-- What is wrong with the contexts of a text. -/
inductive ContextFault where
  /-- A context opened by this text is still open at the end. -/
  | missingCloser (opener : String)
  /-- This closing delimiter does not belong to the innermost open context. -/
  | unexpectedCloser (closer : String)
  /-- There is no rule set of this name. -/
  | unknownContext (name : String)
  deriving DecidableEq, Inhabited

/-- The wording of a fault. -/
def ContextFault.message : ContextFault → String
  | missingCloser opener => "missing closing token after '" ++ opener ++ "'"
  | unexpectedCloser closer =>
      "unexpected '" ++ closer ++ "' with no open context to close"
  | unknownContext name => "context '" ++ name ++ "' does not exist"

/-- The wording for a source with more bytes than there are offsets. -/
def tooLargeMessage (size : Nat) : String :=
  "source text of " ++ toString size ++ " bytes exceeds the 4 GiB limit"

/-- A source and the grammar to read it with. -/
structure LexInput where
  table : RuleSetTable
  source : Source
  /-- The rule set to start in, from which others inherit. -/
  rules : RuleSetId

/-- A context that is open. -/
structure OpenContext where
  node : NodeId
  rules : RuleSetId
  opener : DelimiterId
  /-- Slot of its first token among the pending ones. -/
  first : Nat
  start : Nat
  deriving Inhabited

/-- A run of the lexer between two steps. -/
structure LexState where
  /-- Offset of the next position. -/
  cursor : Nat
  /-- The text from the cursor on. -/
  rest : List Char
  /-- Where the plain text that is being read started. -/
  textStart : Option Nat
  /-- The tokens of the root and of the open contexts so far. -/
  pending : Array Token
  /-- The open contexts, the innermost one first. -/
  stack : List OpenContext
  forest : Forest
  log : Log
  finished : Bool

/-- What can be seen of a run between two steps. -/
structure LexProgress where
  /-- Offset of the next position. -/
  cursor : Nat
  /-- Number of open contexts. -/
  depth : Nat
  /-- Number of complete tokens of the root. -/
  topLevel : Nat
  deriving DecidableEq, Inhabited

/-- The result of reading a text. -/
structure LexOutput where
  forest : Forest
  log : Log

namespace LexState

variable (state : LexState)

/-- The progress of a run. -/
def progress : LexProgress :=
  { cursor := state.cursor
    depth := state.stack.length
    topLevel :=
      match state.stack.getLast? with
      | none => state.pending.size
      | some context => context.first }

/-- What has been read so far. -/
def output : LexOutput :=
  ⟨state.forest, state.log⟩

/-- The node of the innermost open context. -/
def currentNode : NodeId :=
  match state.stack with
  | [] => Forest.root
  | context :: _ => context.node

/-- Adds a token to the innermost open context. -/
def pushToken (token : Token) : LexState :=
  { state with pending := state.pending.push token }

/-- Ends the plain text that is being read. -/
def flushText : LexState :=
  match state.textStart with
  | none => state
  | some start =>
      { state with textStart := none }.pushToken ⟨⟨start, state.cursor⟩, .text⟩

/-- Moves the cursor behind `size` bytes, to the text `rest`. -/
def advance (size : Nat) (rest : List Char) : LexState :=
  { state with cursor := state.cursor + size, rest := rest }

/-- Reports a problem. -/
def report (category : Category) (span : Span) (message : String) : LexState :=
  { state with log := state.log.report category span message }

/--
Closes the innermost context at `stop`: its tokens go to its node, and one token
takes their place.
-/
def closeContext (closer : Option DelimiterId) (stop : Nat) : LexState :=
  match state.stack with
  | [] => state
  | context :: outer =>
      let tokens := state.pending.extract context.first
      { state with
        pending := state.pending.shrink context.first
        stack := outer
        forest := state.forest.closeNode context.node tokens closer stop
      }.pushToken ⟨⟨context.start, stop⟩, .node context.node⟩

end LexState

namespace LexInput

variable (input : LexInput)

/-- A run in which nothing has been read. -/
def fresh : LexState :=
  { cursor := 0
    rest := input.source.chars
    textStart := none
    pending := #[]
    stack := []
    forest := .ofSource input.source input.rules
    log := .ofSource input.source
    finished := false }

/-- A run before its first step. A source that is too large is not read. -/
def start : LexState :=
  if input.source.size < Span.offsetCount then
    input.fresh
  else
    { input.fresh with
      forest := input.fresh.forest.closeNode Forest.root #[] none 0
      log := input.fresh.log.report .lex (.point 0) (tooLargeMessage input.source.size)
      finished := true }

/-- The rule set of the innermost open context. -/
def currentRules (state : LexState) : RuleSetId :=
  match state.stack with
  | [] => input.rules
  | context :: _ => context.rules

section Delimiters

/-- Does a delimiter belong to the innermost open context? -/
def belongsToInnermost (state : LexState) (delimiter : Delimiter) : Bool :=
  match state.stack, delimiter.contextName? with
  | context :: _, some name => (input.table.ruleSet context.rules).name == name
  | _, _ => false

/-- Opens the context of a delimiter that covers `span`. -/
def openContext (state : LexState) (id : DelimiterId) (span : Span) : LexState :=
  let delimiter := input.table.delimiter id
  match delimiter.contextName?.bind input.table.find? with
  | none =>
      let name := delimiter.contextName?.getD delimiter.name
      (state.report .structural span (ContextFault.unknownContext name).message).pushToken
        ⟨span, .delimiter id⟩
  | some rules =>
      let (node, forest) := state.forest.openNode
        { rules := rules
          contextClass := (input.table.ruleSet rules).contextClass
          opener := some id
          parent := state.currentNode
          start := span.start }
      { state with
        forest := forest
        stack :=
          { node := node
            rules := rules
            opener := id
            first := state.pending.size
            start := span.start } :: state.stack
      }.pushToken ⟨span, .node node⟩

/-- Adds the token of a delimiter, or of the literal that was read in its place. -/
def pushDelimiter (state : LexState) (id : DelimiterId) (span : Span) (value : Option Literal) :
    LexState :=
  match value with
  | none => state.pushToken ⟨span, .delimiter id⟩
  | some literal =>
      let (literalId, forest) := state.forest.pushLiteral literal
      { state with forest := forest }.pushToken ⟨span, .literal literalId⟩

/--
What a delimiter that covers `span` does: it closes the innermost context if it
belongs to it, else it opens its context, else it is a token.
-/
def placeDelimiter (state : LexState) (id : DelimiterId) (span : Span) (value : Option Literal) :
    LexState :=
  let delimiter := input.table.delimiter id
  if delimiter.closes && input.belongsToInnermost state delimiter then
    (state.pushToken ⟨span, .node state.currentNode⟩).closeContext (some id) span.stop
  else if delimiter.opens then
    input.openContext state id span
  else if delimiter.closes then
    pushDelimiter
      (state.report .structural span
        (ContextFault.unexpectedCloser (String.ofList delimiter.text)).message) id span value
  else
    pushDelimiter state id span value

/-- What is read from the start of a delimiter: its text, or what its scan rule says. -/
def scanDelimiter (state : LexState) (delimiter : Delimiter) : Scan :=
  match delimiter.scan with
  | none => .plain (Text.byteSize delimiter.text)
  | some rule => rule input.source state.cursor

/--
Reads the delimiter at the cursor. At least one character is consumed, and never
a part of one.
-/
def readDelimiter (state : LexState) (id : DelimiterId) : LexState :=
  let scan := input.scanDelimiter state (input.table.delimiter id)
  let start := state.cursor
  let (size, rest) := Text.splitReaching (max 1 scan.consumed) state.rest
  let reported :=
    match scan.error with
    | none => state
    | some error =>
        state.report .lex (.ofLength (start + error.offset) error.length) error.fault.message
  input.placeDelimiter (reported.advance size rest) id (.ofLength start size) scan.value

end Delimiters

section Ending

/-- Reports an open context, unless it may end with the text. -/
def reportOpen (log : Log) (context : OpenContext) : Log :=
  if (input.table.ruleSet context.rules).contextClass.has .lineComment then
    log
  else
    let text := (input.table.delimiter context.opener).text
    log.report .lex (.ofLength context.start (Text.byteSize text))
      (ContextFault.missingCloser (String.ofList text)).message

/-- Closes all open contexts at `stop`, the innermost one first. -/
def closeAll (stop : Nat) : (count : Nat) → LexState → LexState
  | 0, state => state
  | count + 1, state => closeAll stop count (state.closeContext none stop)

/--
Ends a run at the cursor: the open contexts are reported, the outermost one
first, and closed; the root gets its tokens.
-/
def stop (state : LexState) : LexState :=
  if state.finished then
    state
  else
    let flushed := state.flushText
    let reported :=
      { flushed with log := flushed.stack.reverse.foldl input.reportOpen flushed.log }
    let closed := closeAll state.cursor reported.stack.length reported
    { closed with
      forest := closed.forest.closeNode Forest.root closed.pending none state.cursor
      pending := #[]
      finished := true }

end Ending

section Running

/-- Reads one position; at the end of the text the run ends. -/
def step (state : LexState) : LexState :=
  if state.finished then
    state
  else
    match state.rest with
    | [] => input.stop state
    | c :: rest =>
        let rules := input.currentRules state
        if input.table.isWhitespace rules input.rules c then
          state.flushText.advance c.utf8Size rest
        else
          match input.table.findIn rules input.rules input.source state.cursor state.rest
              state.textStart.isSome with
          | some id => input.readDelimiter state.flushText id
          | none =>
              { state with textStart := state.textStart <|> some state.cursor }.advance
                c.utf8Size rest

/-- Takes up to `count` steps. -/
def runSteps : (count : Nat) → LexState → LexState
  | 0, state => state
  | count + 1, state => runSteps count (input.step state)

/-- Runs to the end. A step reads a character or ends the run. -/
def run (state : LexState) : LexState :=
  input.runSteps (state.rest.length + 1) state

/-- Takes up to `count` steps as long as the progress fulfils a condition, else ends the run. -/
def runWhileWithin (holds : LexProgress → Bool) : (count : Nat) → LexState → LexState
  | 0, state => state
  | count + 1, state =>
      if state.finished then state
      else if holds state.progress then runWhileWithin holds count (input.step state)
      else input.stop state

/-- Runs as long as the progress fulfils a condition, and ends the run where it does not. -/
def runWhile (holds : LexProgress → Bool) (state : LexState) : LexState :=
  input.runWhileWithin holds (state.rest.length + 1) state

/-- Reads the whole text. -/
def lex : LexOutput :=
  (input.run input.start).output

end Running

section Lemmas

variable (state : LexState)

theorem step_of_finished (h : state.finished = true) : input.step state = state := by
  simp [step, h]

theorem stop_of_finished (h : state.finished = true) : input.stop state = state := by
  simp [stop, h]

/-- Steps can be taken in two parts. -/
theorem runSteps_add (m n : Nat) :
    input.runSteps (m + n) state = input.runSteps n (input.runSteps m state) := by
  induction m generalizing state with
  | zero => simp [runSteps]
  | succ m ih => rw [Nat.succ_add, runSteps, runSteps, ih]

end Lemmas

end LexInput
end ExprLang
