import ExprLang.Diagnostics.Lines
import ExprLang.Span

/-!
# The log of reported problems

Problems are kept in the order in which they are reported, each with the row
and column of its start. A log can be cut back to an earlier length, and can
take over the entries of another one.
-/

namespace ExprLang

/-- The stage that reports a problem. -/
inductive Category where
  /-- A malformed literal, or a context that is not closed. -/
  | lex
  /-- A misplaced closer or separator, or an operator without an operand. -/
  | structural
  /-- A failed look-up, operation or invocation. -/
  | resolution
  deriving DecidableEq, Inhabited

/-- The name of a category in reports. -/
def Category.name : Category → String
  | .lex => "lex"
  | .structural => "structure"
  | .resolution => "resolution"

/-- A reported problem: where it is, and what it is. -/
structure Diagnostic where
  span : Span
  row : Nat
  column : Nat
  category : Category
  message : String
  deriving DecidableEq, Inhabited

/-- The problem on one line. -/
def Diagnostic.summary (d : Diagnostic) : String :=
  "@" ++ toString d.row ++ "," ++ toString d.column ++
    "(" ++ toString d.span.start ++ "): " ++ d.message

/-- The problems reported about one source. -/
structure Log where
  lines : LineTable
  entries : Array Diagnostic

namespace Log

/-- The empty log of a source. -/
def ofSource (source : Source) : Log :=
  ⟨LineTable.ofSource source, #[]⟩

variable (log : Log)

/-- The entry for a problem at `span`. -/
def entry (category : Category) (span : Span) (message : String) : Diagnostic :=
  let (row, column) := log.lines.position span.start
  ⟨span, row, column, category, message⟩

/-- Reports a problem. -/
def report (category : Category) (span : Span) (message : String) : Log :=
  { log with entries := log.entries.push (log.entry category span message) }

/-- Number of entries. -/
def length : Nat :=
  log.entries.size

/-- Is nothing reported? -/
def isEmpty : Bool :=
  log.entries.isEmpty

/-- Number of entries of a category. -/
def count (category : Category) : Nat :=
  log.entries.countP fun d => d.category = category

/-- Drops the entries behind the first `mark` ones. -/
def rollback (mark : Nat) : Log :=
  { log with entries := log.entries.take mark }

/-- Takes over the entries of another log, as they are. -/
def absorb (other : Log) : Log :=
  { log with entries := log.entries ++ other.entries }

section Lemmas

variable (category : Category) (span : Span) (message : String)

@[simp]
theorem toList_report :
    (log.report category span message).entries.toList =
      log.entries.toList ++ [log.entry category span message] := by
  simp [report]

@[simp]
theorem lines_report : (log.report category span message).lines = log.lines := rfl

@[simp]
theorem lines_rollback (mark : Nat) : (log.rollback mark).lines = log.lines := rfl

@[simp]
theorem toList_rollback (mark : Nat) :
    (log.rollback mark).entries.toList = log.entries.toList.take mark := by
  simp [rollback]

@[simp]
theorem toList_absorb (other : Log) :
    (log.absorb other).entries.toList = log.entries.toList ++ other.entries.toList := by
  simp [absorb]

end Lemmas

/-- What is said in a report depends on nothing but the lines of the source. -/
theorem entry_congr {log other : Log} (h : log.lines = other.lines) (category : Category)
    (span : Span) (message : String) :
    log.entry category span message = other.entry category span message := by
  unfold entry
  rw [h]

end Log
end ExprLang
