import ExprLang.Diagnostics.Report
import ExprLang.Forest.Outline
import ExprLang.Host.Store
import ExprLang.Language
import ExprLang.Options

/-!
# Commands

What the commands make of a source text: the outline of its forest, before or
after its operators are grouped, or its value. A command gives a report and
prints nothing.
-/

namespace ExprLang

/-- A command on a source text. -/
inductive Command where
  | lex
  | tree
  | eval
  deriving DecidableEq, Inhabited

/-- What a command gives. -/
structure Report where
  /-- For the standard output. -/
  output : String
  /-- The problems, for the standard error output. -/
  diagnostics : String
  /-- Are there problems? -/
  failed : Bool
  deriving DecidableEq, Inhabited

/-- Why a file is not read. -/
inductive ReadFailure where
  | missing
  | directory
  | other (reason : String)
  deriving DecidableEq, Inhabited

/-- The wording of a failure to read. -/
def ReadFailure.message : ReadFailure → String
  | missing => "No such file or directory (os error 2)"
  | directory => "Is a directory (os error 21)"
  | other reason => reason

/-- Why a command gives no report. -/
inductive CommandError where
  | grammar (error : TableError)
  | read (path : String) (failure : ReadFailure)
  | stdin (failure : ReadFailure)
  deriving DecidableEq, Inhabited

/-- The wording of a failed command. -/
def CommandError.message : CommandError → String
  | grammar error => error.message
  | read path failure => "cannot read '" ++ path ++ "': " ++ failure.message
  | stdin failure => "cannot read standard input: " ++ failure.message

namespace Command

/-- The command of this name. -/
def ofName? : String → Option Command
  | "lex" => some lex
  | "tree" => some tree
  | "eval" => some eval
  | _ => none

/-- A report of an output, and of the problems in a log. -/
def reportOf (output : String) (log : Log) : Report :=
  ⟨output, log.render, !log.isEmpty⟩

/-- The outline of a forest with the names of the built-in rule sets. -/
def outlineReport (lexed : LexOutput) : Report :=
  reportOf (lexed.forest.outline fun id => (Grammar.builtin.ruleSet id).name) lexed.log

section Evaluation

/-- The object that assignments are made in. -/
def scope : ObjectRef := ⟨0⟩

/-- A store with nothing but an object to make assignments in. -/
def emptyScope : Store :=
  ⟨#[.scope [] []]⟩

/-- Evaluates a text and makes its value a member. -/
def assign (store : Store) (name text : String) : Log × Store :=
  let (evaluation, store) := (Language.input text).evaluate Store.host scope .full store
  (evaluation.log, (store.assign scope name evaluation.result).2)

/-- Makes assignments in order: the problems in them, rendered, and the store. -/
def assignAll : List (String × String) → Store → List Log × Store
  | [], store => ([], store)
  | (name, text) :: rest, store =>
      let (log, store) := assign store name text
      let (logs, store) := assignAll rest store
      (log :: logs, store)

/-- Stops at names that are no members. -/
def stopAtUnknown : ResolutionMode Store :=
  .partly fun kind text store =>
    (kind = .name && text != Resolution.nullName && (store.member? scope text).isNone, store)

/-- The value of a source text after the assignments of the options. -/
def evalReport (options : Options) (rules : RuleSetId) (source : String) : Report :=
  let (logs, store) := assignAll options.sets emptyScope
  let input : LexInput := ⟨Grammar.builtin, .ofString source, rules⟩
  let mode := if options.partly then stopAtUnknown else .full
  let (evaluation, _) := input.evaluate Store.host scope mode store
  let report := reportOf (evaluation.result.display ++ "\n") evaluation.log
  { report with
    diagnostics := String.join (logs.map Log.render) ++ report.diagnostics
    failed := report.failed || logs.any fun log => !log.isEmpty }

end Evaluation

/-- The report of a command on a source text. -/
def run (command : Command) (options : Options) (source : String) :
    Except CommandError Report :=
  match Grammar.builtin.require options.grammar with
  | .error error => .error (.grammar error)
  | .ok rules =>
      let input : LexInput := ⟨Grammar.builtin, .ofString source, rules⟩
      match command with
      | lex => .ok (outlineReport input.lex)
      | tree => .ok (outlineReport input.parse)
      | eval => .ok (evalReport options rules source)

end Command
end ExprLang
