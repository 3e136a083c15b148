import ExprLang.Command

/-!
# The program

What the program writes and how it ends, from its arguments. Where the text of an
input is needed, the answer is a function of that text, so that reading it is all
that is left to do outside.
-/

namespace ExprLang
namespace Program

/-- What is written to the two outputs, and the exit code. -/
structure Outcome where
  stdout : String := ""
  stderr : String := ""
  code : Nat := 0
  deriving DecidableEq, Inhabited

/-- What the program does with its arguments. -/
inductive Plan where
  | finish (outcome : Outcome)
  /-- The outcome depends on a text that has to be read. -/
  | read (input : Input) (outcome : Except ReadFailure String → Outcome)

/-- The version of the program. -/
def version : String := "0.1.0-alpha.8"

/-- The help text. -/
def usage : String :=
  "\n".intercalate
    ["weft expression language",
      "",
      "Usage: weft <command> [options] [file | -e <expr> | -]",
      "",
      "Commands:",
      "  lex        Lex and print the raw token forest",
      "  tree       Lex, group operators and print the forest",
      "  eval       Evaluate and print the value",
      "  help       Show this help message",
      "  version    Show version information",
      "",
      "Options:",
      "  --grammar=<name>   Starting rule set (default, command line)",
      "  --set name=value   Evaluate value and bind it as name (eval only)",
      "  --partial          Leave unknown names unresolved (eval only)",
      "  -e <expr>          Read the source from the argument",
      "",
      "Without a file or -e the source is read from standard input.",
      "",
      "Environment:",
      "  RUST_LOG           Log filter (default: warn)",
      "  WEFT_LOG_TREE=1    Render logs as an indented span tree",
      ""]

/-- The outcome of arguments that are refused. -/
def refusal (error : Options.Error) : Outcome :=
  { stderr := "error: " ++ error.message ++ "\nRun `weft help` for usage.\n", code := 2 }

/-- The outcome of a command. -/
def outcomeOf : Except CommandError Report → Outcome
  | .ok report =>
      { stdout := report.output
        stderr := report.diagnostics
        code := if report.failed then 1 else 0 }
  | .error error => { stderr := "error: " ++ error.message ++ "\n", code := 1 }

/-- The failure to read an input, as that of a command. -/
def readError : Input → ReadFailure → CommandError
  | .file path, failure => .read path failure
  | _, failure => .stdin failure

/-- Runs a command on its input, which is read if it is not among the arguments. -/
def planCommand (command : Command) (options : Options) : Plan :=
  match options.input with
  | .inline text => .finish (outcomeOf (command.run options text))
  | input =>
      .read input fun source =>
        outcomeOf ((source.mapError (readError input)).bind (command.run options))

/-- What the program does with its arguments. -/
def plan : List String → Plan
  | [] => .finish { stdout := usage }
  | name :: arguments =>
      match Command.ofName? name with
      | some command =>
          match Options.parse arguments with
          | .ok options => planCommand command options
          | .error error => .finish (refusal error)
      | none =>
          if ["help", "--help", "-h"].contains name then
            .finish { stdout := usage }
          else if ["version", "--version", "-V"].contains name then
            .finish { stdout := "weft " ++ version ++ "\n" }
          else
            .finish
              { stdout := usage, stderr := "Unknown command: " ++ name ++ "\n\n", code := 1 }

end Program
end ExprLang
