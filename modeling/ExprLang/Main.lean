import ExprLang.Program

/-!
# Entry point

Reads the input that the program asks for, writes its outputs, and ends with its
exit code.
-/

namespace ExprLang

/-- The failure behind an input or output error. -/
def readFailureOf : IO.Error → ReadFailure
  | .noFileOrDirectory .. => .missing
  | .inappropriateType .. => .directory
  | error => .other error.toString

/-- The text of an input, or why it cannot be read. -/
def readInput (input : Input) : IO (Except ReadFailure String) := do
  try
    match input with
    | .file path => return .ok (← IO.FS.readFile path)
    | .inline text => return .ok text
    | .stdin =>
        let bytes ← (← IO.getStdin).readBinToEnd
        match String.fromUTF8? bytes with
        | some text => return .ok text
        | none => return .error (.other "stream did not contain valid UTF-8")
  catch error =>
    return .error (readFailureOf error)

/-- Writes what an outcome says, and gives its exit code. -/
def finishWith (outcome : Program.Outcome) : IO UInt32 := do
  IO.print outcome.stdout
  IO.eprint outcome.stderr
  return UInt32.ofNat outcome.code

end ExprLang

open ExprLang in
/-- Runs the program. -/
def main (arguments : List String) : IO UInt32 := do
  match Program.plan arguments with
  | .finish outcome => finishWith outcome
  | .read input outcome => finishWith (outcome (← readInput input))
