import ExprLang.Diagnostics.Log

/-!
# Writing a log for a reader

Every problem with its position, its line, and carets below the part of the
line that it is about.
-/

namespace ExprLang

/-- The first line of a text, without the line feed or carriage return and line feed that end it. -/
def firstLine (text : List Char) : List Char :=
  let line := text.takeWhile (· != '\n')
  if line.length < text.length ∧ line.getLast? = some '\r' then
    line.dropLast
  else
    line

namespace Log

/--
Number of carets: the characters of the span on its first line, as far as the
line goes, and at least one.
-/
def caretWidth (log : Log) (d : Diagnostic) (line : List Char) : Nat :=
  let room := line.length - (d.column - 1)
  let spanned :=
    match log.lines.source.slice? d.span.start d.span.stop with
    | none => 0
    | some text => (firstLine text).length
  max (min spanned room) 1

/-- `count` times the same character. -/
def repeated (c : Char) (count : Nat) : String :=
  String.ofList (List.replicate count c)

/-- The line of a problem in a gutter with its number, and the carets below it. -/
def renderExcerpt (log : Log) (d : Diagnostic) (line : List Char) : String :=
  let gutter := toString d.row
  let pad := repeated ' ' gutter.length
  pad ++ " |\n" ++
    gutter ++ " | " ++ String.ofList line ++ "\n" ++
    pad ++ " | " ++ repeated ' ' (d.column - 1) ++
    repeated '^' (log.caretWidth d line) ++ "\n"

/-- One problem; the excerpt is left out where the text has no such row. -/
def renderEntry (log : Log) (d : Diagnostic) : String :=
  let head := "error[" ++ d.category.name ++ "]: " ++ d.message ++ "\n --> " ++
    toString d.row ++ ":" ++ toString d.column ++ "\n"
  match log.lines.lineText? d.row with
  | none => head
  | some line => head ++ log.renderExcerpt d line

/-- Every problem, in the order in which they were reported. -/
def render (log : Log) : String :=
  log.entries.foldl (fun out d => out ++ log.renderEntry d) ""

end Log
end ExprLang
