import ExprLang.Text.Source

/-!
# Rows and columns

A table of the lines of a text. Rows count from one, line feeds end them, and
an offset belongs to the last row that starts at or before it. Columns count
from one, in characters.
-/

namespace ExprLang

/-- The offsets behind the line feeds of a text that starts at `offset`. -/
def startsBehindLineFeeds (offset : Nat) : List Char → List Nat
  | [] => []
  | c :: cs =>
      let next := offset + c.utf8Size
      if c = '\n' then
        next :: startsBehindLineFeeds next cs
      else
        startsBehindLineFeeds next cs

/-- A source with the offsets at which its lines start. -/
structure LineTable where
  source : Source
  starts : List Nat

namespace LineTable

/-- The line table of a source: a first line, and one behind every line feed. -/
def ofSource (source : Source) : LineTable :=
  ⟨source, 0 :: startsBehindLineFeeds 0 source.chars⟩

variable (table : LineTable)

/-- Number of lines. -/
def lineCount : Nat :=
  table.starts.length

/-- The row of an offset: how many lines start at or before it. -/
def rowOf (offset : Nat) : Nat :=
  table.starts.countP (· ≤ offset)

/-- The offset at which a row starts. -/
def lineStart? (row : Nat) : Option Nat :=
  if row = 0 then none else table.starts[row - 1]?

/--
The column of an offset: one more than the number of characters between the
start of its row and the offset, or the end of the text if that comes first.
-/
def columnOf (offset : Nat) : Nat :=
  let start := (table.lineStart? (table.rowOf offset)).getD 0
  let stop := min offset table.source.size
  ((table.source.slice? start stop).map List.length).getD 0 + 1

/-- Row and column of an offset. -/
def position (offset : Nat) : Nat × Nat :=
  (table.rowOf offset, table.columnOf offset)

/-- The text of a row without the line feeds and carriage returns at its end. -/
def lineText? (row : Nat) : Option (List Char) :=
  (table.lineStart? row).bind fun start =>
    let stop := (table.lineStart? (row + 1)).getD table.source.size
    (table.source.slice? start stop).map fun line =>
      (line.reverse.dropWhile fun c => c = '\n' || c = '\r').reverse

section Lemmas

@[simp]
theorem source_ofSource (source : Source) : (ofSource source).source = source := rfl

end Lemmas

end LineTable
end ExprLang
