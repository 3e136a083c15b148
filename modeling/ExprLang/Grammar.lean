import ExprLang.RuleSet.Table
import ExprLang.ScanRules

/-!
# Built-in grammars

The rule set `default` is the whole expression language; `command line` knows
brackets, text literals, separators and comments only. The other rule sets are
the contexts that these two open, and one for every operator.
-/

namespace ExprLang
namespace Grammar

section Names

/-- The rule set of the whole language. -/
def defaultName : String := "default"

/-- The rule set without operators, numbers and booleans. -/
def commandLineName : String := "command line"

/-- The body of a text between double quotes. -/
def stringName : String := "string"

/-- The body of a text between single quotes. -/
def charName : String := "char"

/-- Decimal numbers. -/
def numberName : String := "number"

/-- Hexadecimal numbers. -/
def hexName : String := "0x"

/-- The two booleans. -/
def boolName : String := "bool"

/-- A group in parentheses. -/
def parensName : String := "()"

/-- A list in square brackets. -/
def bracketsName : String := "[]"

/-- A group in braces. -/
def bracesName : String := "\x7b\x7d"

/-- A comment with a closing delimiter. -/
def blockCommentName : String := "/**/"

/-- A comment up to the end of its line. -/
def lineCommentName : String := "//"

/-- A comment for documentation, up to the end of its line. -/
def docCommentName : String := "///"

end Names

section Delimiters

/-- The characters between the terms of an expression. -/
def whitespace : List Char :=
  [' ', '\t', '\n', '\r', '\x0b', '\x0c']

/-- The delimiter at both ends of a string. -/
def quote : Delimiter :=
  (Delimiter.ofContext "\"" stringName).opening.closing.named "string literal"

/-- The delimiter at both ends of a character. -/
def apostrophe : Delimiter :=
  (Delimiter.ofContext "'" charName).opening.closing.named "character literal"

/-- The three pairs of brackets. -/
def brackets : List Delimiter :=
  [(Delimiter.ofContext "(" parensName).opening,
    (Delimiter.ofContext ")" parensName).closing,
    (Delimiter.ofContext "[" bracketsName).opening,
    (Delimiter.ofContext "]" bracketsName).closing,
    (Delimiter.ofContext "\x7b" bracesName).opening,
    (Delimiter.ofContext "\x7d" bracesName).closing]

/-- Both ends of a block comment. -/
def blockCommentEnds : List Delimiter :=
  [(Delimiter.ofContext "/*" blockCommentName).opening.named "block comment",
    (Delimiter.ofContext "*/" blockCommentName).closing.named "block comment"]

/-- The starts of the two kinds of line comment. -/
def lineCommentStarts : List Delimiter :=
  [(Delimiter.ofContext "//" lineCommentName).opening.named "line comment",
    (Delimiter.ofContext "///" docCommentName).opening.named "documentation comment"]

/-- The separators between the items of a list. -/
def separators : List Delimiter :=
  [(Delimiter.plain ";").separating.described "instruction finished",
    (Delimiter.plain ",").separating.described "list item separator"]

/-- Symbols that no operator uses. -/
def symbols : List Delimiter :=
  ["?", ":", "??", "=>", "!", "~", "++", "--", "&", "|", "<<", ">>", "^", "=", "+=", "-=",
    "*=", "/=", "%=", "&=", "|=", "^=", "<<=", ">>="].map Delimiter.plain

/-- One delimiter for every operator. -/
def operators : List Delimiter :=
  Operator.all.map Delimiter.ofOperator

/-- Starts of numbers, and the two booleans. -/
def literals : List Delimiter :=
  [((Delimiter.ofContext "-" numberName).when ScanRules.minusStartsNumber).scannedBy
      ScanRules.number |>.named "negative number",
    ((Delimiter.ofContext "." numberName).when ScanRules.dotStartsNumber).scannedBy
      ScanRules.number |>.named "decimal number",
    (Delimiter.ofContext "0x" hexName).scannedBy ScanRules.hexadecimal
      |>.named "hexadecimal number",
    (Delimiter.ofContext "True" boolName).scannedBy ScanRules.boolean
      |>.nonBreaking.named "boolean",
    (Delimiter.ofContext "False" boolName).scannedBy ScanRules.boolean
      |>.nonBreaking.named "boolean"] ++
  ["0", "1", "2", "3", "4", "5", "6", "7", "8", "9"].map fun digit =>
    (Delimiter.ofContext digit numberName).scannedBy ScanRules.number |>.named "number"

/-- What counts inside a text literal, its closing quote apart. -/
def textBody (name : String) : List Delimiter :=
  [(Delimiter.plain "\\").scannedBy ScanRules.escape |>.named "escape sequence",
    (Delimiter.ofContext "\n" name).closing.nonPrintable.scannedBy ScanRules.lineBreakInLiteral
      |>.named "erroneous end of text literal",
    (Delimiter.ofContext "\r" name).closing.nonPrintable.scannedBy ScanRules.lineBreakInLiteral
      |>.named "erroneous end of text literal"]

/-- What counts inside a comment that ends with its line. -/
def lineCommentBody (name : String) : List Delimiter :=
  [((Delimiter.plain "\\").when ScanRules.escapesLineBreak).scannedBy ScanRules.lineContinuation
      |>.named "line continuation",
    (Delimiter.ofContext "\n" name).closing.nonPrintable,
    (Delimiter.ofContext "\r" name).closing.nonPrintable]

end Delimiters

section Installation

/-- Defines a rule set and gives the table with it. -/
def defined (definition : RuleSetDefinition) (table : RuleSetTable) :
    Except TableError RuleSetTable :=
  (table.define definition).map Prod.snd

/-- The body of a text literal: its delimiters and no whitespace. -/
def defineTextBody (name : String) (closer : DelimiterId) (table : RuleSetTable) :
    Except TableError RuleSetTable :=
  let (ids, table) := table.addDelimiters (textBody name)
  defined
    { name := name
      delimiters := some (closer :: ids)
      whitespace := some []
      contextClass := .ofFlags [.textLiteral]
      simplify := some .concatenate } table

/-- A comment that ends with its line. -/
def defineLineComment (name : String) (table : RuleSetTable) :
    Except TableError RuleSetTable :=
  let (ids, table) := table.addDelimiters (lineCommentBody name)
  defined
    { name := name
      delimiters := some ids
      whitespace := some []
      contextClass := .ofFlags [.comment, .lineComment]
      simplify := some .discard } table

/-- A group between brackets that stands for its only term. -/
def defineGroup (name : String) : RuleSetTable → Except TableError RuleSetTable :=
  defined
    { name := name
      contextClass := .ofFlags [.enclosure]
      simplify := some .singleTerm }

/-- A rule set without delimiters. -/
def defineBare (name : String) : RuleSetTable → Except TableError RuleSetTable :=
  defined { name := name, delimiters := some [] }

/-- A rule set for the applications of an operator, unless there is one of its name. -/
def defineOperatorContext (table : RuleSetTable) (op : Operator) :
    Except TableError RuleSetTable :=
  match table.find? op.contextName with
  | some _ => .ok table
  | none =>
      defined
        { name := op.contextName
          delimiters := some []
          contextClass := .ofFlags [.operator] } table

/-- A rule set for the applications of every operator that has none yet. -/
def defineOperatorContexts (table : RuleSetTable) : Except TableError RuleSetTable :=
  Operator.all.foldlM defineOperatorContext table

/-- Adds the built-in grammars to a table. -/
def install (table : RuleSetTable) : Except TableError RuleSetTable := do
  let (quoteId, table) := table.addDelimiter quote
  let (apostropheId, table) := table.addDelimiter apostrophe
  let (bracketIds, table) := table.addDelimiters brackets
  let (blockCommentIds, table) := table.addDelimiters blockCommentEnds
  let (lineCommentIds, table) := table.addDelimiters lineCommentStarts
  let (separatorIds, table) := table.addDelimiters separators
  let (symbolIds, table) := table.addDelimiters symbols
  let (operatorIds, table) := table.addDelimiters operators
  let (literalIds, table) := table.addDelimiters literals
  let shared :=
    quoteId :: apostropheId :: bracketIds ++ blockCommentIds ++ lineCommentIds ++ separatorIds
  let table ← defined
    { name := defaultName
      delimiters := some (shared ++ symbolIds ++ operatorIds ++ literalIds)
      whitespace := some whitespace } table
  let table ← defined
    { name := commandLineName
      delimiters := some shared
      whitespace := some whitespace } table
  let table ← defineTextBody stringName quoteId table
  let table ← defineTextBody charName apostropheId table
  let table ← defineGroup parensName table
  let table ← defineGroup bracesName table
  let table ← defined { name := bracketsName, contextClass := .ofFlags [.enclosure] } table
  let table ← defined
    { name := blockCommentName
      delimiters := some blockCommentIds
      contextClass := .ofFlags [.comment]
      simplify := some .discard } table
  let table ← defineLineComment lineCommentName table
  let table ← defineLineComment docCommentName table
  let table ← defineBare numberName table
  let table ← defineBare hexName table
  let table ← defineBare boolName table
  defineOperatorContexts table

/-- The table of the built-in grammars. -/
def builtin : RuleSetTable :=
  match install .empty with
  | .ok table => table
  | .error _ => .empty

end Installation

end Grammar

/-- The rule set to start in: `default`, or the first one of a table without it. -/
def RuleSetTable.startRules (table : RuleSetTable) : RuleSetId :=
  (table.find? Grammar.defaultName).getD ⟨0⟩

end ExprLang
