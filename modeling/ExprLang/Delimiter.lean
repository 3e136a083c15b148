import ExprLang.Literal
import ExprLang.Operator
import ExprLang.Text.Source

/-!
# Delimiters

A delimiter is a text at which the lexer stops reading plain text. It may be
narrowed by a predicate on the place where it stands, and it may be followed by
a scan rule, which says how much to read from there and which value to put in
its place.

Delimiters are ordered for the tables of rule sets: by their texts, a longer one
before its beginnings, then the one with a predicate first, then by their roles.
-/

namespace ExprLang

/-- What a scan rule finds wrong. -/
inductive ScanFault where
  | missingFraction
  | malformedDecimal
  | malformedInteger
  | missingHexDigits
  | hexOutOfRange
  | unterminatedEscape
  | unknownEscape
  | missingEscapeDigits
  | invalidCodePoint
  | lineBreakInLiteral
  /-- A fault of a rule other than the built-in ones. -/
  | other (message : String)
  deriving DecidableEq, Inhabited

/-- The wording of a fault. -/
def ScanFault.message : ScanFault → String
  | missingFraction => "decimal point with no subsequent digits"
  | malformedDecimal => "malformed decimal literal"
  | malformedInteger => "malformed integer literal"
  | missingHexDigits => "hexadecimal literal with no digits"
  | hexOutOfRange => "hexadecimal literal out of range"
  | unterminatedEscape => "unterminated escape sequence"
  | unknownEscape => "unknown escape sequence"
  | missingEscapeDigits => "invalid escape sequence: missing hex digits"
  | invalidCodePoint => "escape sequence is not a valid character"
  | lineBreakInLiteral => "line break inside text literal"
  | other message => message

/-- A fault and where it is, counted from the start of the delimiter. -/
structure ScanError where
  offset : Nat
  length : Nat
  fault : ScanFault
  deriving DecidableEq, Inhabited

/-- What a scan rule reads: how many bytes, which value, and what is wrong. -/
structure Scan where
  consumed : Nat
  value : Option Literal
  error : Option ScanError
  deriving Inhabited

namespace Scan

/-- So many bytes, without a value. -/
def plain (consumed : Nat) : Scan :=
  ⟨consumed, none, none⟩

/-- So many bytes that stand for a value. -/
def ofValue (consumed : Nat) (value : Literal) : Scan :=
  ⟨consumed, some value, none⟩

/-- The same with a fault. -/
def withError (scan : Scan) (offset length : Nat) (fault : ScanFault) : Scan :=
  { scan with error := some ⟨offset, length, fault⟩ }

end Scan

/-- Reads on from the start of a delimiter, an offset into a source. -/
abbrev ScanRule := (source : Source) → (index : Nat) → Scan

/-- A condition on the place of a delimiter, an offset into a source. -/
abbrev MatchPredicate := (source : Source) → (index : Nat) → Bool

/-- What a delimiter is for. -/
inductive DelimiterRole where
  | plain
  /-- It belongs to the context of this name. -/
  | context (name : String)
  /-- It is an operator, with a tier that need not be the usual one. -/
  | operator (operator : Operator) (precedence : Nat)
  deriving DecidableEq, Inhabited

/-- A delimiter. -/
structure Delimiter where
  text : List Char
  name : String
  description : Option String
  scan : Option ScanRule
  predicate : Option MatchPredicate
  /-- Is it shown when a tree is written as text? -/
  isPrintable : Bool
  /-- Is it recognised while plain text is being read? -/
  isBreaking : Bool
  /-- Does it open its context? -/
  opens : Bool
  /-- Does it close its context when that is the innermost one? -/
  closes : Bool
  /-- Does it stand between the items of a list? -/
  isSeparator : Bool
  role : DelimiterRole
  deriving Inhabited

namespace Delimiter

section Construction

/-- A delimiter named after its text. -/
def plain (text : String) : Delimiter :=
  { text := text.toList
    name := text
    description := none
    scan := none
    predicate := none
    isPrintable := true
    isBreaking := true
    opens := false
    closes := false
    isSeparator := false
    role := .plain }

/-- A delimiter of a context, named after it. -/
def ofContext (text context : String) : Delimiter :=
  { plain text with name := context, role := .context context }

/-- The delimiter of an operator. -/
def ofOperator (op : Operator) : Delimiter :=
  { plain op.symbol with
    name := op.contextName
    role := .operator op op.precedence
    isBreaking := op.isBreaking }

variable (delimiter : Delimiter)

/-- Makes it open its context. -/
def opening : Delimiter :=
  { delimiter with opens := true }

/-- Makes it close its context. -/
def closing : Delimiter :=
  { delimiter with closes := true }

/-- Makes it a separator. -/
def separating : Delimiter :=
  { delimiter with isSeparator := true }

/-- Gives it a name of its own. -/
def named (name : String) : Delimiter :=
  { delimiter with name := name }

/-- Gives it a description. -/
def described (description : String) : Delimiter :=
  { delimiter with description := some description }

/-- Lets a rule read on from it. -/
def scannedBy (rule : ScanRule) : Delimiter :=
  { delimiter with scan := some rule }

/-- Restricts it to the places where a predicate holds. -/
def when (predicate : MatchPredicate) : Delimiter :=
  { delimiter with predicate := some predicate }

/-- Hides it inside plain text. -/
def nonBreaking : Delimiter :=
  { delimiter with isBreaking := false }

/-- Leaves it out when a tree is written as text. -/
def nonPrintable : Delimiter :=
  { delimiter with isPrintable := false }

/-- Gives an operator another tier; other delimiters have none. -/
def withPrecedence (precedence : Nat) : Delimiter :=
  match delimiter.role with
  | .operator op _ => { delimiter with role := .operator op precedence }
  | _ => delimiter

end Construction

section Queries

variable (delimiter : Delimiter)

/-- The first character of its text. -/
def firstChar? : Option Char :=
  delimiter.text.head?

/-- The name of its context. -/
def contextName? : Option String :=
  match delimiter.role with
  | .context name => some name
  | _ => none

/-- Its operator and the tier it has here. -/
def operator? : Option (Operator × Nat) :=
  match delimiter.role with
  | .operator op precedence => some (op, precedence)
  | _ => none

/-- Is it an operator? -/
def isOperator : Bool :=
  delimiter.operator?.isSome

/--
Does it stand at `index`, where `rest` is the text from there on? Its text does,
and its predicate holds.
-/
def standsAt (source : Source) (index : Nat) (rest : List Char) : Bool :=
  Text.startsWith delimiter.text rest &&
    match delimiter.predicate with
    | none => true
    | some holds => holds source index

/-- Does it stand at an offset into a source? -/
def isAt (source : Source) (index : Nat) : Bool :=
  match source.drop? index with
  | none => false
  | some rest => delimiter.standsAt source index rest

end Queries

section Order

/-- How two texts compare at the first character in which they differ. -/
def compareAtDifference? : List Char → List Char → Option Ordering
  | a :: as, b :: bs =>
      if a = b then compareAtDifference? as bs else some (compare a b)
  | _, _ => none

/-- Contexts come before operators, and operators before plain delimiters. -/
def roleRank (delimiter : Delimiter) : Nat :=
  match delimiter.role with
  | .context _ => 0
  | .operator _ _ => 1
  | .plain => 2

/--
The order of delimiters in a table: by text, character by character; where one
text begins the other the longer one first; for equal texts the one with a
predicate first; then by role.
-/
def tableOrder (a b : Delimiter) : Ordering :=
  match compareAtDifference? a.text b.text with
  | some order => order
  | none =>
      (compare (Text.byteSize b.text) (Text.byteSize a.text)).then <|
        (compare b.predicate.isSome a.predicate.isSome).then <|
          compare a.roleRank b.roleRank

end Order

section Lemmas

@[simp]
theorem operator?_ofOperator (op : Operator) :
    (ofOperator op).operator? = some (op, op.precedence) := rfl

@[simp]
theorem contextName?_ofContext (text context : String) :
    (ofContext text context).contextName? = some context := rfl

@[simp]
theorem text_plain (text : String) : (plain text).text = text.toList := rfl

end Lemmas

end Delimiter
end ExprLang
