import ExprLang.Decimal.Reader
import ExprLang.Delimiter

/-!
# Built-in scan rules

Rules for numbers, booleans, the escapes in text literals, and line breaks, and
the predicates that go with them. A rule is called where its delimiter stands;
offsets in its result count from there.
-/

namespace ExprLang
namespace ScanRules

section Predicates

/-- Does the character at `index` fulfil a condition? -/
def charAt (source : Source) (index : Nat) (holds : Char → Bool) : Bool :=
  match source.drop? index with
  | some (c :: _) => holds c
  | _ => false

/-- A minus starts a number when a digit or a point follows. -/
def minusStartsNumber : MatchPredicate := fun source index =>
  charAt source (index + 1) fun c => c.isDigit || c == '.'

/-- A point starts a number when a digit follows. -/
def dotStartsNumber : MatchPredicate := fun source index =>
  charAt source (index + 1) Char.isDigit

/-- A backslash stands in front of a line break. -/
def escapesLineBreak : MatchPredicate := fun source index =>
  charAt source (index + 1) fun c => c == '\n' || c == '\r'

end Predicates

section Numbers

/-- The text from an offset on, where there is one. -/
def textFrom (source : Source) (index : Nat) : List Char :=
  (source.drop? index).getD []

/-- Digits with at most one point among them, unless one was `seen` before. -/
def takeDecimal (seen : Bool) : List Char → List Char
  | [] => []
  | c :: cs =>
      if c.isDigit then c :: takeDecimal seen cs
      else if c == '.' && !seen then c :: takeDecimal true cs
      else []

/-- The longest beginning with an optional minus, digits and at most one point. -/
def takeNumber : List Char → List Char
  | '-' :: cs => '-' :: takeDecimal false cs
  | cs => takeDecimal false cs

/--
A decimal number: with a point a floating-point number; without one an integer,
or a floating-point number if it is too wide.
-/
def number : ScanRule := fun source index =>
  let digits := takeNumber (textFrom source index)
  let size := digits.length
  if digits.getLast? = some '.' then
    (Scan.plain size).withError (size - 1) 1 .missingFraction
  else if digits.contains '.' then
    match Decimal.readFloat? digits with
    | some x => Scan.ofValue size (.float x)
    | none => (Scan.plain size).withError 0 size .malformedDecimal
  else
    match Decimal.readInt64? digits with
    | some n => Scan.ofValue size (.int n)
    | none =>
        match Decimal.readFloat? digits with
        | some x => Scan.ofValue size (.float x)
        | none => (Scan.plain size).withError 0 size .malformedInteger

/-- The value of a digit in a base up to sixteen. -/
def digitIn? (base : Nat) (c : Char) : Option Nat :=
  let value :=
    if c.isDigit then some (c.toNat - '0'.toNat)
    else if 'a' ≤ c ∧ c ≤ 'f' then some (c.toNat - 'a'.toNat + 10)
    else if 'A' ≤ c ∧ c ≤ 'F' then some (c.toNat - 'A'.toNat + 10)
    else none
  value.filter (· < base)

/-- The digits in a base at the start of a text. -/
def takeDigits (base : Nat) (text : List Char) : List Char :=
  text.takeWhile fun c => (digitIn? base c).isSome

/-- The values of digits in a base. -/
def digitsIn (base : Nat) (digits : List Char) : List Nat :=
  digits.filterMap (digitIn? base)

/-- The 64-bit integer with these hexadecimal digits, if it is in range. -/
def readHex? (digits : List Char) : Option Int64 :=
  (Numeral.value? Decimal.magnitudeLimit 16 (digitsIn 16 digits)).bind fun n => Decimal.fits? n

/-- A hexadecimal integer behind its two-character mark. -/
def hexadecimal : ScanRule := fun source index =>
  let mark := 2
  let digits := takeDigits 16 (textFrom source (index + mark))
  let size := mark + digits.length
  if digits.isEmpty then
    (Scan.plain size).withError 0 size .missingHexDigits
  else
    match readHex? digits with
    | some n => Scan.ofValue size (.int n)
    | none => (Scan.plain size).withError 0 size .hexOutOfRange

/-- The words for the two booleans. -/
def boolean : ScanRule := fun source index =>
  if Text.startsWith ['T', 'r', 'u', 'e'] (textFrom source index) then
    Scan.ofValue 4 (.bool true)
  else
    Scan.ofValue 5 (.bool false)

end Numbers

section TextBodies

/-- `size` bytes that stand for the character with this code point, if there is one. -/
def codePoint (value size : Nat) : Scan :=
  if h : value.isValidChar then
    Scan.ofValue size (.str (String.singleton (Char.ofNatAux value h)))
  else
    (Scan.plain size).withError 0 size .invalidCodePoint

/-- An escape of a letter and between `least` and `most` hexadecimal digits. -/
def hexEscape (rest : List Char) (least most : Nat) : Scan :=
  let digits := takeDigits 16 (rest.take most)
  let size := 2 + digits.length
  if digits.length < least then
    (Scan.plain size).withError 0 size .missingEscapeDigits
  else
    codePoint (Numeral.value 16 (digitsIn 16 digits)) size

/-- An escape of one to three octal digits. -/
def octalEscape (rest : List Char) : Scan :=
  let digits := takeDigits 8 (rest.take 3)
  codePoint (Numeral.value 8 (digitsIn 8 digits)) (1 + digits.length)

/-- The character that a letter behind a backslash stands for. -/
def simpleEscape? : Char → Option Char
  | 'a' => some '\x07'
  | 'b' => some '\x08'
  | 'e' => some '\x1b'
  | 'f' => some '\x0c'
  | 'n' => some '\n'
  | 'r' => some '\r'
  | 't' => some '\t'
  | 'v' => some '\x0b'
  | '\\' => some '\\'
  | '\x27' => some '\x27'
  | '"' => some '"'
  | '?' => some '?'
  | _ => none

/-- What stands behind a backslash, with the backslash counted. -/
def escapeBody : List Char → Scan
  | [] => (Scan.plain 1).withError 0 1 .unterminatedEscape
  | c :: rest =>
      match simpleEscape? c with
      | some value => Scan.ofValue (1 + c.utf8Size) (.str (String.singleton value))
      | none =>
          if c = '\r' ∧ rest.head? = some '\n' then
            Scan.ofValue 3 (.str "")
          else if c = '\n' ∨ c = '\r' then
            Scan.ofValue 2 (.str "")
          else if c = 'x' then
            hexEscape rest 1 2
          else if c = 'u' then
            hexEscape rest 4 4
          else if c = 'U' then
            hexEscape rest 8 8
          else if (digitIn? 8 c).isSome then
            octalEscape (c :: rest)
          else
            (Scan.ofValue (1 + c.utf8Size) (.str (String.singleton c))).withError
              0 (1 + c.utf8Size) .unknownEscape

/--
A backslash inside a text literal. Before a line break it stands for nothing; an
unknown escape is a fault and stands for the escaped character.
-/
def escape : ScanRule := fun source index =>
  escapeBody (textFrom source (index + 1))

/-- A line break inside a text literal, which is a fault. -/
def lineBreakInLiteral : ScanRule := fun source index =>
  let size := if Text.startsWith ['\r', '\n'] (textFrom source index) then 2 else 1
  (Scan.plain size).withError 0 size .lineBreakInLiteral

/-- A backslash and the line break behind it, inside a line comment. -/
def lineContinuation : ScanRule := fun source index =>
  Scan.plain (if Text.startsWith ['\r', '\n'] (textFrom source (index + 1)) then 3 else 2)

end TextBodies

end ScanRules
end ExprLang
