import ExprLang.Decimal.Fixed
import ExprLang.Text.Blank
import ExprLang.Value.Error
import ExprLang.Value.Number
import ExprLang.Value.Printer

/-!
# Format patterns

A pattern is text with placeholders in braces. A placeholder names an argument
by its index, and may ask for a number of places: digits behind the point of a
number, characters of anything else. A brace that is text is written twice.
-/

namespace ExprLang
namespace Format

/-- A placeholder: the index of an argument, and the places asked for. -/
structure Placeholder where
  index : Nat
  places : Option Nat
  deriving DecidableEq, Inhabited

/-- The largest number of places. -/
def placesLimit : Nat := 0xFFFF

/-- The largest index that can be written. -/
def indexLimit : Nat := 0xFFFFFFFFFFFFFFFF

/-- The number of places behind a colon: a point and digits. -/
def readPlaces? : List Char → Option Nat
  | '.' :: digits => Decimal.readNat? placesLimit digits
  | _ => none

/-- Reads what stands between the braces of a placeholder. -/
def Placeholder.read? (text : List Char) : Option Placeholder :=
  let written := text.takeWhile (· != ':')
  let index := Decimal.readNat? indexLimit (Text.trim written)
  match text.drop written.length with
  | [] => index.map fun index => ⟨index, none⟩
  | _ :: behind =>
      (readPlaces? behind).bind fun places => index.map fun index => ⟨index, some places⟩

/-- A value with so many places. -/
def withPlaces (value : Value) (places : Nat) : List Char :=
  match value.number? with
  | some n => (Decimal.fixed n.toFloat places).toList
  | none => value.display.toList.take places

/-- What a placeholder stands for. -/
def fill (args : List Value) (text : List Char) : Except ResolveError (List Char) :=
  match Placeholder.read? text with
  | none => .error (.malformedPlaceholder (String.ofList text))
  | some ⟨index, places⟩ =>
      match args[index]? with
      | none => .error (.placeholderOutOfRange index args.length)
      | some value => .ok ((places.map (withPlaces value)).getD value.display.toList)

/--
Fills the placeholders of a pattern. `written` holds what the pattern gave so
far, and `inside` what has been read of a placeholder, both with the last
character first.
-/
def expand (args : List Value) (written : List Char) :
    (inside : Option (List Char)) → List Char → Except ResolveError (List Char)
  | none, [] => .ok written.reverse
  | some _, [] => .error .unterminatedPlaceholder
  | none, '\x7b' :: '\x7b' :: rest => expand args ('\x7b' :: written) none rest
  | none, '\x7d' :: '\x7d' :: rest => expand args ('\x7d' :: written) none rest
  | none, '\x7d' :: _ => .error .unmatchedBrace
  | none, '\x7b' :: rest =>
      if rest.contains '\x7d' then
        expand args written (some []) rest
      else
        .error .unterminatedPlaceholder
  | some inside, '\x7d' :: rest =>
      match fill args inside.reverse with
      | .error e => .error e
      | .ok filled => expand args (filled.reverse ++ written) none rest
  | some inside, c :: rest => expand args written (some (c :: inside)) rest
  | none, c :: rest => expand args (c :: written) none rest

/-- A pattern with its placeholders filled from a list of arguments. -/
def format (pattern : String) (args : List Value) : Except ResolveError String :=
  (expand args [] none pattern.toList).map String.ofList

end Format
end ExprLang
