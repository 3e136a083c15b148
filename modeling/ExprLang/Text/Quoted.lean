import ExprLang.Text.Printable

/-!
# Quoted text

A text between double quotes, in which every character that does not print on
its own is written as an escape: a letter where there is one, else the code
point in hexadecimal between braces.
-/

namespace ExprLang
namespace Text

/-- The code point of a character in hexadecimal. -/
def codePointEscape (c : Char) : List Char :=
  '\\' :: 'u' :: '\x7b' :: (Nat.toDigits 16 c.toNat ++ ['\x7d'])

/-- How a character is written between double quotes. -/
def escapeChar (c : Char) : List Char :=
  if c = '\x00' then ['\\', '0']
  else if c = '\t' then ['\\', 't']
  else if c = '\n' then ['\\', 'n']
  else if c = '\r' then ['\\', 'r']
  else if c = '"' then ['\\', '"']
  else if c = '\\' then ['\\', '\\']
  else if isPrintable c then [c]
  else codePointEscape c

/-- The text between double quotes. -/
def quote (text : List Char) : String :=
  String.ofList ('"' :: (text.flatMap escapeChar ++ ['"']))

end Text
end ExprLang
