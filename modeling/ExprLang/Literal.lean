import ExprLang.Decimal.Printer
import ExprLang.Text.Quoted

/-!
# Literals

The values that scan rules put in the place of what they scan.
-/

namespace ExprLang

/-- A number, a boolean or a text. -/
inductive Literal where
  | int (value : Int64)
  | float (value : Float)
  | bool (value : Bool)
  | str (value : String)
  deriving Inhabited

namespace Literal

/-- The text that a literal stands for. -/
def display : Literal → String
  | int n => toString n.toInt
  | float x => Decimal.plain x
  | bool b => if b then "true" else "false"
  | str s => s

/-- The kind of a literal with its value. -/
def describe : Literal → String
  | int n => "Int(" ++ toString n.toInt ++ ")"
  | float x => "Float(" ++ Decimal.detailed x ++ ")"
  | bool b => "Bool(" ++ (if b then "true" else "false") ++ ")"
  | str s => "Str(" ++ Text.quote s.toList ++ ")"

end Literal
end ExprLang
