import ExprLang.Value.Basic

/-!
# Writing values

`display` is the text that a value adds to a string; `describe` tells values of
different types apart.
-/

namespace ExprLang
namespace Value

mutual

/-- The text that a value adds to a string. -/
def display : Value → String
  | null => "null"
  | bool b => if b then "True" else "False"
  | int n => toString n.toInt
  | float x => Decimal.plain x
  | str s => s
  | list items => "[" ++ displayAll items ++ "]"
  | object _ => "<object>"
  | invocation _ name => "<call " ++ name ++ ">"
  | unresolved text => text

/-- The texts of the values of a list, with commas between them. -/
def displayAll : List Value → String
  | [] => ""
  | [item] => display item
  | item :: rest => display item ++ ", " ++ displayAll rest

end

mutual

/-- The type of a value with its content. -/
def describe : Value → String
  | null => "Null"
  | bool b => "Bool(" ++ (if b then "true" else "false") ++ ")"
  | int n => "Int(" ++ toString n.toInt ++ ")"
  | float x => "Float(" ++ Decimal.detailed x ++ ")"
  | str s => "Str(" ++ Text.quote s.toList ++ ")"
  | list items => "List([" ++ describeAll items ++ "])"
  | object _ => "Object"
  | invocation _ name => "Invocation(" ++ Text.quote name.toList ++ ")"
  | unresolved text => "Unresolved(" ++ Text.quote text.toList ++ ")"

/-- The descriptions of the values of a list, with commas between them. -/
def describeAll : List Value → String
  | [] => ""
  | [item] => describe item
  | item :: rest => describe item ++ ", " ++ describeAll rest

end

end Value
end ExprLang
