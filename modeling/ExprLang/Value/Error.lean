import ExprLang.Operator

/-!
# Failures of resolution

The causes for which an invocation or an operation fails, and their wording.
-/

namespace ExprLang

/-- Why a call fails. -/
inductive InvokeError where
  | notFound (name : String)
  | argumentCount (name : String) (expected got : Nat)
  /-- The function itself gives this reason. -/
  | failed (reason : String)
  deriving DecidableEq, Inhabited

/-- The wording of a failed call. -/
def InvokeError.message : InvokeError → String
  | notFound name => "no function named '" ++ name ++ "'"
  | argumentCount name expected got =>
      "'" ++ name ++ "' takes " ++ toString expected ++ " argument(s) but " ++ toString got ++
        " were given"
  | failed reason => reason

/-- Why a term has no value. -/
inductive ResolveError where
  | typeMismatch (op : Operator) (left right : String)
  | notNumeric (op : Operator) (typeName : String)
  | notOrdered (op : Operator) (typeName : String)
  | divisionByZero
  | modulusByZero
  /-- A repeated string would have more characters than this. -/
  | repetitionTooLarge (limit : Nat)
  | notBinary (op : Operator)
  | noMember (name typeName : String)
  | memberNameExpected (found : String)
  | invocation (error : InvokeError)
  | placeholderOutOfRange (index count : Nat)
  | malformedPlaceholder (text : String)
  | unterminatedPlaceholder
  | unmatchedBrace
  deriving DecidableEq, Inhabited

/-- The wording of a failure. -/
def ResolveError.message : ResolveError → String
  | typeMismatch op left right =>
      "cannot apply '" ++ op.symbol ++ "' to " ++ left ++ " and " ++ right
  | notNumeric op typeName => "'" ++ op.symbol ++ "' needs numbers, found " ++ typeName
  | notOrdered op typeName =>
      "values of type " ++ typeName ++ " cannot be compared with '" ++ op.symbol ++ "'"
  | divisionByZero => "division by zero"
  | modulusByZero => "modulus by zero"
  | repetitionTooLarge limit =>
      "string repetition of " ++ toString limit ++ " characters is too large"
  | notBinary op => "'" ++ op.symbol ++ "' is not a binary value operator"
  | noMember name typeName => "no member '" ++ name ++ "' on " ++ typeName
  | memberNameExpected found => "member name expected, found '" ++ found ++ "'"
  | invocation error => error.message
  | placeholderOutOfRange index count =>
      "format placeholder \x7b" ++ toString index ++ "\x7d out of range for " ++
        toString count ++ " argument(s)"
  | malformedPlaceholder text =>
      "malformed format placeholder '\x7b" ++ text ++ "\x7d'"
  | unterminatedPlaceholder => "unterminated format placeholder"
  | unmatchedBrace => "unmatched '\x7d' in format string"

end ExprLang
