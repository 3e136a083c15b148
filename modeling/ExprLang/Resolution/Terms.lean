import ExprLang.Grammar
import ExprLang.Resolution.Basic
import ExprLang.Value.Operation

/-!
# Resolving terms

Terms are resolved from left to right, and the parts of a term before the term.
A name in front of a group in parentheses is looked up, and called if it is no
member; the end of a member chain in front of such a group is called if it is no
member of an object.
-/

namespace ExprLang
namespace Resolution

variable {σ : Type} (resolution : Resolution σ)

section Calls

/-- Is a rule set that of groups in parentheses? -/
def isParens (rules : RuleSetId) : Bool :=
  (resolution.table.ruleSet rules).name == Grammar.parensName

/-- Calls a member whose arguments follow. -/
def callMember (target : ObjectRef) (name : String) (args : List Value) (span site : Span) :
    Resolve σ Value := do
  match ← resolution.invoke target name args site with
  | .ok value => return value
  | .error error => resolution.fail (span.merge site) (.invocation error)

/--
Calls a name with the values of the group that follows. Where there is no such
function, the name and the group are two terms.
-/
def callName (name : String) (rules : RuleSetId) (args : List Value) (span site : Span) :
    Resolve σ (List Value) := do
  match ← resolution.invoke resolution.scope name args site with
  | .ok value => return [value]
  | .error (.notFound _) => return [.str name, resolution.simplify rules args]
  | .error error => return [← resolution.fail (span.merge site) (.invocation error)]

/-- The values of a term or a call, and whether the group behind it was used up. -/
abbrev Taken := List Value × Bool

/-- A term in front of a group: what waits for arguments is called with those of the group. -/
def takeTerm (term : Term) (site : Span) (action : Resolve σ Value)
    (arguments : Resolve σ (List Value)) : Resolve σ Taken := do
  match ← resolution.unlessStopped term action with
  | .invocation target name =>
      let args ← arguments
      return ([← resolution.callMember target name args term.span site], true)
  | value => return ([value], false)

/-- A name in front of a group: the value of a member, or a call with the group's values. -/
def takeName (term : Term) (rules : RuleSetId) (site : Span) (action : Resolve σ Value)
    (arguments : Resolve σ (List Value)) : Resolve σ Taken := do
  let name := resolution.textOf term.span
  if name = nullName then
    resolution.takeTerm term site action arguments
  else if ← resolution.stopsAt .name name then
    resolution.takeTerm term site action arguments
  else
    match ← resolution.member? resolution.scope name term.span with
    | some value => return ([value], false)
    | none =>
        let args ← arguments
        return (← resolution.callName name rules args term.span site, true)

end Calls

section Chains

/--
Follows the links of a chain from a value. `span` is that of the chain, and
`callFollows` says whether a group in parentheses stands behind it.
-/
def followLinks (span : Span) (callFollows : Bool) : List Link → Value → Resolve σ Value
  | [], current => pure current
  | link :: links, current =>
      if current.isUnresolved then
        return .unresolved (resolution.textOf span)
      else if link.operator = .nullConditional ∧ current.isNull then
        return .null
      else
        let name := resolution.textOf link.span
        if !link.isName then
          resolution.fail span (.memberNameExpected name)
        else
          match current with
          | .object ref => do
              match ← resolution.member? ref name link.span with
              | some value => followLinks span callFollows links value
              | none =>
                  if callFollows && links.isEmpty then
                    return .invocation ref name
                  else
                    resolution.fail span (.noMember name current.typeName)
          | _ => resolution.fail span (.noMember name current.typeName)

end Chains

section Terms

/-- The result of a binary operator, unless one of its operands has no value. -/
def binaryValue (span : Span) (op : Operator) (left right : Value) : Resolve σ Value :=
  if left.isUnresolved || right.isUnresolved then
    return .unresolved (resolution.textOf span)
  else
    resolution.orFail span (Operation.binary op left right)

/-- Reports a separator where an item has to be. -/
def reportSeparator (expected : Bool) (span : Span) (separator : String) : Resolve σ Unit :=
  if expected then
    report .structural span ("unexpected separator '" ++ separator ++ "'")
  else
    pure ()

mutual

/--
The value of a term. `callFollows` says whether a group in parentheses stands
behind it.
-/
def value (callFollows : Bool) : Term → Resolve σ Value
  | .name span => resolution.nameValue span
  | .literal _ literal => pure (.ofLiteral literal)
  | .delimiter span id => pure (resolution.delimiterValue span id)
  | .group _ rules contextClass items =>
      if contextClass.has .comment then
        pure .null
      else if contextClass.has .textLiteral then do
        return resolution.simplify rules (← pieces items)
      else do
        return resolution.simplify rules (← itemValues true items)
  | .chain span _ first links => do
      let start ← resolution.unlessStopped first (value false first)
      resolution.followLinks span callFollows links start
  | .binary span op left right => do
      let a ← resolution.unlessStopped left (value false left)
      let b ← resolution.unlessStopped right (value false right)
      resolution.binaryValue span op a b
  | .prefixed _ op operand =>
      if op = .maybe then do
        let inner ← withoutLog (resolution.unlessStopped operand (value false operand))
        return .bool inner.isTrue
      else do
        let inner ← resolution.unlessStopped operand (value false operand)
        return Operation.negate inner
  | .ifThen span condition trueCase => do
      let test ← resolution.unlessStopped condition (value false condition)
      if test.isUnresolved then
        return .unresolved (resolution.textOf span)
      else if test.conditionHolds then
        resolution.unlessStopped trueCase (value false trueCase)
      else
        return .null
  | .ifThenElse span condition trueCase falseCase => do
      let test ← resolution.unlessStopped condition (value false condition)
      if test.isUnresolved then
        return .unresolved (resolution.textOf span)
      else if test.conditionHolds then
        resolution.unlessStopped trueCase (value false trueCase)
      else
        resolution.unlessStopped falseCase (value false falseCase)

/-- The pieces of a text literal: what is not a literal or a context is text. -/
def pieces : List Term → Resolve σ (List Value)
  | [] => pure []
  | term :: rest => do
      let piece ←
        match term with
        | .name span => pure (.str (resolution.textOf span))
        | .delimiter span _ => pure (.str (resolution.textOf span))
        | term => value false term
      return piece :: (← pieces rest)

/--
The values of the items of a list. `expected` says whether an item has to come
before the next separator.
-/
def itemValues (expected : Bool) : List Term → Resolve σ (List Value)
  | [] => pure []
  | term :: rest =>
      let others := itemValues false rest
      match resolution.separator? term with
      | some separator => do
          reportSeparator expected term.span separator
          itemValues true rest
      | none =>
          match rest with
          | .group site rules contextClass items :: behind =>
              if resolution.isParens rules then do
                let arguments :=
                  if contextClass.has .textLiteral then pieces items else itemValues true items
                let (values, used) ←
                  if term.isName then
                    resolution.takeName term rules site (value true term) arguments
                  else
                    resolution.takeTerm term site (value true term) arguments
                if used then
                  return values ++ (← itemValues false behind)
                else
                  return values ++ (← others)
              else do
                let first ← resolution.unlessStopped term (value false term)
                return first :: (← others)
          | _ => do
              let first ← resolution.unlessStopped term (value false term)
              return first :: (← others)

end

/-- The values of the terms of the forest. -/
def terms : Resolve σ (List Value) :=
  resolution.itemValues true resolution.forest.terms

/-- The value of the forest; a single term stands for itself. -/
def total : Resolve σ Value := do
  return .collapse (← resolution.terms)

end Terms

end Resolution
end ExprLang
