import ExprLang.Diagnostics.Log
import ExprLang.Forest.Content
import ExprLang.Host.Basic
import ExprLang.Term
import ExprLang.Value.Printer

/-!
# The setting of a resolution

Terms are resolved against a host whose state the questions may change, and with
a log that takes up failures. This module holds the single actions: a question to
the host, a failure, the value of a name.

A failure is logged where it happens, and its source text takes the place of the
value. What gets such a value passes it on without another entry.
-/

namespace ExprLang

/-- What terms are resolved with. -/
structure Resolution (σ : Type) where
  table : RuleSetTable
  forest : Forest
  host : Host σ
  /-- The object in which names are looked up. -/
  scope : ObjectRef
  mode : ResolutionMode σ

/-- What resolving a term changes. -/
structure ResolutionState (σ : Type) where
  host : σ
  log : Log

/-- An action of a resolution. -/
abbrev Resolve (σ : Type) := StateM (ResolutionState σ)

namespace Term

/-- What kind of term it is. -/
def kind : Term → TermKind
  | name _ => .name
  | literal _ _ => .literal
  | delimiter _ _ => .other
  | group _ _ contextClass _ => if contextClass.has .textLiteral then .literal else .group
  | chain _ op _ _ => .operator op
  | binary _ op _ _ => .operator op
  | prefixed _ op _ => .operator op
  | ifThen _ _ _ => .operator .conditional
  | ifThenElse _ _ _ _ => .operator .conditional

end Term

namespace Resolution

/-- The name that always stands for null. -/
def nullName : String := "null"

variable {σ : Type} (resolution : Resolution σ)

/-- The source text of a span. -/
def textOf (span : Span) : String :=
  String.ofList (resolution.forest.spanText span)

section Log

/-- Reports a problem. -/
def report (category : Category) (span : Span) (message : String) : Resolve σ Unit :=
  modify fun state => { state with log := state.log.report category span message }

/-- Logs a failure and gives the source text that has no value. -/
def fail (span : Span) (error : ResolveError) : Resolve σ Value := do
  report .resolution span error.message
  return .unresolved (resolution.textOf span)

/-- The result of an operation, or its failure. -/
def orFail (span : Span) (result : Except ResolveError Value) : Resolve σ Value :=
  match result with
  | .ok value => pure value
  | .error error => resolution.fail span error

/-- Resolves something and drops what it logs. -/
def withoutLog {α : Type} (action : Resolve σ α) : Resolve σ α := do
  let mark := (← get).log.length
  let result ← action
  modify fun state => { state with log := state.log.rollback mark }
  return result

end Log

section Questions

/-- Asks the host for a member. -/
def member? (target : ObjectRef) (name : String) (site : Span) : Resolve σ (Option Value) :=
  modifyGet fun state =>
    let (found, host) := resolution.host.member target name site state.host
    (found, { state with host := host })

/-- Asks the host for a call. -/
def invoke (target : ObjectRef) (name : String) (args : List Value) (site : Span) :
    Resolve σ (Except InvokeError Value) :=
  modifyGet fun state =>
    let (result, host) := resolution.host.invoke target name args site state.host
    (result, { state with host := host })

/-- Is a term of this kind and text left as it is? -/
def stopsAt (kind : TermKind) (text : String) : Resolve σ Bool :=
  match resolution.mode with
  | .full => pure false
  | .partly stops =>
      modifyGet fun state =>
        let (answer, host) := stops kind text state.host
        (answer, { state with host := host })

/-- Resolves a term, unless it is left as it is. -/
def unlessStopped (term : Term) (action : Resolve σ Value) : Resolve σ Value :=
  match resolution.mode with
  | .full => action
  | .partly _ => do
      let text := resolution.textOf term.span
      if ← resolution.stopsAt term.kind text then
        return .unresolved text
      else
        action

end Questions

section Values

/-- The value of a name: null, that of the member of this name, or its text. -/
def nameValue (span : Span) : Resolve σ Value := do
  let name := resolution.textOf span
  if name = nullName then
    return .null
  else
    return (← resolution.member? resolution.scope name span).getD (.str name)

/-- The value of a delimiter: its text, and none if it is an operator that was not grouped. -/
def delimiterValue (span : Span) (id : DelimiterId) : Value :=
  if (resolution.table.delimiter id).isOperator then
    .unresolved (resolution.textOf span)
  else
    .str (resolution.textOf span)

/-- The value of a context, from those of its items. -/
def simplify (rules : RuleSetId) (values : List Value) : Value :=
  match (resolution.table.ruleSet rules).simplify with
  | some .singleTerm => .collapse values
  | some .concatenate => .str (values.foldl (fun out value => out ++ value.display) "")
  | some .discard => .null
  | none => .list values

/-- The text of a term that is a separator. -/
def separator? : Term → Option String
  | .delimiter _ id =>
      let delimiter := resolution.table.delimiter id
      if delimiter.isSeparator then some (String.ofList delimiter.text) else none
  | _ => none

end Values

end Resolution
end ExprLang
