import ExprLang.Span
import ExprLang.Value.Basic
import ExprLang.Value.Error

/-!
# Hosts

A host owns the objects that an expression can reach, and answers what it is
asked about them: the value of a member, whether a member was set, the result of
a call. It has a state, which an answer may change. Every question names the part
of the source that it is asked for.
-/

namespace ExprLang

/-- What answers for objects, with states of type `σ`. -/
structure Host (σ : Type) where
  /-- The value of an object's member, if it has one of this name. -/
  member : (target : ObjectRef) → (name : String) → (site : Span) → σ → Option Value × σ
  /-- Sets a member; false if there is none of this name or it cannot be set. -/
  assign : (target : ObjectRef) → (name : String) → Value → σ → Bool × σ
  /-- Calls a function of an object. -/
  invoke : (target : ObjectRef) → (name : String) → (args : List Value) → (site : Span) → σ →
    Except InvokeError Value × σ

/-- What kind of term is about to be resolved. -/
inductive TermKind where
  /-- Plain text, which is looked up. -/
  | name
  /-- A number, a boolean, an escape or a text literal. -/
  | literal
  /-- Something between brackets. -/
  | group
  | operator (op : Operator)
  /-- A delimiter without a meaning of its own. -/
  | other
  deriving DecidableEq, Inhabited

/-- Which terms are resolved. -/
inductive ResolutionMode (σ : Type) where
  | full
  /-- Terms for which the condition holds are left as they are written. -/
  | partly (stops : TermKind → String → σ → Bool × σ)

/-- What a host was asked. -/
inductive Event where
  | member (target : ObjectRef) (name : String) (found : Bool)
  | invoke (target : ObjectRef) (name : String) (args : List Value)
  /-- Whether to stop at a term. -/
  | stop (kind : TermKind) (text : String) (answer : Bool)
  deriving Inhabited

/-- A state with what the host was asked in it. -/
structure Recorded (σ : Type) where
  state : σ
  events : Array Event := #[]

namespace Recorded

variable {σ : Type}

/-- Adds an event. -/
def push (recorded : Recorded σ) (event : Event) : Recorded σ :=
  { recorded with events := recorded.events.push event }

end Recorded

variable {σ : Type}

/-- A host that writes down which members and functions it is asked for. -/
def Host.recorded (host : Host σ) : Host (Recorded σ) where
  member target name site recorded :=
    let (found, state) := host.member target name site recorded.state
    (found, { recorded with state := state }.push (.member target name found.isSome))
  assign target name value recorded :=
    let (set, state) := host.assign target name value recorded.state
    (set, { recorded with state := state })
  invoke target name args site recorded :=
    let (result, state) := host.invoke target name args site recorded.state
    (result, { recorded with state := state }.push (.invoke target name args))

/-- A mode that writes down where it is asked to stop. -/
def ResolutionMode.recorded : ResolutionMode σ → ResolutionMode (Recorded σ)
  | full => full
  | partly stops =>
      partly fun kind text recorded =>
        let (answer, state) := stops kind text recorded.state
        (answer, { recorded with state := state }.push (.stop kind text answer))

end ExprLang
