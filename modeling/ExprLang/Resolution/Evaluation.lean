import ExprLang.Grouping.Run
import ExprLang.Resolution.Terms

/-!
# Evaluation

From a text to its value: the text is read, its operators are grouped, and the
terms are resolved. The problems of all three stages are in one log.
-/

namespace ExprLang

/-- What a text, or each of its terms, resolves to, with the problems on the way. -/
structure Evaluation (α : Type) where
  result : α
  log : Log

variable {σ α : Type}

/-- Runs an action of a resolution on the forest of a parsed text. -/
def LexInput.resolveWith (input : LexInput) (host : Host σ) (scope : ObjectRef)
    (mode : ResolutionMode σ) (action : Resolution σ → Resolve σ α) (state : σ) :
    Evaluation α × σ :=
  let parsed := input.parse
  let resolution : Resolution σ :=
    { table := input.table
      forest := parsed.forest
      host := host
      scope := scope
      mode := mode }
  let (result, final) := (action resolution).run { host := state, log := parsed.log }
  (⟨result, final.log⟩, final.host)

/-- The value of a text. -/
def LexInput.evaluate (input : LexInput) (host : Host σ) (scope : ObjectRef)
    (mode : ResolutionMode σ) (state : σ) : Evaluation Value × σ :=
  input.resolveWith host scope mode Resolution.total state

/-- The values of the terms of a text. -/
def LexInput.evaluateTerms (input : LexInput) (host : Host σ) (scope : ObjectRef)
    (mode : ResolutionMode σ) (state : σ) : Evaluation (List Value) × σ :=
  input.resolveWith host scope mode Resolution.terms state

end ExprLang
