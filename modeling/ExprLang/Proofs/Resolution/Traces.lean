import ExprLang.Proofs.Resolution.Values
import ExprLang.Resolution.Terms

/-!
# Traces of names that are left alone

A name that is left alone stands for itself, and what gets such a value passes it on. So it
shows in the result, unless it is lost on the way: `maybe` makes a boolean of anything, a list
hides it from an operator, and a text is made of what is written.

Main definitions:
* `Trace`: how a name that was left alone shows in a value;
* `Resolution.shows`: where the names in a term that are left alone show in its value.

Main results:
* `seen_simplify`, `seen_simplify_single`: what shows in the items of a context shows in it.
-/

namespace ExprLang

/-- How a name that was left alone shows in a value. -/
inductive Trace where
  /-- Not at all. -/
  | none
  /-- It occurs in the value. -/
  | within
  /-- The value is source text itself. -/
  | whole
  deriving DecidableEq

namespace Trace

/-- How it has to show in an operand, in order to show in the result of the operator. -/
def operand : Trace → Trace
  | none => none
  | within | whole => whole

/-- Does it show in a value? -/
def Seen : Trace → Value → Prop
  | none, _ => False
  | within, value => ¬ value.Lacks Value.isUnresolved
  | whole, value => value.isUnresolved = true

/-- Does it show in a value of a list? -/
def SeenAmong (trace : Trace) (values : List Value) : Prop :=
  ∃ value ∈ values, trace.Seen value

variable {trace : Trace} {value : Value} {values others : List Value}

/-- Source text without a value shows what there is to be seen. -/
theorem seen_unresolved (htrace : trace ≠ none) (text : String) :
    trace.Seen (.unresolved text) := by
  cases trace with
  | none => exact absurd rfl htrace
  | within => exact Value.not_lacks_of_isUnresolved rfl
  | whole => rfl

theorem Seen.occurs (h : trace.Seen value) : within.Seen value := by
  cases trace with
  | none => exact h.elim
  | within => exact h
  | whole => exact Value.not_lacks_of_isUnresolved h

/-- What shows in an operand as it has to, is the operand. -/
theorem Seen.of_operand (h : trace.operand.Seen value) :
    trace ≠ none ∧ value.isUnresolved = true := by
  cases trace with
  | none => exact h.elim
  | within => exact ⟨nofun, h⟩
  | whole => exact ⟨nofun, h⟩

theorem Seen.ne_none (h : trace.Seen value) : trace ≠ none := by
  rintro rfl
  exact h

theorem not_seen_of_lacks (h : value.Lacks Value.isUnresolved) : ¬ trace.Seen value :=
  fun hseen => hseen.occurs h

theorem not_seen_of_isPlain (h : value.isPlain = true) : ¬ trace.Seen value :=
  not_seen_of_lacks (Value.isSpecial_isUnresolved.lacks_plain h)

theorem SeenAmong.occurs (h : trace.SeenAmong values) : within.SeenAmong values := by
  obtain ⟨value, hmem, hseen⟩ := h
  exact ⟨value, hmem, hseen.occurs⟩

theorem seenAmong_cons :
    trace.SeenAmong (value :: values) ↔ trace.Seen value ∨ trace.SeenAmong values := by
  simp [SeenAmong]

theorem seenAmong_append :
    trace.SeenAmong (values ++ others) ↔ trace.SeenAmong values ∨ trace.SeenAmong others := by
  simp only [SeenAmong, List.mem_append, or_and_right, exists_or]

end Trace

theorem Term.kind_ne_name {term : Term} (h : term.isName = false) : term.kind ≠ .name := by
  cases term with
  | name span => cases h
  | group span rules contextClass items =>
      simp only [kind]
      split
      · simp
      · simp
  | _ => simp [kind]

namespace Resolution

variable {σ : Type}

section Shows

variable (resolution : Resolution σ) (left : List String)

/-- Does a context give a value in which those of its items occur? -/
def keepsItems (rules : RuleSetId) : Bool :=
  match (resolution.table.ruleSet rules).simplify with
  | some .concatenate | some .discard => false
  | some .singleTerm | none => true

/-- Does a context stand for its only item? -/
def isSingle (rules : RuleSetId) : Bool :=
  (resolution.table.ruleSet rules).simplify == some .singleTerm

mutual

/-- Do the names in a term that are in `left` show in its value? -/
def shows : Trace → Term → Bool
  | trace, .name span => trace != .none || !left.contains (resolution.textOf span)
  | _, .literal _ _ => true
  | _, .delimiter _ _ => true
  | trace, .group _ rules contextClass items =>
      if contextClass.has .comment && !resolution.isParens rules then
        true
      else if contextClass.has .textLiteral then
        piecesShow items
      else if trace = .whole then
        resolution.isSingle rules && onlyShows items || allShow .none items
      else
        allShow (if resolution.keepsItems rules then trace else .none) items
  | trace, .chain _ _ first _ => shows trace first
  | trace, .binary _ _ left right => shows trace.operand left && shows trace.operand right
  | trace, .prefixed _ op operand => shows (if op = .maybe then .none else trace) operand
  | trace, .ifThen _ condition trueCase =>
      shows trace.operand condition && shows trace trueCase
  | trace, .ifThenElse _ condition trueCase falseCase =>
      shows trace.operand condition && shows trace trueCase && shows trace falseCase

/-- Do they show in the values of all terms of a list? -/
def allShow : Trace → List Term → Bool
  | _, [] => true
  | trace, term :: rest => shows trace term && allShow trace rest

/-- Is there one term only, and do they show in its value? -/
def onlyShows : List Term → Bool
  | [term] => shows .whole term
  | _ => false

/-- Is none of them in a text literal, other than as text? -/
def piecesShow : List Term → Bool
  | [] => true
  | term :: rest => (term.isName || shows .none term) && piecesShow rest

end

end Shows

section Contexts

variable {resolution : Resolution σ} {trace : Trace}

theorem seen_list {items : List Value} (h : Trace.within.SeenAmong items) :
    Trace.within.Seen (.list items) := by
  obtain ⟨value, hmem, hseen⟩ := h
  exact fun hlacks => hseen ((Value.lacks_list_iff.mp hlacks).2 value hmem)

/-- What shows in a value shows in what stands for the values. -/
theorem seen_collapse {values : List Value} (h : Trace.within.SeenAmong values) :
    Trace.within.Seen (.collapse values) := by
  match values with
  | [] =>
      obtain ⟨_, hmem, _⟩ := h
      cases hmem
  | [_] =>
      obtain ⟨_, hmem, hseen⟩ := h
      rw [List.mem_singleton.mp hmem] at hseen
      exact hseen
  | _ :: _ :: _ => exact seen_list h

/-- What shows in an item shows in what a context makes of it, if it keeps its items. -/
theorem seen_simplify {rules : RuleSetId} {values : List Value} (htrace : trace ≠ .whole)
    (hkeeps : resolution.keepsItems rules = true) (h : trace.SeenAmong values) :
    trace.Seen (resolution.simplify rules values) := by
  cases trace with
  | none =>
      obtain ⟨_, -, hseen⟩ := h
      exact hseen
  | whole => exact absurd rfl htrace
  | within =>
      unfold keepsItems at hkeeps
      unfold simplify
      split
      · exact seen_collapse h
      · rename_i hrule
        rw [hrule] at hkeeps
        cases hkeeps
      · rename_i hrule
        rw [hrule] at hkeeps
        cases hkeeps
      · exact seen_list h

theorem seen_negate {value : Value} (h : trace.Seen value) :
    trace.Seen (Operation.negate value) := by
  cases value with
  | bool b => exact absurd h (Trace.not_seen_of_isPlain rfl)
  | _ => exact h

/-- A context that stands for its only item. -/
theorem seen_simplify_single {rules : RuleSetId} {value : Value}
    (hsingle : resolution.isSingle rules = true) (h : trace.Seen value) :
    trace.Seen (resolution.simplify rules [value]) := by
  have hrule : (resolution.table.ruleSet rules).simplify = some .singleTerm := by
    unfold isSingle at hsingle
    simpa using hsingle
  unfold simplify
  rw [hrule]
  exact h

end Contexts

end Resolution
end ExprLang
