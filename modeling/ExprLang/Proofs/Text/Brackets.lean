import Mathlib.Tactic

/-!
# Balanced brackets

A text is balanced if its brackets match in pairs, one inside or behind the other; what else is in
the text does not matter. Whether it is can be found out from left to right with a stack of the
brackets that are open: a closing bracket takes the innermost one off if that is of its kind, and
is ignored if it is not.

Main definitions:
* `Balanced`: the balanced texts;
* `readBrackets`: the closing brackets that are ignored, and the brackets that stay open.

Main results:
* `readBrackets_append`: a balanced text leaves the stack as it is;
* `readBrackets_eq_nil_iff`: the balanced texts are those without an ignored or an open bracket.
-/

namespace ExprLang
namespace Text

/-- The bracket that closes an opening bracket. -/
def closerOf? : Char → Option Char
  | '(' => some ')'
  | '[' => some ']'
  | '\x7b' => some '\x7d'
  | _ => none

/-- Is it a closing bracket? -/
def isCloser (c : Char) : Bool :=
  c = ')' || c = ']' || c = '\x7d'

/-- The texts whose brackets match in pairs. -/
inductive Balanced : List Char → Prop
  | nil : Balanced []
  | other {c : Char} {text : List Char} (hopens : closerOf? c = none)
      (hcloses : isCloser c = false) (h : Balanced text) : Balanced (c :: text)
  | pair {opener closer : Char} {inner text : List Char} (hpair : closerOf? opener = some closer)
      (hinner : Balanced inner) (h : Balanced text) :
      Balanced (opener :: inner ++ closer :: text)

/-- A bracket with its offset in a text. -/
abbrev BracketAt := Nat × Char

/-- What keeps a text from being balanced. -/
structure BracketFaults where
  /-- The closing brackets that do not match the innermost open one, in the order of the text. -/
  ignored : List BracketAt
  /-- The brackets that are open at the end, the innermost one first. -/
  unclosed : List BracketAt

/-- Does a closing bracket match the innermost open one? -/
def closesInnermost (opened : List BracketAt) (closer : Char) : Bool :=
  match opened with
  | [] => false
  | bracket :: _ => closerOf? bracket.2 = some closer

/-- Reads a text that starts at `offset`, with these brackets open. -/
def readBrackets (offset : Nat) (opened : List BracketAt) : List Char → BracketFaults
  | [] => ⟨[], opened⟩
  | c :: text =>
      if (closerOf? c).isSome then
        readBrackets (offset + 1) ((offset, c) :: opened) text
      else if isCloser c then
        if closesInnermost opened c then
          readBrackets (offset + 1) opened.tail text
        else
          let faults := readBrackets (offset + 1) opened text
          { faults with ignored := (offset, c) :: faults.ignored }
      else
        readBrackets (offset + 1) opened text

section Steps

variable {c : Char} {offset : Nat} {opened : List BracketAt} {text : List Char}

/-- What closes a bracket is a closing bracket and opens none. -/
theorem isCloser_of_closerOf? {closer : Char} (h : closerOf? c = some closer) :
    isCloser closer = true ∧ closerOf? closer = none := by
  unfold closerOf? at h
  split at h
  · cases h
    decide
  · cases h
    decide
  · cases h
    decide
  · cases h

theorem readBrackets_opener (h : (closerOf? c).isSome = true) :
    readBrackets offset opened (c :: text) =
      readBrackets (offset + 1) ((offset, c) :: opened) text := by
  rw [readBrackets, if_pos h]

theorem readBrackets_closer {opener : BracketAt} (h : closerOf? opener.2 = some c) :
    readBrackets offset (opener :: opened) (c :: text) =
      readBrackets (offset + 1) opened text := by
  obtain ⟨hcloser, hnone⟩ := isCloser_of_closerOf? h
  have hinnermost : closesInnermost (opener :: opened) c = true := decide_eq_true h
  rw [readBrackets, hnone, hcloser, hinnermost]
  rfl

theorem readBrackets_ignored (hopens : closerOf? c = none) (hcloses : isCloser c = true)
    (h : closesInnermost opened c = false) :
    readBrackets offset opened (c :: text) =
      { readBrackets (offset + 1) opened text with
        ignored := (offset, c) :: (readBrackets (offset + 1) opened text).ignored } := by
  rw [readBrackets, hopens, hcloses, h]
  rfl

theorem readBrackets_other (hopens : closerOf? c = none) (hcloses : isCloser c = false) :
    readBrackets offset opened (c :: text) = readBrackets (offset + 1) opened text := by
  rw [readBrackets, hopens, hcloses]
  rfl

end Steps

section Balance

variable {text : List Char}

/-- A text without brackets is balanced. -/
theorem balanced_of_forall (h : ∀ c ∈ text, closerOf? c = none ∧ isCloser c = false) :
    Balanced text := by
  induction text with
  | nil => exact .nil
  | cons c text ih =>
      obtain ⟨⟨hopens, hcloses⟩, htext⟩ := List.forall_mem_cons.mp h
      exact .other hopens hcloses (ih htext)

theorem Balanced.append {before : List Char} (h : Balanced before) (h' : Balanced text) :
    Balanced (before ++ text) := by
  induction h with
  | nil => exact h'
  | other hopens hcloses _ ih => exact .other hopens hcloses ih
  | pair hpair hinner _ _ ih =>
      rw [List.append_assoc, List.cons_append]
      exact .pair hpair hinner ih

/-- A balanced text leaves the stack as it is, whatever follows. -/
theorem readBrackets_append {before : List Char} (h : Balanced before) (offset : Nat)
    (opened : List BracketAt) :
    readBrackets offset opened (before ++ text) =
      readBrackets (offset + before.length) opened text := by
  induction h generalizing offset opened text with
  | nil => rfl
  | other hopens hcloses _ ih =>
      rw [List.cons_append, readBrackets_other hopens hcloses, ih, List.length_cons, Nat.add_assoc,
        Nat.add_comm 1]
  | @pair opener closer inner behind hpair _ _ ihinner ihbehind =>
      have hopener : (closerOf? opener).isSome = true := by rw [hpair]; rfl
      rw [List.cons_append, List.cons_append, readBrackets_opener hopener, List.append_assoc,
        ihinner, List.cons_append, readBrackets_closer hpair, ihbehind]
      congr 1
      simp only [List.length_cons, List.length_append]
      omega

/-- A text that closes open brackets, the innermost one first, and is balanced besides. -/
inductive Closes : List BracketAt → List Char → Prop
  | nil {text : List Char} (h : Balanced text) : Closes [] text
  | cons {opener : BracketAt} {opened : List BracketAt} {closer : Char} {inner text : List Char}
      (hpair : closerOf? opener.2 = some closer) (hinner : Balanced inner)
      (h : Closes opened text) : Closes (opener :: opened) (inner ++ closer :: text)

theorem Closes.append {opened : List BracketAt} {before : List Char} (hbefore : Balanced before)
    (h : Closes opened text) : Closes opened (before ++ text) := by
  cases h with
  | nil h => exact .nil (hbefore.append h)
  | cons hpair hinner h =>
      rw [← List.append_assoc]
      exact .cons hpair (hbefore.append hinner) h

/-- A text that leaves no bracket ignored or open closes those that were open. -/
theorem closes_of_readBrackets {offset : Nat} {opened : List BracketAt}
    (h : readBrackets offset opened text = ⟨[], []⟩) : Closes opened text := by
  induction text generalizing offset opened with
  | nil =>
      obtain rfl : opened = [] := congrArg BracketFaults.unclosed h
      exact .nil .nil
  | cons c text ih =>
      by_cases hopener : (closerOf? c).isSome = true
      · rw [readBrackets_opener hopener] at h
        cases ih h with
        | @cons _ _ closer inner behind hpair hinner hbehind =>
            have hbalanced : Balanced (c :: inner ++ closer :: []) := .pair hpair hinner .nil
            have hcloses := hbehind.append hbalanced
            rw [List.append_assoc] at hcloses
            exact hcloses
      have hnone : closerOf? c = none := by simpa using hopener
      cases hcloser : isCloser c with
      | false =>
          rw [readBrackets_other hnone hcloser] at h
          exact (ih h).append (.other hnone hcloser .nil)
      | true =>
          cases hinnermost : closesInnermost opened c with
          | false =>
              rw [readBrackets_ignored hnone hcloser hinnermost] at h
              cases congrArg BracketFaults.ignored h
          | true =>
              match opened, hinnermost with
              | opener :: opened, hinnermost =>
                  have hpair : closerOf? opener.2 = some c := of_decide_eq_true hinnermost
                  rw [readBrackets_closer hpair] at h
                  exact .cons hpair .nil (ih h)

/-- The balanced texts are those in which no bracket is ignored and none stays open. -/
theorem readBrackets_eq_nil_iff (offset : Nat) :
    readBrackets offset [] text = ⟨[], []⟩ ↔ Balanced text := by
  constructor
  · intro h
    cases closes_of_readBrackets h with
    | nil h => exact h
  · intro h
    have hread : readBrackets offset [] (text ++ []) = ⟨[], []⟩ := readBrackets_append h offset []
    rwa [List.append_nil] at hread

end Balance

end Text
end ExprLang
