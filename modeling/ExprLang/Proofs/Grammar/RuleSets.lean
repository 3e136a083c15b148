import ExprLang.Proofs.Grammar.Delimiters
import Mathlib.Data.List.TakeWhile

/-!
# The rule sets of the built-in grammars

No rule set of the built-in grammars falls back on another one, so that a search looks at the
candidates of one rule set. Where a search may find a delimiter that does not break words, a
closing parenthesis breaks them. The rule set of groups in parentheses has no delimiters and no
whitespace of its own.

Main definitions:
* `Grammar.Inherits`: rule sets without delimiters and whitespace of their own;
* `Grammar.parensRules`, `Grammar.openParen`, `Grammar.closeParen`: groups in parentheses.

Main results:
* `Grammar.search_cons`: a search goes through the candidates of one rule set;
* `Grammar.breaksAt_paren`: where words end in front of a closing parenthesis;
* `Grammar.Inherits.findIn_eq`: where nothing else is said the delimiters of the language are found.
-/

namespace ExprLang
namespace Grammar

/-- The rule set of groups in parentheses. -/
def parensRules : RuleSetId :=
  (builtin.find? parensName).getD default

/-- The delimiter that opens a group in parentheses. -/
def openParen : DelimiterId :=
  ((builtin.candidates (builtin.ruleSet builtin.startRules) '(').head?).getD default

/-- The delimiter that closes a group in parentheses. -/
def closeParen : DelimiterId :=
  ((builtin.candidates (builtin.ruleSet builtin.startRules) ')').head?).getD default

section Search

/-- What holds of every rule set of the table. The table is evaluated for all of it at once: none
falls back on another one, one with a delimiter that does not break words has the closing
parenthesis, and each operator has its own. -/
theorem forall_ruleSets :
    (∀ r ∈ builtin.ruleSets.toList, r.fallbacks.isEmpty = true ∧
      ((∀ id ∈ r.delimiters.getD [], (builtin.delimiter id).isBreaking = true) ∨
        ∃ paren ∈ builtin.candidates r ')', (builtin.delimiter paren).text = [')'] ∧
          (builtin.delimiter paren).predicate.isNone = true ∧
            (builtin.delimiter paren).isBreaking = true)) ∧
      1 ≤ builtin.length ∧
        ∀ op ∈ Operator.all, (builtin.find? op.contextName).isSome = true := by
  decide +kernel

/-- A rule set is one of the table, or the empty one that other numbers stand for. -/
theorem ruleSet_cases (rules : RuleSetId) :
    builtin.ruleSet rules ∈ builtin.ruleSets.toList ∨ builtin.ruleSet rules = default := by
  unfold RuleSetTable.ruleSet
  rw [Array.getD_eq_getD_getElem?]
  cases hget : builtin.ruleSets[rules.index]? with
  | none => exact Or.inr rfl
  | some r =>
      left
      rw [Option.getD_some]
      exact Array.mem_toList_iff.mpr (Array.mem_of_getElem? hget)

theorem fallbacks_eq_nil (rules : RuleSetId) : (builtin.ruleSet rules).fallbacks = [] := by
  rcases ruleSet_cases rules with hmem | hdefault
  · exact List.isEmpty_iff.mp (forall_ruleSets.1 _ hmem).1
  · rw [hdefault]
    rfl

theorem searchOrder_eq (rules : RuleSetId) :
    builtin.searchOrder builtin.length rules = [rules] := by
  obtain ⟨n, hn⟩ : ∃ n, builtin.length = n + 1 :=
    ⟨builtin.length - 1, (Nat.sub_add_cancel forall_ruleSets.2.1).symm⟩
  rw [hn, RuleSetTable.searchOrder, fallbacks_eq_nil, List.flatMap_nil]

/-- A search goes through the candidates of one rule set. -/
theorem search_cons (accepts : DelimiterId → Bool) (rules : RuleSetId) (source : Source)
    (index : Nat) (c : Char) (rest : List Char) :
    builtin.search accepts rules source index (c :: rest) =
      (builtin.candidates (builtin.ruleSet rules) c).find? fun id =>
        (builtin.delimiter id).standsAt source index (c :: rest) && accepts id := by
  unfold RuleSetTable.search
  simp only [searchOrder_eq, List.findSome?_singleton]

/-- A candidate is found that is accepted where it stands, if none before it stands there. -/
theorem search_of_candidates {accepts : DelimiterId → Bool} {rules : RuleSetId} {source : Source}
    {index : Nat} {c : Char} {rest : List Char} {id : DelimiterId} {before others : List DelimiterId}
    (hcandidates : builtin.candidates (builtin.ruleSet rules) c = before ++ id :: others)
    (hbefore : ∀ other ∈ before,
      (builtin.delimiter other).standsAt source index (c :: rest) = false)
    (hstands : (builtin.delimiter id).standsAt source index (c :: rest) = true)
    (haccepts : accepts id = true) :
    builtin.search accepts rules source index (c :: rest) = some id := by
  rw [search_cons, hcandidates, List.find?_append, List.find?_eq_none.mpr, Option.none_or,
    List.find?_cons_of_pos]
  · rw [hstands, haccepts, Bool.and_self]
  · intro other hother
    rw [hbefore other hother, Bool.false_and]
    exact Bool.false_ne_true

/-- The first candidate is found if it is accepted where it stands. -/
theorem search_of_first {accepts : DelimiterId → Bool} {rules : RuleSetId} {source : Source}
    {index : Nat} {c : Char} {rest : List Char} {id : DelimiterId} {others : List DelimiterId}
    (hcandidates : builtin.candidates (builtin.ruleSet rules) c = id :: others)
    (hstands : (builtin.delimiter id).standsAt source index (c :: rest) = true)
    (haccepts : accepts id = true) :
    builtin.search accepts rules source index (c :: rest) = some id :=
  search_of_candidates (hcandidates.trans (List.nil_append _).symm) (List.forall_mem_nil _)
    hstands haccepts

section Anywhere

variable {rules default : RuleSetId} {c : Char} {id : DelimiterId} {others : List DelimiterId}
  (hcandidates : builtin.candidates (builtin.ruleSet (builtin.searched rules default)) c =
    id :: others)
  (htext : (builtin.delimiter id).text = [c])
  (hpredicate : (builtin.delimiter id).predicate.isNone = true)
  (hbreaks : (builtin.delimiter id).isBreaking = true) (source : Source) (index : Nat)
  (rest : List Char)

include htext hpredicate in
/-- A delimiter of one character stands wherever this character does, if nothing restricts it. -/
theorem standsAt_of_text : (builtin.delimiter id).standsAt source index (c :: rest) = true := by
  have hstarts : Text.startsWith [c] (c :: rest) = true := by simp [Text.startsWith, Text.dropHead?]
  unfold Delimiter.standsAt
  rw [htext, hstarts, Option.isNone_iff_eq_none.mp hpredicate]
  rfl

include hcandidates htext hpredicate hbreaks

/-- The first candidate is found wherever its one character stands, if nothing restricts it. -/
theorem findIn_of_candidates (started : Bool) :
    builtin.findIn rules default source index (c :: rest) started = some id := by
  refine search_of_first hcandidates (standsAt_of_text htext hpredicate source index rest) ?_
  unfold RuleSetTable.accepts
  simp only [hbreaks, Bool.true_or]

/-- Where it is found it ends a word. -/
theorem endsWord_of_candidates :
    builtin.endsWord rules default source index (c :: rest) = true := by
  have hfound : builtin.search (fun id => (builtin.delimiter id).isBreaking)
      (builtin.searched rules default) source index (c :: rest) = some id :=
    search_of_first hcandidates (standsAt_of_text htext hpredicate source index rest) hbreaks
  unfold RuleSetTable.endsWord RuleSetTable.breaksAt
  simp only [hfound, Option.isSome_some, Bool.or_true]

end Anywhere

end Search

/-- A candidate is one of the delimiters of the rule set, and starts with the character. -/
theorem mem_delimiters_of_mem_candidates {rules : RuleSet} {c : Char} {id : DelimiterId}
    (h : id ∈ builtin.candidates rules c) :
    id ∈ rules.delimiters.getD [] ∧ (builtin.delimiter id).text.head? = some c := by
  unfold RuleSetTable.candidates at h
  split at h
  · rename_i ids slot hids hslot
    have hfirst := List.mem_takeWhile_imp h
    rw [hids]
    exact ⟨List.mem_of_mem_drop ((List.takeWhile_sublist _).subset h), beq_iff_eq.mp hfirst⟩
  · cases h

section Words

/-- In a rule set with a delimiter that does not break words a closing parenthesis does. -/
theorem paren_mem_candidates {rules : RuleSetId} {c : Char} {id : DelimiterId}
    (hid : id ∈ builtin.candidates (builtin.ruleSet rules) c)
    (hword : (builtin.delimiter id).isBreaking = false) :
    ∃ paren ∈ builtin.candidates (builtin.ruleSet rules) ')',
      (builtin.delimiter paren).text = [')'] ∧ (builtin.delimiter paren).predicate = none ∧
        (builtin.delimiter paren).isBreaking = true := by
  have hmem := (mem_delimiters_of_mem_candidates hid).1
  rcases ruleSet_cases rules with htable | hdefault
  · rcases (forall_ruleSets.1 _ htable).2 with
      hbreaking | ⟨paren, hparen, htext, hpredicate, hbreaks⟩
    · rw [hbreaking id hmem] at hword
      cases hword
    · exact ⟨paren, hparen, htext, Option.isNone_iff_eq_none.mp hpredicate, hbreaks⟩
  · rw [hdefault] at hmem
    cases hmem

/-- Where words end at delimiters, they end in front of a closing parenthesis. -/
theorem breaksAt_paren {rules default : RuleSetId} {c : Char} {id : DelimiterId}
    (hid : id ∈ builtin.candidates (builtin.ruleSet (builtin.searched rules default)) c)
    (hword : (builtin.delimiter id).isBreaking = false) (source : Source) (index : Nat)
    (rest : List Char) : builtin.breaksAt rules default source index (')' :: rest) = true := by
  obtain ⟨paren, hparen, htext, hpredicate, hbreaks⟩ := paren_mem_candidates hid hword
  unfold RuleSetTable.breaksAt
  rw [search_cons, List.find?_isSome]
  refine ⟨paren, hparen, ?_⟩
  unfold Delimiter.standsAt
  rw [hpredicate, hbreaks, htext]
  rfl

end Words

section Inheritance

/-- A rule set without delimiters and whitespace of its own. -/
def Inherits (rules : RuleSetId) : Prop :=
  (builtin.ruleSet rules).delimiters.isSome = false ∧
    (builtin.ruleSet rules).whitespace.isNone = true

variable {rules : RuleSetId} (h : Inherits rules) (default : RuleSetId)

include h

/-- The same characters are whitespace as at the start. -/
theorem Inherits.isWhitespace_eq (c : Char) :
    builtin.isWhitespace rules default c = builtin.isWhitespace default default c := by
  unfold RuleSetTable.isWhitespace
  rw [Option.isNone_iff_eq_none.mp h.2]
  cases (builtin.ruleSet default).whitespace <;> rfl

theorem Inherits.searched_eq : builtin.searched rules default = builtin.searched default default := by
  unfold RuleSetTable.searched
  rw [h.1, ite_self]
  rfl

/-- The same delimiters are found as at the start. -/
theorem Inherits.findIn_eq (source : Source) (index : Nat) (rest : List Char) (started : Bool) :
    builtin.findIn rules default source index rest started =
      builtin.findIn default default source index rest started := by
  have hbreaks : ∀ index rest, builtin.breaksAt rules default source index rest =
      builtin.breaksAt default default source index rest := by
    intro index rest
    unfold RuleSetTable.breaksAt
    rw [h.searched_eq]
  have hends : ∀ index rest, builtin.endsWord rules default source index rest =
      builtin.endsWord default default source index rest := by
    intro index rest
    unfold RuleSetTable.endsWord
    simp only [hbreaks, h.isWhitespace_eq]
  have haccepts : builtin.accepts rules default source index rest started =
      builtin.accepts default default source index rest started := by
    funext id
    unfold RuleSetTable.accepts
    simp only [hends]
  unfold RuleSetTable.findIn
  rw [h.searched_eq, haccepts]

end Inheritance

section Parentheses

/-- The entries of the table for groups in parentheses, evaluated at once: their rule set, the
opening and the closing parenthesis, and that at the start of the language nothing else is found
where one stands. -/
theorem table_parens :
    (builtin.find? parensName = some parensRules ∧
      (builtin.ruleSet parensRules).name = parensName ∧
      (builtin.ruleSet parensRules).simplify = some .singleTerm ∧
      (builtin.ruleSet parensRules).contextClass.flags = [.enclosure] ∧
      (builtin.ruleSet parensRules).delimiters.isSome = false ∧
      (builtin.ruleSet parensRules).whitespace.isNone = true) ∧
    ((builtin.delimiter openParen).text = ['('] ∧
      (builtin.delimiter openParen).scan.isNone = true ∧
      (builtin.delimiter openParen).opens = true ∧ (builtin.delimiter openParen).closes = false ∧
      (builtin.delimiter openParen).contextName? = some parensName) ∧
    ((builtin.delimiter closeParen).text = [')'] ∧
      (builtin.delimiter closeParen).scan.isNone = true ∧
      (builtin.delimiter closeParen).closes = true ∧
      (builtin.delimiter closeParen).contextName? = some parensName) ∧
    (builtin.candidates (builtin.ruleSet builtin.startRules) '(' = [openParen] ∧
      (builtin.delimiter openParen).predicate.isNone = true ∧
      (builtin.delimiter openParen).isBreaking = true ∧
      builtin.isWhitespace builtin.startRules builtin.startRules '(' = false) ∧
    (builtin.candidates (builtin.ruleSet builtin.startRules) ')' = [closeParen] ∧
      (builtin.delimiter closeParen).predicate.isNone = true ∧
      (builtin.delimiter closeParen).isBreaking = true ∧
      builtin.isWhitespace builtin.startRules builtin.startRules ')' = false) := by
  decide +kernel

theorem find?_parens : builtin.find? parensName = some parensRules :=
  table_parens.1.1

/-- The rule set of groups in parentheses: its name, and how a group gets its value. -/
theorem ruleSet_parens :
    (builtin.ruleSet parensRules).name = parensName ∧
      (builtin.ruleSet parensRules).simplify = some .singleTerm := by
  obtain ⟨⟨-, hname, hsimplify, -⟩, -⟩ := table_parens
  exact ⟨hname, hsimplify⟩

/-- The context of a group in parentheses. -/
theorem contextClass_parens :
    (builtin.ruleSet parensRules).contextClass = .ofFlags [.enclosure] := by
  obtain ⟨⟨-, -, -, hflags, -⟩, -⟩ := table_parens
  rw [← ContextClass.ofFlags_flags (builtin.ruleSet parensRules).contextClass, hflags]

theorem inherits_parens : Inherits parensRules := by
  obtain ⟨⟨-, -, -, -, hinherits⟩, -⟩ := table_parens
  exact hinherits

/-- The delimiter that opens a group in parentheses. -/
theorem delimiter_openParen :
    (builtin.delimiter openParen).text = ['('] ∧ (builtin.delimiter openParen).scan.isNone = true ∧
      (builtin.delimiter openParen).opens = true ∧ (builtin.delimiter openParen).closes = false ∧
        (builtin.delimiter openParen).contextName? = some parensName :=
  table_parens.2.1

/-- The delimiter that closes a group in parentheses. -/
theorem delimiter_closeParen :
    (builtin.delimiter closeParen).text = [')'] ∧
      (builtin.delimiter closeParen).scan.isNone = true ∧
        (builtin.delimiter closeParen).closes = true ∧
          (builtin.delimiter closeParen).contextName? = some parensName :=
  table_parens.2.2.1

/-- Only an end of a group in parentheses closes one, and it opens none. -/
theorem opens_eq_false_of_closes {id : DelimiterId} (hcloses : (builtin.delimiter id).closes = true)
    (hname : (builtin.delimiter id).contextName? = some parensName) :
    (builtin.delimiter id).opens = false := by
  have hall : ∀ d ∈ delimiterList, d.closes = true → d.contextName? = some parensName →
      d.opens = false := by
    decide
  rcases mem_delimiterList id with hmem | hdefault
  · exact hall _ hmem hcloses hname
  · rw [hdefault]
    rfl

theorem searched_startRules :
    builtin.searched builtin.startRules builtin.startRules = builtin.startRules :=
  ite_self _

theorem isWhitespace_paren :
    builtin.isWhitespace builtin.startRules builtin.startRules '(' = false ∧
      builtin.isWhitespace builtin.startRules builtin.startRules ')' = false := by
  obtain ⟨-, -, -, ⟨-, -, -, hopen⟩, -, -, -, hclose⟩ := table_parens
  exact ⟨hopen, hclose⟩

/-- At the start of the language a parenthesis is found wherever it stands. -/
theorem findIn_paren (source : Source) (index : Nat) (rest : List Char) (started : Bool) :
    builtin.findIn builtin.startRules builtin.startRules source index ('(' :: rest) started =
        some openParen ∧
      builtin.findIn builtin.startRules builtin.startRules source index (')' :: rest) started =
        some closeParen := by
  obtain ⟨-, -, -, ⟨hopen, hopenAnywhere, hopenBreaks, -⟩, hclose, hcloseAnywhere, hcloseBreaks, -⟩ :=
    table_parens
  rw [← searched_startRules] at hopen hclose
  exact ⟨findIn_of_candidates hopen delimiter_openParen.1 hopenAnywhere hopenBreaks _ _ _ _,
    findIn_of_candidates hclose delimiter_closeParen.1 hcloseAnywhere hcloseBreaks _ _ _ _⟩

end Parentheses

/-- Every operator has a rule set for its applications. -/
theorem exists_find?_contextName (op : Operator) :
    ∃ rules, builtin.find? op.contextName = some rules :=
  Option.isSome_iff_exists.mp (forall_ruleSets.2.2 op op.mem_all)

end Grammar
end ExprLang
