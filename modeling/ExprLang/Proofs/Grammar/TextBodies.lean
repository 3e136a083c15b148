import ExprLang.Proofs.Grammar.Brackets

/-!
# The bodies of text literals

Between the quotes of a string or a character nothing is whitespace, and no context is opened: a
delimiter that is found there closes the literal, or it is the backslash, which is read by the rule
for escapes. Any other character stands for itself.

Main definitions:
* `Grammar.IsTextBody`: the rule sets of strings and of characters;
* `Grammar.stringRules`, `Grammar.quoteMark`, `Grammar.backslash`: the body of a string and its
  delimiters.

Main results:
* `Grammar.table_textBodies`, `Grammar.table_strings`: the entries of the table;
* `Grammar.IsTextBody.delimiter_of_findIn`: what may be found in a text literal;
* `Grammar.findIn_quote`, `Grammar.findIn_backslash`, `Grammar.findIn_plain`: what is found in a
  string.
-/

namespace ExprLang
namespace Grammar

/-- The rule set of strings, or the one of characters. -/
def IsTextBody (rules : RuleSetId) : Prop :=
  builtin.find? stringName = some rules ∨ builtin.find? charName = some rules

/-- The rule set between two double quotes. -/
def stringRules : RuleSetId :=
  (builtin.find? stringName).getD default

/-- The delimiter at both ends of a string. -/
def quoteMark : DelimiterId :=
  ((builtin.candidates (builtin.ruleSet stringRules) '"').head?).getD default

/-- The delimiter of an escape in a string. -/
def backslash : DelimiterId :=
  ((builtin.candidates (builtin.ruleSet stringRules) '\\').head?).getD default

/-- The characters that do not stand for themselves in a string. -/
def stringMarks : List Char :=
  ['"', '\\', '\n', '\r']

/-- The entries of the table for the bodies of text literals, evaluated at once: their rule sets,
with delimiters that close them and others that read escapes, and that no other rule set is one of
them where a text starts or an operator is applied. -/
theorem table_textBodies :
    (∀ name ∈ [stringName, charName],
      (builtin.ruleSet ((builtin.find? name).getD default)).name = name ∧
      (builtin.ruleSet ((builtin.find? name).getD default)).simplify = some .concatenate ∧
      (builtin.ruleSet ((builtin.find? name).getD default)).contextClass.flags = [.textLiteral] ∧
      (builtin.ruleSet ((builtin.find? name).getD default)).whitespace = some [] ∧
      (builtin.ruleSet ((builtin.find? name).getD default)).delimiters.isSome = true ∧
      ∀ id ∈ (builtin.ruleSet ((builtin.find? name).getD default)).delimiters.getD [],
        (builtin.delimiter id).isOperator = false ∧
          if (builtin.delimiter id).closes then (builtin.delimiter id).contextName? = some name
          else (builtin.delimiter id).opens = false ∧ (builtin.delimiter id).text = ['\\'] ∧
            (builtin.delimiter id).predicate.isNone = true ∧
            (builtin.delimiter id).scan.isSome = true) ∧
    ∀ name ∈ defaultName :: commandLineName :: Operator.all.map Operator.contextName,
      builtin.find? name ≠ builtin.find? stringName ∧
        builtin.find? name ≠ builtin.find? charName := by
  decide +kernel

/-- The entries of the table for strings, evaluated at once: the quote where a text starts, and the
delimiters between quotes. -/
theorem table_strings :
    (builtin.find? stringName = some stringRules ∧
      ∀ id ∈ (builtin.ruleSet stringRules).delimiters.getD [],
        ((builtin.delimiter id).text.head?.any fun c => stringMarks.contains c) = true) ∧
    (∀ name ∈ [defaultName, commandLineName],
      builtin.candidates (builtin.ruleSet ((builtin.find? name).getD default)) '"' = [quoteMark]) ∧
    (builtin.candidates (builtin.ruleSet stringRules) '"' = [quoteMark] ∧
      (builtin.delimiter quoteMark).text = ['"'] ∧
      (builtin.delimiter quoteMark).predicate.isNone = true ∧
      (builtin.delimiter quoteMark).scan.isNone = true ∧
      (builtin.delimiter quoteMark).isBreaking = true ∧
      (builtin.delimiter quoteMark).opens = true ∧ (builtin.delimiter quoteMark).closes = true ∧
      (builtin.delimiter quoteMark).contextName? = some stringName) ∧
    builtin.candidates (builtin.ruleSet stringRules) '\\' = [backslash] ∧
      (builtin.delimiter backslash).isBreaking = true ∧
      (builtin.delimiter backslash).text = ['\\'] ∧
      (builtin.delimiter backslash).predicate.isNone = true ∧
      (builtin.delimiter backslash).scan.isSome = true ∧
      (builtin.delimiter backslash).opens = false ∧
      (builtin.delimiter backslash).closes = false := by
  decide +kernel

/-- What is found in a rule set with delimiters of its own is one of them. -/
theorem mem_delimiters_of_findIn {rules default : RuleSetId}
    (hown : (builtin.ruleSet rules).delimiters.isSome = true) {source : Source} {index : Nat}
    {c : Char} {rest : List Char} {started : Bool} {id : DelimiterId}
    (h : builtin.findIn rules default source index (c :: rest) started = some id) :
    id ∈ (builtin.ruleSet rules).delimiters.getD [] ∧
      (builtin.delimiter id).text.head? = some c := by
  have hsearched : builtin.searched rules default = rules := if_pos hown
  unfold RuleSetTable.findIn at h
  rw [hsearched, search_cons] at h
  exact mem_delimiters_of_mem_candidates (List.mem_of_find?_eq_some h)

/-- A backslash without a predicate is read by the rule for escapes. -/
theorem scan_of_backslash {id : DelimiterId} (htext : (builtin.delimiter id).text = ['\\'])
    (hpredicate : (builtin.delimiter id).predicate.isNone = true)
    (hscan : (builtin.delimiter id).scan.isSome = true) :
    (builtin.delimiter id).scan = some ScanRules.escape := by
  have hother : ∀ text : List Char, (builtin.delimiter id).text = text → text ≠ ['\\'] → False :=
    fun text heq hne => hne (heq.symm.trans htext)
  cases known_delimiter id with
  | bare _ hnone _ =>
      rw [hnone] at hscan
      cases hscan
  | @digit c heq hdigit _ _ =>
      refine (hother _ heq fun hsingle => ?_).elim
      rw [List.singleton_injective hsingle] at hdigit
      cases hdigit
  | minus heq _ _ => exact (hother _ heq (by decide)).elim
  | point heq _ _ => exact (hother _ heq (by decide)).elim
  | hexadecimal heq _ _ => exact (hother _ heq (by decide)).elim
  | boolean heq _ _ =>
      rcases heq with heq | heq
      · exact (hother _ heq (by decide)).elim
      · exact (hother _ heq (by decide)).elim
  | escape _ _ hrule => exact hrule
  | lineBreak heq _ _ =>
      rcases heq with heq | heq
      · exact (hother _ heq (by decide)).elim
      · exact (hother _ heq (by decide)).elim
  | continuation _ hsome _ =>
      rw [hsome] at hpredicate
      cases hpredicate

section TextBodies

variable {rules : RuleSetId}

/-- A text does not start in a text literal. -/
theorem IsTopLevel.not_isTextBody (h : IsTopLevel rules) : ¬IsTextBody rules := by
  have hnames := table_textBodies.2
  rcases h with h | h
  · obtain ⟨hstring, hchar⟩ := hnames defaultName (by simp)
    rw [h] at hstring hchar
    exact fun hbody => hbody.elim (fun heq => hstring heq.symm) fun heq => hchar heq.symm
  · obtain ⟨hstring, hchar⟩ := hnames commandLineName (by simp)
    rw [h] at hstring hchar
    exact fun hbody => hbody.elim (fun heq => hstring heq.symm) fun heq => hchar heq.symm

/-- A number that stands for no node stands for rules in which a text may start. -/
theorem isTopLevel_default : IsTopLevel default :=
  Or.inl (by decide +kernel)

/-- The rule set of an operator is none of a text literal. -/
theorem not_isTextBody_of_operator {op : Operator} (h : builtin.find? op.contextName = some rules) :
    ¬IsTextBody rules := by
  obtain ⟨hstring, hchar⟩ := table_textBodies.2 op.contextName
    (List.mem_cons_of_mem _ (List.mem_cons_of_mem _ (List.mem_map_of_mem op.mem_all)))
  rw [h] at hstring hchar
  exact fun hbody => hbody.elim (fun heq => hstring heq.symm) fun heq => hchar heq.symm

namespace IsTextBody

variable (h : IsTextBody rules)

include h

/-- What the table says about the rule set. -/
theorem entries :
    ((builtin.ruleSet rules).simplify = some .concatenate ∧
      (builtin.ruleSet rules).contextClass = .ofFlags [.textLiteral] ∧
      (builtin.ruleSet rules).whitespace = some [] ∧
      (builtin.ruleSet rules).delimiters.isSome = true) ∧
    ∀ id ∈ (builtin.ruleSet rules).delimiters.getD [],
      (builtin.delimiter id).isOperator = false ∧
        if (builtin.delimiter id).closes then
          (builtin.delimiter id).contextName? = some (builtin.ruleSet rules).name
        else (builtin.delimiter id).opens = false ∧ (builtin.delimiter id).text = ['\\'] ∧
          (builtin.delimiter id).predicate.isNone = true ∧
          (builtin.delimiter id).scan.isSome = true := by
  obtain ⟨name, hmem, hfind⟩ : ∃ name ∈ [stringName, charName], builtin.find? name = some rules :=
    h.elim (fun hstring => ⟨_, List.mem_cons_self, hstring⟩)
      fun hchar => ⟨_, List.mem_cons_of_mem _ List.mem_cons_self, hchar⟩
  have hentries := table_textBodies.1 name hmem
  rw [hfind, Option.getD_some] at hentries
  obtain ⟨hname, hsimplify, hflags, hwhitespace, hown, hdelimiters⟩ := hentries
  refine ⟨⟨hsimplify, ?_, hwhitespace, hown⟩, ?_⟩
  · rw [← ContextClass.ofFlags_flags (builtin.ruleSet rules).contextClass, hflags]
  · rwa [hname]

theorem simplify_eq : (builtin.ruleSet rules).simplify = some .concatenate :=
  h.entries.1.1

theorem contextClass_eq : (builtin.ruleSet rules).contextClass = .ofFlags [.textLiteral] :=
  h.entries.1.2.1

/-- Nothing is whitespace in a text literal. -/
theorem isWhitespace_eq (default : RuleSetId) (c : Char) :
    builtin.isWhitespace rules default c = false := by
  unfold RuleSetTable.isWhitespace
  rw [h.entries.1.2.2.1]
  rfl

/-- A delimiter that is found in a text literal closes it, or it is the one of escapes. -/
theorem delimiter_of_findIn {default : RuleSetId} {source : Source} {index : Nat} {c : Char}
    {rest : List Char} {started : Bool} {id : DelimiterId}
    (hfind : builtin.findIn rules default source index (c :: rest) started = some id) :
    (builtin.delimiter id).isOperator = false ∧
      ((builtin.delimiter id).closes = true ∧
          (builtin.delimiter id).contextName? = some (builtin.ruleSet rules).name ∨
        (builtin.delimiter id).closes = false ∧ (builtin.delimiter id).opens = false ∧
          (builtin.delimiter id).scan = some ScanRules.escape) := by
  have hmem := (mem_delimiters_of_findIn h.entries.1.2.2.2 hfind).1
  obtain ⟨hoperator, hrole⟩ := h.entries.2 id hmem
  refine ⟨hoperator, ?_⟩
  split at hrole
  · rename_i hcloses
    exact Or.inl ⟨hcloses, hrole⟩
  · rename_i hcloses
    obtain ⟨hopens, htext, hpredicate, hscan⟩ := hrole
    exact Or.inr ⟨Bool.eq_false_iff.mpr hcloses, hopens,
      scan_of_backslash htext hpredicate hscan⟩

end IsTextBody

end TextBodies

section Strings

theorem find?_string : builtin.find? stringName = some stringRules :=
  table_strings.1.1

theorem isTextBody_string : IsTextBody stringRules :=
  Or.inl find?_string

theorem name_stringRules : (builtin.ruleSet stringRules).name = stringName :=
  (table_textBodies.1 stringName List.mem_cons_self).1

/-- A quote at both ends of a string. -/
theorem delimiter_quoteMark :
    (builtin.delimiter quoteMark).text = ['"'] ∧
      (builtin.delimiter quoteMark).scan.isNone = true ∧
      (builtin.delimiter quoteMark).opens = true ∧ (builtin.delimiter quoteMark).closes = true ∧
      (builtin.delimiter quoteMark).contextName? = some stringName := by
  obtain ⟨-, -, ⟨-, htext, -, hscan, -, hrole⟩, -⟩ := table_strings
  exact ⟨htext, hscan, hrole⟩

/-- A backslash in a string is read as an escape. -/
theorem delimiter_backslash :
    (builtin.delimiter backslash).scan = some ScanRules.escape ∧
      (builtin.delimiter backslash).opens = false ∧
      (builtin.delimiter backslash).closes = false := by
  obtain ⟨-, -, -, -, -, htext, hpredicate, hscan, hopens, hcloses⟩ := table_strings
  exact ⟨scan_of_backslash htext hpredicate hscan, hopens, hcloses⟩

theorem searched_string (default : RuleSetId) :
    builtin.searched stringRules default = stringRules :=
  if_pos isTextBody_string.entries.1.2.2.2

variable {default : RuleSetId} (source : Source) (index : Nat) (rest : List Char) (started : Bool)

/-- Where a text starts, a quote is found. -/
theorem IsTopLevel.findIn_quote {start : RuleSetId} (hstart : IsTopLevel start) :
    builtin.findIn start start source index ('"' :: rest) started = some quoteMark := by
  obtain ⟨-, hcandidates, ⟨-, htext, hpredicate, -, hbreaks, -⟩, -⟩ := table_strings
  have hsearched : builtin.searched start start = start := ite_self _
  have hfirst : builtin.candidates (builtin.ruleSet (builtin.searched start start)) '"' =
      [quoteMark] := by
    rw [hsearched]
    rcases hstart with hname | hname
    · have hentry := hcandidates defaultName (by simp)
      rwa [hname] at hentry
    · have hentry := hcandidates commandLineName (by simp)
      rwa [hname] at hentry
  exact findIn_of_candidates hfirst htext hpredicate hbreaks source index rest started

theorem IsTopLevel.isWhitespace_quote {start : RuleSetId} (hstart : IsTopLevel start) :
    builtin.isWhitespace start start '"' = false := by
  rw [hstart.isWhitespace_eq]
  decide

/-- In a string a quote is found. -/
theorem findIn_quote :
    builtin.findIn stringRules default source index ('"' :: rest) started = some quoteMark := by
  obtain ⟨-, -, ⟨hcandidates, htext, hpredicate, -, hbreaks, -⟩, -⟩ := table_strings
  rw [← searched_string default] at hcandidates
  exact findIn_of_candidates hcandidates htext hpredicate hbreaks source index rest started

/-- In a string a backslash is found. -/
theorem findIn_backslash :
    builtin.findIn stringRules default source index ('\\' :: rest) started = some backslash := by
  obtain ⟨-, -, -, hcandidates, hbreaks, htext, hpredicate, -⟩ := table_strings
  rw [← searched_string default] at hcandidates
  exact findIn_of_candidates hcandidates htext hpredicate hbreaks source index rest started

/-- In a string no other character but a line break starts a delimiter. -/
theorem findIn_plain {c : Char} (hc : c ∉ stringMarks) :
    builtin.findIn stringRules default source index (c :: rest) started = none := by
  cases hfind : builtin.findIn stringRules default source index (c :: rest) started with
  | none => rfl
  | some id =>
      obtain ⟨hmem, hhead⟩ := mem_delimiters_of_findIn isTextBody_string.entries.1.2.2.2 hfind
      have hmark := table_strings.1.2 id hmem
      rw [hhead, Option.any_some] at hmark
      exact absurd (List.contains_iff_mem.mp hmark) hc

end Strings

end Grammar
end ExprLang
