import ExprLang.Language
import Mathlib.Tactic

/-!
# The delimiters of the built-in grammars

Rule sets are added to a table without a change to its delimiters, so the delimiters of the
built-in grammars are those of their lists. Few of them look at more than their own text: these
have a predicate or a scan rule, and each rule belongs to certain texts.

Main definitions:
* `Grammar.delimiterList`: all delimiters of the built-in grammars;
* `Delimiter.Known`: the delimiters with the rules that belong to them.

Main results:
* `Grammar.mem_delimiterList`: where the delimiters of the table are from;
* `Grammar.known_delimiter`: every delimiter is a known one.
-/

namespace ExprLang

/-- A delimiter without rules, or with those that belong to its text. -/
inductive Delimiter.Known (d : Delimiter) : Prop
  | bare (hpredicate : d.predicate = none) (hscan : d.scan = none)
      (htext : ')' ∈ d.text → d.text = [')'])
  | digit {c : Char} (htext : d.text = [c]) (hdigit : c.isDigit = true)
      (hpredicate : d.predicate = none) (hscan : d.scan = some ScanRules.number)
  | minus (htext : d.text = ['-']) (hpredicate : d.predicate = some ScanRules.minusStartsNumber)
      (hscan : d.scan = some ScanRules.number)
  | point (htext : d.text = ['.']) (hpredicate : d.predicate = some ScanRules.dotStartsNumber)
      (hscan : d.scan = some ScanRules.number)
  | hexadecimal (htext : d.text = ['0', 'x']) (hpredicate : d.predicate = none)
      (hscan : d.scan = some ScanRules.hexadecimal)
  | boolean (htext : d.text = "True".toList ∨ d.text = "False".toList)
      (hpredicate : d.predicate = none) (hscan : d.scan = some ScanRules.boolean)
  | escape (htext : d.text = ['\\']) (hpredicate : d.predicate = none)
      (hscan : d.scan = some ScanRules.escape)
  | lineBreak (htext : d.text = ['\n'] ∨ d.text = ['\r']) (hpredicate : d.predicate = none)
      (hscan : d.scan = some ScanRules.lineBreakInLiteral)
  | continuation (htext : d.text = ['\\'])
      (hpredicate : d.predicate = some ScanRules.escapesLineBreak)
      (hscan : d.scan = some ScanRules.lineContinuation)

/-- The only delimiter with a closing parenthesis in its text is the parenthesis. -/
theorem Delimiter.Known.text_paren {d : Delimiter} (h : d.Known) :
    ')' ∈ d.text → d.text = [')'] := by
  have hother : ∀ text : List Char, d.text = text → ')' ∉ text → ')' ∈ d.text → d.text = [')'] :=
    fun text htext hnot hmem => absurd (htext ▸ hmem) hnot
  cases h with
  | bare _ _ htext => exact htext
  | @digit c htext hdigit _ _ =>
      refine hother _ htext fun hmem => ?_
      rw [← List.mem_singleton.mp hmem] at hdigit
      cases hdigit
  | minus htext _ _ => exact hother _ htext (by decide)
  | point htext _ _ => exact hother _ htext (by decide)
  | hexadecimal htext _ _ => exact hother _ htext (by decide)
  | boolean htext _ _ =>
      rcases htext with htext | htext
      · exact hother _ htext (by decide)
      · exact hother _ htext (by decide)
  | escape htext _ _ => exact hother _ htext (by decide)
  | lineBreak htext _ _ =>
      rcases htext with htext | htext
      · exact hother _ htext (by decide)
      · exact hother _ htext (by decide)
  | continuation htext _ _ => exact hother _ htext (by decide)

namespace Grammar

/-- All delimiters of the built-in grammars. -/
def delimiterList : List Delimiter :=
  [quote, apostrophe] ++ brackets ++ blockCommentEnds ++ lineCommentStarts ++ separators ++
    symbols ++ operators ++ literals ++ textBody stringName ++ textBody charName ++
      lineCommentBody lineCommentName ++ lineCommentBody docCommentName

section Installation

variable {table table' : RuleSetTable}

/-- Peels the first one off two declarations. -/
theorem bind_eq_ok {α β : Type} {first : Except TableError α} {next : α → Except TableError β}
    {result : β} (h : (first >>= next) = .ok result) :
    ∃ middle, first = .ok middle ∧ next middle = .ok result := by
  cases first with
  | error error => cases h
  | ok middle => exact ⟨middle, rfl, h⟩

/-- A definition of a rule set adds no delimiters. -/
theorem delimiters_defined {definition : RuleSetDefinition}
    (h : defined definition table = .ok table') : table'.delimiters = table.delimiters := by
  unfold defined RuleSetTable.define at h
  split at h
  · cases h
  · cases h
    rfl

theorem delimiters_defineTextBody {name : String} {closer : DelimiterId}
    (h : defineTextBody name closer table = .ok table') :
    table'.delimiters.toList = table.delimiters.toList ++ textBody name := by
  rw [delimiters_defined h]
  simp

theorem delimiters_defineLineComment {name : String}
    (h : defineLineComment name table = .ok table') :
    table'.delimiters.toList = table.delimiters.toList ++ lineCommentBody name := by
  rw [delimiters_defined h]
  simp

theorem delimiters_defineOperatorContext {op : Operator}
    (h : defineOperatorContext table op = .ok table') : table'.delimiters = table.delimiters := by
  unfold defineOperatorContext at h
  split at h
  · cases h
    rfl
  · exact delimiters_defined h

theorem delimiters_foldlM (ops : List Operator)
    (h : ops.foldlM defineOperatorContext table = .ok table') :
    table'.delimiters = table.delimiters := by
  induction ops generalizing table with
  | nil =>
      cases h
      rfl
  | cons op ops ih =>
      obtain ⟨middle, hop, hrest⟩ := bind_eq_ok h
      exact (ih hrest).trans (delimiters_defineOperatorContext hop)

/-- The built-in grammars have the delimiters of their lists. -/
theorem delimiters_install (h : install .empty = .ok table) :
    table.delimiters.toList = delimiterList := by
  unfold install at h
  simp only at h
  obtain ⟨_, hdefault, h⟩ := bind_eq_ok h
  obtain ⟨_, hcommandLine, h⟩ := bind_eq_ok h
  obtain ⟨_, hstring, h⟩ := bind_eq_ok h
  obtain ⟨_, hchar, h⟩ := bind_eq_ok h
  obtain ⟨_, hparens, h⟩ := bind_eq_ok h
  obtain ⟨_, hbraces, h⟩ := bind_eq_ok h
  obtain ⟨_, hbrackets, h⟩ := bind_eq_ok h
  obtain ⟨_, hblock, h⟩ := bind_eq_ok h
  obtain ⟨_, hline, h⟩ := bind_eq_ok h
  obtain ⟨_, hdoc, h⟩ := bind_eq_ok h
  obtain ⟨_, hnumber, h⟩ := bind_eq_ok h
  obtain ⟨_, hhex, h⟩ := bind_eq_ok h
  obtain ⟨_, hbool, h⟩ := bind_eq_ok h
  rw [delimiters_foldlM _ h, delimiters_defined hbool, delimiters_defined hhex,
    delimiters_defined hnumber, delimiters_defineLineComment hdoc,
    delimiters_defineLineComment hline, delimiters_defined hblock, delimiters_defined hbrackets,
    delimiters_defined hbraces, delimiters_defined hparens, delimiters_defineTextBody hchar,
    delimiters_defineTextBody hstring, delimiters_defined hcommandLine,
    delimiters_defined hdefault]
  simp [RuleSetTable.addDelimiters, RuleSetTable.addDelimiter, RuleSetTable.empty, delimiterList]

end Installation

/-- A delimiter of the built-in grammars is one of the lists; other numbers have none. -/
theorem mem_delimiterList (id : DelimiterId) :
    builtin.delimiter id ∈ delimiterList ∨ builtin.delimiter id = default := by
  unfold RuleSetTable.delimiter builtin
  split
  · rename_i table htable
    rw [← delimiters_install htable, Array.getD_eq_getD_getElem?]
    cases hget : table.delimiters[id.index]? with
    | none => exact Or.inr rfl
    | some d =>
        left
        rw [Option.getD_some]
        exact Array.mem_toList_iff.mpr (Array.mem_of_getElem? hget)
  · exact Or.inr rfl

section Rules

/-- Ends of contexts, separators, symbols and operators have no rules. -/
theorem known_bare :
    ∀ d ∈ [quote, apostrophe] ++ brackets ++ blockCommentEnds ++ lineCommentStarts ++ separators ++
      symbols ++ operators, d.Known := by
  have hbare : ∀ d ∈ [quote, apostrophe] ++ brackets ++ blockCommentEnds ++ lineCommentStarts ++
      separators ++ symbols ++ operators,
      d.predicate.isNone = true ∧ d.scan.isNone = true ∧ (')' ∈ d.text → d.text = [')']) := by
    decide
  intro d hd
  obtain ⟨hpredicate, hscan, htext⟩ := hbare d hd
  exact .bare (Option.isNone_iff_eq_none.mp hpredicate) (Option.isNone_iff_eq_none.mp hscan) htext

theorem known_literals : ∀ d ∈ literals, d.Known := by
  refine List.forall_mem_append.mpr ⟨?_, ?_⟩
  · simp only [List.forall_mem_cons]
    refine ⟨.minus rfl rfl rfl, .point rfl rfl rfl, .hexadecimal rfl rfl rfl,
      .boolean (Or.inl rfl) rfl rfl, .boolean (Or.inr rfl) rfl rfl, ?_⟩
    exact List.forall_mem_nil _
  · intro d hd
    obtain ⟨text, htext, rfl⟩ := List.mem_map.mp hd
    obtain ⟨c, hc, hdigit⟩ : ∃ c, text.toList = [c] ∧ c.isDigit = true := by
      simp only [List.mem_cons, List.not_mem_nil, or_false] at htext
      rcases htext with rfl | rfl | rfl | rfl | rfl | rfl | rfl | rfl | rfl | rfl
      all_goals exact ⟨_, rfl, rfl⟩
    exact .digit hc hdigit rfl rfl

theorem known_textBody (name : String) : ∀ d ∈ textBody name, d.Known := by
  simp only [textBody, List.forall_mem_cons]
  exact ⟨.escape rfl rfl rfl, .lineBreak (Or.inl rfl) rfl rfl, .lineBreak (Or.inr rfl) rfl rfl,
    List.forall_mem_nil _⟩

theorem known_lineCommentBody (name : String) : ∀ d ∈ lineCommentBody name, d.Known := by
  have hbreak : ∀ text : List Char, ')' ∉ text → (')' ∈ text → text = [')']) :=
    fun _ hnot h => absurd h hnot
  simp only [lineCommentBody, List.forall_mem_cons]
  exact ⟨.continuation rfl rfl rfl, .bare rfl rfl (hbreak ['\n'] (by decide)),
    .bare rfl rfl (hbreak ['\r'] (by decide)), List.forall_mem_nil _⟩

/-- Every delimiter of the built-in grammars is a known one. -/
theorem known_delimiter (id : DelimiterId) : (builtin.delimiter id).Known := by
  have hlist : ∀ d ∈ delimiterList, d.Known :=
    List.forall_mem_append.mpr ⟨List.forall_mem_append.mpr ⟨List.forall_mem_append.mpr
      ⟨List.forall_mem_append.mpr ⟨List.forall_mem_append.mpr ⟨known_bare, known_literals⟩,
        known_textBody _⟩, known_textBody _⟩, known_lineCommentBody _⟩, known_lineCommentBody _⟩
  rcases mem_delimiterList id with hmem | hdefault
  · exact hlist _ hmem
  · rw [hdefault]
    exact .bare rfl rfl (by decide)

end Rules

end Grammar
end ExprLang
