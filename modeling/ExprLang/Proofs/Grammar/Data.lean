import ExprLang.Proofs.Grammar.RuleSets
import ExprLang.Proofs.Value.Display

/-!
# What data is read with

At every place of the text of a value that is data, the built-in grammars find the delimiter that
belongs there: a bracket, a comma, the start of a number, the word for a boolean, and none in the
word for null. Behind a value stands a comma, a closing bracket or nothing, so that longer
delimiters with the same beginning do not match and words end there.

Main definitions:
* `Grammar.bracketsRules`, `Grammar.listMarks`: lists, their brackets and the comma;
* `EndsValue`: what may follow a value;
* `Grammar.FindsLiteral`: a delimiter from which a literal is read.

Main results:
* `Grammar.findIn_listMark`: brackets and commas are found wherever they stand;
* `Grammar.findsLiteral_int`, `Grammar.findsLiteral_bool`: integers and booleans are found;
* `Grammar.findIn_null`: the word for null is plain text.
-/

namespace ExprLang

/-- What may follow a value: nothing, a comma, or a closing bracket. -/
def EndsValue (text : List Char) : Prop :=
  ∀ c ∈ text.head?, c = ',' ∨ c = ']'

theorem EndsValue.endsNumber {text : List Char} (h : EndsValue text) : EndsNumber text := by
  intro c hc
  rcases h c hc with rfl | rfl
  · exact ⟨by decide, by decide⟩
  · exact ⟨by decide, by decide⟩

theorem mem_digits_of_isDigit {c : Char} (h : c.isDigit = true) :
    c ∈ ['0', '1', '2', '3', '4', '5', '6', '7', '8', '9'] := by
  have hbounds := Bool.and_eq_true_iff.mp h
  have hlow : 48 ≤ c.toNat := UInt32.le_iff_toNat_le.mp (of_decide_eq_true hbounds.1)
  have hhigh : c.toNat ≤ 57 := UInt32.le_iff_toNat_le.mp (of_decide_eq_true hbounds.2)
  rw [← Char.ofNat_toNat c]
  generalize c.toNat = n at hlow hhigh
  interval_cases n
  all_goals decide

/-- Where a number starts: which scan rule reads it, and which predicate it has. -/
theorem Delimiter.Known.rules_of_number {d : Delimiter} (h : d.Known) {c : Char}
    (htext : d.text = [c]) (hscan : d.scan.isSome = true) (hc : c.isDigit = true ∨ c = '-') :
    d.scan = some ScanRules.number ∧
      (d.predicate = none ∨ c = '-' ∧ d.predicate = some ScanRules.minusStartsNumber) := by
  have hother : ∀ other : Char, d.text = [other] → (other.isDigit = false ∧ other ≠ '-') → False := by
    intro other heq hnot
    obtain rfl : c = other := List.singleton_injective (htext.symm.trans heq)
    rcases hc with hdigit | hminus
    · rw [hnot.1] at hdigit
      cases hdigit
    · exact hnot.2 hminus
  cases h with
  | bare _ hnone _ =>
      rw [hnone] at hscan
      cases hscan
  | digit _ _ hpredicate hscan => exact ⟨hscan, Or.inl hpredicate⟩
  | minus heq hpredicate hscan =>
      exact ⟨hscan, Or.inr ⟨List.singleton_injective (htext.symm.trans heq), hpredicate⟩⟩
  | point heq _ _ => exact (hother _ heq (by decide)).elim
  | hexadecimal heq _ _ =>
      rw [htext] at heq
      cases heq
  | boolean heq _ _ =>
      rw [htext] at heq
      rcases heq with heq | heq
      · cases heq
      · cases heq
  | escape heq _ _ => exact (hother _ heq (by decide)).elim
  | lineBreak heq _ _ =>
      rcases heq with heq | heq
      · exact (hother _ heq (by decide)).elim
      · exact (hother _ heq (by decide)).elim
  | continuation heq _ _ => exact (hother _ heq (by decide)).elim

/-- Only the words for the booleans are read from more than two characters. -/
theorem Delimiter.Known.scan_of_length {d : Delimiter} (h : d.Known) (hlength : 2 < d.text.length)
    (hscan : d.scan.isSome = true) : d.scan = some ScanRules.boolean := by
  have hshort : ∀ text : List Char, d.text = text → text.length ≤ 2 → False := by
    intro text htext hle
    rw [htext] at hlength
    omega
  cases h with
  | boolean _ _ hrule => exact hrule
  | bare _ hnone _ =>
      rw [hnone] at hscan
      cases hscan
  | digit htext _ _ _ => exact (hshort _ htext (by simp)).elim
  | minus htext _ _ => exact (hshort _ htext (by simp)).elim
  | point htext _ _ => exact (hshort _ htext (by simp)).elim
  | hexadecimal htext _ _ => exact (hshort _ htext (by simp)).elim
  | escape htext _ _ => exact (hshort _ htext (by simp)).elim
  | lineBreak htext _ _ =>
      rcases htext with htext | htext
      · exact (hshort _ htext (by simp)).elim
      · exact (hshort _ htext (by simp)).elim
  | continuation htext _ _ => exact (hshort _ htext (by simp)).elim

namespace Grammar

/-- The rule set of lists in brackets. -/
def bracketsRules : RuleSetId :=
  (builtin.find? bracketsName).getD default

/-- The delimiters of the language that start with a character. -/
def startingWith (c : Char) : List DelimiterId :=
  builtin.candidates (builtin.ruleSet builtin.startRules) c

/-- The delimiter that opens a list. -/
def openBracket : DelimiterId :=
  (startingWith '[').head?.getD default

/-- The delimiter that closes a list. -/
def closeBracket : DelimiterId :=
  (startingWith ']').head?.getD default

/-- The delimiter between the items of a list. -/
def comma : DelimiterId :=
  (startingWith ',').head?.getD default

/-- The delimiter at which a number starts with a character. -/
def numberStart (c : Char) : DelimiterId :=
  ((startingWith c).find? fun id =>
    (builtin.delimiter id).contextName? == some numberName).getD default

/-- The characters with which integers start. -/
def numberStarts : List Char :=
  ['-', '0', '1', '2', '3', '4', '5', '6', '7', '8', '9']

/-- The delimiter of the word for a boolean. -/
def boolWord (b : Bool) : DelimiterId :=
  (startingWith (if b then 'T' else 'F')).head?.getD default

theorem candidates_startingWith (c : Char) :
    builtin.candidates (builtin.ruleSet (builtin.searched builtin.startRules builtin.startRules)) c =
      startingWith c := by
  rw [searched_startRules, startingWith]

section Lists

/-- The delimiters of lists, by their characters. -/
def listMarks : List (Char × DelimiterId) :=
  [('[', openBracket), (']', closeBracket), (',', comma)]

/-- The entries of the table for lists, evaluated at once: their rule set, their brackets, the
comma, and that at the start of the language nothing else is found where one stands. -/
theorem table_lists :
    (builtin.find? bracketsName = some bracketsRules ∧
      (builtin.ruleSet bracketsRules).name = bracketsName ∧
      (builtin.ruleSet bracketsRules).simplify = none ∧
      (builtin.ruleSet bracketsRules).contextClass.flags = [.enclosure] ∧
      (builtin.ruleSet bracketsRules).delimiters.isSome = false ∧
      (builtin.ruleSet bracketsRules).whitespace.isNone = true) ∧
    ((builtin.delimiter openBracket).opens = true ∧
      (builtin.delimiter openBracket).closes = false ∧
      (builtin.delimiter openBracket).contextName? = some bracketsName) ∧
    ((builtin.delimiter closeBracket).closes = true ∧
      (builtin.delimiter closeBracket).contextName? = some bracketsName) ∧
    ((builtin.delimiter comma).opens = false ∧ (builtin.delimiter comma).closes = false ∧
      (builtin.delimiter comma).isSeparator = true ∧
      (builtin.delimiter comma).isOperator = false) ∧
    (∀ mark ∈ listMarks,
      startingWith mark.1 = [mark.2] ∧ (builtin.delimiter mark.2).text = [mark.1] ∧
        (builtin.delimiter mark.2).predicate.isNone = true ∧
        (builtin.delimiter mark.2).isBreaking = true ∧
        (builtin.delimiter mark.2).scan.isNone = true ∧ mark.1.utf8Size = 1) ∧
    (∀ mark ∈ listMarks,
      builtin.isWhitespace builtin.startRules builtin.startRules mark.1 = false) ∧
    builtin.isWhitespace builtin.startRules builtin.startRules ' ' = true := by
  decide +kernel

theorem find?_brackets : builtin.find? bracketsName = some bracketsRules :=
  table_lists.1.1

/-- The rule set of lists: its name, and how a list gets its value. -/
theorem ruleSet_brackets :
    (builtin.ruleSet bracketsRules).name = bracketsName ∧
      (builtin.ruleSet bracketsRules).simplify = none := by
  obtain ⟨⟨-, hname, hsimplify, -⟩, -⟩ := table_lists
  exact ⟨hname, hsimplify⟩

/-- The context of a list. -/
theorem contextClass_brackets :
    (builtin.ruleSet bracketsRules).contextClass = .ofFlags [.enclosure] := by
  obtain ⟨⟨-, -, -, hflags, -⟩, -⟩ := table_lists
  rw [← ContextClass.ofFlags_flags (builtin.ruleSet bracketsRules).contextClass, hflags]

theorem inherits_brackets : Inherits bracketsRules := by
  obtain ⟨⟨-, -, -, -, hinherits⟩, -⟩ := table_lists
  exact hinherits

/-- The delimiter that opens a list. -/
theorem delimiter_openBracket :
    (builtin.delimiter openBracket).opens = true ∧ (builtin.delimiter openBracket).closes = false ∧
      (builtin.delimiter openBracket).contextName? = some bracketsName :=
  table_lists.2.1

/-- The delimiter that closes a list. -/
theorem delimiter_closeBracket :
    (builtin.delimiter closeBracket).closes = true ∧
      (builtin.delimiter closeBracket).contextName? = some bracketsName :=
  table_lists.2.2.1

/-- The delimiter between the items of a list. -/
theorem delimiter_comma :
    (builtin.delimiter comma).opens = false ∧ (builtin.delimiter comma).closes = false ∧
      (builtin.delimiter comma).isSeparator = true ∧
        (builtin.delimiter comma).isOperator = false :=
  table_lists.2.2.2.1

/-- No other delimiter starts with a bracket or a comma, and each is read as it is. -/
theorem startingWith_listMark : ∀ mark ∈ listMarks,
    startingWith mark.1 = [mark.2] ∧ (builtin.delimiter mark.2).text = [mark.1] ∧
      (builtin.delimiter mark.2).predicate.isNone = true ∧
        (builtin.delimiter mark.2).isBreaking = true ∧
          (builtin.delimiter mark.2).scan.isNone = true ∧ mark.1.utf8Size = 1 :=
  table_lists.2.2.2.2.1

/-- Brackets and commas are no whitespace, and the blank behind a comma is. -/
theorem isWhitespace_listMark :
    (∀ mark ∈ listMarks, builtin.isWhitespace builtin.startRules builtin.startRules mark.1 = false) ∧
      builtin.isWhitespace builtin.startRules builtin.startRules ' ' = true :=
  table_lists.2.2.2.2.2

variable {c : Char} {id : DelimiterId} (hmark : (c, id) ∈ listMarks) (source : Source)
  (index : Nat) (rest : List Char)

include hmark

/-- Brackets and commas are found wherever they stand. -/
theorem findIn_listMark (started : Bool) :
    builtin.findIn builtin.startRules builtin.startRules source index (c :: rest) started =
      some id := by
  obtain ⟨hcandidates, htext, hpredicate, hbreaks, -⟩ := startingWith_listMark _ hmark
  rw [← candidates_startingWith] at hcandidates
  exact findIn_of_candidates hcandidates htext hpredicate hbreaks source index rest started

theorem endsWord_listMark :
    builtin.endsWord builtin.startRules builtin.startRules source index (c :: rest) = true := by
  obtain ⟨hcandidates, htext, hpredicate, hbreaks, -⟩ := startingWith_listMark _ hmark
  rw [← candidates_startingWith] at hcandidates
  exact endsWord_of_candidates hcandidates htext hpredicate hbreaks source index rest

end Lists

section Literals

variable {source : Source} {index : Nat} {behind : List Char}

/-- Words end behind a value. -/
theorem endsWord_of_endsValue (h : EndsValue behind) (source : Source) (index : Nat) :
    builtin.endsWord builtin.startRules builtin.startRules source index behind = true := by
  cases behind with
  | nil => rfl
  | cons c rest =>
      rcases h c rfl with rfl | rfl
      · have hmark : (',', comma) ∈ listMarks := by simp [listMarks]
        exact endsWord_listMark hmark source index rest
      · have hmark : (']', closeBracket) ∈ listMarks := by simp [listMarks]
        exact endsWord_listMark hmark source index rest

/-- From a delimiter that is found at a place a text is read as a literal. -/
structure FindsLiteral (source : Source) (index : Nat) (text behind : List Char)
    (literal : Literal) (id : DelimiterId) : Prop where
  ne_nil : text ≠ []
  visible : ∀ c ∈ text.head?, builtin.isWhitespace builtin.startRules builtin.startRules c = false
  found : builtin.findIn builtin.startRules builtin.startRules source index (text ++ behind) false =
    some id
  scanned : (builtin.delimiter id).scanAt source index = ⟨Text.byteSize text, some literal, none⟩
  opens : (builtin.delimiter id).opens = false
  closes : (builtin.delimiter id).closes = false

/-- The words for the booleans: no other delimiter starts with their first characters. -/
theorem startingWith_bool : ∀ b,
    startingWith (if b then 'T' else 'F') = [boolWord b] ∧
      (builtin.delimiter (boolWord b)).text = (Value.bool b).display.toList ∧
      (builtin.delimiter (boolWord b)).scan.isSome = true ∧
      (builtin.delimiter (boolWord b)).predicate.isNone = true ∧
      (builtin.delimiter (boolWord b)).opens = false ∧
      (builtin.delimiter (boolWord b)).closes = false ∧
      builtin.isWhitespace builtin.startRules builtin.startRules (if b then 'T' else 'F') =
        false := by
  decide +kernel

/-- The word for a boolean is found in front of what may follow a value. -/
theorem findsLiteral_bool (b : Bool) (hbehind : EndsValue behind)
    (hat : source.IsAt index ((Value.bool b).display.toList ++ behind)) :
    FindsLiteral source index (Value.bool b).display.toList behind (.bool b) (boolWord b) := by
  obtain ⟨hcandidates, htext, hscan, hpredicate, hopens, hcloses, hvisible⟩ := startingWith_bool b
  obtain ⟨rest, hrest⟩ : ∃ rest, (Value.bool b).display.toList = (if b then 'T' else 'F') :: rest := by
    cases b
    · exact ⟨_, rfl⟩
    · exact ⟨_, rfl⟩
  have hrule : (builtin.delimiter (boolWord b)).scan = some ScanRules.boolean := by
    refine (known_delimiter (boolWord b)).scan_of_length ?_ hscan
    rw [htext]
    cases b <;> decide
  refine ⟨by simp [hrest], ?_, ?_, ?_, hopens, hcloses⟩
  · intro c hc
    rw [hrest] at hc
    obtain rfl := Option.some.inj hc
    exact hvisible
  · rw [hrest, List.cons_append]
    rw [← candidates_startingWith] at hcandidates
    refine search_of_first hcandidates ?_ ?_
    · unfold Delimiter.standsAt
      rw [htext, hrest, ← List.cons_append, Text.startsWith_iff.mpr ⟨behind, rfl⟩,
        Option.isNone_iff_eq_none.mp hpredicate]
      rfl
    · have hdrop : Text.dropHead? (builtin.delimiter (boolWord b)).text
          ((if b then 'T' else 'F') :: (rest ++ behind)) = some behind := by
        rw [htext, hrest, ← List.cons_append]
        exact Text.dropHead?_eq_some_iff.mpr rfl
      unfold RuleSetTable.accepts
      simp only [hdrop, endsWord_of_endsValue hbehind, Bool.not_false, Bool.and_self, Bool.or_true]
  · unfold Delimiter.scanAt
    rw [hrule]
    unfold ScanRules.boolean
    simp only [hat.textFrom_eq]
    cases b
    · rfl
    · rfl

theorem isDigit_of_mem_numberStarts : ∀ c ∈ numberStarts, c.isDigit = true ∨ c = '-' := by
  -- as a conjunction, so that the characters of the list are looked at and not all there are
  refine List.forall_iff_forall_mem.mp ?_
  decide

/-- Every number starts at a delimiter; a longer one in front of it does not match there. -/
theorem startingWith_number : ∀ c ∈ numberStarts,
    startingWith c = (startingWith c).takeWhile (· ≠ numberStart c) ++
      numberStart c :: (startingWith c).drop
        (((startingWith c).takeWhile (· ≠ numberStart c)).length + 1) ∧
    (∀ id ∈ (startingWith c).takeWhile (· ≠ numberStart c),
      (builtin.delimiter id).text = [c, (builtin.delimiter id).text.getLastD c] ∧
        ((builtin.delimiter id).text.getLastD c).isDigit = false ∧
        (builtin.delimiter id).text.getLastD c ≠ ',' ∧
        (builtin.delimiter id).text.getLastD c ≠ ']') ∧
    (builtin.delimiter (numberStart c)).text = [c] ∧
    (builtin.delimiter (numberStart c)).scan.isSome = true ∧
    (builtin.delimiter (numberStart c)).isBreaking = true ∧
    (builtin.delimiter (numberStart c)).opens = false ∧
    (builtin.delimiter (numberStart c)).closes = false ∧
    builtin.isWhitespace builtin.startRules builtin.startRules c = false := by
  refine List.forall_iff_forall_mem.mp ?_
  decide +kernel

/-- A delimiter of two characters does not stand where another character follows the first one. -/
theorem standsAt_eq_false {d : Delimiter} {c second : Char} {rest : List Char}
    (htext : d.text = [c, second]) (hrest : second ∉ rest.head?) :
    d.standsAt source index (c :: rest) = false := by
  have hstarts : Text.startsWith d.text (c :: rest) = false := by
    rw [htext, Bool.eq_false_iff]
    intro hprefix
    obtain ⟨tail, htail⟩ := Text.startsWith_iff.mp hprefix
    refine hrest ?_
    rw [(List.cons.inj htail).2]
    rfl
  unfold Delimiter.standsAt
  rw [hstarts, Bool.false_and]

/-- A number starts where its first character stands, a minus in front of a digit. -/
theorem standsAt_numberStart {c : Char} {rest : List Char} (hc : c ∈ numberStarts)
    (hrest : c = '-' → ∃ d more, rest = d :: more ∧ d.isDigit = true)
    (hat : source.IsAt index (c :: rest)) :
    (builtin.delimiter (numberStart c)).standsAt source index (c :: rest) = true := by
  obtain ⟨-, -, htext, hscan, -⟩ := startingWith_number c hc
  obtain ⟨-, hnone | ⟨rfl, hminus⟩⟩ := (known_delimiter (numberStart c)).rules_of_number htext hscan
    (isDigit_of_mem_numberStarts c hc)
  · exact standsAt_of_text htext (Option.isNone_iff_eq_none.mpr hnone) source index rest
  · obtain ⟨d, more, rfl, hdigit⟩ := hrest rfl
    have hsplit : source.IsAt index (['-'] ++ d :: more) := hat
    have hplace : source.IsAt (index + 1) (d :: more) := hsplit.behind
    have hstarts : Text.startsWith ['-'] ('-' :: d :: more) = true :=
      Text.startsWith_iff.mpr ⟨d :: more, rfl⟩
    unfold Delimiter.standsAt
    rw [htext, hminus, hstarts, Bool.true_and]
    simp only [ScanRules.minusStartsNumber, ScanRules.charAt, hplace.drop?_eq]
    rw [hdigit, Bool.true_or]

/-- The text of an integer is found in front of what may follow a value. -/
theorem findsLiteral_int {text : List Char} (htext : Decimal.IsWritten text) {n : Int64}
    (hread : Decimal.readInt64? text = some n) (hbehind : EndsValue behind)
    (hat : source.IsAt index (text ++ behind)) :
    ∃ id, FindsLiteral source index text behind (.int n) id := by
  have hscanned := ScanRules.number_of_isWritten htext hread hbehind.endsNumber hat
  obtain ⟨c, rest, rfl, hdigits, hfirst⟩ := htext.exists_cons
  have hc : c ∈ numberStarts := by
    rcases hfirst with hdigit | ⟨rfl, -⟩
    · exact List.mem_cons_of_mem _ (mem_digits_of_isDigit hdigit)
    · exact List.mem_cons_self
  obtain ⟨hcandidates, hlonger, hstart, hscan, hbreaks, hopens, hcloses, hvisible⟩ :=
    startingWith_number c hc
  refine ⟨numberStart c, List.cons_ne_nil c rest, ?_, ?_, ?_, hopens, hcloses⟩
  · intro d hd
    obtain rfl := Option.some.inj hd
    exact hvisible
  · unfold RuleSetTable.findIn
    rw [searched_startRules]
    refine search_of_candidates hcandidates ?_ (standsAt_numberStart hc ?_ hat) ?_
    · intro other hother
      obtain ⟨htext, hdigit, hcomma, hbracket⟩ := hlonger other hother
      refine standsAt_eq_false htext fun hhead => ?_
      cases rest with
      | nil => exact (hbehind _ hhead).elim hcomma hbracket
      | cons a rest =>
          rw [← Option.some.inj hhead, hdigits a List.mem_cons_self] at hdigit
          cases hdigit
    · rintro rfl
      obtain ⟨d, more, rfl⟩ := List.exists_cons_of_ne_nil
        (hfirst.elim (fun hdigit => absurd hdigit (by decide)) And.right)
      exact ⟨d, more ++ behind, rfl, hdigits d List.mem_cons_self⟩
    · unfold RuleSetTable.accepts
      simp only [hbreaks, Bool.true_or]
  · obtain ⟨hrule, -⟩ := (known_delimiter (numberStart c)).rules_of_number hstart hscan
      (hfirst.imp_right And.left)
    unfold Delimiter.scanAt
    rw [hrule]
    exact hscanned

end Literals

section Words

/-- Only one other delimiter starts with a character of the word for null. -/
theorem startingWith_null : ∀ c ∈ ['n', 'u', 'l', 'l'],
    (∀ id ∈ startingWith c, c = 'n' ∧ (builtin.delimiter id).text = ['n', 'o', 't']) ∧
      builtin.isWhitespace builtin.startRules builtin.startRules c = false := by
  refine List.forall_iff_forall_mem.mp ?_
  decide +kernel

/-- No delimiter stands in the word for null. -/
theorem findIn_null {c : Char} {before rest : List Char}
    (hword : ['n', 'u', 'l', 'l'] = before ++ c :: rest) (source : Source) (index : Nat)
    (behind : List Char) (started : Bool) :
    builtin.findIn builtin.startRules builtin.startRules source index (c :: (rest ++ behind))
      started = none := by
  have hc : c ∈ ['n', 'u', 'l', 'l'] := by
    rw [hword]
    exact List.mem_append_right _ List.mem_cons_self
  unfold RuleSetTable.findIn
  rw [search_cons, candidates_startingWith, List.find?_eq_none]
  intro id hid
  obtain ⟨rfl, htext⟩ := (startingWith_null c hc).1 id hid
  have hrest : rest = ['u', 'l', 'l'] := by
    cases before with
    | nil => exact (List.cons.inj hword).2.symm
    | cons b before =>
        have hmem : 'n' ∈ ['u', 'l', 'l'] := by
          rw [(List.cons.inj hword).2]
          exact List.mem_append_right _ List.mem_cons_self
        exact absurd hmem (by decide)
  have hstarts : Text.startsWith ['n', 'o', 't'] ('n' :: (['u', 'l', 'l'] ++ behind)) = false := rfl
  unfold Delimiter.standsAt
  rw [htext, hrest, hstarts, Bool.false_and, Bool.false_and]
  exact Bool.false_ne_true

end Words
end Grammar
end ExprLang
