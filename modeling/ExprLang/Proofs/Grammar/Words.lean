import ExprLang.Proofs.Grammar.Brackets
import ExprLang.Proofs.Grammar.Data

/-!
# The words of the built-in grammars

A few delimiters are words, such as the one of the conditional. These are the ones that do not
break words, and no other delimiter starts with a character that may stand in a word. So a word is
read up to its end, and it is a delimiter only if all of it is the text of one.

Main definitions:
* `Grammar.keywords`: the texts of the delimiters that are words;
* `Grammar.IsWordChar`: the characters of words, all letters among them.

Main results:
* `Grammar.isBreaking_eq_false_iff`: these are the delimiters that do not break words;
* `Grammar.text_of_findIn_word`: a delimiter that is found at a word is all of it;
* `RuleSetTable.findIn_isSome_of_breaksAt`: where words end at a delimiter one is found.
-/

namespace ExprLang

/-- More is found if more is accepted. -/
theorem RuleSetTable.search_isSome_mono {table : RuleSetTable}
    {accepts accepts' : DelimiterId → Bool} (h : ∀ id, accepts id = true → accepts' id = true)
    {rules : RuleSetId} {source : Source} {index : Nat} {rest : List Char}
    (hfound : (table.search accepts rules source index rest).isSome = true) :
    (table.search accepts' rules source index rest).isSome = true := by
  cases rest with
  | nil => exact hfound
  | cons c rest =>
      unfold search at hfound ⊢
      simp only [List.findSome?_isSome_iff, List.find?_isSome] at hfound ⊢
      obtain ⟨searched, hsearched, id, hid, hstands⟩ := hfound
      obtain ⟨hstands, haccepts⟩ := Bool.and_eq_true_iff.mp hstands
      refine ⟨searched, hsearched, id, hid, ?_⟩
      rw [hstands, h id haccepts, Bool.and_self]

/-- Where words end at a delimiter one is found, whether plain text is being read or not. -/
theorem RuleSetTable.findIn_isSome_of_breaksAt {table : RuleSetTable} {rules default : RuleSetId}
    {source : Source} {index : Nat} {rest : List Char}
    (h : table.breaksAt rules default source index rest = true) (started : Bool) :
    (table.findIn rules default source index rest started).isSome = true := by
  refine search_isSome_mono (fun id hbreaks => ?_) h
  unfold accepts
  simp only [hbreaks, Bool.true_or]

namespace Grammar

/-- The words that are delimiters. -/
def keywords : List (List Char) :=
  ["if", "maybe", "not", "True", "False"].map String.toList

/-- A character of a word: a letter, an underscore, or any character beyond the ASCII ones. -/
def IsWordChar (c : Char) : Prop :=
  c.isAlpha = true ∨ c = '_' ∨ 128 ≤ c.toNat

instance (c : Char) : Decidable (IsWordChar c) :=
  inferInstanceAs (Decidable (_ ∨ _))

/-- The delimiters that do not break words are words, and no other one starts as a word does. -/
theorem forall_words :
    (∀ d ∈ delimiterList, if d.isBreaking then d.text ∉ keywords ∧
      (d.text.head?.all fun c => !decide (IsWordChar c)) = true else d.text ∈ keywords) ∧
    (∀ word ∈ keywords, word ≠ [] ∧ ∀ c ∈ word, c.isAlpha = true) ∧
    ∀ c ∈ whitespace, ¬IsWordChar c := by
  have hletters : ∀ word ∈ keywords, word ≠ [] ∧ word.all Char.isAlpha = true := by decide
  -- as a conjunction, so that the characters of the list are looked at and not all there are
  refine ⟨by decide +kernel, fun word hword => ?_, List.forall_iff_forall_mem.mp (by decide)⟩
  exact ⟨(hletters word hword).1, List.all_eq_true.mp (hletters word hword).2⟩

section Delimiters

variable {id : DelimiterId} {c : Char} {text : List Char}

/-- A delimiter does not break words if and only if it is one of the words. -/
theorem isBreaking_eq_false_iff (hne : (builtin.delimiter id).text ≠ []) :
    (builtin.delimiter id).isBreaking = false ↔ (builtin.delimiter id).text ∈ keywords := by
  rcases mem_delimiterList id with hmem | hdefault
  · have hwords := forall_words.1 _ hmem
    cases hbreaks : (builtin.delimiter id).isBreaking with
    | true =>
        rw [hbreaks, if_pos rfl] at hwords
        exact iff_of_false (fun h => nomatch h) hwords.1
    | false =>
        rw [hbreaks, if_neg Bool.false_ne_true] at hwords
        exact iff_of_true rfl hwords
  · rw [hdefault] at hne
    exact absurd rfl hne

/-- A delimiter that starts with a character of a word is one of the words. -/
theorem isWordChar_iff (htext : (builtin.delimiter id).text = c :: text) :
    IsWordChar c ↔ (builtin.delimiter id).isBreaking = false := by
  have hne : (builtin.delimiter id).text ≠ [] := htext ▸ List.cons_ne_nil c text
  rcases mem_delimiterList id with hmem | hdefault
  · have hwords := forall_words.1 _ hmem
    constructor
    · intro hc
      rw [Bool.eq_false_iff]
      intro hbreaks
      rw [if_pos hbreaks, htext] at hwords
      have hnot := hwords.2
      rw [List.head?_cons, Option.all_some, decide_eq_true hc] at hnot
      cases hnot
    · intro hbreaks
      have hword := (isBreaking_eq_false_iff hne).mp hbreaks
      rw [htext] at hword
      exact Or.inl ((forall_words.2.1 _ hword).2 c List.mem_cons_self)
  · rw [hdefault] at hne
    exact absurd rfl hne

/-- A word neither opens nor closes a context. -/
theorem opens_closes_of_word (htext : (builtin.delimiter id).text = c :: text)
    (hbreaks : (builtin.delimiter id).isBreaking = false) :
    c.isAlpha = true ∧ (builtin.delimiter id).opens = false ∧
      (builtin.delimiter id).closes = false := by
  have hword := (isBreaking_eq_false_iff (htext ▸ List.cons_ne_nil c text)).mp hbreaks
  rw [htext] at hword
  have hc := (forall_words.2.1 _ hword).2 c List.mem_cons_self
  exact ⟨hc, (delimiter_word htext hc).1, (delimiter_word htext hc).2.1⟩

end Delimiters

section Lookups

variable {rules default : RuleSetId} {c : Char} (hc : IsWordChar c) (source : Source)
  (index : Nat) (rest : List Char)

include hc

/-- No delimiter breaks a word in front of one of its characters. -/
theorem breaksAt_wordChar : builtin.breaksAt rules default source index (c :: rest) = false := by
  unfold RuleSetTable.breaksAt
  rw [Option.isSome_eq_false_iff, Option.isNone_iff_eq_none, search_cons, List.find?_eq_none]
  intro id hid
  obtain ⟨text, htext⟩ := List.head?_eq_some_iff.mp (mem_delimiters_of_mem_candidates hid).2
  rw [(isWordChar_iff htext).mp hc, Bool.and_false]
  exact Bool.false_ne_true

/-- Within a word no delimiter is found. -/
theorem findIn_wordChar :
    builtin.findIn rules default source index (c :: rest) true = none := by
  cases hfind : builtin.findIn rules default source index (c :: rest) true with
  | none => rfl
  | some id =>
      obtain ⟨text, behind, htext, -⟩ := exists_text_of_findIn hfind
      have haccepts := (RuleSetTable.of_search_eq_some _ hfind).2
      unfold RuleSetTable.accepts at haccepts
      simp only [(isWordChar_iff htext).mp hc, Bool.not_true, Bool.false_and, Bool.or_false]
        at haccepts
      cases haccepts

/-- The characters of words are no blanks. -/
theorem isWhitespace_wordChar :
    builtin.isWhitespace builtin.startRules builtin.startRules c = false := by
  rw [isTopLevel_startRules.isWhitespace_eq, Bool.eq_false_iff]
  intro hmem
  exact forall_words.2.2 c (List.contains_iff_mem.mp hmem) hc

omit hc in
/-- A delimiter that is found at a word is all of the word. -/
theorem text_of_findIn_word {word behind : List Char} (hne : word ≠ [])
    (hword : ∀ c ∈ word, IsWordChar c) (hbehind : ∀ c ∈ behind.head?, ¬IsWordChar c)
    {started : Bool} {id : DelimiterId}
    (h : builtin.findIn builtin.startRules builtin.startRules source index (word ++ behind)
      started = some id) : (builtin.delimiter id).text = word := by
  obtain ⟨c, more, rfl⟩ := List.exists_cons_of_ne_nil hne
  rw [List.cons_append] at h
  obtain ⟨text, left, htext, hleft⟩ := exists_text_of_findIn h
  have hbreaks := (isWordChar_iff htext).mp (hword c List.mem_cons_self)
  have hletters : ∀ a ∈ c :: text, IsWordChar a := by
    intro a ha
    have hmem := (isBreaking_eq_false_iff (htext ▸ List.cons_ne_nil c text)).mp hbreaks
    rw [htext] at hmem
    exact Or.inl ((forall_words.2.1 _ hmem).2 a ha)
  have hdrop : Text.dropHead? (builtin.delimiter id).text (c :: (more ++ behind)) = some left := by
    rw [htext, hleft]
    exact Text.dropHead?_eq_some_iff.mpr rfl
  have haccepts := (RuleSetTable.of_search_eq_some _ h).2
  unfold RuleSetTable.accepts at haccepts
  simp only [hbreaks, hdrop, Bool.false_or, Bool.and_eq_true] at haccepts
  have hends := haccepts.2
  rcases List.append_eq_append_iff.mp hleft with ⟨longer, rfl, rfl⟩ | ⟨rest, rfl, rfl⟩
  · -- the delimiter does not reach behind the word, since its characters are those of words
    cases longer with
    | nil => rw [htext, List.append_nil]
    | cons a longer =>
        exact absurd (hletters a (by simp)) (hbehind a rfl)
  · -- the word does not reach behind the delimiter, since words end there
    cases rest with
    | nil => rw [htext, List.append_nil]
    | cons a rest =>
        have ha := hword a (by simp)
        rw [List.cons_append] at hends
        unfold RuleSetTable.endsWord at hends
        simp only [isWhitespace_wordChar ha, breaksAt_wordChar ha, Bool.or_self] at hends
        cases hends

omit hc in
/-- At a word that is no delimiter none is found. -/
theorem findIn_of_not_mem_keywords {word behind : List Char} (hne : word ≠ [])
    (hword : ∀ c ∈ word, IsWordChar c) (hbehind : ∀ c ∈ behind.head?, ¬IsWordChar c)
    (hkeyword : word ∉ keywords) (started : Bool) :
    builtin.findIn builtin.startRules builtin.startRules source index (word ++ behind) started =
      none := by
  cases hfind : builtin.findIn builtin.startRules builtin.startRules source index (word ++ behind)
      started with
  | none => rfl
  | some id =>
      have htext := text_of_findIn_word source index hne hword hbehind hfind
      obtain ⟨c, rest, rfl⟩ := List.exists_cons_of_ne_nil hne
      rw [← htext] at hne hkeyword
      exact absurd ((isBreaking_eq_false_iff hne).mp
        ((isWordChar_iff htext).mp (hword c List.mem_cons_self))) hkeyword

end Lookups

section Digits

variable {c : Char} (hc : c.isDigit = true)

include hc

/-- Digits are no characters of words. -/
theorem not_isWordChar_of_isDigit : ¬IsWordChar c := by
  have hall : ∀ d ∈ ['0', '1', '2', '3', '4', '5', '6', '7', '8', '9'], ¬IsWordChar d :=
    List.forall_iff_forall_mem.mp (by decide)
  exact hall c (mem_digits_of_isDigit hc)

theorem isWhitespace_digit :
    builtin.isWhitespace builtin.startRules builtin.startRules c = false := by
  obtain ⟨-, -, -, -, -, -, -, hvisible⟩ :=
    startingWith_number c (List.mem_cons_of_mem _ (mem_digits_of_isDigit hc))
  exact hvisible

/-- In front of a digit words end, for a number starts there. -/
theorem breaksAt_digit (source : Source) (index : Nat) (rest : List Char) :
    builtin.breaksAt builtin.startRules builtin.startRules source index (c :: rest) = true := by
  obtain ⟨hcandidates, -, htext, hscan, hbreaks, -⟩ :=
    startingWith_number c (List.mem_cons_of_mem _ (mem_digits_of_isDigit hc))
  have hpredicate : (builtin.delimiter (numberStart c)).predicate = none := by
    obtain ⟨-, hnone | ⟨rfl, -⟩⟩ :=
      (known_delimiter (numberStart c)).rules_of_number htext hscan (Or.inl hc)
    · exact hnone
    · cases hc
  unfold RuleSetTable.breaksAt
  rw [search_cons, candidates_startingWith, List.find?_isSome]
  refine ⟨numberStart c, ?_, ?_⟩
  · rw [hcandidates]
    exact List.mem_append_right _ List.mem_cons_self
  · rw [standsAt_of_text htext (Option.isNone_iff_eq_none.mpr hpredicate), hbreaks, Bool.and_self]

end Digits

section Conditionals

/-- The word that starts a conditional. -/
def ifWord : DelimiterId :=
  (startingWith 'i').head?.getD default

/-- No other delimiter starts with the first character of the word that starts a conditional, which
is an operator and read as it is. A blank is whitespace. -/
theorem table_conditional :
    startingWith 'i' = [ifWord] ∧ (builtin.delimiter ifWord).text = "if".toList ∧
      (builtin.delimiter ifWord).predicate.isNone = true ∧
      (builtin.delimiter ifWord).scan.isNone = true ∧
      (builtin.delimiter ifWord).opens = false ∧ (builtin.delimiter ifWord).closes = false ∧
      (builtin.delimiter ifWord).operator? =
        some (.conditional, Operator.conditional.precedence) ∧
      builtin.isWhitespace builtin.startRules builtin.startRules ' ' = true := by
  decide +kernel

/-- In front of a blank or the end of the text the word that starts a conditional is found. -/
theorem findIn_if (source : Source) (index : Nat) {behind : List Char}
    (hbehind : ∀ c ∈ behind.head?, c = ' ') :
    builtin.findIn builtin.startRules builtin.startRules source index ("if".toList ++ behind)
      false = some ifWord := by
  obtain ⟨hcandidates, htext, hpredicate, -, -, -, -, hblank⟩ := table_conditional
  rw [← candidates_startingWith] at hcandidates
  refine search_of_first hcandidates ?_ ?_
  · unfold Delimiter.standsAt
    rw [htext, Option.isNone_iff_eq_none.mp hpredicate]
    rfl
  · have hends : ∀ index, builtin.endsWord builtin.startRules builtin.startRules source index
        behind = true := by
      intro index
      cases behind with
      | nil => rfl
      | cons c rest =>
          obtain rfl := hbehind c rfl
          unfold RuleSetTable.endsWord
          simp only [hblank, Bool.true_or]
    have hdrop : Text.dropHead? (builtin.delimiter ifWord).text ("if".toList ++ behind) =
        some behind := by
      rw [htext]
      rfl
    unfold RuleSetTable.accepts
    simp only [hdrop, hends, Bool.not_false, Bool.and_self, Bool.or_true]

end Conditionals

end Grammar
end ExprLang
