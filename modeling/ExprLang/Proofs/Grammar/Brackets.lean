import ExprLang.Proofs.Grammar.RuleSets
import ExprLang.Proofs.Lexing.Lookahead
import ExprLang.Proofs.Text.Brackets
import Mathlib.Data.List.TakeWhile

/-!
# The brackets of the built-in grammars

The two grammars that a text may start in have the three pairs of brackets in common. Where one of
these stands nothing else is found, and the contexts that they open have no delimiters and no
whitespace of their own. A delimiter that starts with a letter is a word, which neither opens nor
closes a context and is read without a fault.

Main definitions:
* `Grammar.IsTopLevel`: the rule sets that a text may start in;
* `Grammar.bracketPairs`: the three pairs of brackets.

Main results:
* `table_bracketPairs`: the entries of the table, which are evaluated at once;
* `findIn_bracket`: a bracket is found wherever it stands;
* `scanAt_word`: a word is read without a fault.
-/

namespace ExprLang
namespace Grammar

/-- One of the two grammars that a text may start in. -/
def IsTopLevel (rules : RuleSetId) : Prop :=
  builtin.find? defaultName = some rules ∨ builtin.find? commandLineName = some rules

theorem isTopLevel_startRules : IsTopLevel builtin.startRules :=
  Or.inl (by decide +kernel)

/-- A pair of brackets and the name of the context between them. -/
structure BracketPair where
  opener : Char
  closer : Char
  context : String
  deriving DecidableEq

/-- The three pairs of brackets. -/
def bracketPairs : List BracketPair :=
  [⟨'(', ')', parensName⟩, ⟨'[', ']', bracketsName⟩, ⟨'\x7b', '\x7d', bracesName⟩]

/-- The rule set between two brackets. -/
def BracketPair.rules (pair : BracketPair) : RuleSetId :=
  (builtin.find? pair.context).getD default

/-- The delimiter of a bracket. -/
def bracketId (c : Char) : DelimiterId :=
  ((builtin.candidates (builtin.ruleSet builtin.startRules) c).head?).getD default

/-- The entries of the table for the brackets, evaluated at once: their contexts, the delimiters
that open and close them, and that nothing else is found where one stands. -/
theorem table_bracketPairs :
    (∀ pair ∈ bracketPairs,
      (builtin.find? pair.context = some pair.rules ∧
        (builtin.ruleSet pair.rules).name = pair.context ∧
        (builtin.ruleSet pair.rules).delimiters.isSome = false ∧
        (builtin.ruleSet pair.rules).whitespace.isNone = true ∧
        (builtin.ruleSet pair.rules).contextClass.has .lineComment = false) ∧
      ((builtin.delimiter (bracketId pair.opener)).opens = true ∧
        (builtin.delimiter (bracketId pair.opener)).closes = false ∧
        (builtin.delimiter (bracketId pair.opener)).contextName? = some pair.context) ∧
      ((builtin.delimiter (bracketId pair.closer)).opens = false ∧
        (builtin.delimiter (bracketId pair.closer)).closes = true ∧
        (builtin.delimiter (bracketId pair.closer)).contextName? = some pair.context)) ∧
    (∀ name ∈ [defaultName, commandLineName],
      (∀ pair ∈ bracketPairs, ∀ c ∈ [pair.opener, pair.closer],
        builtin.candidates (builtin.ruleSet ((builtin.find? name).getD default)) c =
          [bracketId c]) ∧
      (builtin.ruleSet ((builtin.find? name).getD default)).whitespace = some whitespace) ∧
    ∀ pair ∈ bracketPairs, ∀ c ∈ [pair.opener, pair.closer],
      (builtin.delimiter (bracketId c)).text = [c] ∧
        (builtin.delimiter (bracketId c)).predicate.isNone = true ∧
        (builtin.delimiter (bracketId c)).scan.isNone = true ∧
        (builtin.delimiter (bracketId c)).isBreaking = true ∧ whitespace.contains c = false := by
  refine ⟨by decide +kernel, ?_, ?_⟩
  · simp only [List.forall_mem_cons, List.not_mem_nil, false_implies, implies_true, and_true]
    decide +kernel
  · simp only [List.forall_mem_cons, List.not_mem_nil, false_implies, implies_true, and_true]
    decide +kernel

section Pairs

variable {pair : BracketPair} (hpair : pair ∈ bracketPairs)

include hpair

/-- The context between two brackets inherits and is no line comment. -/
theorem BracketPair.context_rules :
    builtin.find? pair.context = some pair.rules ∧
      (builtin.ruleSet pair.rules).name = pair.context ∧ Inherits pair.rules ∧
        (builtin.ruleSet pair.rules).contextClass.has .lineComment = false := by
  obtain ⟨⟨hfind, hname, hdelimiters, hwhitespace, hclass⟩, -⟩ := table_bracketPairs.1 pair hpair
  exact ⟨hfind, hname, ⟨hdelimiters, hwhitespace⟩, hclass⟩

/-- The delimiter that opens the context between two brackets. -/
theorem BracketPair.delimiter_opener :
    (builtin.delimiter (bracketId pair.opener)).opens = true ∧
      (builtin.delimiter (bracketId pair.opener)).closes = false ∧
        (builtin.delimiter (bracketId pair.opener)).contextName? = some pair.context :=
  (table_bracketPairs.1 pair hpair).2.1

/-- The delimiter that closes the context between two brackets. -/
theorem BracketPair.delimiter_closer :
    (builtin.delimiter (bracketId pair.closer)).opens = false ∧
      (builtin.delimiter (bracketId pair.closer)).closes = true ∧
        (builtin.delimiter (bracketId pair.closer)).contextName? = some pair.context :=
  (table_bracketPairs.1 pair hpair).2.2

/-- A bracket is read as it is. -/
theorem delimiter_bracket {c : Char} (hc : c ∈ [pair.opener, pair.closer]) :
    (builtin.delimiter (bracketId c)).text = [c] ∧
      (builtin.delimiter (bracketId c)).predicate.isNone = true ∧
      (builtin.delimiter (bracketId c)).scan.isNone = true ∧
      (builtin.delimiter (bracketId c)).isBreaking = true ∧ whitespace.contains c = false :=
  table_bracketPairs.2.2 pair hpair c hc

/-- A bracket takes one byte. -/
theorem utf8Size_bracket {c : Char} (hc : c ∈ [pair.opener, pair.closer]) : c.utf8Size = 1 := by
  have hall : ∀ pair ∈ bracketPairs, pair.opener.utf8Size = 1 ∧ pair.closer.utf8Size = 1 := by
    decide
  obtain ⟨hopener, hcloser⟩ := hall pair hpair
  rcases List.mem_pair.mp hc with rfl | rfl
  · exact hopener
  · exact hcloser

end Pairs

/-- The context between two brackets, and each of the two, says which pair it is. -/
theorem BracketPair.eq_of_eq {pair other : BracketPair} (hpair : pair ∈ bracketPairs)
    (hother : other ∈ bracketPairs)
    (h : pair.context = other.context ∨ pair.opener = other.opener ∨
      pair.closer = other.closer) : pair = other := by
  have hall : ∀ a ∈ bracketPairs, ∀ b ∈ bracketPairs,
      a.context = b.context ∨ a.opener = b.opener ∨ a.closer = b.closer → a = b := by
    decide
  exact hall pair hpair other hother h

/-- The pairs of brackets are those that balanced texts are made of. -/
theorem closerOf?_eq_some_iff {c d : Char} :
    Text.closerOf? c = some d ↔ ∃ pair ∈ bracketPairs, pair.opener = c ∧ pair.closer = d := by
  constructor
  · intro h
    unfold Text.closerOf? at h
    split at h
    · cases h
      exact ⟨_, List.mem_cons_self, rfl, rfl⟩
    · cases h
      exact ⟨_, List.mem_cons_of_mem _ List.mem_cons_self, rfl, rfl⟩
    · cases h
      exact ⟨_, List.mem_cons_of_mem _ (List.mem_cons_of_mem _ List.mem_cons_self), rfl, rfl⟩
    · cases h
  · rintro ⟨pair, hpair, rfl, rfl⟩
    have hall : ∀ pair ∈ bracketPairs, Text.closerOf? pair.opener = some pair.closer := by decide
    exact hall pair hpair

theorem isCloser_iff {c : Char} :
    Text.isCloser c = true ↔ ∃ pair ∈ bracketPairs, pair.closer = c := by
  constructor
  · intro h
    rcases Bool.or_eq_true_iff.mp h with h | h
    · rcases Bool.or_eq_true_iff.mp h with h | h
      · exact ⟨_, List.mem_cons_self, (of_decide_eq_true h).symm⟩
      · exact ⟨_, List.mem_cons_of_mem _ List.mem_cons_self, (of_decide_eq_true h).symm⟩
    · exact ⟨_, List.mem_cons_of_mem _ (List.mem_cons_of_mem _ List.mem_cons_self),
        (of_decide_eq_true h).symm⟩
  · rintro ⟨pair, hpair, rfl⟩
    have hall : ∀ pair ∈ bracketPairs, Text.isCloser pair.closer = true := by decide
    exact hall pair hpair

section TopLevel

variable {start : RuleSetId} (hstart : IsTopLevel start)

include hstart

/-- Where a text starts the brackets are found, and there is whitespace. -/
theorem IsTopLevel.entries :
    (∀ pair ∈ bracketPairs, ∀ c ∈ [pair.opener, pair.closer],
      builtin.candidates (builtin.ruleSet start) c = [bracketId c]) ∧
      (builtin.ruleSet start).whitespace = some whitespace := by
  rcases hstart with hname | hname
  · have hentries := table_bracketPairs.2.1 defaultName (by simp)
    rwa [hname] at hentries
  · have hentries := table_bracketPairs.2.1 commandLineName (by simp)
    rwa [hname] at hentries

theorem IsTopLevel.isWhitespace_eq (c : Char) :
    builtin.isWhitespace start start c = whitespace.contains c := by
  unfold RuleSetTable.isWhitespace
  rw [hstart.entries.2]
  rfl

/-- A bracket is found wherever it stands. -/
theorem IsTopLevel.findIn_bracket {pair : BracketPair} (hpair : pair ∈ bracketPairs) {c : Char}
    (hc : c ∈ [pair.opener, pair.closer]) (source : Source) (index : Nat) (rest : List Char)
    (started : Bool) :
    builtin.findIn start start source index (c :: rest) started = some (bracketId c) := by
  have hsearched : builtin.searched start start = start := ite_self _
  obtain ⟨htext, hpredicate, -, hbreaks, -⟩ := delimiter_bracket hpair hc
  have hcandidates := hstart.entries.1 pair hpair c hc
  rw [← hsearched] at hcandidates
  exact findIn_of_candidates hcandidates htext hpredicate hbreaks source index rest started

end TopLevel

section Words

theorem not_isAlpha_of_isDigit {c : Char} (h : c.isDigit = true) : c.isAlpha = false := by
  have hhigh : c.toNat ≤ 57 :=
    UInt32.le_iff_toNat_le.mp (of_decide_eq_true (Bool.and_eq_true_iff.mp h).2)
  rw [Bool.eq_false_iff]
  intro halpha
  unfold Char.isAlpha Char.isUpper Char.isLower at halpha
  simp only [Bool.or_eq_true, Bool.and_eq_true, decide_eq_true_eq] at halpha
  rcases halpha with ⟨hlow, -⟩ | ⟨hlow, -⟩
  · have hlow : 65 ≤ c.toNat := UInt32.le_iff_toNat_le.mp hlow
    omega
  · have hlow : 97 ≤ c.toNat := UInt32.le_iff_toNat_le.mp hlow
    omega

/-- A letter takes one byte. -/
theorem utf8Size_of_isAlpha {c : Char} (h : c.isAlpha = true) : c.utf8Size = 1 := by
  have hle : c.val ≤ 122 := by
    unfold Char.isAlpha Char.isUpper Char.isLower at h
    simp only [Bool.or_eq_true, Bool.and_eq_true, decide_eq_true_eq] at h
    rcases h with ⟨-, hle⟩ | ⟨-, hle⟩
    · exact UInt32.le_trans hle (by decide)
    · exact hle
  exact Char.utf8Size_eq_one_iff.mpr (UInt32.le_trans hle (by decide))

/-- Letters are neither whitespace nor brackets. -/
theorem not_bracket_of_isAlpha {c : Char} (hc : c.isAlpha = true) :
    whitespace.contains c = false ∧ Text.closerOf? c = none ∧ Text.isCloser c = false := by
  have hne : ∀ other : Char, other.isAlpha = false → c ≠ other := fun other hother heq => by
    rw [heq, hother] at hc
    cases hc
  refine ⟨?_, ?_, ?_⟩
  · rw [Bool.eq_false_iff]
    intro hmem
    have hall : whitespace.all (fun b => !b.isAlpha) = true := by decide
    have hother := List.all_eq_true.mp hall c (List.contains_iff_mem.mp hmem)
    rw [hc] at hother
    cases hother
  · unfold Text.closerOf?
    split
    · exact absurd rfl (hne '(' (by decide))
    · exact absurd rfl (hne '[' (by decide))
    · exact absurd rfl (hne '\x7b' (by decide))
    · rfl
  · simp [Text.isCloser, hne ')' (by decide), hne ']' (by decide), hne '\x7d' (by decide)]

/-- What is found at a character starts with it and stands there. -/
theorem exists_text_of_findIn {rules default : RuleSetId} {source : Source} {index : Nat}
    {c : Char} {rest : List Char} {started : Bool} {id : DelimiterId}
    (h : builtin.findIn rules default source index (c :: rest) started = some id) :
    ∃ text behind, (builtin.delimiter id).text = c :: text ∧ rest = text ++ behind := by
  have hstands := (RuleSetTable.of_search_eq_some _ h).1
  obtain ⟨behind, hbehind⟩ := Text.startsWith_iff.mp (Bool.and_eq_true_iff.mp hstands).1
  have hfirst : (builtin.delimiter id).firstChar? = some c := by
    unfold RuleSetTable.findIn at h
    rw [search_cons] at h
    exact (mem_delimiters_of_mem_candidates (List.mem_of_find?_eq_some h)).2
  obtain ⟨text, htext⟩ := List.head?_eq_some_iff.mp hfirst
  rw [htext, List.cons_append] at hbehind
  exact ⟨text, behind, htext, (List.cons.inj hbehind).2⟩

/-- A delimiter that starts with a letter is a word, which neither opens nor closes a context. -/
theorem delimiter_word {id : DelimiterId} {c : Char} {text : List Char}
    (htext : (builtin.delimiter id).text = c :: text) (hc : c.isAlpha = true) :
    (builtin.delimiter id).opens = false ∧ (builtin.delimiter id).closes = false ∧
      ∀ a ∈ (builtin.delimiter id).text, a.isAlpha = true := by
  have hall : ∀ d ∈ delimiterList, (d.text.head?.any Char.isAlpha) = true →
      d.opens = false ∧ d.closes = false ∧ d.text.all Char.isAlpha = true := by
    decide
  rcases mem_delimiterList id with hmem | hdefault
  · obtain ⟨hopens, hcloses, hword⟩ := hall _ hmem (by rw [htext]; exact hc)
    exact ⟨hopens, hcloses, List.all_eq_true.mp hword⟩
  · rw [hdefault] at htext
    cases htext

/-- A word is read without a fault. -/
theorem scanAt_word {id : DelimiterId} {c : Char} {text behind : List Char} {source : Source}
    {index : Nat} (htext : (builtin.delimiter id).text = c :: text) (hc : c.isAlpha = true)
    (hat : source.IsAt index (c :: text ++ behind)) :
    ∃ value, (builtin.delimiter id).scanAt source index =
      ⟨Text.byteSize (c :: text), value, none⟩ := by
  have hother : ∀ {d : Char} {others : List Char}, (builtin.delimiter id).text = d :: others →
      d.isAlpha = true := fun h => by
    rw [htext] at h
    rwa [← (List.cons.inj h).1]
  unfold Delimiter.scanAt
  cases known_delimiter id with
  | bare _ hscan _ =>
      rw [hscan, htext]
      exact ⟨none, rfl⟩
  | @digit d hd hdigit _ _ =>
      have halpha := hother hd
      rw [not_isAlpha_of_isDigit hdigit] at halpha
      cases halpha
  | minus h _ _ => cases hother h
  | point h _ _ => cases hother h
  | hexadecimal h _ _ => cases hother h
  | boolean h _ hscan =>
      rw [htext] at h
      rw [hscan]
      unfold ScanRules.boolean
      simp only [hat.textFrom_eq]
      rcases h with h | h
      · rw [h]
        exact ⟨some (.bool true), rfl⟩
      · rw [h]
        exact ⟨some (.bool false), rfl⟩
  | escape h _ _ => cases hother h
  | lineBreak h _ _ =>
      rcases h with h | h
      · cases hother h
      · cases hother h
  | continuation h _ _ => cases hother h

end Words

end Grammar
end ExprLang
