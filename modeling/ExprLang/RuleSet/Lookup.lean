import ExprLang.RuleSet.Table

/-!
# Finding a delimiter

Which delimiter of a rule set stands at a place of a text. The search goes
through the slots of the first character there, in table order, and then through
the fallbacks, depth first.

A delimiter that does not break words is found only where no plain text is being
read, and only in front of whitespace, of a breaking delimiter, or of the end of
the text.
-/

namespace ExprLang
namespace RuleSetTable

variable (table : RuleSetTable)

/-- Is a character whitespace in a rule set, or, if that has no set of its own, in the default? -/
def isWhitespace (rules default : RuleSetId) (c : Char) : Bool :=
  match (table.ruleSet rules).whitespace <|> (table.ruleSet default).whitespace with
  | none => false
  | some blanks => blanks.contains c

/-- The rule set whose delimiters are searched: the default if there is no own list. -/
def searched (rules default : RuleSetId) : RuleSetId :=
  if (table.ruleSet rules).delimiters.isSome then rules else default

/-- A rule set and all that it falls back on, in the order of the search, `limit` links deep. -/
def searchOrder : (limit : Nat) → RuleSetId → List RuleSetId
  | 0, _ => []
  | limit + 1, rules =>
      rules :: (table.ruleSet rules).fallbacks.flatMap (searchOrder limit)

/-- The delimiters of a rule set that start with a character: one run of its list. -/
def candidates (rules : RuleSet) (c : Char) : List DelimiterId :=
  match rules.delimiters, rules.slots.lookup c with
  | some ids, some slot =>
      (ids.drop slot).takeWhile fun id => (table.delimiter id).firstChar? == some c
  | _, _ => []

/--
The first delimiter that stands at `index` and is accepted, where `rest` is the
text from there on.
-/
def search (accepts : DelimiterId → Bool) (rules : RuleSetId)
    (source : Source) (index : Nat) (rest : List Char) : Option DelimiterId :=
  match rest with
  | [] => none
  | c :: _ =>
      (table.searchOrder table.length rules).findSome? fun id =>
        (table.candidates (table.ruleSet id) c).find? fun candidate =>
          (table.delimiter candidate).standsAt source index rest && accepts candidate

/-- Does a breaking delimiter stand at `index`? -/
def breaksAt (rules default : RuleSetId)
    (source : Source) (index : Nat) (rest : List Char) : Bool :=
  (table.search (fun id => (table.delimiter id).isBreaking)
    (table.searched rules default) source index rest).isSome

/-- May a word end in front of `index`? -/
def endsWord (rules default : RuleSetId)
    (source : Source) (index : Nat) (rest : List Char) : Bool :=
  match rest with
  | [] => true
  | c :: _ => table.isWhitespace rules default c || table.breaksAt rules default source index rest

/-- Is a delimiter that stands at `index` one to stop at, if plain text is `started` or not? -/
def accepts (rules default : RuleSetId) (source : Source) (index : Nat) (rest : List Char)
    (started : Bool) (id : DelimiterId) : Bool :=
  let delimiter := table.delimiter id
  delimiter.isBreaking ||
    (!started &&
      match Text.dropHead? delimiter.text rest with
      | none => false
      | some behind =>
          table.endsWord rules default source (index + Text.byteSize delimiter.text) behind)

/--
The delimiter at `index` under a rule set, where `rest` is the text from there on
and `started` says whether plain text is being read.
-/
def findIn (rules default : RuleSetId) (source : Source) (index : Nat) (rest : List Char)
    (started : Bool) : Option DelimiterId :=
  table.search (table.accepts rules default source index rest started)
    (table.searched rules default) source index rest

/-- The delimiter at an offset into a text; none off a character boundary. -/
def findDelimiter (rules default : RuleSetId) (source : Source) (index : Nat)
    (started : Bool) : Option DelimiterId :=
  match source.drop? index with
  | none => none
  | some rest => table.findIn rules default source index rest started

section Lemmas

/-- What is found stands there and is accepted. -/
theorem of_search_eq_some {accepts : DelimiterId → Bool} {rules : RuleSetId}
    {source : Source} {index : Nat} {rest : List Char} {id : DelimiterId}
    (h : table.search accepts rules source index rest = some id) :
    (table.delimiter id).standsAt source index rest = true ∧ accepts id = true := by
  cases rest with
  | nil => simp [search] at h
  | cons c cs =>
      obtain ⟨rs, -, found⟩ := List.exists_of_findSome?_eq_some h
      simpa using List.find?_some found

/-- Nothing is found at the end of the text. -/
theorem findIn_nil (rules default : RuleSetId) (source : Source) (index : Nat)
    (started : Bool) : table.findIn rules default source index [] started = none := rfl

end Lemmas

end RuleSetTable
end ExprLang
