import ExprLang.Proofs.RuleSet.Fallbacks
import ExprLang.Proofs.RuleSet.Sorting
import Mathlib.Data.List.TakeWhile

/-!
# Searches within the table

A table keeps numbers: of delimiters in the lists of its rule sets, of slots in these lists, and
of fallbacks. The searches here make the same accesses as those for a delimiter, in the same order,
and come to nothing where a number is not in range. In a table that was declared this does not
happen, and they find the same.

Main definitions:
* `RuleSetTable.delimiter?`, `RuleSetTable.ruleSet?`: what stands under a number;
* `RuleSetTable.isWhitespace?`, `RuleSetTable.findIn?`: the test and the search of one step;
* `RuleSetTable.Indexed`: all numbers that are kept are in range.

Main results:
* `RuleSetTable.Declared.indexed`: a table that was declared keeps such numbers only;
* `RuleSetTable.Indexed.findIn?_eq`: a search within the table finds what the search finds;
* `RuleSetTable.Indexed.index_lt_of_findIn`: what is found is in the table.
-/

namespace ExprLang
namespace RuleSetTable

section Access

variable (table : RuleSetTable)

/-- The delimiter of this number, if there is one. -/
def delimiter? (id : DelimiterId) : Option Delimiter :=
  table.delimiters[id.index]?

/-- The rule set of this number, if there is one. -/
def ruleSet? (id : RuleSetId) : Option RuleSet :=
  table.ruleSets[id.index]?

/-- Is a character whitespace? Both rule sets are looked up. -/
def isWhitespace? (rules default : RuleSetId) (c : Char) : Option Bool := do
  let own ← table.ruleSet? rules
  let inherited ← table.ruleSet? default
  match own.whitespace <|> inherited.whitespace with
  | none => return false
  | some blanks => return blanks.contains c

/-- The rule set whose delimiters are searched. -/
def searched? (rules default : RuleSetId) : Option RuleSetId := do
  let own ← table.ruleSet? rules
  return if own.delimiters.isSome then rules else default

/-- The first delimiter of a run that passes a test. The run ends where the first character does. -/
def firstInRun? (test : DelimiterId → Option Bool) (c : Char) :
    List DelimiterId → Option (Option DelimiterId)
  | [] => some none
  | id :: ids => do
      let delimiter ← table.delimiter? id
      if delimiter.firstChar? == some c then
        if ← test id then return some id
        else firstInRun? test c ids
      else
        return none

/-- The first delimiter of a rule set that passes a test, from the slot of the character on. -/
def firstCandidate? (test : DelimiterId → Option Bool) (c : Char) (rules : RuleSet) :
    Option (Option DelimiterId) :=
  match rules.delimiters, rules.slots.lookup c with
  | some ids, some slot => do
      guard (slot ≤ ids.length)
      table.firstInRun? test c (ids.drop slot)
  | _, _ => some none

/-- The first result that there is for an element of a list. -/
def firstResult? {α β : Type} (find : α → Option (Option β)) : List α → Option (Option β)
  | [] => some none
  | a :: as => do
      match ← find a with
      | some b => return some b
      | none => firstResult? find as

/-- What is found in a rule set, or else in its fallbacks, `limit` links deep. -/
def searchWithin? (findOwn : RuleSet → Option (Option DelimiterId)) :
    (limit : Nat) → RuleSetId → Option (Option DelimiterId)
  | 0, _ => some none
  | limit + 1, rules => do
      let own ← table.ruleSet? rules
      match ← findOwn own with
      | some id => return some id
      | none => firstResult? (searchWithin? findOwn limit) own.fallbacks

/-- The first delimiter that stands at `index` and is accepted. -/
def search? (accepts : DelimiterId → Option Bool) (rules : RuleSetId)
    (source : Source) (index : Nat) (rest : List Char) : Option (Option DelimiterId) :=
  let standsAndAccepts (id : DelimiterId) : Option Bool := do
    let delimiter ← table.delimiter? id
    if delimiter.standsAt source index rest then accepts id else return false
  let findOwn (own : RuleSet) : Option (Option DelimiterId) :=
    match rest with
    | [] => some none
    | c :: _ => table.firstCandidate? standsAndAccepts c own
  table.searchWithin? findOwn table.length rules

/-- Does a breaking delimiter stand at `index`? -/
def breaksAt? (rules default : RuleSetId)
    (source : Source) (index : Nat) (rest : List Char) : Option Bool := do
  let searched ← table.searched? rules default
  let found ← table.search? (fun id => (table.delimiter? id).map Delimiter.isBreaking) searched
    source index rest
  return found.isSome

/-- May a word end in front of `index`? -/
def endsWord? (rules default : RuleSetId)
    (source : Source) (index : Nat) (rest : List Char) : Option Bool :=
  match rest with
  | [] => some true
  | c :: _ => do
      if ← table.isWhitespace? rules default c then return true
      else table.breaksAt? rules default source index rest

/-- Is a delimiter that stands at `index` one to stop at? -/
def accepts? (rules default : RuleSetId) (source : Source) (index : Nat) (rest : List Char)
    (started : Bool) (id : DelimiterId) : Option Bool := do
  let delimiter ← table.delimiter? id
  if delimiter.isBreaking then return true
  else if started then return false
  else
    match Text.dropHead? delimiter.text rest with
    | none => return false
    | some behind =>
        table.endsWord? rules default source (index + Text.byteSize delimiter.text) behind

/-- The delimiter at `index` under a rule set. -/
def findIn? (rules default : RuleSetId) (source : Source) (index : Nat) (rest : List Char)
    (started : Bool) : Option (Option DelimiterId) := do
  let searched ← table.searched? rules default
  table.search? (table.accepts? rules default source index rest started) searched source index rest

end Access

/-- All numbers that a table keeps are in range. -/
structure Indexed (table : RuleSetTable) : Prop where
  delimiter_lt : ∀ rules ids, (table.ruleSet rules).delimiters = some ids →
    ∀ id ∈ ids, id.index < table.delimiters.size
  slot_le : ∀ rules ids c slot, (table.ruleSet rules).delimiters = some ids →
    (table.ruleSet rules).slots.lookup c = some slot → slot ≤ ids.length
  fallback_lt : ∀ rules, ∀ fallback ∈ (table.ruleSet rules).fallbacks,
    fallback.index < table.length

variable {table : RuleSetTable} {definitions : List RuleSetDefinition}

/-- A table that was declared keeps numbers of what had been declared before. -/
theorem Declared.indexed (h : Declared table definitions) : table.Indexed := by
  have hlists := h.lists
  have hown : ∀ rules ids, (table.ruleSet rules).delimiters = some ids →
      (∀ id ∈ ids, id.index < table.delimiters.size) ∧
        (table.ruleSet rules).slots =
          firstSlots (fun id => (table.delimiter id).firstChar?) 0 ids := by
    intro rules ids hids
    cases hget : definitions[rules.index]? with
    | none =>
        have hlength : table.length ≤ rules.index :=
          hlists.length_eq ▸ List.getElem?_eq_none_iff.mp hget
        rw [ruleSet_of_length_le table hlength] at hids
        cases hids
    | some definition =>
        have heq := hlists.ruleSet_eq rules definition hget
        have hdelimiters : definition.delimiters.map table.sortDelimiters = some ids :=
          (congrArg (fun set : RuleSet => set.delimiters) heq).symm.trans hids
        refine ⟨fun id hid => ?_, ?_⟩
        · obtain ⟨given, hgiven, rfl⟩ := Option.map_eq_some_iff.mp hdelimiters
          refine hlists.known definition (List.mem_of_getElem? hget) id ?_
          rw [hgiven]
          exact (mem_sortDelimiters_iff table id given).mp hid
        · have hslots := congrArg RuleSet.slots heq
          rw [hslots]
          show firstSlots _ 0 ((definition.delimiters.map table.sortDelimiters).getD []) = _
          rw [hdelimiters, Option.getD_some]
  refine ⟨fun rules ids hids => (hown rules ids hids).1, fun rules ids c slot hids hslot => ?_,
    hlists.fallback_lt⟩
  rw [(hown rules ids hids).2, lookup_firstSlots] at hslot
  obtain ⟨i, hi, rfl⟩ := Option.map_eq_some_iff.mp hslot
  rw [Nat.zero_add]
  exact (List.findIdx?_eq_some_iff_findIdx_eq.mp hi).1.le

section InRange

theorem delimiter?_eq {id : DelimiterId} (hid : id.index < table.delimiters.size) :
    table.delimiter? id = some (table.delimiter id) := by
  unfold delimiter? delimiter
  rw [Array.getD_eq_getD_getElem?, Array.getElem?_eq_getElem hid, Option.getD_some]

theorem ruleSet?_eq {rules : RuleSetId} (hrules : rules.index < table.length) :
    table.ruleSet? rules = some (table.ruleSet rules) := by
  unfold ruleSet? ruleSet
  rw [Array.getD_eq_getD_getElem?, Array.getElem?_eq_getElem hrules, Option.getD_some]

/-- A name stands for a rule set of the table. -/
theorem index_lt_of_find? {name : String} {rules : RuleSetId} (h : table.find? name = some rules) :
    rules.index < table.length := by
  obtain ⟨i, hi, rfl⟩ := Option.map_eq_some_iff.mp h
  exact (Array.findIdx?_eq_some_iff_findIdx_eq.mp hi).1

variable {rules default : RuleSetId} (hrules : rules.index < table.length)
  (hdefault : default.index < table.length)

include hrules hdefault in
theorem isWhitespace?_eq (c : Char) :
    table.isWhitespace? rules default c = some (table.isWhitespace rules default c) := by
  unfold isWhitespace? isWhitespace
  rw [ruleSet?_eq hrules, ruleSet?_eq hdefault]
  simp only [Option.bind_eq_bind, Option.bind_some]
  cases (table.ruleSet rules).whitespace <|> (table.ruleSet default).whitespace with
  | none => rfl
  | some blanks => rfl

include hrules in
theorem searched?_eq : table.searched? rules default = some (table.searched rules default) := by
  unfold searched?
  rw [ruleSet?_eq hrules]
  rfl

include hrules hdefault in
theorem index_searched_lt : (table.searched rules default).index < table.length := by
  unfold searched
  split
  · exact hrules
  · exact hdefault

end InRange

section Searching

theorem firstResult?_eq {α β : Type} {find? : α → Option (Option β)} {find : α → Option β}
    {as : List α} (h : ∀ a ∈ as, find? a = some (find a)) :
    firstResult? find? as = some (as.findSome? find) := by
  induction as with
  | nil => rfl
  | cons a as ih =>
      obtain ⟨ha, has⟩ := List.forall_mem_cons.mp h
      rw [firstResult?, ha, List.findSome?_cons]
      simp only [Option.bind_eq_bind, Option.bind_some]
      cases find a with
      | none => exact ih has
      | some b => rfl

theorem firstInRun?_eq {test? : DelimiterId → Option Bool} {test : DelimiterId → Bool} (c : Char)
    {ids : List DelimiterId}
    (h : ∀ id ∈ ids, id.index < table.delimiters.size ∧ test? id = some (test id)) :
    table.firstInRun? test? c ids =
      some ((ids.takeWhile fun id => (table.delimiter id).firstChar? == some c).find? test) := by
  induction ids with
  | nil => rfl
  | cons id ids ih =>
      obtain ⟨⟨hid, htest⟩, hids⟩ := List.forall_mem_cons.mp h
      rw [firstInRun?, delimiter?_eq hid, List.takeWhile_cons]
      simp only [Option.bind_eq_bind, Option.bind_some]
      split
      · rw [htest, List.find?_cons]
        simp only [Option.bind_some]
        cases test id with
        | true => rfl
        | false => exact ih hids
      · rfl

namespace Indexed

variable (h : table.Indexed)

include h

theorem firstCandidate?_eq {test? : DelimiterId → Option Bool} {test : DelimiterId → Bool}
    (htest : ∀ id, id.index < table.delimiters.size → test? id = some (test id)) (c : Char)
    (rules : RuleSetId) :
    table.firstCandidate? test? c (table.ruleSet rules) =
      some ((table.candidates (table.ruleSet rules) c).find? test) := by
  unfold firstCandidate? candidates
  cases hids : (table.ruleSet rules).delimiters with
  | none => rfl
  | some ids =>
      cases hslot : (table.ruleSet rules).slots.lookup c with
      | none => rfl
      | some slot =>
          have hle := h.slot_le rules ids c slot hids hslot
          simp only [hle, guard, if_true, Option.pure_def, Option.bind_eq_bind, Option.bind_some]
          refine firstInRun?_eq c fun id hid => ?_
          have hlt := h.delimiter_lt rules ids hids id (List.mem_of_mem_drop hid)
          exact ⟨hlt, htest id hlt⟩

/-- The search goes through the rule sets in the order of the search. -/
theorem searchWithin?_eq {find? : RuleSet → Option (Option DelimiterId)}
    {find : RuleSetId → Option DelimiterId}
    (hfind : ∀ rules, find? (table.ruleSet rules) = some (find rules)) (limit : Nat)
    {rules : RuleSetId} (hrules : rules.index < table.length) :
    table.searchWithin? find? limit rules =
      some ((table.searchOrder limit rules).findSome? find) := by
  induction limit generalizing rules with
  | zero => rfl
  | succ limit ih =>
      rw [searchWithin?, ruleSet?_eq hrules, searchOrder, List.findSome?_cons, findSome?_flatMap]
      simp only [Option.bind_eq_bind, Option.bind_some, hfind]
      cases find rules with
      | some id => rfl
      | none => exact firstResult?_eq fun next hnext => ih (h.fallback_lt rules next hnext)

theorem search?_eq {accepts? : DelimiterId → Option Bool} {accepts : DelimiterId → Bool}
    (haccepts : ∀ id, id.index < table.delimiters.size → accepts? id = some (accepts id))
    {rules : RuleSetId} (hrules : rules.index < table.length) (source : Source) (index : Nat)
    (rest : List Char) :
    table.search? accepts? rules source index rest =
      some (table.search accepts rules source index rest) := by
  unfold search?
  cases rest with
  | nil =>
      have hnone : ∀ ids : List RuleSetId,
          ids.findSome? (fun _ => (none : Option DelimiterId)) = none :=
        fun ids => List.findSome?_eq_none_iff.mpr fun _ _ => rfl
      rw [h.searchWithin?_eq (fun _ => rfl) table.length hrules, hnone, search]
  | cons c cs =>
      refine h.searchWithin?_eq (fun rules => h.firstCandidate?_eq (fun id hid => ?_) c rules)
        table.length hrules
      rw [delimiter?_eq hid]
      simp only [Option.bind_eq_bind, Option.bind_some, haccepts id hid]
      cases (table.delimiter id).standsAt source index (c :: cs) with
      | true => rfl
      | false => rfl

variable {rules default : RuleSetId} (hrules : rules.index < table.length)
  (hdefault : default.index < table.length) (source : Source) (index : Nat) (rest : List Char)

include hrules hdefault

theorem breaksAt?_eq : table.breaksAt? rules default source index rest =
    some (table.breaksAt rules default source index rest) := by
  unfold breaksAt? breaksAt
  rw [searched?_eq hrules]
  simp only [Option.bind_eq_bind, Option.bind_some]
  rw [h.search?_eq (fun id hid => by rw [delimiter?_eq hid, Option.map_some])
    (index_searched_lt hrules hdefault)]
  rfl

theorem endsWord?_eq : table.endsWord? rules default source index rest =
    some (table.endsWord rules default source index rest) := by
  unfold endsWord? endsWord
  cases rest with
  | nil => rfl
  | cons c cs =>
      simp only [isWhitespace?_eq hrules hdefault, h.breaksAt?_eq hrules hdefault,
        Option.bind_eq_bind, Option.bind_some]
      cases table.isWhitespace rules default c with
      | true => rfl
      | false => rfl

theorem accepts?_eq (started : Bool) {id : DelimiterId} (hid : id.index < table.delimiters.size) :
    table.accepts? rules default source index rest started id =
      some (table.accepts rules default source index rest started id) := by
  unfold accepts? accepts
  rw [delimiter?_eq hid]
  simp only [Option.bind_eq_bind, Option.bind_some]
  cases (table.delimiter id).isBreaking with
  | true => rfl
  | false =>
      cases started with
      | true => rfl
      | false =>
          simp only [Bool.false_eq_true, if_false, Bool.not_false, Bool.true_and, Bool.false_or]
          cases Text.dropHead? (table.delimiter id).text rest with
          | none => rfl
          | some behind => exact h.endsWord?_eq hrules hdefault _ _ _

/-- A search within the table finds what the search finds. -/
theorem findIn?_eq (started : Bool) : table.findIn? rules default source index rest started =
    some (table.findIn rules default source index rest started) := by
  unfold findIn? findIn
  rw [searched?_eq hrules]
  simp only [Option.bind_eq_bind, Option.bind_some]
  exact h.search?_eq (fun id hid => h.accepts?_eq hrules hdefault source index rest started hid)
    (index_searched_lt hrules hdefault) source index rest

omit hrules hdefault in
/-- A delimiter that is found is in the table, and its text is not empty. -/
theorem index_lt_of_findIn {started : Bool} {id : DelimiterId}
    (hfind : table.findIn rules default source index rest started = some id) :
    id.index < table.delimiters.size ∧ (table.delimiter id).text ≠ [] := by
  cases rest with
  | nil => cases hfind
  | cons c cs =>
      obtain ⟨own, -, hown⟩ := List.exists_of_findSome?_eq_some hfind
      have hmem := List.mem_of_find?_eq_some hown
      unfold candidates at hmem
      split at hmem
      · rename_i ids slot hids hslot
        have hrun := (List.takeWhile_prefix _).subset hmem
        have hfirst := List.mem_takeWhile_imp hmem
        refine ⟨h.delimiter_lt own ids hids id (List.mem_of_mem_drop hrun), fun hnil => ?_⟩
        rw [Delimiter.firstChar?, hnil] at hfirst
        cases hfirst
      · exact (List.not_mem_nil hmem).elim

end Indexed

end Searching

end RuleSetTable
end ExprLang
