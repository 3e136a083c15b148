import ExprLang.ContextClass
import ExprLang.Delimiter

/-!
# Rule sets and their table

A rule set is a named grammar: an ordered list of delimiters with an index by
first character, a set of whitespace characters, and rule sets to fall back on.
A rule set without a delimiter list or a whitespace set inherits that of the
rule set in which a run starts; an empty one of its own inherits nothing.

The table owns all delimiters and rule sets. Names are unique in it, and a
fallback link that would close a cycle is refused.

Main functions:
* `addDelimiter`, `define`, `addFallback`: the three ways in which a table grows;
* `sortDelimiters`: the order of a delimiter list, stable and without repeated
  neighbours;
* `searchPath`, `fallbackPath?`: a chain of fallback links between two rule sets.
-/

namespace ExprLang

/-- A delimiter of a table, by its number. -/
structure DelimiterId where
  index : Nat
  deriving DecidableEq, Inhabited

/-- A rule set of a table, by its number. -/
structure RuleSetId where
  index : Nat
  deriving DecidableEq, Inhabited

/-- How the values of the terms in a context become one value. -/
inductive Simplify where
  /-- No term is null, one term is itself, more of them are a list. -/
  | singleTerm
  /-- The texts of the values, joined. -/
  | concatenate
  /-- Null, whatever the terms are. -/
  | discard
  deriving DecidableEq, Inhabited

/-- A rule set as it is declared. -/
structure RuleSetDefinition where
  name : String
  delimiters : Option (List DelimiterId) := none
  whitespace : Option (List Char) := none
  contextClass : ContextClass := .empty
  simplify : Option Simplify := none
  deriving Inhabited

/-- A rule set in a table. -/
structure RuleSet extends RuleSetDefinition where
  /-- For every first character, the first slot of a delimiter that starts with it. -/
  slots : List (Char × Nat) := []
  /-- The rule sets to search when this one has no match, in order. -/
  fallbacks : List RuleSetId := []
  deriving Inhabited

/-- Why a declaration is refused. -/
inductive TableError where
  /-- The link would close this cycle of rule sets. -/
  | fallbackCycle (path : List String)
  | duplicate (name : String)
  | unknown (name : String)
  deriving DecidableEq, Inhabited

/-- The wording of a refusal. -/
def TableError.message : TableError → String
  | fallbackCycle path => "fallback recursion: " ++ " -> ".intercalate path
  | duplicate name => "rule set '" ++ name ++ "' is already defined"
  | unknown name => "no rule set named '" ++ name ++ "'"

/-- All delimiters and rule sets of a family of grammars. -/
structure RuleSetTable where
  delimiters : Array Delimiter := #[]
  ruleSets : Array RuleSet := #[]
  deriving Inhabited

namespace RuleSetTable

/-- The table with nothing in it. -/
def empty : RuleSetTable := {}

section Access

variable (table : RuleSetTable)

/-- The delimiter of this number. -/
def delimiter (id : DelimiterId) : Delimiter :=
  table.delimiters.getD id.index default

/-- The rule set of this number. -/
def ruleSet (id : RuleSetId) : RuleSet :=
  table.ruleSets.getD id.index default

/-- The rule set of this name. -/
def find? (name : String) : Option RuleSetId :=
  (table.ruleSets.findIdx? fun rules => rules.name == name).map RuleSetId.mk

/-- The rule set of this name, or the error that there is none. -/
def require (name : String) : Except TableError RuleSetId :=
  match table.find? name with
  | some id => .ok id
  | none => .error (.unknown name)

/-- Number of rule sets. -/
def length : Nat :=
  table.ruleSets.size

/-- Has the table no rule set? -/
def isEmpty : Bool :=
  table.ruleSets.isEmpty

end Access

section Sorting

variable {α : Type}

/-- Inserts an element in front of the first one that is not less than it. -/
def insertOrdered (order : α → α → Ordering) (a : α) : List α → List α
  | [] => [a]
  | b :: bs =>
      if order a b = .gt then b :: insertOrdered order a bs else a :: b :: bs

/-- Sorts a list; elements that rank equal keep their order. -/
def sortStable (order : α → α → Ordering) : List α → List α
  | [] => []
  | a :: as => insertOrdered order a (sortStable order as)

/-- Leaves out every element that equals the one before it. -/
def dropRepeats [DecidableEq α] : List α → List α
  | a :: b :: rest =>
      if a = b then dropRepeats (b :: rest) else a :: dropRepeats (b :: rest)
  | short => short

/-- The first slot of every first character in a list of delimiters. -/
def firstSlots (firstChar? : α → Option Char) : (slot : Nat) → List α → List (Char × Nat)
  | _, [] => []
  | slot, a :: rest =>
      let later := firstSlots firstChar? (slot + 1) rest
      match firstChar? a with
      | none => later
      | some c => (c, slot) :: later.filter fun entry => entry.1 != c

end Sorting

section Declaration

variable (table : RuleSetTable)

/-- Adds a delimiter and gives its number. -/
def addDelimiter (delimiter : Delimiter) : DelimiterId × RuleSetTable :=
  (⟨table.delimiters.size⟩, { table with delimiters := table.delimiters.push delimiter })

/-- Adds delimiters in order and gives their numbers. -/
def addDelimiters (delimiters : List Delimiter) : List DelimiterId × RuleSetTable :=
  ((List.range delimiters.length).map fun i => ⟨table.delimiters.size + i⟩,
    { table with delimiters := table.delimiters ++ delimiters.toArray })

/-- A list of delimiters in table order, without repeated neighbours. -/
def sortDelimiters (ids : List DelimiterId) : List DelimiterId :=
  dropRepeats <|
    sortStable (fun a b => (table.delimiter a).tableOrder (table.delimiter b)) ids

/-- Adds a rule set under a new name: its delimiters are sorted and indexed. -/
def define (definition : RuleSetDefinition) : Except TableError (RuleSetId × RuleSetTable) :=
  match table.find? definition.name with
  | some _ => .error (.duplicate definition.name)
  | none =>
      let delimiters := definition.delimiters.map table.sortDelimiters
      let rules : RuleSet :=
        { definition with
          delimiters := delimiters
          slots := firstSlots (fun id => (table.delimiter id).firstChar?) 0 (delimiters.getD []) }
      .ok (⟨table.ruleSets.size⟩, { table with ruleSets := table.ruleSets.push rules })

/-- All rule sets. -/
def ids : List RuleSetId :=
  (List.range table.length).map RuleSetId.mk

/--
Searches for `target` along fallback links, depth first. `paths` are the chains to be followed,
each as its end and what comes before it, the end first; `unseen` are the rule sets from which no
link has been followed. The chain that is found has both of its ends on it.
-/
def searchPath (target : RuleSetId) (unseen : List RuleSetId) :
    (paths : List (RuleSetId × List RuleSetId)) → Option (List RuleSetId)
  | [] => none
  | (last, before) :: paths =>
      if last = target then
        some (last :: before).reverse
      else if last ∈ unseen then
        searchPath target (unseen.erase last) <|
          ((table.ruleSet last).fallbacks.map fun next => (next, last :: before)) ++ paths
      else
        searchPath target unseen paths
termination_by paths => (unseen.length, paths.length)
decreasing_by
  · rename_i hmem
    have hpos := List.length_pos_of_mem hmem
    exact Prod.Lex.left _ _ (by rw [List.length_erase_of_mem hmem]; omega)
  · exact Prod.Lex.right _ (Nat.lt_succ_self _)

/-- A chain of fallback links from one rule set to another, with both of them on it. -/
def fallbackPath? (source target : RuleSetId) : Option (List RuleSetId) :=
  table.searchPath target table.ids [(source, [])]

/--
Adds a fallback at the end of the list of a rule set. It is refused if the rule
set can be reached from it, for then a search would never end.
-/
def addFallback (target fallback : RuleSetId) : Except TableError RuleSetTable :=
  match table.fallbackPath? fallback target with
  | some path =>
      .error (.fallbackCycle ((target :: path).map fun id => (table.ruleSet id).name))
  | none =>
      .ok { table with
            ruleSets := table.ruleSets.modify target.index fun rules =>
              { rules with fallbacks := rules.fallbacks ++ [fallback] } }

end Declaration

section Lemmas

variable {α : Type} (order : α → α → Ordering)

theorem perm_insertOrdered (a : α) (as : List α) :
    (insertOrdered order a as).Perm (a :: as) := by
  induction as with
  | nil => exact .refl _
  | cons b bs ih =>
      rw [insertOrdered]
      split
      · exact (ih.cons b).trans (.swap a b bs)
      · exact .refl _

/-- Sorting keeps every element as often as it stands in the list. -/
theorem perm_sortStable (as : List α) : (sortStable order as).Perm as := by
  induction as with
  | nil => exact .refl _
  | cons a as ih => exact (perm_insertOrdered order a _).trans (ih.cons a)

/-- Dropping repeats loses no element. -/
theorem mem_dropRepeats_iff [DecidableEq α] (a : α) (as : List α) :
    a ∈ dropRepeats as ↔ a ∈ as := by
  fun_induction dropRepeats as with
  | case1 b rest ih => simp_all
  | case2 b c rest h ih => simp_all
  | case3 => rfl

theorem mem_sortDelimiters_iff (table : RuleSetTable) (id : DelimiterId)
    (ids : List DelimiterId) : id ∈ table.sortDelimiters ids ↔ id ∈ ids := by
  simp [sortDelimiters, mem_dropRepeats_iff, (perm_sortStable _ ids).mem_iff]

end Lemmas

end RuleSetTable
end ExprLang
