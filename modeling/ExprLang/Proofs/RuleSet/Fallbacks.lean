import ExprLang.Proofs.RuleSet.Declarations
import ExprLang.RuleSet.Lookup
import Mathlib.Data.List.Chain

/-!
# Fallbacks

The links from rule sets to their fallbacks never form a cycle. A link is refused if and only if
it would close one: the search for a chain of links follows every rule set once, and what it has
followed without a result is closed under links. In a table without cycles a chain passes through
no rule set twice, so that no chain is longer than there are rule sets, and a search through the
fallbacks of a rule set, the fallbacks of these and so on ends by itself.

Main definitions:
* `RuleSetTable.FallsBackOn`, `RuleSetTable.Reaches`: a link, and a chain of links;
* `RuleSetTable.Acyclic`: no rule set is reached from itself.

Main results:
* `RuleSetTable.fallbackPath?_eq_none_iff`, `RuleSetTable.of_fallbackPath?`: what the search for a
  chain finds;
* `RuleSetTable.Declared.acyclic`: declared tables have no cycles;
* `RuleSetTable.Declared.search_eq`: a search asks a rule set first, and then its fallbacks in order;
* `RuleSetTable.fallbacks_after`: all of it for the tables that declarations lead to.
-/

namespace ExprLang
namespace RuleSetTable

open Relation (ReflTransGen TransGen)

variable {table table' : RuleSetTable}

section Links

variable (table)

/-- The second rule set is a fallback of the first one. -/
def FallsBackOn (rules fallback : RuleSetId) : Prop :=
  fallback ∈ (table.ruleSet rules).fallbacks

/-- Links lead from the first rule set to the second one, which may be the same. -/
def Reaches : RuleSetId → RuleSetId → Prop :=
  ReflTransGen table.FallsBackOn

/-- No links lead from a rule set to itself. -/
def Acyclic : Prop :=
  ∀ rules, ¬TransGen table.FallsBackOn rules rules

end Links

section Paths

variable {target start : RuleSetId}

/-- What is found is a chain of links, if the chains to be followed are such. -/
theorem of_searchPath {unseen : List RuleSetId} {paths : List (RuleSetId × List RuleSetId)}
    {found : List RuleSetId} (h : table.searchPath target unseen paths = some found)
    (hpaths : ∀ path ∈ paths,
      (path.1 :: path.2).IsChain (fun next rules => table.FallsBackOn rules next) ∧
        (path.1 :: path.2).getLast? = some start) :
    found.IsChain table.FallsBackOn ∧ found.head? = some start ∧ found.getLast? = some target := by
  fun_induction searchPath table target unseen paths with
  | case1 unseen => cases h
  | case2 unseen before paths =>
      obtain ⟨hchain, hstart⟩ := hpaths _ List.mem_cons_self
      obtain rfl := Option.some.inj h
      refine ⟨List.isChain_reverse.mpr hchain, ?_, ?_⟩
      · rw [List.head?_reverse]
        exact hstart
      · rw [List.getLast?_reverse]
        rfl
  | case3 unseen last before paths hne hunseen ih =>
      refine ih h fun path hpath => ?_
      rcases List.mem_append.mp hpath with hpath | hpath
      · obtain ⟨next, hnext, rfl⟩ := List.mem_map.mp hpath
        obtain ⟨hchain, hstart⟩ := hpaths _ List.mem_cons_self
        exact ⟨List.isChain_cons_cons.mpr ⟨hnext, hchain⟩, hstart⟩
      · exact hpaths path (List.mem_cons_of_mem _ hpath)
  | case4 unseen last before paths hne hseen ih =>
      exact ih h fun path hpath => hpaths path (List.mem_cons_of_mem _ hpath)

/--
If nothing is found, the rule sets that are `left` in the end are none of those in which a chain
ended, and the links of all that were followed lead to none of them.
-/
theorem exists_left_of_searchPath {unseen : List RuleSetId}
    {paths : List (RuleSetId × List RuleSetId)} (hnodup : unseen.Nodup)
    (h : table.searchPath target unseen paths = none) :
    ∃ left, left ⊆ unseen ∧ (∀ path ∈ paths, path.1 ∉ left ∧ path.1 ≠ target) ∧
      ∀ rules ∈ unseen, rules ∉ left →
        rules ≠ target ∧ ∀ next, table.FallsBackOn rules next → next ∉ left := by
  fun_induction searchPath table target unseen paths with
  | case1 unseen =>
      exact ⟨unseen, List.Subset.refl _, List.forall_mem_nil _, fun _ hmem hnot => absurd hmem hnot⟩
  | case2 unseen before paths => cases h
  | case3 unseen last before paths hne hunseen ih =>
      obtain ⟨left, hsubset, hpaths, hclosed⟩ := ih (hnodup.erase last) h
      have hlast : last ∉ left := fun hmem => hnodup.not_mem_erase (hsubset hmem)
      refine ⟨left, fun rules hrules => List.mem_of_mem_erase (hsubset hrules), ?_, ?_⟩
      · exact List.forall_mem_cons.mpr ⟨⟨hlast, hne⟩, fun path hpath =>
          hpaths path (List.mem_append_right _ hpath)⟩
      · intro rules hmem hnot
        by_cases hsame : rules = last
        · subst hsame
          refine ⟨hne, fun next hnext => ?_⟩
          exact (hpaths (next, rules :: before)
            (List.mem_append_left _ (List.mem_map.mpr ⟨next, hnext, rfl⟩))).1
        · exact hclosed rules ((List.mem_erase_of_ne hsame).mpr hmem) hnot
  | case4 unseen last before paths hne hseen ih =>
      obtain ⟨left, hsubset, hpaths, hclosed⟩ := ih hnodup h
      exact ⟨left, hsubset, List.forall_mem_cons.mpr ⟨⟨fun hmem => hseen (hsubset hmem), hne⟩, hpaths⟩,
        hclosed⟩

/-- A path that is found is a chain of links from its first rule set to its last one. -/
theorem of_fallbackPath? {found : List RuleSetId} (h : table.fallbackPath? start target = some found) :
    found.IsChain table.FallsBackOn ∧ found.head? = some start ∧ found.getLast? = some target :=
  of_searchPath h (List.forall_mem_singleton.mpr ⟨List.isChain_singleton _, rfl⟩)

/-- Where a path is found there is a chain of links. -/
theorem reaches_of_fallbackPath? {found : List RuleSetId}
    (h : table.fallbackPath? start target = some found) : table.Reaches start target := by
  obtain ⟨hchain, hhead, hlast⟩ := of_fallbackPath? h
  cases found with
  | nil => cases hhead
  | cons first rest =>
      obtain rfl := Option.some.inj hhead
      refine List.relationReflTransGen_of_exists_isChain_cons rest hchain ?_
      exact Option.some.inj ((List.getLast?_eq_some_getLast (List.cons_ne_nil _ _)).symm.trans hlast)

theorem mem_ids_iff {rules : RuleSetId} : rules ∈ table.ids ↔ rules.index < table.length := by
  unfold ids
  rw [List.mem_map]
  constructor
  · rintro ⟨i, hi, rfl⟩
    exact List.mem_range.mp hi
  · intro h
    exact ⟨rules.index, List.mem_range.mpr h, rfl⟩

theorem nodup_ids : table.ids.Nodup :=
  List.nodup_range.map fun _ _ h => RuleSetId.mk.inj h

/-- A rule set with a fallback is in the table. -/
theorem FallsBackOn.index_lt {rules fallback : RuleSetId} (h : table.FallsBackOn rules fallback) :
    rules.index < table.length := by
  by_contra hle
  unfold FallsBackOn at h
  rw [ruleSet_of_length_le table (Nat.le_of_not_lt hle)] at h
  exact List.not_mem_nil h

/-- No path is found if and only if there is none. -/
theorem fallbackPath?_eq_none_iff
    (hknown : ∀ rules fallback, table.FallsBackOn rules fallback → fallback.index < table.length) :
    table.fallbackPath? start target = none ↔ ¬table.Reaches start target := by
  constructor
  · intro hnone hreaches
    obtain ⟨left, -, hpaths, hclosed⟩ := exists_left_of_searchPath nodup_ids hnone
    have hinvariant : ∀ rules, table.Reaches start rules → rules ∉ left ∧ rules ≠ target := by
      intro rules hrules
      induction hrules with
      | refl => exact hpaths (start, []) List.mem_cons_self
      | @tail rules next _ hnext ih =>
          have hleft := (hclosed rules (mem_ids_iff.mpr hnext.index_lt) ih.1).2 next hnext
          exact ⟨hleft, (hclosed next (mem_ids_iff.mpr (hknown rules next hnext)) hleft).1⟩
    exact (hinvariant target hreaches).2 rfl
  · intro hnot
    cases hfound : table.fallbackPath? start target with
    | none => rfl
    | some found => exact absurd (reaches_of_fallbackPath? hfound) hnot

end Paths

section Acyclicity

theorem transGen_of_addFallback {target fallback rules next : RuleSetId}
    (h : TransGen (fun rules next => table.FallsBackOn rules next ∨
      rules = target ∧ next = fallback) rules next) :
    TransGen table.FallsBackOn rules next ∨
      table.Reaches rules target ∧ table.Reaches fallback next := by
  induction h with
  | single h =>
      rcases h with hold | ⟨rfl, rfl⟩
      · exact .inl (.single hold)
      · exact .inr ⟨.refl, .refl⟩
  | tail _ h ih =>
      rcases h with hold | ⟨rfl, rfl⟩
      · rcases ih with ih | ⟨hto, hfrom⟩
        · exact .inl (ih.tail hold)
        · exact .inr ⟨hto, hfrom.tail hold⟩
      · rcases ih with ih | ⟨hto, -⟩
        · exact .inr ⟨ih.to_reflTransGen, .refl⟩
        · exact .inr ⟨hto, .refl⟩

/-- A link that is added is the only new one. -/
theorem fallsBackOn_addFallback {target fallback : RuleSetId} (htarget : target.index < table.length)
    (hadd : table.addFallback target fallback = .ok table') {rules next : RuleSetId} :
    table'.FallsBackOn rules next ↔
      table.FallsBackOn rules next ∨ rules = target ∧ next = fallback := by
  obtain ⟨-, rfl⟩ := addFallback_eq_ok hadd
  unfold FallsBackOn
  rw [ruleSet_modify table htarget]
  split
  · rename_i hsame
    simp [hsame]
  · rename_i hother
    simp [hother]

theorem Acyclic.addFallback (h : table.Acyclic) {target fallback : RuleSetId}
    (htarget : target.index < table.length)
    (hknown : ∀ rules fallback, table.FallsBackOn rules fallback → fallback.index < table.length)
    (hadd : table.addFallback target fallback = .ok table') : table'.Acyclic := by
  have hnot := (fallbackPath?_eq_none_iff hknown).mp (addFallback_eq_ok hadd).1
  intro rules hcycle
  have hlinks := TransGen.mono (fun _ _ => (fallsBackOn_addFallback htarget hadd).mp) _ _ hcycle
  rcases transGen_of_addFallback hlinks with hold | ⟨hto, hfrom⟩
  · exact h rules hold
  · exact hnot (hfrom.trans hto)

/-- A table without new links has no new cycles. -/
theorem Acyclic.of_links (h : table.Acyclic)
    (hlinks : ∀ rules next, table'.FallsBackOn rules next → table.FallsBackOn rules next) :
    table'.Acyclic :=
  fun rules hcycle => h rules (TransGen.mono hlinks _ _ hcycle)

/-- Declared tables have no cycles of fallbacks. -/
theorem Declared.acyclic {definitions : List RuleSetDefinition} (h : Declared table definitions) :
    table.Acyclic := by
  induction h with
  | empty =>
      intro rules hcycle
      obtain ⟨next, hnext, -⟩ := TransGen.head'_iff.mp hcycle
      exact Nat.not_lt_zero _ hnext.index_lt
  | delimiter _ delimiter ih => exact ih.of_links fun _ _ hlink => hlink
  | ruleSet _ _ hdefine ih =>
      obtain ⟨-, rfl⟩ := define_eq_ok hdefine
      refine ih.of_links fun rules next hlink => ?_
      unfold FallsBackOn at hlink
      rw [ruleSet_push] at hlink
      split at hlink
      · exact (List.not_mem_nil hlink).elim
      · exact hlink
  | fallback h htarget _ hadd ih => exact ih.addFallback htarget h.lists.fallback_lt hadd

end Acyclicity

section Searching

theorem findSome?_flatMap {α β γ : Type} (f : β → Option γ) (g : α → List β) (as : List α) :
    (as.flatMap g).findSome? f = as.findSome? fun a => (g a).findSome? f := by
  induction as with
  | nil => rfl
  | cons a as ih =>
      rw [List.flatMap_cons, List.findSome?_append, ih, List.findSome?_cons]
      cases (g a).findSome? f <;> rfl

/-- No chain of links from a rule set has more than so many rule sets on it. -/
def ChainsWithin (table : RuleSetTable) (limit : Nat) (rules : RuleSetId) : Prop :=
  ∀ chain, (rules :: chain).IsChain table.FallsBackOn → chain.length < limit

theorem ChainsWithin.next {limit : Nat} {rules next : RuleSetId}
    (h : table.ChainsWithin (limit + 1) rules) (hnext : table.FallsBackOn rules next) :
    table.ChainsWithin limit next :=
  fun chain hchain => Nat.lt_of_succ_lt_succ (h (next :: chain) (hchain.cons_cons hnext))

/-- Where the chains are short, following longer ones finds no more rule sets. -/
theorem searchOrder_succ {limit : Nat} {rules : RuleSetId} (h : table.ChainsWithin limit rules) :
    table.searchOrder (limit + 1) rules = table.searchOrder limit rules := by
  induction limit generalizing rules with
  | zero => exact absurd (h [] (List.isChain_singleton rules)) (Nat.lt_irrefl 0)
  | succ limit ih =>
      rw [searchOrder, searchOrder]
      exact congrArg (rules :: ·) (List.flatMap_congr fun next hnext => ih (h.next hnext))

/-- Without cycles a chain is within the table and meets no rule set twice. -/
theorem Acyclic.chainsWithin (h : table.Acyclic)
    (hknown : ∀ rules fallback, table.FallsBackOn rules fallback → fallback.index < table.length)
    {rules : RuleSetId} (hrules : rules.index < table.length) :
    table.ChainsWithin table.length rules := by
  intro chain hchain
  have htrans := List.isChain_iff_pairwise.mp (hchain.imp fun _ _ => TransGen.single)
  have hnodup : (rules :: chain).Nodup := by
    refine htrans.imp ?_
    intro first second hreach hsame
    exact h second (hsame ▸ hreach)
  have hmem : ∀ other ∈ rules :: chain, other ∈ table.ids := by
    refine List.forall_mem_cons.mpr ⟨mem_ids_iff.mpr hrules, fun other hother => ?_⟩
    obtain ⟨before, -, hlink⟩ := TransGen.tail'_iff.mp ((List.pairwise_cons.mp htrans).1 other hother)
    exact mem_ids_iff.mpr (hknown before other hlink)
  have hle := (hnodup.subperm hmem).length_le
  rwa [ids, List.length_map, List.length_range] at hle

theorem ChainsWithin.acc {limit : Nat} {rules : RuleSetId} (h : table.ChainsWithin limit rules) :
    Acc (fun next rules => table.FallsBackOn rules next) rules := by
  induction limit generalizing rules with
  | zero => exact absurd (h [] (List.isChain_singleton rules)) (Nat.lt_irrefl 0)
  | succ limit ih => exact Acc.intro rules fun next hnext => ih (h.next hnext)

/-- Going from rule sets to fallbacks comes to an end. -/
theorem Acyclic.wellFounded (h : table.Acyclic)
    (hknown : ∀ rules fallback, table.FallsBackOn rules fallback → fallback.index < table.length) :
    WellFounded fun next rules => table.FallsBackOn rules next :=
  ⟨fun rules => Acc.intro rules fun _ hnext =>
    (h.chainsWithin hknown (hknown rules _ hnext)).acc⟩

/-- What a search finds in the list of one rule set. -/
def ownMatch? (table : RuleSetTable) (accepts : DelimiterId → Bool) (rules : RuleSetId)
    (source : Source) (index : Nat) (rest : List Char) : Option DelimiterId :=
  match rest with
  | [] => none
  | c :: _ =>
      (table.candidates (table.ruleSet rules) c).find? fun candidate =>
        (table.delimiter candidate).standsAt source index rest && accepts candidate

/-- A search asks a rule set first, and then its fallbacks in order. -/
theorem Declared.search_eq {definitions : List RuleSetDefinition} (h : Declared table definitions)
    (accepts : DelimiterId → Bool) {rules : RuleSetId} (hrules : rules.index < table.length)
    (source : Source) (index : Nat) (rest : List Char) :
    table.search accepts rules source index rest =
      (table.ownMatch? accepts rules source index rest).or
        ((table.ruleSet rules).fallbacks.findSome? fun next =>
          table.search accepts next source index rest) := by
  cases rest with
  | nil => exact (List.findSome?_eq_none_iff.mpr fun _ _ => rfl).symm
  | cons c cs =>
      have hwithin := h.acyclic.chainsWithin h.lists.fallback_lt hrules
      unfold search ownMatch?
      simp only
      rw [← searchOrder_succ hwithin, searchOrder, List.findSome?_cons, findSome?_flatMap]
      split
      · rename_i found hfound
        rw [hfound, Option.some_or]
      · rename_i hnone
        rw [hnone, Option.none_or]

end Searching

section Refusals

/-- A path from a rule set to a fallback that is to be added and on along links to the rule set. -/
structure ClosesCycle (table : RuleSetTable) (target fallback : RuleSetId)
    (path : List RuleSetId) : Prop where
  head? : path.head? = some target
  second? : path[1]? = some fallback
  getLast? : path.getLast? = some target
  links : path.tail.IsChain table.FallsBackOn

/-- The second table is the first one with a fallback at the end of those of one rule set. -/
structure AppendsFallback (table table' : RuleSetTable) (target fallback : RuleSetId) : Prop where
  delimiters : table'.delimiters = table.delimiters
  length : table'.length = table.length
  ruleSet_target : table'.ruleSet target =
    { table.ruleSet target with fallbacks := (table.ruleSet target).fallbacks ++ [fallback] }
  ruleSet_other : ∀ rules ≠ target, table'.ruleSet rules = table.ruleSet rules

variable {target fallback : RuleSetId}

/-- A link is refused if and only if it would close a cycle. -/
theorem addFallback_eq_error_iff
    (hknown : ∀ rules fallback, table.FallsBackOn rules fallback → fallback.index < table.length) :
    (∃ error, table.addFallback target fallback = .error error) ↔
      table.Reaches fallback target := by
  have hnone : table.fallbackPath? fallback target = none ↔ _ := fallbackPath?_eq_none_iff hknown
  unfold addFallback
  cases hpath : table.fallbackPath? fallback target with
  | none => simp [hnone.mp hpath]
  | some path => simp [reaches_of_fallbackPath? hpath]

/-- The error names a cycle that the link would close. -/
theorem exists_closesCycle {error : TableError}
    (h : table.addFallback target fallback = .error error) :
    ∃ path, table.ClosesCycle target fallback path ∧
      error = .fallbackCycle (path.map fun id => (table.ruleSet id).name) := by
  unfold addFallback at h
  split at h
  · rename_i path hpath
    obtain ⟨hchain, hhead, hlast⟩ := of_fallbackPath? hpath
    refine ⟨target :: path, ⟨rfl, ?_, ?_, hchain⟩, (Except.error.inj h).symm⟩
    · rw [List.getElem?_cons_succ, ← List.head?_eq_getElem?, hhead]
    · rw [List.getLast?_cons, hlast]
      rfl
  · cases h

theorem appendsFallback (htarget : target.index < table.length)
    (hadd : table.addFallback target fallback = .ok table') :
    table.AppendsFallback table' target fallback := by
  obtain ⟨-, rfl⟩ := addFallback_eq_ok hadd
  refine ⟨rfl, Array.size_modify, ?_, fun rules hne => ?_⟩
  · rw [ruleSet_modify table htarget, if_pos rfl]
  · rw [ruleSet_modify table htarget, if_neg hne]

theorem next_fallback (htarget : target.index < table.length)
    (hfallback : fallback.index < table.length) :
    table.next (.fallback target fallback) =
      match table.addFallback target fallback with
      | .ok table' => table'
      | .error _ => table := by
  have hknows : table.knows (.fallback target fallback) = true :=
    Bool.and_eq_true_iff.mpr ⟨decide_eq_true htarget, decide_eq_true hfallback⟩
  unfold next
  rw [if_pos hknows]
  rfl

end Refusals

section Histories

/--
The fallbacks of any table that declarations lead to have no cycles, so that searches end. A link
is refused if and only if it would close a cycle: then the table stays as it is, and the error
names such a cycle. Otherwise it is added, and nothing else is.
-/
theorem fallbacks_after {start : RuleSetTable} (hstart : start = .empty ∨ start = Grammar.builtin)
    (declarations : List Declaration) :
    let table := start.after declarations
    table.Acyclic ∧
    (WellFounded fun next rules => table.FallsBackOn rules next) ∧
    (∀ accepts rules, rules.index < table.length → ∀ source index rest,
      table.search accepts rules source index rest =
        (table.ownMatch? accepts rules source index rest).or
          ((table.ruleSet rules).fallbacks.findSome? fun next =>
            table.search accepts next source index rest)) ∧
    ∀ target fallback, target.index < table.length → fallback.index < table.length →
      ((∃ error, table.addFallback target fallback = .error error) ↔
        table.Reaches fallback target) ∧
      (∀ error, table.addFallback target fallback = .error error →
        table.next (.fallback target fallback) = table ∧
          ∃ path, table.ClosesCycle target fallback path ∧
            error = .fallbackCycle (path.map fun id => (table.ruleSet id).name)) ∧
      ∀ table', table.addFallback target fallback = .ok table' →
        table.next (.fallback target fallback) = table' ∧
          table.AppendsFallback table' target fallback := by
  intro table
  obtain ⟨definitions, hdeclared⟩ := exists_declared_after hstart declarations
  have hknown := hdeclared.lists.fallback_lt
  refine ⟨hdeclared.acyclic, hdeclared.acyclic.wellFounded hknown,
    fun accepts rules hrules => hdeclared.search_eq accepts hrules, ?_⟩
  intro target fallback htarget hfallback
  have hnext := next_fallback htarget hfallback
  refine ⟨addFallback_eq_error_iff hknown, fun error herror => ?_, fun table' hok => ?_⟩
  · rw [herror] at hnext
    exact ⟨hnext, exists_closesCycle herror⟩
  · rw [hok] at hnext
    exact ⟨hnext, appendsFallback htarget hok⟩

/-- A table of three rule sets with these fallbacks. -/
def threeSets (a b c : List RuleSetId) : RuleSetTable :=
  { ruleSets := #[{ name := "a", fallbacks := a }, { name := "b", fallbacks := b },
      { name := "c", fallbacks := c }] }

/-- The first rule set falls back on the second and that on the third. -/
def inLine : List Declaration :=
  [.ruleSet { name := "a" }, .ruleSet { name := "b" }, .ruleSet { name := "c" },
    .fallback ⟨0⟩ ⟨1⟩, .fallback ⟨1⟩ ⟨2⟩]

theorem after_inLine : RuleSetTable.empty.after inLine = threeSets [⟨1⟩] [⟨2⟩] [] := by
  have hsets : RuleSetTable.empty.after (inLine.take 3) = threeSets [] [] [] := by
    simp [inLine, after, next, knows, declare, define, find?, Except.map, RuleSetTable.empty,
      threeSets, firstSlots, List.findIdx?, List.findIdx?.go]
  have hfirst : (threeSets [] [] []).next (.fallback ⟨0⟩ ⟨1⟩) = threeSets [⟨1⟩] [] [] := by
    simp [next, knows, declare, addFallback, fallbackPath?, searchPath, ids, length, ruleSet,
      threeSets, List.range, List.range.loop]
  have hsecond : (threeSets [⟨1⟩] [] []).next (.fallback ⟨1⟩ ⟨2⟩) = threeSets [⟨1⟩] [⟨2⟩] [] := by
    simp [next, knows, declare, addFallback, fallbackPath?, searchPath, ids, length, ruleSet,
      threeSets, List.range, List.range.loop]
  calc RuleSetTable.empty.after inLine
      = ((RuleSetTable.empty.after (inLine.take 3)).next (.fallback ⟨0⟩ ⟨1⟩)).next
          (.fallback ⟨1⟩ ⟨2⟩) := rfl
    _ = threeSets [⟨1⟩] [⟨2⟩] [] := by rw [hsets, hfirst, hsecond]

/-- A link from the third back to the first is refused and changes nothing. -/
theorem fallbacks_after_inLine :
    (RuleSetTable.empty = .empty ∨ RuleSetTable.empty = Grammar.builtin) ∧
    (RuleSetTable.empty.after inLine).Acyclic ∧
    (RuleSetTable.empty.after inLine).next (.fallback ⟨2⟩ ⟨0⟩) = RuleSetTable.empty.after inLine ∧
    (RuleSetTable.empty.after inLine).addFallback ⟨2⟩ ⟨0⟩ =
      .error (.fallbackCycle ["c", "a", "b", "c"]) := by
  have herror : (threeSets [⟨1⟩] [⟨2⟩] []).addFallback ⟨2⟩ ⟨0⟩ =
      .error (.fallbackCycle ["c", "a", "b", "c"]) := by
    simp [addFallback, fallbackPath?, searchPath, ids, length, ruleSet, threeSets, List.range,
      List.range.loop]
  rw [← after_inLine] at herror
  have hlength : (RuleSetTable.empty.after inLine).length = 3 := by
    rw [after_inLine]
    rfl
  obtain ⟨hacyclic, -, -, hlinks⟩ := fallbacks_after (.inl rfl) inLine
  have hlink := hlinks ⟨2⟩ ⟨0⟩ (by rw [hlength]; decide) (by rw [hlength]; decide)
  exact ⟨.inl rfl, hacyclic, (hlink.2.1 _ herror).1, herror⟩

end Histories

end RuleSetTable
end ExprLang
