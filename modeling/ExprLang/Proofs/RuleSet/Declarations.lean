import ExprLang.Proofs.Forest.Arena
import ExprLang.Proofs.Grammar.Delimiters

/-!
# Tables that are declared

A table grows by three kinds of declarations, each of which names delimiters and rule sets that are
already there. A declaration that is refused, or that names something else, leaves the table as it
is. What was declared about a rule set stays: its delimiters are those that were given for it, in
the order of the table, whatever is declared later. The built-in grammars are declared in this way.

Main definitions:
* `RuleSetTable.Declaration`, `RuleSetTable.after`: declarations, and the table after some of them;
* `RuleSetTable.Declared`: the tables that declarations lead to, with the delimiters given for each
  rule set.

Main results:
* `RuleSetTable.Declared.lists`: how the delimiters of a rule set are kept;
* `RuleSetTable.exists_declared_builtin`: the built-in grammars are declared;
* `RuleSetTable.exists_declared_after`: so is every table that they or the empty table grow to.
-/

namespace ExprLang
namespace RuleSetTable

/-- A declaration in a table. -/
inductive Declaration where
  | delimiter (delimiter : Delimiter)
  | ruleSet (definition : RuleSetDefinition)
  | fallback (target fallback : RuleSetId)

section Declaring

variable (table : RuleSetTable)

/-- Does a declaration name only what is in the table? -/
def knows : Declaration → Bool
  | .delimiter _ => true
  | .ruleSet definition =>
      (definition.delimiters.getD []).all fun id => id.index < table.delimiters.size
  | .fallback target fallback => target.index < table.length && fallback.index < table.length

/-- Makes a declaration, or gives the error for which it is refused. -/
def declare : Declaration → Except TableError RuleSetTable
  | .delimiter delimiter => .ok (table.addDelimiter delimiter).2
  | .ruleSet definition => (table.define definition).map Prod.snd
  | .fallback target fallback => table.addFallback target fallback

/-- The table after a declaration: the same one if the declaration is not made. -/
def next (declaration : Declaration) : RuleSetTable :=
  if table.knows declaration then
    match table.declare declaration with
    | .ok table' => table'
    | .error _ => table
  else
    table

/-- The table after some declarations. -/
def after (declarations : List Declaration) : RuleSetTable :=
  declarations.foldl next table

end Declaring

/--
The tables that declarations lead to from the empty one, with the definitions of their rule sets
in order.
-/
inductive Declared : (table : RuleSetTable) → (definitions : List RuleSetDefinition) → Prop
  | empty : Declared .empty []
  | delimiter {table : RuleSetTable} {definitions : List RuleSetDefinition}
      (h : Declared table definitions) (delimiter : Delimiter) :
      Declared (table.addDelimiter delimiter).2 definitions
  | ruleSet {table table' : RuleSetTable} {definitions : List RuleSetDefinition}
      (h : Declared table definitions) {definition : RuleSetDefinition} {id : RuleSetId}
      (hknown : ∀ other ∈ definition.delimiters.getD [], other.index < table.delimiters.size)
      (hdefine : table.define definition = .ok (id, table')) :
      Declared table' (definitions ++ [definition])
  | fallback {table table' : RuleSetTable} {definitions : List RuleSetDefinition}
      (h : Declared table definitions) {target fallback : RuleSetId}
      (htarget : target.index < table.length) (hfallback : fallback.index < table.length)
      (hadd : table.addFallback target fallback = .ok table') : Declared table' definitions

section Steps

variable {table table' : RuleSetTable} {definition : RuleSetDefinition} {id : RuleSetId}

/-- What a rule set is in the table in which it is declared. -/
def ruleSetOf (table : RuleSetTable) (definition : RuleSetDefinition) : RuleSet :=
  { definition with
    delimiters := definition.delimiters.map table.sortDelimiters
    slots := firstSlots (fun id => (table.delimiter id).firstChar?) 0
      ((definition.delimiters.map table.sortDelimiters).getD []) }

/-- A rule set is declared at the end of the table. -/
theorem define_eq_ok (h : table.define definition = .ok (id, table')) :
    id = ⟨table.length⟩ ∧
      table' = { table with ruleSets := table.ruleSets.push (table.ruleSetOf definition) } := by
  unfold define at h
  split at h
  · cases h
  · have hpair := Prod.mk.inj (Except.ok.inj h)
    exact ⟨hpair.1.symm, hpair.2.symm⟩

/-- A fallback is added at the end of the fallbacks of its target. -/
theorem addFallback_eq_ok {target fallback : RuleSetId}
    (h : table.addFallback target fallback = .ok table') :
    table.fallbackPath? fallback target = none ∧
      table' = { table with
        ruleSets := table.ruleSets.modify target.index fun rules =>
          { rules with fallbacks := rules.fallbacks ++ [fallback] } } := by
  unfold addFallback at h
  split at h
  · cases h
  · rename_i hnone
    exact ⟨hnone, (Except.ok.inj h).symm⟩

theorem delimiter_addDelimiter (delimiter : Delimiter) {id : DelimiterId}
    (h : id.index < table.delimiters.size) :
    (table.addDelimiter delimiter).2.delimiter id = table.delimiter id := by
  unfold RuleSetTable.delimiter addDelimiter
  rw [Array.getD_eq_getD_getElem?, Array.getD_eq_getD_getElem?, Array.getElem?_push,
    if_neg h.ne]

/-- The rule sets of a table in which one more is declared. -/
theorem ruleSet_push (table : RuleSetTable) (last : RuleSet) (rules : RuleSetId) :
    ({ table with ruleSets := table.ruleSets.push last } : RuleSetTable).ruleSet rules =
      if rules.index = table.length then last else table.ruleSet rules :=
  Forest.getD_push table.ruleSets last default rules.index

/-- The rule sets of a table in which one of them is changed. -/
theorem ruleSet_modify (table : RuleSetTable) {target : RuleSetId}
    (htarget : target.index < table.length) (f : RuleSet → RuleSet) (rules : RuleSetId) :
    ({ table with ruleSets := table.ruleSets.modify target.index f } : RuleSetTable).ruleSet rules =
      if rules = target then f (table.ruleSet rules) else table.ruleSet rules := by
  unfold ruleSet
  rw [Forest.getD_modify]
  by_cases h : rules = target
  · subst h
    rw [if_pos ⟨rfl, htarget⟩, if_pos rfl]
  · rw [if_neg fun hc => h (congrArg RuleSetId.mk hc.1.symm), if_neg h]

theorem ruleSet_of_length_le (table : RuleSetTable) {rules : RuleSetId}
    (h : table.length ≤ rules.index) : table.ruleSet rules = default := by
  unfold ruleSet
  rw [Array.getD_eq_getD_getElem?, Array.getElem?_eq_none h, Option.getD_none]

end Steps

section Congruence

variable {α : Type} {order order' : α → α → Ordering}

theorem insertOrdered_congr {a : α} {as : List α} (h : ∀ b ∈ as, order a b = order' a b) :
    insertOrdered order a as = insertOrdered order' a as := by
  induction as with
  | nil => rfl
  | cons b bs ih =>
      rw [insertOrdered, insertOrdered, h b List.mem_cons_self,
        ih fun c hc => h c (List.mem_cons_of_mem _ hc)]

/-- Sorting depends on the order of the elements of the list only. -/
theorem sortStable_congr {as : List α} (h : ∀ a ∈ as, ∀ b ∈ as, order a b = order' a b) :
    sortStable order as = sortStable order' as := by
  induction as with
  | nil => rfl
  | cons a as ih =>
      have hrest := ih fun b hb c hc =>
        h b (List.mem_cons_of_mem _ hb) c (List.mem_cons_of_mem _ hc)
      rw [sortStable, sortStable, hrest]
      refine insertOrdered_congr fun b hb => h a List.mem_cons_self b (List.mem_cons_of_mem _ ?_)
      exact (perm_sortStable order' as).mem_iff.mp hb

theorem firstSlots_congr {firstChar? firstChar?' : α → Option Char} {as : List α}
    (h : ∀ a ∈ as, firstChar? a = firstChar?' a) (slot : Nat) :
    firstSlots firstChar? slot as = firstSlots firstChar?' slot as := by
  induction as generalizing slot with
  | nil => rfl
  | cons a as ih =>
      rw [firstSlots, firstSlots, h a List.mem_cons_self,
        ih fun b hb => h b (List.mem_cons_of_mem _ hb)]

variable {table table' : RuleSetTable} {definition : RuleSetDefinition}

/-- A rule set depends on the delimiters that are given for it only. -/
theorem ruleSetOf_congr
    (h : ∀ id ∈ definition.delimiters.getD [], table.delimiter id = table'.delimiter id) :
    table.ruleSetOf definition = table'.ruleSetOf definition := by
  obtain ⟨name, given, whitespace, contextClass, simplify⟩ := definition
  cases given with
  | none => rfl
  | some ids =>
      have hsort : table.sortDelimiters ids = table'.sortDelimiters ids := by
        refine congrArg dropRepeats (sortStable_congr fun a ha b hb => ?_)
        rw [h a ha, h b hb]
      have hfirst : ∀ a ∈ table'.sortDelimiters ids,
          (table.delimiter a).firstChar? = (table'.delimiter a).firstChar? :=
        fun a ha => congrArg Delimiter.firstChar? (h a ((mem_sortDelimiters_iff _ _ _).mp ha))
      have hslots := firstSlots_congr hfirst 0
      unfold ruleSetOf
      simp only [Option.map_some, Option.getD_some, hsort, hslots]

end Congruence

section Invariant

/-- The rule sets of a table are those of the definitions, with fallbacks that are in the table. -/
structure Lists (table : RuleSetTable) (definitions : List RuleSetDefinition) : Prop where
  length_eq : table.length = definitions.length
  known : ∀ definition ∈ definitions, ∀ id ∈ definition.delimiters.getD [],
    id.index < table.delimiters.size
  ruleSet_eq : ∀ rules definition, definitions[rules.index]? = some definition →
    table.ruleSet rules =
      { table.ruleSetOf definition with fallbacks := (table.ruleSet rules).fallbacks }
  fallback_lt : ∀ rules, ∀ fallback ∈ (table.ruleSet rules).fallbacks,
    fallback.index < table.length

variable {table table' : RuleSetTable} {definitions : List RuleSetDefinition}

theorem Lists.addDelimiter (h : table.Lists definitions) (delimiter : Delimiter) :
    (table.addDelimiter delimiter).2.Lists definitions := by
  refine ⟨h.length_eq, fun definition hmem id hid => ?_, fun rules definition hget => ?_,
    h.fallback_lt⟩
  · have hlt := h.known definition hmem id hid
    show id.index < (table.delimiters.push delimiter).size
    rw [Array.size_push]
    omega
  · have hsame : (table.addDelimiter delimiter).2.ruleSetOf definition =
        table.ruleSetOf definition :=
      ruleSetOf_congr fun id hid => delimiter_addDelimiter delimiter
        (h.known definition (List.mem_of_getElem? hget) id hid)
    rw [hsame]
    exact h.ruleSet_eq rules definition hget

theorem Lists.define (h : table.Lists definitions) {definition : RuleSetDefinition} {id : RuleSetId}
    (hknown : ∀ other ∈ definition.delimiters.getD [], other.index < table.delimiters.size)
    (hdefine : table.define definition = .ok (id, table')) :
    table'.Lists (definitions ++ [definition]) := by
  obtain ⟨-, rfl⟩ := define_eq_ok hdefine
  have hlength : ({ table with
      ruleSets := table.ruleSets.push (table.ruleSetOf definition) } : RuleSetTable).length =
        table.length + 1 := Array.size_push _
  refine ⟨?_, ?_, fun rules other hget => ?_, fun rules fallback hfallback => ?_⟩
  · rw [hlength, h.length_eq, List.length_append, List.length_singleton]
  · intro other hother
    rcases List.mem_append.mp hother with hother | hother
    · exact h.known other hother
    · rw [List.mem_singleton.mp hother]
      exact hknown
  · rw [ruleSet_push]
    by_cases hlast : rules.index = table.length
    · rw [hlast, h.length_eq, List.getElem?_concat_length] at hget
      obtain rfl := Option.some.inj hget
      rw [if_pos hlast]
      rfl
    · have hlt : rules.index < definitions.length := by
        have := (List.getElem?_eq_some_iff.mp hget).1
        rw [List.length_append, List.length_singleton] at this
        rw [h.length_eq] at hlast
        omega
      rw [List.getElem?_append_left hlt] at hget
      rw [if_neg hlast]
      exact h.ruleSet_eq rules other hget
  · rw [hlength]
    rw [ruleSet_push] at hfallback
    split at hfallback
    · exact (List.not_mem_nil hfallback).elim
    · exact Nat.lt_succ_of_lt (h.fallback_lt rules fallback hfallback)

theorem Lists.addFallback (h : table.Lists definitions) {target fallback : RuleSetId}
    (htarget : target.index < table.length) (hfallback : fallback.index < table.length)
    (hadd : table.addFallback target fallback = .ok table') : table'.Lists definitions := by
  obtain ⟨-, rfl⟩ := addFallback_eq_ok hadd
  have hlength : ({ table with
      ruleSets := table.ruleSets.modify target.index fun rules =>
        { rules with fallbacks := rules.fallbacks ++ [fallback] } } : RuleSetTable).length =
          table.length := Array.size_modify
  refine ⟨hlength.trans h.length_eq, h.known, fun rules definition hget => ?_,
    fun rules other hother => ?_⟩
  · rw [ruleSet_modify table htarget]
    have hold := h.ruleSet_eq rules definition hget
    split
    · rw [hold]
      rfl
    · exact hold
  · rw [hlength]
    rw [ruleSet_modify table htarget] at hother
    split at hother
    · rcases List.mem_append.mp hother with hother | hother
      · exact h.fallback_lt rules other hother
      · rw [List.mem_singleton.mp hother]
        exact hfallback
    · exact h.fallback_lt rules other hother

/-- What was declared about a rule set stays. -/
theorem Declared.lists (h : Declared table definitions) : table.Lists definitions := by
  induction h with
  | empty =>
      refine ⟨rfl, fun _ h => (List.not_mem_nil h).elim, fun _ _ hget => (nomatch hget), ?_⟩
      intro rules fallback hfallback
      rw [ruleSet_of_length_le .empty (Nat.zero_le _)] at hfallback
      exact (List.not_mem_nil hfallback).elim
  | delimiter _ delimiter ih => exact ih.addDelimiter delimiter
  | ruleSet _ hknown hdefine ih => exact ih.define hknown hdefine
  | fallback _ htarget hfallback hadd ih => exact ih.addFallback htarget hfallback hadd

end Invariant

section Histories

variable {table table' : RuleSetTable} {definitions : List RuleSetDefinition}

/-- Declarations that are not made change nothing, so that every one leads to a declared table. -/
theorem Declared.exists_next (h : Declared table definitions) (declaration : Declaration) :
    ∃ definitions, Declared (table.next declaration) definitions := by
  unfold next
  split
  · rename_i hknows
    split
    · rename_i table' hdeclare
      cases declaration with
      | delimiter delimiter =>
          obtain rfl := Except.ok.inj hdeclare
          exact ⟨_, h.delimiter delimiter⟩
      | ruleSet definition =>
          cases hdefine : table.define definition with
          | error error =>
              rw [declare, hdefine] at hdeclare
              cases hdeclare
          | ok result =>
              rw [declare, hdefine] at hdeclare
              obtain rfl := Except.ok.inj hdeclare
              exact ⟨_, h.ruleSet (fun id hid => of_decide_eq_true (List.all_eq_true.mp hknows id hid))
                hdefine⟩
      | fallback target fallback =>
          obtain ⟨htarget, hfallback⟩ := Bool.and_eq_true_iff.mp hknows
          exact ⟨_, h.fallback (of_decide_eq_true htarget) (of_decide_eq_true hfallback) hdeclare⟩
    · exact ⟨_, h⟩
  · exact ⟨_, h⟩

theorem Declared.exists_after (h : Declared table definitions) (declarations : List Declaration) :
    ∃ definitions, Declared (table.after declarations) definitions := by
  induction declarations generalizing table definitions with
  | nil => exact ⟨definitions, h⟩
  | cons declaration declarations ih =>
      obtain ⟨_, hnext⟩ := h.exists_next declaration
      exact ih hnext

end Histories

section Builtin

open Grammar

variable {table table' : RuleSetTable} {definitions : List RuleSetDefinition}

theorem size_addDelimiters (table : RuleSetTable) (added : List Delimiter) :
    (table.addDelimiters added).2.delimiters.size = table.delimiters.size + added.length := by
  simp [addDelimiters]

/-- The numbers of delimiters that are added are numbers of the table. -/
theorem index_lt_of_mem_addDelimiters {added : List Delimiter} {id : DelimiterId}
    (h : id ∈ (table.addDelimiters added).1) :
    id.index < (table.addDelimiters added).2.delimiters.size := by
  obtain ⟨i, hi, rfl⟩ := List.mem_map.mp h
  rw [size_addDelimiters]
  exact Nat.add_lt_add_left (List.mem_range.mp hi) _

theorem Declared.addDelimiters (h : Declared table definitions) (added : List Delimiter) :
    Declared (table.addDelimiters added).2 definitions := by
  induction added generalizing table with
  | nil =>
      have hsame : (table.addDelimiters []).2 = table := by simp [RuleSetTable.addDelimiters]
      exact hsame ▸ h
  | cons delimiter added ih =>
      have hsame : (table.addDelimiters (delimiter :: added)).2 =
          ((table.addDelimiter delimiter).2.addDelimiters added).2 := by
        simp [RuleSetTable.addDelimiters, addDelimiter]
      exact hsame ▸ ih (h.delimiter delimiter)

/-- A declared table with at least `count` delimiters. -/
def DeclaredWith (count : Nat) (table : RuleSetTable) : Prop :=
  ∃ definitions, Declared table definitions ∧ count ≤ table.delimiters.size

variable {count : Nat}

theorem DeclaredWith.addDelimiters (h : DeclaredWith count table) (added : List Delimiter) :
    DeclaredWith count (table.addDelimiters added).2 := by
  obtain ⟨definitions, hdeclared, hcount⟩ := h
  refine ⟨definitions, hdeclared.addDelimiters added, ?_⟩
  rw [size_addDelimiters]
  omega

theorem DeclaredWith.ruleSet (h : DeclaredWith count table) {definition : RuleSetDefinition}
    (hknown : ∀ id ∈ definition.delimiters.getD [], id.index < table.delimiters.size)
    (hdefined : defined definition table = .ok table') : DeclaredWith count table' := by
  obtain ⟨definitions, hdeclared, hcount⟩ := h
  rw [← delimiters_defined hdefined] at hcount
  unfold defined at hdefined
  cases hdefine : table.define definition with
  | error error =>
      rw [hdefine] at hdefined
      cases hdefined
  | ok result =>
      rw [hdefine] at hdefined
      obtain rfl := Except.ok.inj hdefined
      exact ⟨_, hdeclared.ruleSet hknown hdefine, hcount⟩

/-- The delimiters of a rule set are among the first ones of the table. -/
theorem DeclaredWith.ruleSet_of_lt (h : DeclaredWith count table) {definition : RuleSetDefinition}
    (hknown : ∀ id ∈ definition.delimiters.getD [], id.index < count)
    (hdefined : defined definition table = .ok table') : DeclaredWith count table' := by
  obtain ⟨-, -, hcount⟩ := id h
  exact h.ruleSet (fun id hid => Nat.lt_of_lt_of_le (hknown id hid) hcount) hdefined

theorem DeclaredWith.defineTextBody (h : DeclaredWith count table) {name : String}
    {closer : DelimiterId} (hcloser : closer.index < count)
    (hdefined : Grammar.defineTextBody name closer table = .ok table') :
    DeclaredWith count table' := by
  have hadded := h.addDelimiters (textBody name)
  obtain ⟨-, -, hcount⟩ := id hadded
  refine hadded.ruleSet (fun id hid => ?_) hdefined
  rcases List.mem_cons.mp hid with rfl | hid
  · exact Nat.lt_of_lt_of_le hcloser hcount
  · exact index_lt_of_mem_addDelimiters hid

theorem DeclaredWith.defineLineComment (h : DeclaredWith count table) {name : String}
    (hdefined : Grammar.defineLineComment name table = .ok table') :
    DeclaredWith count table' := by
  refine (h.addDelimiters (lineCommentBody name)).ruleSet (fun id hid => ?_) hdefined
  exact index_lt_of_mem_addDelimiters hid

theorem DeclaredWith.defineOperatorContexts (h : DeclaredWith count table) (ops : List Operator)
    (hdefined : ops.foldlM defineOperatorContext table = .ok table') :
    DeclaredWith count table' := by
  induction ops generalizing table with
  | nil =>
      cases hdefined
      exact h
  | cons op ops ih =>
      obtain ⟨middle, hop, hrest⟩ := bind_eq_ok hdefined
      unfold defineOperatorContext at hop
      split at hop
      · obtain rfl := Except.ok.inj hop
        exact ih h hrest
      · exact ih (h.ruleSet (List.forall_mem_nil _) hop) hrest

/-- The built-in grammars are declared, one delimiter and one rule set after the other. -/
theorem declaredWith_install (h : install .empty = .ok table) : DeclaredWith 10 table := by
  unfold install at h
  simp only at h
  obtain ⟨_, hdefault, h⟩ := bind_eq_ok h
  obtain ⟨_, hcommandLine, h⟩ := bind_eq_ok h
  obtain ⟨_, hstring, h⟩ := bind_eq_ok h
  obtain ⟨_, hchar, h⟩ := bind_eq_ok h
  obtain ⟨_, hparens, h⟩ := bind_eq_ok h
  obtain ⟨_, hbraces, h⟩ := bind_eq_ok h
  obtain ⟨_, hbrackets, h⟩ := bind_eq_ok h
  obtain ⟨_, hblock, h⟩ := bind_eq_ok h
  obtain ⟨_, hline, h⟩ := bind_eq_ok h
  obtain ⟨_, hdoc, h⟩ := bind_eq_ok h
  obtain ⟨_, hnumber, h⟩ := bind_eq_ok h
  obtain ⟨_, hhex, h⟩ := bind_eq_ok h
  obtain ⟨_, hbool, h⟩ := bind_eq_ok h
  -- the quotes and the ends of block comments are among the first delimiters
  have hstart : DeclaredWith 10 (((((((((RuleSetTable.empty.addDelimiter quote).2.addDelimiter
      apostrophe).2.addDelimiters brackets).2.addDelimiters blockCommentEnds).2.addDelimiters
        lineCommentStarts).2.addDelimiters separators).2.addDelimiters symbols).2.addDelimiters
          operators).2.addDelimiters literals).2 :=
    ⟨[], (((((((((Declared.empty.delimiter quote).delimiter apostrophe).addDelimiters
      brackets).addDelimiters blockCommentEnds).addDelimiters lineCommentStarts).addDelimiters
        separators).addDelimiters symbols).addDelimiters operators).addDelimiters literals),
          by decide +kernel⟩
  have hlanguage := hstart.ruleSet (by decide +kernel) hdefault
  have hcommands := hlanguage.ruleSet
    (by rw [delimiters_defined hdefault]; decide +kernel) hcommandLine
  have htexts := (hcommands.defineTextBody (by decide) hstring).defineTextBody (by decide) hchar
  have hgroups := ((htexts.ruleSet (List.forall_mem_nil _) hparens).ruleSet
    (List.forall_mem_nil _) hbraces).ruleSet (List.forall_mem_nil _) hbrackets
  have hcomments := ((hgroups.ruleSet_of_lt (by decide +kernel) hblock).defineLineComment
    hline).defineLineComment hdoc
  have hliterals := ((hcomments.ruleSet (List.forall_mem_nil _) hnumber).ruleSet
    (List.forall_mem_nil _) hhex).ruleSet (List.forall_mem_nil _) hbool
  exact hliterals.defineOperatorContexts _ h

theorem exists_declared_builtin : ∃ definitions, Declared builtin definitions := by
  unfold builtin
  split
  · rename_i table hinstall
    obtain ⟨definitions, hdeclared, -⟩ := declaredWith_install hinstall
    exact ⟨definitions, hdeclared⟩
  · exact ⟨[], .empty⟩

/-- Whatever is declared in the empty table or in that of the built-in grammars. -/
theorem exists_declared_after {start : RuleSetTable} (hstart : start = .empty ∨ start = builtin)
    (declarations : List Declaration) :
    ∃ definitions, Declared (start.after declarations) definitions := by
  rcases hstart with rfl | rfl
  · exact Declared.empty.exists_after declarations
  · obtain ⟨_, hdeclared⟩ := exists_declared_builtin
    exact hdeclared.exists_after declarations

end Builtin

end RuleSetTable
end ExprLang
