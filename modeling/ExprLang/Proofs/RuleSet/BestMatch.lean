import ExprLang.Proofs.RuleSet.Fallbacks
import ExprLang.Proofs.RuleSet.Sorting
import ExprLang.Proofs.Text.Places

/-!
# The best match

What is found at a place of a text is the best of the delimiters that were given for a rule set:
of those that stand there and may be stopped at, the one with the longest text, then one with a
predicate, then a context before an operator before a plain delimiter, then the one that was given
first. If none of them may be stopped at, the fallbacks are asked in order, each with all that it
falls back on before the next one. A delimiter with an empty text is never found.

Main definitions:
* `Delimiter.FitsAt`, `RuleSetTable.Admissible`: where a delimiter stands, and may be stopped at;
* `RuleSetTable.IsBest`: the best one of a list;
* `RuleSetTable.Finds`, `RuleSetTable.FindsNothing`: what a rule set and its fallbacks lead to.

Main results:
* `RuleSetTable.Declared.ownMatch?_best`: the match in one rule set;
* `RuleSetTable.Declared.search_best`: the match in a rule set and its fallbacks;
* `RuleSetTable.Declared.findDelimiter_best`: what is found at an offset into a text.
-/

namespace ExprLang

/-- Does a text, which is not empty, with its predicate stand at a place? -/
structure Delimiter.FitsAt (delimiter : Delimiter) (source : Source) (index : Nat)
    (rest : List Char) : Prop where
  ne_nil : delimiter.text ≠ []
  isPrefix : delimiter.text <+: rest
  predicate : ∀ holds, delimiter.predicate = some holds → holds source index = true

namespace RuleSetTable

open Relation (ReflTransGen)

section Specification

variable (table : RuleSetTable) (definitions : List RuleSetDefinition)

/-- The delimiters that were given for a rule set. -/
def givenFor (rules : RuleSetId) : List DelimiterId :=
  (definitions[rules.index]?.bind fun definition => definition.delimiters).getD []

/-- Of the admissible delimiters of a list the best one, and the first one of these. -/
def IsBest (admissible : DelimiterId → Prop) (given : List DelimiterId) (id : DelimiterId) : Prop :=
  admissible id ∧ ∃ before after, given = before ++ id :: after ∧
    (∀ other ∈ before, admissible other →
      (table.delimiter id).Outranks (table.delimiter other)) ∧
    ∀ other ∈ after, admissible other → ¬(table.delimiter other).Outranks (table.delimiter id)

/-- No rule set that is reached was given an admissible delimiter. -/
def FindsNothing (admissible : DelimiterId → Prop) (rules : RuleSetId) : Prop :=
  ∀ reached, table.Reaches rules reached → ∀ id ∈ givenFor definitions reached, ¬admissible id

/-- The best delimiter of a rule set, or else what its fallbacks lead to, in order. -/
inductive Finds (admissible : DelimiterId → Prop) : RuleSetId → DelimiterId → Prop
  | own {rules : RuleSetId} {id : DelimiterId}
      (h : table.IsBest admissible (givenFor definitions rules) id) : Finds admissible rules id
  | fallback {rules next : RuleSetId} {before after : List RuleSetId} {id : DelimiterId}
      (hown : ∀ other ∈ givenFor definitions rules, ¬admissible other)
      (hfallbacks : (table.ruleSet rules).fallbacks = before ++ next :: after)
      (hbefore : ∀ other ∈ before, table.FindsNothing definitions admissible other)
      (hnext : Finds admissible next id) : Finds admissible rules id

/-- Does a breaking delimiter of a rule set or of one that it falls back on stand at a place? -/
def StartsBreaking (rules : RuleSetId) (source : Source) (index : Nat) (rest : List Char) : Prop :=
  ∃ reached, table.Reaches rules reached ∧ ∃ id ∈ givenFor definitions reached,
    (table.delimiter id).FitsAt source index rest ∧ (table.delimiter id).isBreaking = true

/--
May a delimiter be stopped at? It stands there, and it breaks words; or no plain text is being
read, and behind it are the end of the text, whitespace, or a breaking delimiter.
-/
def Admissible (rules default : RuleSetId) (source : Source) (index : Nat) (rest : List Char)
    (started : Bool) (id : DelimiterId) : Prop :=
  (table.delimiter id).FitsAt source index rest ∧
    ((table.delimiter id).isBreaking = true ∨
      started = false ∧ ∀ behind, rest = (table.delimiter id).text ++ behind →
        behind = [] ∨ (∃ c ∈ behind.head?, table.isWhitespace rules default c = true) ∨
          table.StartsBreaking definitions rules source
            (index + Text.byteSize (table.delimiter id).text) behind)

end Specification

variable {table : RuleSetTable} {definitions : List RuleSetDefinition}
variable {source : Source} {index : Nat} {rest : List Char}

section RuleSets

/-- The order of the delimiters of a table. -/
def idOrder (table : RuleSetTable) : DelimiterId → DelimiterId → Ordering :=
  Ordering.byKey table.delimiter Delimiter.tableOrder

instance (table : RuleSetTable) : Std.TransCmp table.idOrder :=
  inferInstanceAs (Std.TransCmp (Ordering.byKey table.delimiter Delimiter.tableOrder))

theorem sortDelimiters_eq (ids : List DelimiterId) :
    table.sortDelimiters ids = dropRepeats (sortStable table.idOrder ids) := rfl

/-- Between delimiters that start with a character stand only others that do. -/
theorem startsWith_between (table : RuleSetTable) (c : Char) (a b d : DelimiterId)
    (ha : ((table.delimiter a).firstChar? == some c) = true)
    (hd : ((table.delimiter d).firstChar? == some c) = true) (hab : table.idOrder a b ≠ .gt)
    (hbd : table.idOrder b d ≠ .gt) : ((table.delimiter b).firstChar? == some c) = true :=
  beq_iff_eq.mpr (Delimiter.firstChar?_of_between (beq_iff_eq.mp ha) (beq_iff_eq.mp hd) hab hbd)

/-- The candidates are found in the sorted list of what was given for a rule set. -/
theorem Declared.find?_candidates (h : Declared table definitions) (rules : RuleSetId) (c : Char)
    (p : DelimiterId → Bool) :
    (table.candidates (table.ruleSet rules) c).find? p =
      (sortStable table.idOrder (givenFor definitions rules)).find? fun id =>
        (table.delimiter id).firstChar? == some c && p id := by
  unfold givenFor
  cases hget : definitions[rules.index]? with
  | none =>
      have hlength := h.lists.length_eq.trans_le (List.getElem?_eq_none_iff.mp hget)
      rw [ruleSet_of_length_le table hlength]
      rfl
  | some definition =>
      rw [h.lists.ruleSet_eq rules definition hget]
      cases hids : definition.delimiters with
      | none => simp [candidates, ruleSetOf, hids, sortStable]
      | some ids =>
          have hsorted : (dropRepeats (sortStable table.idOrder ids)).Pairwise
              fun a b => table.idOrder a b ≠ .gt :=
            (pairwise_sortStable ids).sublist (sublist_dropRepeats _)
          have hrepeats := find?_dropRepeats
            (fun id => (table.delimiter id).firstChar? == some c && p id)
              (sortStable table.idOrder ids)
          rw [Option.bind_some, hids, Option.getD_some, ← hrepeats, ← sortDelimiters_eq]
          rw [← sortDelimiters_eq] at hsorted
          unfold candidates ruleSetOf
          simp only [hids, Option.map_some, Option.getD_some]
          rw [lookup_firstSlots]
          cases hslot : (table.sortDelimiters ids).findIdx? fun id =>
              (table.delimiter id).firstChar? == some c with
          | none =>
              refine (List.find?_eq_none.mpr fun id hid hp => ?_).symm
              have hnot := List.findIdx?_eq_none_iff.mp hslot id hid
              rw [hnot] at hp
              cases hp
          | some slot =>
              rw [Option.map_some, Nat.zero_add]
              exact find?_run (table.startsWith_between c) p hsorted hslot

/-- A delimiter fits if and only if it stands there and starts with the character there. -/
theorem fitsAt_iff {delimiter : Delimiter} {c : Char} {cs : List Char} :
    delimiter.FitsAt source index (c :: cs) ↔
      delimiter.firstChar? = some c ∧ delimiter.standsAt source index (c :: cs) = true := by
  have hstands : delimiter.standsAt source index (c :: cs) = true ↔ delimiter.text <+: c :: cs ∧
      ∀ holds, delimiter.predicate = some holds → holds source index = true := by
    unfold Delimiter.standsAt
    rw [Bool.and_eq_true_iff, Text.startsWith_iff]
    refine and_congr ⟨fun ⟨behind, h⟩ => ⟨behind, h.symm⟩, fun ⟨behind, h⟩ => ⟨behind, h.symm⟩⟩ ?_
    cases delimiter.predicate <;> simp
  rw [hstands]
  constructor
  · intro h
    refine ⟨?_, h.isPrefix, h.predicate⟩
    obtain ⟨a, as, htext⟩ := List.exists_cons_of_ne_nil h.ne_nil
    have hprefix := h.isPrefix
    rw [htext] at hprefix
    rw [Delimiter.firstChar?, htext, (List.cons_prefix_cons.mp hprefix).1, List.head?_cons]
  · rintro ⟨hfirst, hprefix, hpredicate⟩
    refine ⟨fun hnil => ?_, hprefix, hpredicate⟩
    rw [Delimiter.firstChar?, hnil] at hfirst
    cases hfirst

/-- What is found in one rule set is the best of what was given for it. -/
theorem Declared.ownMatch?_best (h : Declared table definitions) (accepts : DelimiterId → Bool)
    (rules : RuleSetId) (source : Source) (index : Nat) (rest : List Char) :
    match table.ownMatch? accepts rules source index rest with
    | some id => table.IsBest
        (fun id => (table.delimiter id).FitsAt source index rest ∧ accepts id = true)
        (givenFor definitions rules) id
    | none => ∀ id ∈ givenFor definitions rules,
        ¬((table.delimiter id).FitsAt source index rest ∧ accepts id = true) := by
  cases rest with
  | nil => exact fun id _ hfits => hfits.1.ne_nil (List.prefix_nil.mp hfits.1.isPrefix)
  | cons c cs =>
      have htest : ∀ id, ((table.delimiter id).firstChar? == some c &&
          ((table.delimiter id).standsAt source index (c :: cs) && accepts id)) = true ↔
            (table.delimiter id).FitsAt source index (c :: cs) ∧ accepts id = true := fun id => by
        rw [Bool.and_eq_true_iff, Bool.and_eq_true_iff, beq_iff_eq, fitsAt_iff, and_assoc]
      have hown : table.ownMatch? accepts rules source index (c :: cs) =
          _ := h.find?_candidates rules c _
      rw [hown]
      split
      · rename_i id hfound
        have hid := (htest id).mp (List.find?_eq_some_iff_append.mp hfound).1
        obtain ⟨before, after, hgiven, hbefore, hafter⟩ := find?_sortStable hfound
        refine ⟨hid, before, after, hgiven, fun other hother hadm => ?_, fun other hother hadm => ?_⟩
        · exact (Delimiter.tableOrder_eq_lt_iff hid.1.isPrefix hadm.1.isPrefix).mp
            (hbefore other hother ((htest other).mpr hadm))
        · intro houtranks
          have hlt := (Delimiter.tableOrder_eq_lt_iff hadm.1.isPrefix hid.1.isPrefix).mpr houtranks
          exact hafter other hother ((htest other).mpr hadm) (Std.OrientedCmp.gt_of_lt hlt)
      · rename_i hnone
        intro id hid hadm
        exact List.find?_eq_none.mp hnone id ((perm_sortStable _ _).mem_iff.mpr hid)
          ((htest id).mpr hadm)

end RuleSets

section Searches

/-- What a search finds is the best of one rule set, in the order of the fallbacks. -/
theorem Declared.search_best (h : Declared table definitions) (accepts : DelimiterId → Bool)
    {rules : RuleSetId} (hrules : rules.index < table.length) (source : Source) (index : Nat)
    (rest : List Char) :
    match table.search accepts rules source index rest with
    | some id => table.Finds definitions
        (fun id => (table.delimiter id).FitsAt source index rest ∧ accepts id = true) rules id
    | none => table.FindsNothing definitions
        (fun id => (table.delimiter id).FitsAt source index rest ∧ accepts id = true) rules := by
  induction rules using (h.acyclic.wellFounded h.lists.fallback_lt).induction with
  | h rules ih =>
    have hnext : ∀ next, table.FallsBackOn rules next → _ := fun next hlink =>
      ih next hlink (h.lists.fallback_lt rules next hlink)
    have hown := h.ownMatch?_best accepts rules source index rest
    rw [h.search_eq accepts hrules]
    cases hmatch : table.ownMatch? accepts rules source index rest with
    | some id =>
        rw [hmatch] at hown
        exact .own hown
    | none =>
        rw [hmatch] at hown
        rw [Option.none_or]
        cases hfirst : (table.ruleSet rules).fallbacks.findSome? fun next =>
            table.search accepts next source index rest with
        | none =>
            intro reached hreached
            rcases ReflTransGen.cases_head hreached with rfl | ⟨next, hlink, hreached⟩
            · exact hown
            · have hnothing := hnext next hlink
              rw [List.findSome?_eq_none_iff.mp hfirst next hlink] at hnothing
              exact hnothing reached hreached
        | some id =>
            obtain ⟨before, next, after, hfallbacks, hfound, hbefore⟩ :=
              List.findSome?_eq_some_iff.mp hfirst
            have hlink : ∀ other ∈ before ++ next :: after, table.FallsBackOn rules other :=
              fun other hother => show other ∈ (table.ruleSet rules).fallbacks from
                hfallbacks.symm ▸ hother
            refine .fallback hown hfallbacks (fun other hother => ?_) ?_
            · have hnothing := hnext other (hlink other (List.mem_append_left _ hother))
              rw [hbefore other hother] at hnothing
              exact hnothing
            · have hfinds := hnext next (hlink next (List.mem_append_right _ List.mem_cons_self))
              rw [hfound] at hfinds
              exact hfinds

theorem IsBest.mem {admissible : DelimiterId → Prop} {given : List DelimiterId} {id : DelimiterId}
    (h : table.IsBest admissible given id) : id ∈ given := by
  obtain ⟨-, before, after, hgiven, -⟩ := h
  rw [hgiven]
  exact List.mem_append_right _ List.mem_cons_self

theorem Finds.exists_admissible {admissible : DelimiterId → Prop} {rules : RuleSetId}
    {id : DelimiterId} (h : table.Finds definitions admissible rules id) :
    ∃ reached, table.Reaches rules reached ∧ id ∈ givenFor definitions reached ∧ admissible id := by
  induction h with
  | @own rules id h => exact ⟨rules, .refl, h.mem, h.1⟩
  | @fallback rules next before after id _ hfallbacks _ _ ih =>
      obtain ⟨reached, hreached, hid⟩ := ih
      refine ⟨reached, .head ?_ hreached, hid⟩
      show next ∈ (table.ruleSet rules).fallbacks
      rw [hfallbacks]
      exact List.mem_append_right _ List.mem_cons_self

/-- A search finds something if and only if a rule set that is reached was given a match. -/
theorem Declared.search_isSome_iff (h : Declared table definitions) (accepts : DelimiterId → Bool)
    {rules : RuleSetId} (hrules : rules.index < table.length) (source : Source) (index : Nat)
    (rest : List Char) :
    (table.search accepts rules source index rest).isSome = true ↔
      ∃ reached, table.Reaches rules reached ∧ ∃ id ∈ givenFor definitions reached,
        (table.delimiter id).FitsAt source index rest ∧ accepts id = true := by
  have hbest := h.search_best accepts hrules source index rest
  split at hbest
  · rename_i id hfound
    rw [hfound]
    obtain ⟨reached, hreached, hid⟩ := hbest.exists_admissible
    exact ⟨fun _ => ⟨reached, hreached, id, hid⟩, fun _ => rfl⟩
  · rename_i hnone
    rw [hnone]
    refine ⟨fun hnot => (nomatch hnot), fun ⟨reached, hreached, id, hid, hadm⟩ => ?_⟩
    exact absurd hadm (hbest reached hreached id hid)

end Searches

section Offsets

variable {rules default : RuleSetId} {started : Bool}

/-- A word may end at the end of the text, and in front of whitespace or a breaking delimiter. -/
theorem Declared.endsWord_iff (h : Declared table definitions)
    (hsearched : (table.searched rules default).index < table.length) :
    table.endsWord rules default source index rest = true ↔
      rest = [] ∨ (∃ c ∈ rest.head?, table.isWhitespace rules default c = true) ∨
        table.StartsBreaking definitions (table.searched rules default) source index rest := by
  cases rest with
  | nil => simp [endsWord]
  | cons c cs =>
      unfold endsWord breaksAt
      rw [Bool.or_eq_true, h.search_isSome_iff _ hsearched]
      simp [StartsBreaking]

/-- A delimiter that stands at a place is accepted if it breaks words, or stands alone there. -/
theorem accepts_iff_endsWord {id : DelimiterId}
    (hfits : (table.delimiter id).FitsAt source index rest) :
    table.accepts rules default source index rest started id = true ↔
      (table.delimiter id).isBreaking = true ∨
        started = false ∧ ∀ behind, rest = (table.delimiter id).text ++ behind →
          table.endsWord rules default source
            (index + Text.byteSize (table.delimiter id).text) behind = true := by
  obtain ⟨behind, hrest⟩ := hfits.isPrefix
  have hdrop := Text.dropHead?_eq_some_iff.mpr hrest.symm
  unfold accepts
  simp only [hdrop, Bool.or_eq_true, Bool.and_eq_true, Bool.not_eq_true']
  simp only [← hrest, List.append_cancel_left_eq, forall_eq']

/-- Where a delimiter stands, it is accepted if and only if it may be stopped at. -/
theorem Declared.accepts_iff (h : Declared table definitions) (hrules : rules.index < table.length)
    (hown : table.searched rules default = rules) {id : DelimiterId} :
    ((table.delimiter id).FitsAt source index rest ∧
      table.accepts rules default source index rest started id = true) ↔
        table.Admissible definitions rules default source index rest started id := by
  unfold Admissible
  refine and_congr_right fun hfits => ?_
  simp only [accepts_iff_endsWord hfits, h.endsWord_iff (hown.symm ▸ hrules), hown]

/-- The best match is found, and where nothing is found there is no match. -/
theorem Declared.findDelimiter_best (h : Declared table definitions)
    {definition : RuleSetDefinition} {ids : List DelimiterId}
    (hdefinition : definitions[rules.index]? = some definition)
    (hids : definition.delimiters = some ids) (default : RuleSetId)
    (hrest : source.drop? index = some rest) (started : Bool) :
    match table.findDelimiter rules default source index started with
    | some id => table.Finds definitions
        (table.Admissible definitions rules default source index rest started) rules id
    | none => table.FindsNothing definitions
        (table.Admissible definitions rules default source index rest started) rules := by
  have hrules : rules.index < table.length := by
    rw [h.lists.length_eq]
    exact (List.getElem?_eq_some_iff.mp hdefinition).1
  have hown : table.searched rules default = rules := by
    unfold searched
    rw [h.lists.ruleSet_eq rules definition hdefinition]
    exact if_pos (by simp [ruleSetOf, hids])
  have hadmissible : (fun id => (table.delimiter id).FitsAt source index rest ∧
      table.accepts rules default source index rest started id = true) =
        table.Admissible definitions rules default source index rest started :=
    funext fun id => propext (h.accepts_iff hrules hown)
  have hbest := h.search_best (table.accepts rules default source index rest started) hrules
    source index rest
  rw [hadmissible] at hbest
  unfold findDelimiter findIn
  rw [hrest, hown]
  exact hbest

/-- The definition of a rule set with the first delimiters of a table. -/
def firstDelimiters (count : Nat) : RuleSetDefinition :=
  { name := "r", delimiters := some ((List.range count).map DelimiterId.mk) }

/-- A table with these delimiters and one rule set that has all of them. -/
def oneRuleSet (delimiters : List Delimiter) : RuleSetTable :=
  let table := (RuleSetTable.empty.addDelimiters delimiters).2
  { table with ruleSets := #[table.ruleSetOf (firstDelimiters delimiters.length)] }

theorem declared_oneRuleSet (delimiters : List Delimiter) :
    Declared (oneRuleSet delimiters) [firstDelimiters delimiters.length] := by
  have hdefine : (RuleSetTable.empty.addDelimiters delimiters).2.define
      (firstDelimiters delimiters.length) = .ok (⟨0⟩, oneRuleSet delimiters) := by
    simp [define, find?, RuleSetTable.addDelimiters, RuleSetTable.empty, oneRuleSet, ruleSetOf]
  refine (Declared.empty.addDelimiters delimiters).ruleSet (fun id hid => ?_) hdefine
  obtain ⟨i, hi, rfl⟩ := List.mem_map.mp hid
  simpa [RuleSetTable.addDelimiters, RuleSetTable.empty] using hi

/-- Delimiters of equals signs, of which the last two hold a predicate. -/
def equalsSigns : List Delimiter :=
  [.plain "=", .plain "==", (Delimiter.plain "==").when fun _ _ => true,
    (Delimiter.plain "==").when fun _ _ => true]

/-- Of these the longer ones are preferred, and the first of those with a predicate. -/
theorem findDelimiter_equalsSigns :
    Declared (oneRuleSet equalsSigns) [firstDelimiters 4] ∧
      [firstDelimiters 4][(⟨0⟩ : RuleSetId).index]? = some (firstDelimiters 4) ∧
      (firstDelimiters 4).delimiters = some [⟨0⟩, ⟨1⟩, ⟨2⟩, ⟨3⟩] ∧
      (Source.ofString "a==b").drop? 1 = some ['=', '=', 'b'] ∧
      (oneRuleSet equalsSigns).findDelimiter ⟨0⟩ ⟨0⟩ (.ofString "a==b") 1 true = some ⟨2⟩ ∧
      (oneRuleSet equalsSigns).Finds [firstDelimiters 4]
        ((oneRuleSet equalsSigns).Admissible [firstDelimiters 4] ⟨0⟩ ⟨0⟩ (.ofString "a==b") 1
          ['=', '=', 'b'] true) ⟨0⟩ ⟨2⟩ := by
  have hget : [firstDelimiters 4][(⟨0⟩ : RuleSetId).index]? = some (firstDelimiters 4) := rfl
  have hdrop : (Source.ofString "a==b").drop? 1 = some ['=', '=', 'b'] := by decide +kernel
  have hfound : (oneRuleSet equalsSigns).findDelimiter ⟨0⟩ ⟨0⟩ (.ofString "a==b") 1 true =
      some ⟨2⟩ := by decide +kernel
  have hbest := (declared_oneRuleSet equalsSigns).findDelimiter_best hget rfl ⟨0⟩ hdrop true
  rw [hfound] at hbest
  exact ⟨declared_oneRuleSet equalsSigns, hget, rfl, hdrop, hfound, hbest⟩

/-- An empty text stands anywhere, and is not found. -/
theorem findDelimiter_empty :
    let table := oneRuleSet [.plain ""]
    let source := Source.ofString "a"
    Declared table [firstDelimiters 1] ∧ (⟨0⟩ : DelimiterId) ∈ givenFor [firstDelimiters 1] ⟨0⟩ ∧
      (table.delimiter ⟨0⟩).isAt source 0 = true ∧ (table.delimiter ⟨0⟩).isBreaking = true ∧
      table.findDelimiter ⟨0⟩ ⟨0⟩ source 0 false = none := by
  refine ⟨declared_oneRuleSet _, ?_, ?_, ?_, ?_⟩ <;> decide +kernel

end Offsets

end RuleSetTable
end ExprLang
