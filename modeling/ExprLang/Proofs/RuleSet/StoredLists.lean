import ExprLang.Proofs.RuleSet.BestMatch
import Mathlib.Data.List.TakeWhile

/-!
# The list that is kept of a rule set

A rule set keeps the delimiters that were given for it, sorted, with the slot at which those with
one first character start. Sorting leaves delimiters of one rank in the order in which they were
given, and only repeated neighbours are dropped. A delimiter that was given twice is therefore kept
twice if another one of its rank was given in between, and kept once otherwise.

Main results:
* `RuleSetTable.filter_sortStable`: sorting leaves elements of one rank in their order;
* `RuleSetTable.count_sorted_eq_one_iff`: which elements are kept once;
* `RuleSetTable.exists_run`: where the elements of a kind stand in a sorted list;
* `RuleSetTable.define_kept`: the list of a rule set, and its index.
-/

namespace ExprLang
namespace RuleSetTable

section Ranks

variable {α : Type} {order : α → α → Ordering} [Std.TransCmp order]

/-- Elements that rank equal are left in their order. -/
theorem filter_sortStable (a : α) (as : List α) :
    (sortStable order as).filter (fun b => order a b = .eq) =
      as.filter fun b => order a b = .eq := by
  have hpair : (as.filter fun b => order a b = .eq).Pairwise fun b c => order b c ≠ .gt := by
    refine List.pairwise_of_forall_mem_list fun b hb c hc => ?_
    have hb : order a b = .eq := by simpa using (List.mem_filter.mp hb).2
    have hc : order a c = .eq := by simpa using (List.mem_filter.mp hc).2
    rw [Std.TransCmp.eq_trans (Std.OrientedCmp.eq_symm hb) hc]
    decide
  have hsublist : (as.filter fun b => order a b = .eq).Sublist (sortStable order as) := by
    rw [sortStable_eq_insertionSort]
    exact List.sublist_insertionSort hpair List.filter_sublist
  have hfilter := hsublist.filter fun b => order a b = .eq
  simp only [List.filter_filter, Bool.and_self] at hfilter
  exact (hfilter.eq_of_length ((perm_sortStable order as).filter _).length_eq.symm).symm

/-- Of three elements of one rank the order in the sorted list is that in the given one. -/
theorem sublist_sortStable_iff {a b : α} (h : order a b = .eq) (as : List α) :
    [a, b, a].Sublist (sortStable order as) ↔ [a, b, a].Sublist as := by
  have hranks : ∀ c ∈ [a, b, a], order a c = .eq := by
    simp [h, Std.ReflCmp.compare_self]
  have hfilter : [a, b, a].filter (fun c => order a c = .eq) = [a, b, a] :=
    List.filter_eq_self.mpr fun c hc => decide_eq_true (hranks c hc)
  have hkeeps : ∀ cs : List α,
      [a, b, a].Sublist cs ↔ [a, b, a].Sublist (cs.filter fun c => order a c = .eq) := by
    intro cs
    refine ⟨fun hcs => ?_, fun hcs => hcs.trans List.filter_sublist⟩
    rw [← hfilter]
    exact hcs.filter _
  rw [hkeeps, filter_sortStable, ← hkeeps]

end Ranks

section Repeats

variable {α : Type} [DecidableEq α]

theorem head?_dropRepeats (as : List α) : (dropRepeats as).head? = as.head? := by
  fun_induction dropRepeats as with
  | case1 a rest ih => exact ih
  | case2 a b rest hne ih => rfl
  | case3 => rfl

/-- No two neighbours are equal when repeats are dropped. -/
theorem isChain_dropRepeats (as : List α) : (dropRepeats as).IsChain (· ≠ ·) := by
  fun_induction dropRepeats as with
  | case1 a rest ih => exact ih
  | case2 a b rest hne ih =>
      refine List.isChain_cons.mpr ⟨fun c hc => ?_, ih⟩
      rw [head?_dropRepeats, List.head?_cons] at hc
      rwa [← Option.some.inj hc]
  | case3 as hshort =>
      rcases as with _ | ⟨a, _ | ⟨b, rest⟩⟩
      · exact .nil
      · exact .singleton a
      · exact absurd rfl (hshort a b rest)

/-- Elements in a row of which no two neighbours are equal are still there. -/
theorem sublist_dropRepeats_of_isChain {cs as : List α} (hchain : cs.IsChain (· ≠ ·))
    (h : cs.Sublist as) : cs.Sublist (dropRepeats as) := by
  fun_induction dropRepeats as generalizing cs with
  | case1 a rest ih =>
      refine ih hchain ?_
      cases h with
      | cons _ h => exact h
      | @cons_cons cs _ _ h =>
          -- the next element is another one, so that it stands behind both
          cases cs with
          | nil => exact List.singleton_sublist.mpr List.mem_cons_self
          | cons c cs =>
              have hne : a ≠ c := (List.isChain_cons_cons.mp hchain).1
              cases h with
              | cons _ h => exact h.cons_cons a
              | cons_cons _ h => exact absurd rfl hne
  | case2 a b rest hne ih =>
      cases h with
      | cons _ h => exact (ih hchain h).cons a
      | cons_cons _ h => exact (ih hchain.tail h).cons_cons a
  | case3 => exact h

omit [DecidableEq α] in
/-- Between two equal elements stands another one, unless they are neighbours. -/
theorem exists_between_of_isChain {a : α} {as : List α} (hchain : as.IsChain (· ≠ ·))
    (h : [a, a].Sublist as) : ∃ b, b ≠ a ∧ [a, b, a].Sublist as := by
  induction as with
  | nil => cases h
  | cons c as ih =>
      cases h with
      | cons _ h =>
          obtain ⟨b, hne, hsublist⟩ := ih hchain.tail h
          exact ⟨b, hne, hsublist.cons c⟩
      | cons_cons _ h =>
          cases as with
          | nil => cases h
          | cons b as =>
              have hne : a ≠ b := (List.isChain_cons_cons.mp hchain).1
              cases h with
              | cons _ h => exact ⟨b, hne.symm, (h.cons_cons b).cons_cons a⟩
              | cons_cons _ _ => exact absurd rfl hne

theorem count_eq_one_iff {a : α} {as : List α} (h : a ∈ as) :
    as.count a = 1 ↔ ¬[a, a].Sublist as := by
  have hpos : 1 ≤ as.count a := List.one_le_count_iff.mpr h
  have htwo : 2 ≤ as.count a ↔ [a, a].Sublist as := List.replicate_sublist_iff.symm
  rw [← htwo]
  omega

/-- An element is kept once unless another one of its rank is given between two givings of it. -/
theorem count_sorted_eq_one_iff {order : α → α → Ordering} [Std.TransCmp order] {a : α}
    {as : List α} (h : a ∈ as) :
    (dropRepeats (sortStable order as)).count a = 1 ↔
      ∀ b, order a b = .eq → [a, b, a].Sublist as → b = a := by
  have hmem : a ∈ dropRepeats (sortStable order as) :=
    (mem_dropRepeats_iff a _).mpr ((perm_sortStable order as).mem_iff.mpr h)
  rw [count_eq_one_iff hmem]
  constructor
  · intro hnot b hrank hsublist
    by_contra hne
    have hchain : [a, b, a].IsChain (· ≠ ·) := by simp [hne, Ne.symm hne]
    have hkept := sublist_dropRepeats_of_isChain hchain
      ((sublist_sortStable_iff hrank as).mpr hsublist)
    have htwice : [a, a].Sublist [a, b, a] := ((List.Sublist.refl [a]).cons b).cons_cons a
    exact hnot (htwice.trans hkept)
  · intro honly htwice
    obtain ⟨b, hne, hkept⟩ := exists_between_of_isChain (isChain_dropRepeats _) htwice
    have hsorted := hkept.trans (sublist_dropRepeats _)
    have hpair := (pairwise_sortStable as).sublist hsorted
    have hrank : order a b = .eq := by
      refine Std.OrientedCmp.isLE_antisymm (Ordering.ne_gt_iff_isLE.mp ?_)
        (Ordering.ne_gt_iff_isLE.mp ?_)
      · exact (List.pairwise_cons.mp hpair).1 b (by simp)
      · exact (List.pairwise_cons.mp hpair.tail).1 a (by simp)
    exact hne (honly b hrank ((sublist_sortStable_iff hrank as).mp hsorted))

end Repeats

section Runs

variable {α : Type} {order : α → α → Ordering} {q : α → Bool}

/-- In a sorted list the elements of a kind stand in one run. -/
theorem exists_run (hbetween : ∀ a b d, q a = true → q d = true → order a b ≠ .gt →
      order b d ≠ .gt → q b = true) {as : List α}
    (hsorted : as.Pairwise fun a b => order a b ≠ .gt) {slot : Nat}
    (hslot : as.findIdx? q = some slot) :
    ∃ count, 0 < count ∧ ∀ i, (as[i]?.any q = true ↔ slot ≤ i ∧ i < slot + count) := by
  obtain ⟨hlt, hq, hbefore⟩ := List.findIdx?_eq_some_iff_getElem.mp hslot
  have hhead : ∀ a ∈ (as.drop slot).head?, q a = true := by
    intro a ha
    rw [List.head?_drop, List.getElem?_eq_getElem hlt] at ha
    rwa [← Option.some.inj ha]
  obtain ⟨run, behind, hsplit, hrun, hbehind⟩ : ∃ run behind, as.drop slot = run ++ behind ∧
      (∀ a ∈ run, q a = true) ∧ ∀ a ∈ behind, ¬q a = true :=
    ⟨_, _, List.takeWhile_append_dropWhile.symm, fun a ha => List.mem_takeWhile_imp ha,
      fun a ha => not_of_mem_dropWhile hbetween (hsorted.sublist (List.drop_sublist slot as))
        hhead ha⟩
  have hpos : 0 < run.length := by
    refine List.length_pos_of_ne_nil fun hnil => ?_
    rw [hnil, List.nil_append] at hsplit
    refine hbehind as[slot] ?_ hq
    rw [← hsplit, List.drop_eq_getElem_cons hlt]
    exact List.mem_cons_self
  refine ⟨run.length, hpos, fun i => ?_⟩
  rcases Nat.lt_or_ge i slot with hi | hi
  · have hnot := hbefore i hi
    rw [List.getElem?_eq_getElem (hi.trans hlt), Option.any_some]
    exact ⟨fun h => absurd h hnot, fun h => absurd h.1 (Nat.not_le.mpr hi)⟩
  · obtain ⟨j, rfl⟩ := Nat.exists_eq_add_of_le hi
    rw [← List.getElem?_drop, hsplit]
    rcases Nat.lt_or_ge j run.length with hj | hj
    · rw [List.getElem?_append_left hj, List.getElem?_eq_getElem hj, Option.any_some]
      exact ⟨fun _ => ⟨hi, Nat.add_lt_add_left hj slot⟩, fun _ => hrun _ (List.getElem_mem hj)⟩
    · rw [List.getElem?_append_right hj]
      refine ⟨fun h => ?_, fun h => absurd h.2 (Nat.not_lt.mpr (Nat.add_le_add_left hj slot))⟩
      obtain ⟨a, ha, hqa⟩ := (Option.any_eq_true _ _).mp h
      exact absurd hqa (hbehind a (List.mem_of_getElem? ha))

end Runs

section Definitions

variable (table : RuleSetTable)

/-- A rule set with a new name is declared. -/
theorem define_of_find?_eq_none {table : RuleSetTable} {definition : RuleSetDefinition}
    (h : table.find? definition.name = none) :
    table.define definition = .ok (⟨table.length⟩,
      { table with ruleSets := table.ruleSets.push (table.ruleSetOf definition) }) := by
  unfold define
  rw [h]
  rfl

/-- Does the delimiter in a slot of a list start with a character? -/
def startsAt (ids : List DelimiterId) (c : Char) (slot : Nat) : Bool :=
  ids[slot]?.any fun id => (table.delimiter id).firstChar? == some c

theorem pairwise_sortDelimiters (given : List DelimiterId) :
    (table.sortDelimiters given).Pairwise fun a b => table.idOrder a b ≠ .gt := by
  rw [sortDelimiters_eq]
  exact (pairwise_sortStable given).sublist (sublist_dropRepeats _)

/-- The slot of a character is where its run begins; a character without a run has none. -/
theorem lookup_firstSlots_sortDelimiters (given : List DelimiterId) (c : Char) :
    match (firstSlots (fun id => (table.delimiter id).firstChar?) 0
        (table.sortDelimiters given)).lookup c with
    | some slot => ∃ count, 0 < count ∧
        ∀ i, table.startsAt (table.sortDelimiters given) c i = true ↔ slot ≤ i ∧ i < slot + count
    | none => ∀ i, table.startsAt (table.sortDelimiters given) c i = false := by
  rw [lookup_firstSlots]
  cases hslot : (table.sortDelimiters given).findIdx? fun id =>
      (table.delimiter id).firstChar? == some c with
  | some slot =>
      rw [Option.map_some, Nat.zero_add]
      exact exists_run (table.startsWith_between c) (table.pairwise_sortDelimiters given) hslot
  | none =>
      intro i
      unfold startsAt
      cases hget : (table.sortDelimiters given)[i]? with
      | none => rfl
      | some id => exact List.findIdx?_eq_none_iff.mp hslot id (List.mem_of_getElem? hget)

/--
A rule set with a new name keeps the delimiters that are given for it and no others, in the order
of the table, each of them once unless another one of its rank is given between two givings of it.
Its index leads from each first character to the slot at which the run of those that start with it
begins, and has no other characters.
-/
theorem define_kept {definition : RuleSetDefinition} {given : List DelimiterId}
    (hnew : table.find? definition.name = none) (hgiven : definition.delimiters = some given) :
    ∃ rules after kept, table.define definition = .ok (rules, after) ∧
      after.delimiters = table.delimiters ∧ (after.ruleSet rules).delimiters = some kept ∧
      (∀ id, id ∈ kept ↔ id ∈ given) ∧
      (∀ id ∈ given, kept.count id = 1 ↔
        ∀ other, table.idOrder id other = .eq → [id, other, id].Sublist given → other = id) ∧
      (kept.Pairwise fun a b => table.idOrder a b ≠ .gt) ∧
      ∀ c, match (after.ruleSet rules).slots.lookup c with
        | some slot => ∃ count, 0 < count ∧
            ∀ i, table.startsAt kept c i = true ↔ slot ≤ i ∧ i < slot + count
        | none => ∀ i, table.startsAt kept c i = false := by
  refine ⟨_, _, table.sortDelimiters given, define_of_find?_eq_none hnew, rfl, ?_⟩
  rw [ruleSet_push, if_pos rfl, ruleSetOf, hgiven]
  refine ⟨rfl, fun id => mem_sortDelimiters_iff table id given, fun id hid => ?_,
    table.pairwise_sortDelimiters given, table.lookup_firstSlots_sortDelimiters given⟩
  rw [sortDelimiters_eq]
  exact count_sorted_eq_one_iff hid

/-- A delimiter that is given again behind a longer one, which has another rank. -/
theorem define_kept_semicolons :
    let table : RuleSetTable := { delimiters := #[.plain ";", .plain ";;"] }
    let given : List DelimiterId := [⟨0⟩, ⟨1⟩, ⟨0⟩]
    table.find? "marks" = none ∧ ∃ rules after kept,
      table.define { name := "marks", delimiters := some given } = .ok (rules, after) ∧
        (after.ruleSet rules).delimiters = some kept ∧ kept.count ⟨0⟩ = 1 := by
  intro table given
  have hnew : table.find? "marks" = none := by simp [table, find?]
  obtain ⟨rules, after, kept, hdefine, -, hkept, -, hcount, -⟩ :=
    @define_kept table { name := "marks", delimiters := some given } given hnew rfl
  refine ⟨hnew, rules, after, kept, hdefine, hkept, (hcount ⟨0⟩ (by decide)).mpr ?_⟩
  intro other hrank hbetween
  have hother : other = ⟨0⟩ ∨ other = ⟨1⟩ ∨ other = ⟨0⟩ := by
    simpa [given] using hbetween.subset (List.mem_cons_of_mem _ List.mem_cons_self)
  rcases hother with rfl | rfl | rfl
  · rfl
  · exact absurd hrank (by decide)
  · rfl

/-- A delimiter that is given again behind another one of its rank is kept twice. -/
theorem define_keeps_twice :
    let table : RuleSetTable := { delimiters := #[.plain ";", .plain ";"] }
    ∃ after,
      table.define { name := "marks", delimiters := some [⟨0⟩, ⟨1⟩, ⟨0⟩] } = .ok (⟨0⟩, after) ∧
        (after.ruleSet ⟨0⟩).delimiters = some [⟨0⟩, ⟨1⟩, ⟨0⟩] := by
  refine ⟨_, define_of_find?_eq_none (by simp [find?]), ?_⟩
  decide +kernel

end Definitions

end RuleSetTable
end ExprLang
