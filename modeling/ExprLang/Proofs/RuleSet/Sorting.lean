import ExprLang.RuleSet.Lookup
import Mathlib.Data.List.Sort
import Mathlib.Order.Compare

/-!
# Sorted lists of delimiters

The delimiters of a rule set are sorted when it is declared, and a search reads those with one
first character, from the slot at which they start. Two delimiters that stand at one place have
texts of which one begins the other, so that the longer one is in front, and a stable sort leaves
those that rank equal as they were given. So the first match in the sorted list is the best match
in the given one.

Main definitions:
* `Delimiter.textOrder`: texts character by character, the end of a text last;
* `Delimiter.Outranks`: the longer text, then a predicate, then the role.

Main results:
* `RuleSetTable.find?_sortStable`: the first element of a sorted list for which a test holds;
* `Delimiter.tableOrder_eq_lt_iff`: how delimiters that stand at one place are ordered;
* `RuleSetTable.find?_run`: a run of the sorted list has the matches of all of it.
-/

namespace ExprLang

namespace Delimiter

section Order

/-- Texts in the order of their characters; where one begins the other the longer one first. -/
def textOrder : List Char → List Char → Ordering
  | [], [] => .eq
  | [], _ :: _ => .gt
  | _ :: _, [] => .lt
  | a :: as, b :: bs => (compare a b).then (textOrder as bs)

instance : Std.OrientedCmp textOrder where
  eq_swap {as bs} := by
    induction as generalizing bs with
    | nil => cases bs <;> rfl
    | cons a as ih =>
        cases bs with
        | nil => rfl
        | cons b bs =>
            rw [textOrder, textOrder, Ordering.swap_then, ← ih, ← Std.OrientedCmp.eq_swap]

instance : Std.TransCmp textOrder where
  isLE_trans {as bs cs} h h' := by
    induction as generalizing bs cs with
    | nil =>
        cases bs with
        | nil => exact h'
        | cons b bs => cases h
    | cons a as ih =>
        cases bs with
        | nil =>
            cases cs with
            | nil => rfl
            | cons c cs => cases h'
        | cons b bs =>
            cases cs with
            | nil => rfl
            | cons c cs =>
                rw [textOrder, Ordering.isLE_then_iff_or] at h h' ⊢
                rcases h with h | ⟨h, hrest⟩
                · refine .inl ?_
                  rcases h' with h' | ⟨h', -⟩
                  · exact Std.TransCmp.lt_trans h h'
                  · exact Std.TransCmp.lt_of_lt_of_eq h h'
                · rcases h' with h' | ⟨h', hrest'⟩
                  · exact .inl (Std.TransCmp.lt_of_eq_of_lt h h')
                  · exact .inr ⟨Std.TransCmp.eq_trans h h', ih hrest hrest'⟩

theorem textOrder_of_compareAtDifference? {as bs : List Char} {order : Ordering}
    (h : compareAtDifference? as bs = some order) : textOrder as bs = order ∧ order ≠ .eq := by
  induction as generalizing bs with
  | nil => cases h
  | cons a as ih =>
      cases bs with
      | nil => cases h
      | cons b bs =>
          rw [compareAtDifference?] at h
          rw [textOrder]
          split at h
          · rename_i hsame
            rw [hsame, Std.compare_self]
            exact ih h
          · rename_i hne
            have hcompare : compare a b ≠ .eq := mt Std.LawfulEqCmp.compare_eq_iff_eq.mp hne
            obtain rfl := Option.some.inj h
            refine ⟨?_, hcompare⟩
            cases hab : compare a b with
            | eq => exact absurd hab hcompare
            | lt => rfl
            | gt => rfl

/-- Where one text begins the other, the order is that of the sizes. -/
theorem textOrder_of_compareAtDifference?_eq_none {as bs : List Char}
    (h : compareAtDifference? as bs = none) :
    textOrder as bs = compare (Text.byteSize bs) (Text.byteSize as) := by
  induction as generalizing bs with
  | nil =>
      cases bs with
      | nil => rfl
      | cons b bs =>
          have hpos : 0 < Text.byteSize (b :: bs) :=
            Nat.lt_of_lt_of_le b.utf8Size_pos (Nat.le_add_right _ _)
          exact (Nat.compare_eq_gt.mpr hpos).symm
  | cons a as ih =>
      cases bs with
      | nil =>
          have hpos : 0 < Text.byteSize (a :: as) :=
            Nat.lt_of_lt_of_le a.utf8Size_pos (Nat.le_add_right _ _)
          exact (Nat.compare_eq_lt.mpr hpos).symm
      | cons b bs =>
          rw [compareAtDifference?] at h
          split at h
          · rename_i hsame
            subst hsame
            rw [textOrder, Std.compare_self, Ordering.eq_then, ih h, Nat.compare_eq_ite_lt,
              Nat.compare_eq_ite_lt]
            simp
          · cases h

/-- The order of a table compares texts first, then predicates, then roles. -/
theorem tableOrder_eq : tableOrder =
    compareLex (Ordering.byKey text textOrder)
      (compareLex (Ordering.byKey (fun d => d.predicate.isSome) fun a b => compare b a)
        (Ordering.byKey roleRank compare)) := by
  funext a b
  unfold tableOrder
  split
  · rename_i order hdifference
    obtain ⟨horder, hne⟩ := textOrder_of_compareAtDifference? hdifference
    rw [compareLex, Ordering.byKey, horder]
    cases order with
    | eq => exact absurd rfl hne
    | lt => rfl
    | gt => rfl
  · rename_i hnone
    rw [compareLex, Ordering.byKey, textOrder_of_compareAtDifference?_eq_none hnone]
    rfl

instance : Std.TransCmp tableOrder := by
  have hpredicate : Std.TransCmp fun a b : Bool => compare b a := .opposite
  rw [tableOrder_eq]
  infer_instance

theorem textOrder_isLE {a b : Delimiter} (h : a.tableOrder b ≠ .gt) :
    (textOrder a.text b.text).isLE = true := by
  rw [tableOrder_eq] at h
  exact Ordering.isLE_left_of_isLE_then (Ordering.ne_gt_iff_isLE.mp h)

/-- Between delimiters with one first character stand only others with it. -/
theorem firstChar?_of_between {a b d : Delimiter} {c : Char} (ha : a.firstChar? = some c)
    (hd : d.firstChar? = some c) (hab : a.tableOrder b ≠ .gt) (hbd : b.tableOrder d ≠ .gt) :
    b.firstChar? = some c := by
  obtain ⟨as, hatext⟩ := List.head?_eq_some_iff.mp ha
  obtain ⟨ds, hdtext⟩ := List.head?_eq_some_iff.mp hd
  have hab := textOrder_isLE hab
  have hbd := textOrder_isLE hbd
  rw [hatext] at hab
  rw [hdtext] at hbd
  unfold firstChar?
  cases hbtext : b.text with
  | nil =>
      rw [hbtext] at hbd
      cases hbd
  | cons first bs =>
      rw [hbtext, textOrder] at hab hbd
      have hsame := Std.OrientedCmp.isLE_antisymm (Ordering.isLE_left_of_isLE_then hab)
        (Ordering.isLE_left_of_isLE_then hbd)
      rw [Std.LawfulEqCmp.compare_eq_iff_eq.mp hsame, List.head?_cons]

end Order

section Ranks

/--
Is the first delimiter to be preferred? Its text is longer; or the texts have one length, and it
alone has a predicate; or that is equal too, and it is a context and the other one not, or an
operator and the other one plain.
-/
def Outranks (a b : Delimiter) : Prop :=
  Text.byteSize b.text < Text.byteSize a.text ∨
    Text.byteSize b.text = Text.byteSize a.text ∧
      (b.predicate = none ∧ a.predicate ≠ none ∨
        (a.predicate = none ↔ b.predicate = none) ∧ a.roleRank < b.roleRank)

theorem compareAtDifference?_of_isPrefix {as bs cs : List Char} (has : as <+: cs)
    (hbs : bs <+: cs) : compareAtDifference? as bs = none := by
  induction cs generalizing as bs with
  | nil => rw [List.prefix_nil.mp has, compareAtDifference?]; simp
  | cons c cs ih =>
      cases as with
      | nil => rfl
      | cons a as =>
          cases bs with
          | nil => rfl
          | cons b bs =>
              obtain ⟨hac, has⟩ := List.cons_prefix_cons.mp has
              obtain ⟨hbc, hbs⟩ := List.cons_prefix_cons.mp hbs
              rw [compareAtDifference?, if_pos (hac.trans hbc.symm), ih has hbs]

/-- Of delimiters that stand at one place those come first that are to be preferred. -/
theorem tableOrder_eq_lt_iff {a b : Delimiter} {rest : List Char} (ha : a.text <+: rest)
    (hb : b.text <+: rest) : a.tableOrder b = .lt ↔ a.Outranks b := by
  have hpredicate : (compare b.predicate.isSome a.predicate.isSome = .lt ↔
      b.predicate = none ∧ a.predicate ≠ none) ∧
      (compare b.predicate.isSome a.predicate.isSome = .eq ↔
        (a.predicate = none ↔ b.predicate = none)) := by
    cases a.predicate <;> cases b.predicate <;> simp
    rfl
  unfold tableOrder Outranks
  rw [compareAtDifference?_of_isPrefix ha hb]
  simp only [Ordering.then_eq_lt, Nat.compare_eq_lt, Nat.compare_eq_eq, hpredicate.1, hpredicate.2]

end Ranks

end Delimiter

namespace RuleSetTable

section Sorting

variable {α : Type} {order : α → α → Ordering}

/-- Sorting is inserting, element by element. -/
theorem sortStable_eq_insertionSort (as : List α) :
    sortStable order as = as.insertionSort fun a b => order a b ≠ .gt := by
  have hinsert : ∀ a bs,
      insertOrdered order a bs = bs.orderedInsert (fun a b => order a b ≠ .gt) a := by
    intro a bs
    induction bs with
    | nil => rfl
    | cons b bs ih =>
        rw [insertOrdered, List.orderedInsert_cons, ih]
        by_cases h : order a b = .gt
        · rw [if_pos h, if_neg (not_not_intro h)]
        · rw [if_neg h, if_pos h]
  induction as with
  | nil => rfl
  | cons a as ih => rw [sortStable, List.insertionSort_cons, ih, hinsert]

variable [Std.TransCmp order]

theorem ne_gt_trans {a b c : α} (hab : order a b ≠ .gt)
    (hbc : order b c ≠ .gt) : order a c ≠ .gt :=
  Ordering.isLE_iff_ne_gt.mp (Std.TransCmp.isLE_trans (Ordering.ne_gt_iff_isLE.mp hab)
    (Ordering.ne_gt_iff_isLE.mp hbc))

theorem pairwise_sortStable (as : List α) :
    (sortStable order as).Pairwise fun a b => order a b ≠ .gt := by
  have htotal : Std.Total fun a b => order a b ≠ .gt := ⟨fun a b => by
    by_contra hboth
    obtain ⟨hab, hba⟩ := not_or.mp hboth
    exact Std.OrientedCmp.not_gt_of_gt (not_not.mp hab) (not_not.mp hba)⟩
  have htrans : IsTrans α fun a b => order a b ≠ .gt := ⟨fun _ _ _ => ne_gt_trans⟩
  rw [sortStable_eq_insertionSort]
  exact List.pairwise_insertionSort _ as

/-- An element that is inserted is found unless one in front of its place is. -/
theorem find?_insertOrdered {p : α → Bool} {a : α} {bs : List α}
    (hsorted : bs.Pairwise fun a b => order a b ≠ .gt) :
    (insertOrdered order a bs).find? p =
      match bs.find? p with
      | none => if p a then some a else none
      | some b => if p a && order a b != .gt then some a else some b := by
  induction bs with
  | nil => cases hp : p a <;> simp [insertOrdered, hp]
  | cons b bs ih =>
      obtain ⟨hb, hbs⟩ := List.pairwise_cons.mp hsorted
      rw [insertOrdered]
      split
      · rename_i hgt
        rw [List.find?_cons, List.find?_cons]
        cases hp : p b with
        | true => simp [hgt]
        | false => exact ih hbs
      · rename_i hle
        rw [List.find?_cons]
        cases hfound : (b :: bs).find? p with
        | none => cases hp : p a <;> simp
        | some d =>
            have had : order a d ≠ .gt := by
              rcases List.mem_cons.mp (List.mem_of_find?_eq_some hfound) with rfl | hd
              · exact hle
              · exact ne_gt_trans hle (hb d hd)
            cases hp : p a <;> simp [had]

/--
The first element of a sorted list with a property is the least one of those that have it, and of
those that rank equal the one that was given first.
-/
theorem find?_sortStable {p : α → Bool} {as : List α} {x : α}
    (h : (sortStable order as).find? p = some x) :
    ∃ before after, as = before ++ x :: after ∧
      (∀ y ∈ before, p y = true → order x y = .lt) ∧
        ∀ y ∈ after, p y = true → order x y ≠ .gt := by
  induction as generalizing x with
  | nil => cases h
  | cons a as ih =>
      rw [sortStable, find?_insertOrdered (pairwise_sortStable as)] at h
      cases hfound : (sortStable order as).find? p with
      | none =>
          rw [hfound] at h
          have hnone : ∀ y ∈ as, ¬p y = true := fun y hy =>
            List.find?_eq_none.mp hfound y ((perm_sortStable order as).mem_iff.mpr hy)
          obtain ⟨-, hax⟩ := Option.ite_none_right_eq_some.mp h
          obtain rfl := Option.some.inj hax
          exact ⟨[], as, rfl, List.forall_mem_nil _, fun y hy hp => absurd hp (hnone y hy)⟩
      | some b =>
          rw [hfound] at h
          obtain ⟨before, after, rfl, hbefore, hafter⟩ := ih hfound
          simp only at h
          split at h
          · rename_i hfirst
            obtain ⟨-, hab⟩ := Bool.and_eq_true_iff.mp hfirst
            have hab : order a b ≠ .gt := bne_iff_ne.mp hab
            obtain rfl := Option.some.inj h
            refine ⟨[], before ++ b :: after, rfl, List.forall_mem_nil _, fun y hy hp => ?_⟩
            rcases List.mem_append.mp hy with hy | hy
            · have hlt := hbefore y hy hp
              exact ne_gt_trans hab (by rw [hlt]; decide)
            · rcases List.mem_cons.mp hy with rfl | hy
              · exact hab
              · exact ne_gt_trans hab (hafter y hy hp)
          · rename_i hfirst
            obtain rfl := Option.some.inj h
            refine ⟨a :: before, after, rfl, List.forall_mem_cons.mpr ⟨fun hp => ?_, hbefore⟩, hafter⟩
            have hgt : order a b = .gt := by
              by_contra hne
              exact hfirst (Bool.and_eq_true_iff.mpr ⟨hp, bne_iff_ne.mpr hne⟩)
            exact Std.OrientedCmp.lt_of_gt hgt

end Sorting

section Runs

variable {α : Type}

/-- Repeated elements make no difference to what is found. -/
theorem find?_dropRepeats [DecidableEq α] (p : α → Bool) (as : List α) :
    (dropRepeats as).find? p = as.find? p := by
  fun_induction dropRepeats as with
  | case1 a rest ih =>
      rw [ih]
      cases hp : p a <;> simp [hp]
  | case2 a b rest hne ih => rw [List.find?_cons, ih, ← List.find?_cons]
  | case3 => rfl

theorem sublist_dropRepeats [DecidableEq α] (as : List α) : (dropRepeats as).Sublist as := by
  fun_induction dropRepeats as with
  | case1 a rest ih => exact ih.cons a
  | case2 a b rest hne ih => exact ih.cons_cons a
  | case3 => exact List.Sublist.refl _

theorem lookup_filter_ne {β : Type} {c d : Char} (hne : c ≠ d) (entries : List (Char × β)) :
    (entries.filter fun entry => entry.1 != d).lookup c = entries.lookup c := by
  induction entries with
  | nil => rfl
  | cons entry entries ih =>
      rw [List.filter_cons, List.lookup_cons]
      by_cases hentry : entry.1 = d
      · have hc : (c == entry.1) = false := beq_eq_false_iff_ne.mpr (hentry ▸ hne)
        rw [if_neg (by simp [hentry]), ih, hc]
      · rw [if_pos (bne_iff_ne.mpr hentry), List.lookup_cons, ih]

/-- The slot of a character is that of the first element that starts with it. -/
theorem lookup_firstSlots (firstChar? : α → Option Char) (slot : Nat) (as : List α) (c : Char) :
    (firstSlots firstChar? slot as).lookup c =
      (as.findIdx? fun a => firstChar? a == some c).map (slot + ·) := by
  induction as generalizing slot with
  | nil => rfl
  | cons a as ih =>
      have hlater : (firstSlots firstChar? (slot + 1) as).lookup c =
          ((as.findIdx? fun a => firstChar? a == some c).map (· + 1)).map (slot + ·) := by
        rw [ih, Option.map_map]
        exact congrArg (fun f => Option.map f _) (funext fun i => by simp; omega)
      rw [firstSlots, List.findIdx?_cons]
      cases hfirst : firstChar? a with
      | none => exact hlater
      | some d =>
          by_cases hsame : d = c
          · subst hsame
            simp
          · have hc : (c == d) = false := beq_eq_false_iff_ne.mpr (Ne.symm hsame)
            have hsome : (some d == some c) = false :=
              beq_eq_false_iff_ne.mpr fun h => hsame (Option.some.inj h)
            simp only
            rw [List.lookup_cons, hc, lookup_filter_ne (Ne.symm hsame), hlater, hsome]
            rfl

theorem find?_takeWhile (p q : α → Bool) (as : List α) :
    (as.takeWhile q).find? p = (as.takeWhile q).find? fun a => q a && p a := by
  induction as with
  | nil => rfl
  | cons a as ih =>
      rw [List.takeWhile_cons]
      split
      · rename_i hq
        rw [List.find?_cons, List.find?_cons, ih, hq, Bool.true_and]
      · rfl

section Convex

variable {order : α → α → Ordering} {q : α → Bool}
variable (hbetween : ∀ a b d, q a = true → q d = true → order a b ≠ .gt → order b d ≠ .gt →
  q b = true)

include hbetween

/-- In a sorted list no element of a kind stands behind the run of those in front. -/
theorem not_of_mem_dropWhile {as : List α} (hsorted : as.Pairwise fun a b => order a b ≠ .gt)
    (hhead : ∀ a ∈ as.head?, q a = true) {d : α} (hd : d ∈ as.dropWhile q) : ¬q d = true := by
  cases as with
  | nil => cases hd
  | cons a as =>
      have ha := hhead a rfl
      obtain ⟨hle, hrest⟩ := List.pairwise_cons.mp hsorted
      rw [List.dropWhile_cons, if_pos ha] at hd
      cases hdrop : as.dropWhile q with
      | nil =>
          rw [hdrop] at hd
          cases hd
      | cons b behind =>
          have hsublist : (b :: behind).Sublist as := hdrop ▸ List.dropWhile_sublist q
          have hb : ¬q b = true := by
            have hne : as.dropWhile q ≠ [] := by
              rw [hdrop]
              exact List.cons_ne_nil b behind
            simpa [hdrop] using List.head_dropWhile_not q hne
          rw [hdrop] at hd
          rcases List.mem_cons.mp hd with rfl | hd
          · exact hb
          · intro hq
            exact hb (hbetween a b d ha hq (hle b (hsublist.subset List.mem_cons_self))
              ((List.pairwise_cons.mp (hrest.sublist hsublist)).1 d hd))

/-- What is found in the run of the elements of a kind is what is found of that kind in the list. -/
theorem find?_run (p : α → Bool) {as : List α} (hsorted : as.Pairwise fun a b => order a b ≠ .gt)
    {slot : Nat} (hslot : as.findIdx? q = some slot) :
    ((as.drop slot).takeWhile q).find? p = as.find? fun a => q a && p a := by
  obtain ⟨hlt, hq, hbefore⟩ := List.findIdx?_eq_some_iff_getElem.mp hslot
  have htake : ((as.take slot).find? fun a => q a && p a) = none := by
    refine List.find?_eq_none.mpr fun a ha hp => ?_
    obtain ⟨i, hi, rfl⟩ := List.mem_take_iff_getElem.mp ha
    exact hbefore i (Nat.lt_of_lt_of_le hi (Nat.min_le_left _ _)) (Bool.and_eq_true_iff.mp hp).1
  have hdrop : (((as.drop slot).dropWhile q).find? fun a => q a && p a) = none := by
    refine List.find?_eq_none.mpr fun a ha hp => ?_
    refine not_of_mem_dropWhile hbetween (hsorted.sublist (List.drop_sublist slot as))
      (fun a ha => ?_) ha (Bool.and_eq_true_iff.mp hp).1
    rw [List.head?_drop, List.getElem?_eq_getElem hlt] at ha
    obtain rfl := Option.some.inj ha
    exact hq
  calc ((as.drop slot).takeWhile q).find? p
      = ((as.drop slot).takeWhile q ++ (as.drop slot).dropWhile q).find? fun a => q a && p a := by
        rw [List.find?_append, hdrop, Option.or_none, find?_takeWhile]
    _ = (as.take slot ++ as.drop slot).find? fun a => q a && p a := by
        rw [List.takeWhile_append_dropWhile, List.find?_append, htake, Option.none_or]
    _ = as.find? fun a => q a && p a := by rw [List.take_append_drop]

end Convex

end Runs
end RuleSetTable
end ExprLang
