import ExprLang.Proofs.RuleSet.Sorting

/-!
# The order of delimiters

A list can be sorted by a comparison only if that is a total preorder. Delimiters are compared in
several ways: by the first characters in which their texts differ, by the sizes of the texts if one
begins the other, and for equal texts by their predicates and their roles. Of three delimiters each
pair may be compared in another way. What makes the order transitive is that the first two ways are
one order of texts, in which the end of a text comes behind all characters.

Main definitions:
* `Delimiter.TextBefore`: which of two texts comes first;
* `Delimiter.Before`: which of two delimiters comes first.

Main results:
* `Delimiter.textOrder_eq_lt_iff`: the order of texts;
* `Delimiter.tableOrder_eq_lt_iff_before`, `Delimiter.tableOrder_eq_eq_iff`: the order of
  delimiters, and which of them rank equal;
* `Delimiter.tableOrder_preorder`: the order of delimiters is a total preorder, in which a text
  comes before its beginnings.
-/

namespace ExprLang
namespace Delimiter

section Specification

/--
Does a text come before another one? It has the lesser character where they differ first, or it
goes on where the other one ends.
-/
def TextBefore (as bs : List Char) : Prop :=
  (∃ shared a b, a < b ∧ shared ++ [a] <+: as ∧ shared ++ [b] <+: bs) ∨ bs <+: as ∧ bs ≠ as

/-- Does a delimiter come before another one? Its text does, or for one text it outranks it. -/
def Before (a b : Delimiter) : Prop :=
  TextBefore a.text b.text ∨ a.text = b.text ∧ a.Outranks b

end Specification

section Texts

variable {a b : Char} {as bs : List Char}

theorem not_textBefore_nil_left : ¬TextBefore [] bs := by
  rintro (⟨shared, a, b, -, ha, -⟩ | ⟨hbegins, hne⟩)
  · have hne : shared ++ [a] ≠ [] := by simp
    exact hne (List.prefix_nil.mp ha)
  · exact hne (List.prefix_nil.mp hbegins)

theorem textBefore_nil_right : TextBefore (a :: as) [] :=
  .inr ⟨List.nil_prefix, (List.cons_ne_nil a as).symm⟩

/-- Texts are decided by their first characters, or by what follows if these agree. -/
theorem textBefore_cons_cons :
    TextBefore (a :: as) (b :: bs) ↔ a < b ∨ a = b ∧ TextBefore as bs := by
  constructor
  · rintro (⟨shared, c, d, hlt, hc, hd⟩ | ⟨hbegins, hne⟩)
    · cases shared with
      | nil =>
          rw [List.nil_append, List.cons_prefix_cons] at hc hd
          exact .inl (hc.1 ▸ hd.1 ▸ hlt)
      | cons first shared =>
          rw [List.cons_append, List.cons_prefix_cons] at hc hd
          exact .inr ⟨hc.1.symm.trans hd.1, .inl ⟨shared, c, d, hlt, hc.2, hd.2⟩⟩
    · obtain ⟨rfl, hrest⟩ := List.cons_prefix_cons.mp hbegins
      exact .inr ⟨rfl, .inr ⟨hrest, fun h => hne (h ▸ rfl)⟩⟩
  · rintro (hlt | ⟨rfl, ⟨shared, c, d, hlt, hc, hd⟩ | ⟨hbegins, hne⟩⟩)
    · exact .inl ⟨[], a, b, hlt, by simp, by simp⟩
    · exact .inl ⟨a :: shared, c, d, hlt, by simpa using hc, by simpa using hd⟩
    · exact .inr ⟨List.cons_prefix_cons.mpr ⟨rfl, hbegins⟩, fun h => hne (List.cons.inj h).2⟩

theorem textOrder_eq_lt_iff : textOrder as bs = .lt ↔ TextBefore as bs := by
  induction as generalizing bs with
  | nil =>
      refine iff_of_false ?_ not_textBefore_nil_left
      cases bs <;> simp [textOrder]
  | cons a as ih =>
      cases bs with
      | nil => exact iff_of_true rfl textBefore_nil_right
      | cons b bs =>
          have hchars : compare a b = .lt ↔ a < b := compareOfLessAndEq_eq_lt
          rw [textOrder, Ordering.then_eq_lt, hchars, Std.LawfulEqCmp.compare_eq_iff_eq, ih,
            textBefore_cons_cons]

/-- Only equal texts rank equal. -/
instance : Std.LawfulEqCmp textOrder where
  eq_of_compare {as bs} h := by
    induction as generalizing bs with
    | nil =>
        cases bs with
        | nil => rfl
        | cons b bs => cases h
    | cons a as ih =>
        cases bs with
        | nil => cases h
        | cons b bs =>
            obtain ⟨hchars, hrest⟩ := Ordering.then_eq_eq.mp h
            rw [Std.LawfulEqCmp.compare_eq_iff_eq.mp hchars, ih hrest]

theorem not_textBefore_self : ¬TextBefore as as := by
  intro h
  have hself : textOrder as as = .eq := Std.ReflCmp.compare_self
  exact absurd (hself.symm.trans (textOrder_eq_lt_iff.mpr h)) (by decide)

end Texts

section Order

variable (a b c : Delimiter)

/-- Delimiters that rank equal agree in their texts, in having a predicate and in their roles. -/
theorem tableOrder_eq_eq_iff : a.tableOrder b = .eq ↔
    a.text = b.text ∧ a.predicate.isSome = b.predicate.isSome ∧ a.roleRank = b.roleRank := by
  rw [tableOrder_eq]
  simp only [compareLex, Ordering.byKey, Ordering.then_eq_eq, Std.LawfulEqCmp.compare_eq_iff_eq]
  rw [eq_comm (a := b.predicate.isSome)]

theorem tableOrder_eq_lt_iff_before : a.tableOrder b = .lt ↔ a.Before b := by
  unfold Before
  by_cases htexts : a.text = b.text
  · have hranks : a.tableOrder b = .lt ↔ a.Outranks b :=
      tableOrder_eq_lt_iff (htexts ▸ List.prefix_rfl) List.prefix_rfl
    rw [hranks, htexts]
    simp [not_textBefore_self]
  · have hne : textOrder a.text b.text ≠ .eq := mt Std.LawfulEqCmp.compare_eq_iff_eq.mp htexts
    rw [tableOrder_eq, ← textOrder_eq_lt_iff]
    simp only [compareLex, Ordering.byKey, Ordering.then_eq_lt, hne, htexts, false_and, or_false]

/--
Two delimiters compare in opposite ways from the two sides, and the order is transitive, however
each of the three pairs is decided. Delimiters rank equal only if they have one text, both of them a
predicate or neither, and roles of one rank. A delimiter comes before another one if its text does,
or if for one text it alone has a predicate, or neither or both have one and its role comes first;
so it comes first whenever its text goes on where that of the other one ends.
-/
theorem tableOrder_preorder :
    b.tableOrder a = (a.tableOrder b).swap ∧
      (a.tableOrder b ≠ .gt → b.tableOrder c ≠ .gt → a.tableOrder c ≠ .gt) ∧
      (a.tableOrder b = .eq ↔ a.text = b.text ∧
        a.predicate.isSome = b.predicate.isSome ∧ a.roleRank = b.roleRank) ∧
      (a.tableOrder b = .lt ↔ a.Before b) ∧
      (b.text <+: a.text → b.text ≠ a.text → a.tableOrder b = .lt) := by
  refine ⟨Std.OrientedCmp.eq_swap, RuleSetTable.ne_gt_trans, a.tableOrder_eq_eq_iff b,
    a.tableOrder_eq_lt_iff_before b, fun hbegins hne => ?_⟩
  have htexts : TextBefore a.text b.text := .inr ⟨hbegins, hne⟩
  exact (a.tableOrder_eq_lt_iff_before b).mpr (.inl htexts)

/-- The first two texts are compared by their sizes, the other pairs by their characters. -/
theorem tableOrder_preorder_accents :
    let longer := plain "né"
    let beginning := plain "n"
    let accented := plain "ñ"
    longer.tableOrder beginning ≠ .gt ∧ beginning.tableOrder accented ≠ .gt ∧
      beginning.text <+: longer.text ∧ beginning.text ≠ longer.text ∧
      longer.tableOrder beginning = .lt ∧ longer.tableOrder accented ≠ .gt := by
  intro longer beginning accented
  obtain ⟨-, htrans, -, -, hlonger⟩ := tableOrder_preorder longer beginning accented
  have hle : longer.tableOrder beginning ≠ .gt := by decide +kernel
  have hle' : beginning.tableOrder accented ≠ .gt := by decide +kernel
  have hbegins : beginning.text <+: longer.text := by decide +kernel
  have hne : beginning.text ≠ longer.text := by decide +kernel
  exact ⟨hle, hle', hbegins, hne, hlonger hbegins hne, htrans hle hle'⟩

end Order

end Delimiter
end ExprLang
