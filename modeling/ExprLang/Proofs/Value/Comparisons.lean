import ExprLang.Proofs.Value.FloatOrder

/-!
# Comparisons of values

Numbers and strings are ordered; booleans and nulls can only be the same or not. Two integers are
compared exactly, any other two numbers as floating-point numbers, where an integer counts as the
nearest number of 53 significant bits. So `<` leads from the less to the greater values through both
types of numbers, but being equal does not: two integers that count as the same floating-point
number are both equal to it and not to each other.

Main definitions:
* `Number.order`: two integers are compared exactly, other numbers as floating-point numbers;
* `Operation.Compared`: in which order two values are, and by which rule;
* `Operation.Applies`, `Operation.Holds`: an operator gives a value, or the boolean true.

Main results:
* `Number.order_lt_trans`, `Number.order_eq_trans`: how far the order of numbers is transitive;
* `Operation.order_eq_ok_iff`: the rules are what `Operation.order` does;
* `Operation.binary_comparisons`: the laws of the comparison operators.
-/

namespace ExprLang

namespace Number

open Binary64 Operation

/-- The order of two numbers: integers are compared exactly. -/
def order : Number → Number → Option Ordering
  | int x, int y => some (compare x.toInt y.toInt)
  | m, n => compareFloats m.toFloat n.toFloat

/-- The value of the nearest floating-point number. -/
def units? (n : Number) : Option Int :=
  (parts n.toFloat).units?

/-- Two different integers become the same floating-point number. -/
def Merged (m n k : Number) : Prop :=
  ∃ (x z : Int64) (y : Float), m = int x ∧ n = float y ∧ k = int z ∧ x ≠ z ∧
    nearestInt x.toInt = nearestInt z.toInt

section Units

variable {m n k : Number} {p q : Int}

theorem units?_int (x : Int64) :
    (int x).units? = some (nearestInt x.toInt * units 1 0) := by
  refine units?_ofInt ?_
  have hlow := x.le_toInt
  have hhigh := x.toInt_lt
  omega

theorem units_one_pos : (0 : Int) < units 1 0 :=
  Int.ofNat_lt.mpr (units_pos Nat.one_pos 0)

theorem compareFloats_toFloat (m n : Number) :
    compareFloats m.toFloat n.toFloat = Option.map₂ compare m.units? n.units? :=
  compareFloats_eq _ _

/-- Beside two integers, numbers are compared by their floating-point values. -/
theorem order_cases (m n : Number) :
    (∃ x y, m = int x ∧ n = int y) ∨ order m n = Option.map₂ compare m.units? n.units? := by
  cases m with
  | int x =>
    cases n with
    | int y => exact .inl ⟨x, y, rfl, rfl⟩
    | float y => exact .inr (compareFloats_toFloat _ _)
  | float x => exact .inr (compareFloats_toFloat _ _)

theorem order_lt_of_units (hm : m.units? = some p) (hn : n.units? = some q) (hlt : p < q) :
    order m n = some .lt := by
  rcases order_cases m n with ⟨x, y, rfl, rfl⟩ | horder
  · rw [units?_int] at hm hn
    cases hm
    cases hn
    refine congrArg some (compare_lt_iff_lt.mpr (lt_of_not_ge fun hle => ?_))
    have hmono := Int.mul_le_mul_of_nonneg_right (nearestInt_mono hle) units_one_pos.le
    exact absurd hlt (not_lt.mpr hmono)
  · rw [horder, hm, hn, Option.map₂_some_some, compare_lt_iff_lt.mpr hlt]

theorem units_of_order_lt (h : order m n = some .lt) :
    ∃ p q, m.units? = some p ∧ n.units? = some q ∧
      (p < q ∨ p ≤ q ∧ ∃ x y, m = int x ∧ n = int y) := by
  rcases order_cases m n with ⟨x, y, rfl, rfl⟩ | horder
  · have hlt := compare_lt_iff_lt.mp (Option.some.inj h)
    refine ⟨_, _, units?_int x, units?_int y, .inr ⟨?_, x, y, rfl, rfl⟩⟩
    exact Int.mul_le_mul_of_nonneg_right (nearestInt_mono hlt.le) units_one_pos.le
  · rw [horder, Option.map₂_eq_some_iff] at h
    obtain ⟨p, q, hp, hq, hlt⟩ := h
    exact ⟨p, q, hp, hq, .inl (compare_lt_iff_lt.mp hlt)⟩

theorem units_of_order_eq (h : order m n = some .eq) :
    ∃ p, m.units? = some p ∧ n.units? = some p := by
  rcases order_cases m n with ⟨x, y, rfl, rfl⟩ | horder
  · have heq := compare_eq_iff_eq.mp (Option.some.inj h)
    refine ⟨_, units?_int x, ?_⟩
    rw [units?_int, heq]
  · rw [horder, Option.map₂_eq_some_iff] at h
    obtain ⟨p, q, hp, hq, heq⟩ := h
    obtain rfl := compare_eq_iff_eq.mp heq
    exact ⟨p, hp, hq⟩

end Units

section Laws

variable {m n k : Number}

theorem order_swap (m n : Number) : order n m = (order m n).map Ordering.swap := by
  rcases order_cases n m with ⟨y, x, rfl, rfl⟩ | hback
  · exact congrArg some Std.OrientedCmp.eq_swap
  · rcases order_cases m n with ⟨x, y, rfl, rfl⟩ | horder
    · exact congrArg some Std.OrientedCmp.eq_swap
    · rw [hback, horder, Option.map_map₂, Option.map₂_swap]
      exact congrArg (fun f => Option.map₂ f m.units? n.units?)
        (funext fun p => funext fun q => Std.OrientedCmp.eq_swap)

/-- From the less to the greater numbers, integers or not. -/
theorem order_lt_trans (hmn : order m n = some .lt) (hnk : order n k = some .lt) :
    order m k = some .lt := by
  obtain ⟨p, q, hp, hq, hpq⟩ := units_of_order_lt hmn
  obtain ⟨q', r, hq', hr, hqr⟩ := units_of_order_lt hnk
  obtain rfl := Option.some.inj (hq.symm.trans hq')
  rcases hpq with hpq | ⟨hpq, x, y, rfl, rfl⟩
  · exact order_lt_of_units hp hr (by omega)
  · rcases hqr with hqr | ⟨hqr, y', z, hy, rfl⟩
    · exact order_lt_of_units hp hr (by omega)
    · -- three integers are compared exactly
      obtain rfl := Number.int.inj hy
      have hxy := compare_lt_iff_lt.mp (Option.some.inj hmn)
      have hyz := compare_lt_iff_lt.mp (Option.some.inj hnk)
      exact congrArg some (compare_lt_iff_lt.mpr (hxy.trans hyz))

/-- Numbers that are equal to the same one are equal, unless they are two merged integers. -/
theorem order_eq_trans (hmn : order m n = some .eq) (hnk : order n k = some .eq) :
    order m k = some .eq ∨ Merged m n k := by
  obtain ⟨p, hp, hq⟩ := units_of_order_eq hmn
  obtain ⟨q', hq', hr⟩ := units_of_order_eq hnk
  obtain rfl := Option.some.inj (hq.symm.trans hq')
  rcases order_cases m k with ⟨x, z, rfl, rfl⟩ | horder
  · by_cases hxz : x = z
    · subst hxz
      exact .inl (congrArg some (compare_eq_iff_eq.mpr rfl))
    · cases n with
      | int y =>
        have hxy := compare_eq_iff_eq.mp (Option.some.inj hmn)
        have hyz := compare_eq_iff_eq.mp (Option.some.inj hnk)
        exact .inl (congrArg some (compare_eq_iff_eq.mpr (hxy.trans hyz)))
      | float y =>
        rw [units?_int] at hp hr
        have hsame := Int.eq_of_mul_eq_mul_right units_one_pos.ne'
          (Option.some.inj (hp.trans hr.symm))
        exact .inr ⟨x, z, y, rfl, rfl, rfl, hxz, hsame⟩
  · rw [horder, hp, hr, Option.map₂_some_some, compare_eq_iff_eq.mpr rfl]
    exact .inl rfl

end Laws

end Number

namespace Value

variable {a : Value}

theorem eq_int {x : Int64} (h : a.number? = some (.int x)) : a = .int x := by
  cases a with
  | int y => cases h; rfl
  | _ => cases h

theorem eq_float {x : Float} (h : a.number? = some (.float x)) : a = .float x := by
  cases a with
  | float y => cases h; rfl
  | _ => cases h

end Value

namespace Operation

/-- How two values are compared: as numbers, as strings, or only for being the same. -/
inductive Compared (op : Operator) : Value → Value → Option Ordering → Prop
  | numbers {a b : Value} {m n : Number}
      (hm : a.number? = some m)
      (hn : b.number? = some n) :
      Compared op a b (m.order n)
  | strings (s t : String) :
      Compared op (.str s) (.str t) (some (compare s t))
  | booleans (x y : Bool)
      (hop : isEquality op = true) :
      Compared op (.bool x) (.bool y) (some (compare x y))
  | nulls
      (hop : isEquality op = true) :
      Compared op .null .null (some .eq)

section Rules

variable {op op' : Operator} {a b c : Value} {relation : Option Ordering}

theorem order_of_number? {m n : Number} (hm : a.number? = some m) (hn : b.number? = some n) :
    order op a b = .ok (m.order n) := by
  cases a with
  | int x | float x =>
    cases b with
    | int y | float y =>
      cases hm
      cases hn
      rfl
    | _ => cases hn
  | _ => cases hm

/-- Two values are in an order where a rule says so. -/
theorem order_eq_ok_iff : order op a b = .ok relation ↔ Compared op a b relation := by
  constructor
  · intro h
    cases a with
    | int x | float x =>
      cases b with
      | int y | float y =>
        rw [order_of_number? rfl rfl] at h
        cases h
        exact .numbers rfl rfl
      | _ => cases h
    | str s =>
      cases b with
      | str t => cases h; exact .strings s t
      | _ => cases h
    | bool x =>
      cases b with
      | bool y =>
        rw [order] at h
        split_ifs at h with hop
        cases h
        exact .booleans x y hop
      | _ => cases h
    | null =>
      cases b with
      | null =>
        rw [order] at h
        split_ifs at h with hop
        cases h
        exact .nulls hop
      | _ => cases h
    | _ => cases h
  · intro h
    cases h with
    | numbers hm hn => exact order_of_number? hm hn
    | strings s t => rfl
    | booleans x y hop => exact if_pos hop
    | nulls hop => exact if_pos hop

theorem Compared.swap (h : Compared op a b relation) :
    Compared op b a (relation.map Ordering.swap) := by
  cases h with
  | @numbers _ _ m n hm hn =>
    rw [← Number.order_swap m n]
    exact .numbers hn hm
  | strings s t =>
    rw [Option.map_some, ← Std.OrientedCmp.eq_swap]
    exact .strings t s
  | booleans x y hop =>
    rw [Option.map_some, ← Std.OrientedCmp.eq_swap]
    exact .booleans y x hop
  | nulls hop => exact .nulls hop

/-- Values that are in an order are so for every operator, and all of them are for equality. -/
theorem Compared.of_operator (h : Compared op a b relation)
    (hop' : isEquality op = true → isEquality op' = true) : Compared op' a b relation := by
  cases h with
  | numbers hm hn => exact .numbers hm hn
  | strings s t => exact .strings s t
  | booleans x y hop => exact .booleans x y (hop' hop)
  | nulls hop => exact .nulls (hop' hop)

/-- From the less to the greater values. -/
theorem Compared.lt_trans {second : Option Ordering} (hab : Compared op a b relation)
    (hbc : Compared op b c second) (hless : relation = some .lt) (hless' : second = some .lt) :
    Compared op a c (some .lt) := by
  cases hab with
  | numbers hm hn =>
    cases hbc with
    | numbers hn' hk =>
      cases hn.symm.trans hn'
      rw [← Number.order_lt_trans hless hless']
      exact .numbers hm hk
    | _ => cases hn
  | strings s t =>
    cases hbc with
    | numbers ht _ => cases ht
    | strings _ u =>
      have htrans := Std.TransCmp.lt_trans (Option.some.inj hless) (Option.some.inj hless')
      rw [← htrans]
      exact .strings s u
  | booleans x y hop =>
    cases hbc with
    | numbers hy _ => cases hy
    | booleans _ z =>
      have htrans := Std.TransCmp.lt_trans (Option.some.inj hless) (Option.some.inj hless')
      rw [← htrans]
      exact .booleans x z hop
  | nulls hop => cases hless

/-- Values that are equal to the same one are equal, unless they are two merged integers. -/
theorem Compared.eq_trans {second : Option Ordering} (hab : Compared op a b relation)
    (hbc : Compared op b c second) (hsame : relation = some .eq) (hsame' : second = some .eq) :
    Compared op a c (some .eq) ∨ ∃ m n k : Number,
      a.number? = some m ∧ b.number? = some n ∧ c.number? = some k ∧ m.Merged n k := by
  cases hab with
  | numbers hm hn =>
    cases hbc with
    | numbers hn' hk =>
      cases hn.symm.trans hn'
      rcases Number.order_eq_trans hsame hsame' with htrans | hmerged
      · rw [← htrans]
        exact .inl (.numbers hm hk)
      · exact .inr ⟨_, _, _, hm, hn, hk, hmerged⟩
    | _ => cases hn
  | strings s t =>
    cases hbc with
    | numbers ht _ => cases ht
    | strings _ u =>
      have htrans := Std.TransCmp.eq_trans (Option.some.inj hsame) (Option.some.inj hsame')
      rw [← htrans]
      exact .inl (.strings s u)
  | booleans x y hop =>
    cases hbc with
    | numbers hy _ => cases hy
    | booleans _ z =>
      have htrans := Std.TransCmp.eq_trans (Option.some.inj hsame) (Option.some.inj hsame')
      rw [← htrans]
      exact .inl (.booleans x z hop)
  | nulls hop =>
    cases hbc with
    | numbers hnull _ => cases hnull
    | nulls => exact .inl (.nulls hop)

end Rules

section Operators

variable {op op' : Operator} {a b c : Value}

/-- The operator gives a value for the two operands. -/
def Applies (op : Operator) (a b : Value) : Prop :=
  ∃ result, binary op a b = .ok result

/-- The operator gives the boolean true for the two operands. -/
def Holds (op : Operator) (a b : Value) : Prop :=
  binary op a b = .ok (.bool true)

theorem binary_of_isComparison (hop : op.isComparison = true) (a b : Value) :
    binary op a b = comparison op a b := by
  cases op <;> first | rfl | cases hop

theorem binary_of_compared (hop : op.isComparison = true) {relation : Option Ordering}
    (h : Compared op a b relation) : binary op a b = .ok (.bool (holds op relation)) := by
  rw [binary_of_isComparison hop, comparison, order_eq_ok_iff.mpr h]
  rfl

theorem applies_iff (hop : op.isComparison = true) :
    Applies op a b ↔ ∃ relation, Compared op a b relation := by
  constructor
  · rintro ⟨result, h⟩
    rw [binary_of_isComparison hop, comparison] at h
    cases horder : order op a b with
    | ok relation => exact ⟨relation, order_eq_ok_iff.mp horder⟩
    | error e =>
      rw [horder] at h
      cases h
  · rintro ⟨relation, h⟩
    exact ⟨_, binary_of_compared hop h⟩

theorem Applies.of_operator (h : Applies op a b) (hop : op.isComparison = true)
    (hop' : op'.isComparison = true) (heq : isEquality op = true → isEquality op' = true) :
    Applies op' a b := by
  obtain ⟨relation, hrelation⟩ := (applies_iff hop).mp h
  exact (applies_iff hop').mpr ⟨relation, hrelation.of_operator heq⟩

theorem Applies.swap (h : Applies op a b) (hop : op.isComparison = true) : Applies op b a := by
  obtain ⟨relation, hrelation⟩ := (applies_iff hop).mp h
  exact (applies_iff hop).mpr ⟨_, hrelation.swap⟩

theorem holds_iff (hop : op.isComparison = true) :
    Holds op a b ↔ ∃ relation, Compared op a b relation ∧ holds op relation = true := by
  constructor
  · intro h
    obtain ⟨relation, hrelation⟩ := (applies_iff hop).mp ⟨_, h⟩
    have hresult := (binary_of_compared hop hrelation).symm.trans h
    exact ⟨relation, hrelation, by simpa using hresult⟩
  · rintro ⟨relation, hrelation, htrue⟩
    rw [Holds, binary_of_compared hop hrelation, htrue]

theorem holds_greater_swap (relation : Option Ordering) :
    holds .greater (relation.map Ordering.swap) = holds .less relation := by
  rcases relation with _ | _ | _ | _ <;> rfl

theorem holds_greaterEq_swap (relation : Option Ordering) :
    holds .greaterEq (relation.map Ordering.swap) = holds .lessEq relation := by
  rcases relation with _ | _ | _ | _ <;> rfl

theorem holds_less_iff : Holds .less a b ↔ Compared .less a b (some .lt) := by
  rw [holds_iff rfl]
  simp [holds]

theorem holds_equal_iff : Holds .equal a b ↔ Compared .equal a b (some .eq) := by
  rw [holds_iff rfl]
  simp [holds]

/--
The comparison operators describe one order. Which of them give a value does not depend on the order
of the operands, and the results fit together. Only equality is not always handed on: two different
integers are equal to the floating-point number that both of them become.
-/
theorem binary_comparisons (a b c : Value) :
    (Applies .equal a b ↔ Applies .notEqual a b) ∧
    (∀ op ∈ [Operator.greater, .lessEq, .greaterEq], Applies op a b ↔ Applies .less a b) ∧
    (∀ op : Operator, op.isComparison = true → (Applies op a b ↔ Applies op b a)) ∧
    (Applies .equal a b → ∃ same : Bool,
      binary .equal a b = .ok (.bool same) ∧ binary .notEqual a b = .ok (.bool !same)) ∧
    (Applies .less a b → ∃ less same : Bool,
      binary .less a b = .ok (.bool less) ∧ binary .greater b a = .ok (.bool less) ∧
      binary .equal a b = .ok (.bool same) ∧
      binary .lessEq a b = .ok (.bool (less || same)) ∧
      binary .greaterEq b a = .ok (.bool (less || same))) ∧
    (Holds .equal a b → Holds .equal b c → Holds .equal a c ∨
      ∃ (x z : Int64) (y : Float), a = .int x ∧ b = .float y ∧ c = .int z ∧ x ≠ z ∧
        Binary64.nearestInt x.toInt = Binary64.nearestInt z.toInt) ∧
    (Holds .less a b → Holds .less b c → Holds .less a c) := by
  refine ⟨⟨?_, ?_⟩, ?_, ?_, ?_, ?_, ?_, ?_⟩
  · exact fun h => h.of_operator rfl rfl fun _ => rfl
  · exact fun h => h.of_operator rfl rfl fun _ => rfl
  · intro op hop
    obtain ⟨hcomparison, hordered⟩ : op.isComparison = true ∧ isEquality op = false := by
      fin_cases hop <;> exact ⟨rfl, rfl⟩
    refine ⟨fun h => h.of_operator hcomparison rfl ?_, fun h => h.of_operator rfl hcomparison nofun⟩
    rw [hordered]
    exact nofun
  · exact fun op hop => ⟨fun h => h.swap hop, fun h => h.swap hop⟩
  · intro h
    obtain ⟨relation, hrelation⟩ := (applies_iff rfl).mp h
    refine ⟨_, binary_of_compared rfl hrelation, ?_⟩
    exact binary_of_compared rfl (hrelation.of_operator fun _ => rfl)
  · intro h
    obtain ⟨relation, hrelation⟩ := (applies_iff rfl).mp h
    refine ⟨_, relation == some .eq, binary_of_compared rfl hrelation, ?_, ?_, ?_, ?_⟩
    · rw [binary_of_compared rfl (hrelation.swap.of_operator nofun), holds_greater_swap]
    · exact binary_of_compared rfl (hrelation.of_operator nofun)
    · exact binary_of_compared rfl (hrelation.of_operator nofun)
    · rw [binary_of_compared rfl (hrelation.swap.of_operator nofun), holds_greaterEq_swap]
      rfl
  · intro hab hbc
    rw [holds_equal_iff] at hab hbc ⊢
    refine (hab.eq_trans hbc rfl rfl).imp_right ?_
    rintro ⟨_, _, _, hm, hn, hk, x, z, y, rfl, rfl, rfl, hne, hsame⟩
    exact ⟨x, z, y, Value.eq_int hm, Value.eq_float hn, Value.eq_int hk, hne, hsame⟩
  · intro hab hbc
    rw [holds_less_iff] at hab hbc ⊢
    exact hab.lt_trans hbc rfl rfl

/-- A floating-point number between two integers. -/
theorem binary_comparisons_between :
    Holds .less (.int 1) (.float 1.5) ∧ Holds .less (.float 1.5) (.int 2) ∧
      Holds .less (.int 1) (.int 2) ∧
      ∃ same : Bool, binary .equal (.int 1) (.float 1.5) = .ok (.bool same) ∧
        binary .notEqual (.int 1) (.float 1.5) = .ok (.bool !same) := by
  obtain ⟨-, -, -, hequal, -, -, htrans⟩ := binary_comparisons (.int 1) (.float 1.5) (.int 2)
  exact ⟨rfl, rfl, htrans rfl rfl, hequal ⟨_, rfl⟩⟩

/-- Two integers that become the same floating-point number. -/
theorem equal_not_transitive :
    Holds .equal (.int 9007199254740993) (.float 9007199254740992.0) ∧
      Holds .equal (.float 9007199254740992.0) (.int 9007199254740992) ∧
      ¬ Holds .equal (.int 9007199254740993) (.int 9007199254740992) := by
  refine ⟨rfl, rfl, ?_⟩
  intro h
  cases h

end Operators

end Operation
end ExprLang
