import ExprLang.Proofs.Value.Display
import ExprLang.Value.Operation

/-!
# Arithmetic on integers

The sum, the difference, the product, the remainder and the power of two integers are integers.
An operator gives that integer if it has 64 bits, and a floating-point number if it has not.

There are two exceptions, both with small results: the remainder of the least integer by `-1`, for
which the quotient has no 64 bits, and powers of `0`, `1` and `-1` whose exponent has no 32 bits.
There the operators give a floating-point number as well.

Main definitions:
* `Operation.exactResult?`: the exact result of an operator on integers;
* `Operation.Exact`: what an operator gives whose exact result is an integer.

Main results:
* `Operation.exact_binary`: an operator that looks for its exact result finds it;
* `Operation.binary_integers`: sums, differences, products and remainders;
* `Operation.binary_power`: powers.
-/

namespace ExprLang

namespace Decimal

variable {r : Int}

theorem fits?_eq_some {n : Int64} : fits? r = some n ↔ n.toInt = r := by
  constructor
  · intro h
    unfold fits? at h
    split at h
    · rename_i hrange
      obtain rfl := Option.some.inj h
      exact Int64.toInt_ofInt_of_le hrange.1 (Int.lt_add_one_of_le hrange.2)
    · cases h
  · rintro rfl
    exact fits?_toInt n

theorem fits?_eq_none : fits? r = none ↔ ∀ n : Int64, n.toInt ≠ r := by
  rw [Option.eq_none_iff_forall_not_mem]
  exact forall_congr' fun n => not_congr (Option.mem_def.trans fits?_eq_some)

/-- The integers between the least and the greatest one of 64 bits have 64 bits. -/
theorem exists_toInt_eq (hlow : -2 ^ 63 ≤ r) (hhigh : r < 2 ^ 63) : ∃ n : Int64, n.toInt = r :=
  ⟨Int64.ofInt r, Int64.toInt_ofInt_of_le hlow hhigh⟩

end Decimal

namespace Operation

open Decimal

/-- The exact result of an operator on integers, if there is one and it is an integer. -/
def exactResult? (op : Operator) (a b : Int) : Option Int :=
  match op with
  | .add => some (a + b)
  | .subtract => some (a - b)
  | .multiply => some (a * b)
  | .modulus => if b = 0 then none else some (a.tmod b)
  | .power => if b < 0 then none else some (a ^ b.toNat)
  | _ => none

/-- The integer `r` if it has 64 bits, and a floating-point number only if it has not. -/
inductive Exact (r : Int) : Except ResolveError Value → Prop
  | int (n : Int64) (hn : n.toInt = r) : Exact r (.ok (.int n))
  | float (z : Float) (hnone : ∀ n : Int64, n.toInt ≠ r) : Exact r (.ok (.float z))

variable {op : Operator} {x y : Int64} {r : Int}

section Exactness

variable {result : Except ResolveError Value}

theorem Exact.eq_int (h : Exact r result) {n : Int64} (hn : n.toInt = r) :
    result = .ok (.int n) := by
  cases h with
  | int m hm => rw [Int64.toInt_inj.mp (hm.trans hn.symm)]
  | float _ hnone => exact absurd hn (hnone n)

theorem Exact.exists_float (h : Exact r result) (hnone : ∀ n : Int64, n.toInt ≠ r) :
    ∃ z, result = .ok (.float z) := by
  cases h with
  | int n hn => exact absurd hn (hnone n)
  | float z => exact ⟨z, rfl⟩

/-- On floating-point numbers an operator does not fail where it has an exact result. -/
theorem exists_onFloats_eq (hexact : exactResult? op x.toInt y.toInt = some r) (a b : Float) :
    ∃ z, onFloats op (Number.int y).isZero a b = .ok (.float z) := by
  cases op with
  | add => exact ⟨_, rfl⟩
  | subtract => exact ⟨_, rfl⟩
  | multiply => exact ⟨_, rfl⟩
  | power => exact ⟨_, rfl⟩
  | modulus =>
      have hne : y.toInt ≠ 0 := fun hzero => by simp [exactResult?, hzero] at hexact
      have hzero : (Number.int y).isZero = false :=
        beq_eq_false_iff_ne.mpr fun h => hne (congrArg Int64.toInt h)
      exact ⟨_, if_neg (Bool.eq_false_iff.mp hzero)⟩
  | _ => cases hexact

/-- An operator that has an exact result on integers is one on numbers. -/
theorem binary_int (hexact : exactResult? op x.toInt y.toInt = some r) :
    binary op (.int x) (.int y) = arithmetic op (.int x) (.int y) := by
  cases op with
  | add => rfl
  | subtract => rfl
  | multiply => rfl
  | power => rfl
  | modulus => rfl
  | _ => cases hexact

/-- An operator that looks for its exact result among the integers of 64 bits finds it. -/
theorem exact_binary (hexact : exactResult? op x.toInt y.toInt = some r)
    (hfound : onIntegers? op x.toInt y.toInt = Value.ofInt? r) :
    Exact r (binary op (.int x) (.int y)) := by
  rw [binary_int hexact]
  unfold arithmetic
  simp only [hfound, Value.ofInt?]
  cases hfits : fits? r with
  | some n => exact .int n (fits?_eq_some.mp hfits)
  | none =>
      obtain ⟨z, hz⟩ := exists_onFloats_eq hexact (Number.int x).toFloat (Number.int y).toFloat
      rw [Option.map_none, hz]
      exact .float z (fits?_eq_none.mp hfits)

end Exactness

section Remainders

/-- The quotient of two integers of 64 bits has 64 bits, but for that of the least one by `-1`. -/
theorem exists_toInt_eq_tdiv (hy : y.toInt ≠ 0) (hleast : ¬(x = Int64.minValue ∧ y = -1)) :
    ∃ n : Int64, n.toInt = x.toInt.tdiv y.toInt := by
  have hlow := x.le_toInt
  have hhigh := x.toInt_lt
  by_cases hone : y.toInt.natAbs ≤ 1
  · have hcases : y.toInt = 1 ∨ y.toInt = -1 := by omega
    rcases hcases with h | h
    · exact ⟨x, by rw [h, Int.tdiv_one]⟩
    · have hx : x.toInt ≠ -2 ^ 63 := fun hx => hleast
        ⟨Int64.toInt_inj.mp (hx.trans Int64.toInt_minValue.symm), Int64.toInt_inj.mp h⟩
      rw [h, Int.tdiv_neg, Int.tdiv_one]
      exact exists_toInt_eq (by omega) (by omega)
  · have hhalf : (x.toInt.tdiv y.toInt).natAbs ≤ x.toInt.natAbs / 2 := by
      rw [Int.natAbs_tdiv]
      exact Nat.div_le_div_left (Nat.lt_of_not_le hone) (by decide)
    exact exists_toInt_eq (by omega) (by omega)

theorem onIntegers?_modulus (hy : y.toInt ≠ 0) (hleast : ¬(x = Int64.minValue ∧ y = -1)) :
    onIntegers? .modulus x.toInt y.toInt = Value.ofInt? (x.toInt.tmod y.toInt) := by
  obtain ⟨n, hn⟩ := exists_toInt_eq_tdiv hy hleast
  have hquotient : ¬(fits? (x.toInt.tdiv y.toInt)).isNone := by
    rw [fits?_eq_some.mpr hn]
    exact Bool.false_ne_true
  exact if_neg (not_or.mpr ⟨hy, hquotient⟩)

end Remainders

section Powers

/-- Powers of the integers `0`, `1` and `-1` depend on the exponent's parity only. -/
theorem pow_of_natAbs_le_one {a : Int} (ha : a.natAbs ≤ 1) (k : Nat) :
    a ^ k = if k = 0 then 1 else if k % 2 = 0 then a * a else a := by
  have hcases : a = 0 ∨ a = 1 ∨ a = -1 := by omega
  by_cases hk : k = 0
  · simp [hk]
  · rcases hcases with rfl | rfl | rfl
    · simp [hk]
    · simp [hk]
    · rcases Nat.even_or_odd k with heven | hodd
      · simp [hk, heven.neg_one_pow, Nat.even_iff.mp heven]
      · simp [hk, hodd.neg_one_pow, Nat.odd_iff.mp hodd]

/-- Other powers have no 64 bits if the exponent is 64 or more. -/
theorem toInt_ne_pow {a : Int} (ha : 1 < a.natAbs) {k : Nat} (hk : 64 ≤ k) (n : Int64) :
    n.toInt ≠ a ^ k := by
  intro heq
  have hlarge : 2 ^ 64 ≤ (a ^ k).natAbs := by
    rw [Int.natAbs_pow]
    calc 2 ^ 64 ≤ 2 ^ k := Nat.pow_le_pow_right (by decide) hk
      _ ≤ a.natAbs ^ k := Nat.pow_le_pow_left ha k
  have hlow := n.le_toInt
  have hhigh := n.toInt_lt
  rw [← heq] at hlarge
  omega

theorem power?_eq (a : Int) (k : Nat) : power? a k = Value.ofInt? (a ^ k) := by
  unfold power?
  split
  · rename_i ha
    rw [pow_of_natAbs_le_one ha]
  · rename_i ha
    split
    · rfl
    · rename_i hk
      have hnone := fits?_eq_none.mpr (toInt_ne_pow (Nat.lt_of_not_le ha) (Nat.le_of_not_lt hk))
      rw [Value.ofInt?, hnone]
      rfl

/-- A power is looked for if its exponent has 32 bits, and else there is none to be found. -/
theorem onIntegers?_power {a b : Int} (hb : 0 ≤ b)
    (hlimit : b ≤ exponentLimit ∨ 1 < a.natAbs) :
    onIntegers? .power a b = Value.ofInt? (a ^ b.toNat) := by
  by_cases hle : b ≤ exponentLimit
  · exact (if_pos ⟨hb, hle⟩).trans (power?_eq a b.toNat)
  · have hk : 64 ≤ b.toNat := by
      unfold exponentLimit at hle
      omega
    have hnone := fits?_eq_none.mpr (toInt_ne_pow (hlimit.resolve_left hle) hk)
    rw [Value.ofInt?, hnone]
    exact if_neg fun h => hle h.2

end Powers

/--
Sums, differences, products and remainders of integers of 64 bits: only a remainder by zero fails.
In any other case the result is the exact one if that has 64 bits, and a floating-point number only
if it has not. The remainder of the least integer by `-1` is left out.
-/
theorem binary_integers (op : Operator) (x y : Int64)
    (hop : op ∈ [.add, .subtract, .multiply, .modulus])
    (hleast : ¬(op = .modulus ∧ x = Int64.minValue ∧ y = -1)) :
    match exactResult? op x.toInt y.toInt with
    | some r => Exact r (binary op (.int x) (.int y))
    | none => op = .modulus ∧ y = 0 ∧ binary op (.int x) (.int y) = .error .modulusByZero := by
  simp only [List.mem_cons, List.not_mem_nil, or_false] at hop
  rcases hop with rfl | rfl | rfl | rfl
  · exact exact_binary rfl rfl
  · exact exact_binary rfl rfl
  · exact exact_binary rfl rfl
  · by_cases hy : y.toInt = 0
    · obtain rfl : y = 0 := Int64.toInt_inj.mp hy
      exact ⟨rfl, rfl, rfl⟩
    · have hexact : exactResult? .modulus x.toInt y.toInt = some (x.toInt.tmod y.toInt) := if_neg hy
      rw [hexact]
      exact exact_binary hexact (onIntegers?_modulus hy fun h => hleast ⟨rfl, h⟩)

/-- The least integer by `-2`: the sum and the product have no 64 bits, the remainder is exact. -/
theorem binary_integers_least :
    (∃ z, binary .add (.int Int64.minValue) (.int (-2)) = .ok (.float z)) ∧
      (∃ z, binary .multiply (.int Int64.minValue) (.int (-2)) = .ok (.float z)) ∧
      binary .modulus (.int Int64.minValue) (.int (-2)) = .ok (.int 0) := by
  have hsum : Exact (-0x8000000000000002) (binary .add (.int Int64.minValue) (.int (-2))) :=
    binary_integers .add Int64.minValue (-2) (by decide) (by decide)
  have hproduct : Exact 0x10000000000000000 (binary .multiply (.int Int64.minValue) (.int (-2))) :=
    binary_integers .multiply Int64.minValue (-2) (by decide) (by decide)
  have hremainder : Exact 0 (binary .modulus (.int Int64.minValue) (.int (-2))) :=
    binary_integers .modulus Int64.minValue (-2) (by decide) (by decide)
  refine ⟨hsum.exists_float fun n => ?_, hproduct.exists_float fun n => ?_,
    hremainder.eq_int (n := 0) rfl⟩
  · have hlow := n.le_toInt
    omega
  · have hhigh := n.toInt_lt
    omega

/--
The remainder of the least integer by `-1` is zero, which is an integer of 64 bits; the result is a
floating-point number.
-/
theorem binary_modulus_least :
    exactResult? .modulus Int64.minValue.toInt (-1 : Int64).toInt = some (0 : Int64).toInt ∧
      ∃ z, binary .modulus (.int Int64.minValue) (.int (-1)) = .ok (.float z) :=
  ⟨by decide, _, rfl⟩

/--
Powers of integers of 64 bits with an exponent that is not negative: the result is the exact one if
that has 64 bits, and a floating-point number only if it has not. Powers of `0`, `1` and `-1` are
left out if their exponent has no 32 bits.
-/
theorem binary_power (hy : 0 ≤ y.toInt)
    (hlimit : y.toInt ≤ exponentLimit ∨ 1 < x.toInt.natAbs) :
    Exact (x.toInt ^ y.toInt.toNat) (binary .power (.int x) (.int y)) :=
  exact_binary (if_neg (Int.not_lt.mpr hy)) (onIntegers?_power hy hlimit)

/-- A power of `-2` is the least integer of 64 bits; that of `2` has no 64 bits. -/
theorem binary_power_sixtyThree :
    binary .power (.int (-2)) (.int 63) = .ok (.int Int64.minValue) ∧
      ∃ z, binary .power (.int 2) (.int 63) = .ok (.float z) := by
  have hleast := binary_power (x := -2) (y := 63) (by decide) (.inl (by decide))
  have hlarge := binary_power (x := 2) (y := 63) (by decide) (.inl (by decide))
  refine ⟨hleast.eq_int (by decide), hlarge.exists_float fun n heq => ?_⟩
  have hhigh := n.toInt_lt
  rw [heq] at hhigh
  exact absurd hhigh (by decide)

/-- Every power of `1` is `1`; the result is a floating-point number for this exponent. -/
theorem binary_power_one :
    exactResult? .power (1 : Int64).toInt (4294967296 : Int64).toInt = some (1 : Int64).toInt ∧
      ∃ z, binary .power (.int 1) (.int 4294967296) = .ok (.float z) := by
  refine ⟨?_, _, rfl⟩
  have hone : exactResult? .power 1 4294967296 = some (1 ^ Int.toNat 4294967296) := rfl
  exact hone.trans (congrArg some (one_pow _))

end Operation

end ExprLang
