import ExprLang.Proofs.Value.NearestFloats
import ExprLang.Proofs.Value.Patterns

/-!
# Integers with places

A placeholder that asks for places writes a number with that many digits behind its point. An
integer is widened to a floating-point number before, so that it is written as the nearest integer
of 53 significant bits, with zeros behind the point. Up to 53 bits that is the integer itself.

Main definitions:
* `Decimal.zeroPlaces`: a point with zeros behind it.

Main results:
* `Decimal.fixed_ofInt`: an integer with a number of places;
* `Format.format_integer`: the placeholder of an integer with places.
-/

namespace ExprLang

namespace Decimal

/-- A point with so many zeros behind it, or nothing for no zeros. -/
def zeroPlaces (places : Nat) : List Char :=
  if places = 0 then [] else '.' :: List.replicate places '0'

section Digits

/-- Multiplying by a power of ten puts zeros behind the digits. -/
theorem toDigits_mul_tenTo {n : Nat} (hn : 0 < n) (exponent : Nat) :
    Nat.toDigits 10 (n * tenTo exponent) =
      Nat.toDigits 10 n ++ List.replicate exponent '0' := by
  induction exponent with
  | zero => simp [tenTo]
  | succ exponent ih =>
      have hpos : 0 < n * tenTo exponent := Nat.mul_pos hn (Nat.pow_pos (by decide))
      have hten : n * tenTo (exponent + 1) = 10 * (n * tenTo exponent) + 0 := by
        rw [Nat.add_zero, ← Nat.mul_left_comm, Nat.mul_comm 10]
        rfl
      rw [hten, ← Nat.toDigits_append_toDigits (by decide) hpos (by decide), ih,
        List.append_assoc, List.replicate_succ']
      rfl

/-- Digits with so many zeros behind them need no more zeros in front. -/
theorem paddedDigits_mul_tenTo (n exponent : Nat) :
    paddedDigits (exponent + 1) (n * tenTo exponent) =
      Nat.toDigits 10 n ++ List.replicate exponent '0' := by
  rcases Nat.eq_zero_or_pos n with rfl | hn
  · rw [Nat.zero_mul, paddedDigits, Nat.toDigits_zero]
    exact (List.replicate_succ').symm.trans List.replicate_succ
  · have hlength : 0 < (Nat.toDigits 10 n).length := Nat.length_toDigits_pos
    rw [paddedDigits, toDigits_mul_tenTo hn]
    simp only [List.length_append, List.length_replicate]
    rw [show exponent + 1 - ((Nat.toDigits 10 n).length + exponent) = 0 by omega]
    rfl

/-- A whole number has no other digits than zeros behind its point. -/
theorem fixedMagnitude_of_whole {mantissa value : Nat} {exponent : Int}
    (h : (Binary64.ratio mantissa exponent).1 = value * (Binary64.ratio mantissa exponent).2)
    (places : Nat) :
    fixedMagnitude mantissa exponent places = Nat.toDigits 10 value ++ zeroPlaces places := by
  have hden : 0 < (Binary64.ratio mantissa exponent).2 := by
    rw [Binary64.ratio]
    split
    · exact Nat.one_pos
    · rw [Nat.shiftLeft_eq, Nat.one_mul]
      exact Nat.two_pow_pos _
  have hround : ∀ exact, roundHalfEven ((Binary64.ratio mantissa exponent).1 * tenTo exact)
      (Binary64.ratio mantissa exponent).2 = value * tenTo exact := by
    intro exact
    rw [h, Nat.mul_right_comm, roundHalfEven_mul_self _ hden]
  simp only [fixedMagnitude, hround, paddedDigits_mul_tenTo, List.length_append,
    List.length_replicate, Nat.add_sub_cancel, List.take_left, List.drop_left]
  rw [zeroPlaces]
  split
  · rw [List.append_nil]
  · rw [← List.replicate_add, Nat.add_sub_cancel' (Nat.min_le_left _ _)]

end Digits

/-- An integer with places is written as the nearest one of 53 bits, with zeros behind it. -/
theorem fixed_ofInt {i : Int} (hlt : i.natAbs < 2 ^ 64) (places : Nat) :
    fixed (Float.ofInt i) places =
      toString (Binary64.nearestInt i) ++ String.ofList (zeroPlaces places) := by
  obtain ⟨mantissa, exponent, hparts, hvalue⟩ := Binary64.parts_ofInt hlt
  rw [fixed, hparts]
  simp only [fixedMagnitude_of_whole hvalue]
  rw [← String.toList_inj, String.toList_ofList, String.toList_append, String.toList_ofList,
    toList_toString]
  by_cases hnegative : i < 0
  · have hpos := Binary64.nearestNat_pos (Int.natAbs_pos.mpr hnegative.ne)
    rw [decide_eq_true hnegative, if_pos rfl, Binary64.nearestInt_of_neg hnegative,
      if_neg (by omega), Int.neg_neg, Int.toNat_natCast, List.cons_append]
  · rw [decide_eq_false hnegative, if_neg Bool.false_ne_true,
      Binary64.nearestInt_of_nonneg (Int.not_lt.mp hnegative), if_pos (Int.natCast_nonneg _),
      Int.toNat_natCast]

end Decimal

namespace Format

/-- What is written in a placeholder with places. -/
def writtenPlaces (index places : Nat) : List Char :=
  Nat.toDigits 10 index ++ ':' :: '.' :: Nat.toDigits 10 places

theorem not_mem_writtenPlaces {index places : Nat} {c : Char} (hdigit : c.isDigit = false)
    (hcolon : c ≠ ':') (hpoint : c ≠ '.') : c ∉ writtenPlaces index places := by
  have hdigits : ∀ n, c ∉ Nat.toDigits 10 n := by
    intro n hmem
    rw [Decimal.isDigit_of_mem (Decimal.isDigits_toDigits n) hmem] at hdigit
    cases hdigit
  simp [writtenPlaces, hdigits, hcolon, hpoint]

/--
An integer with places is written as the nearest integer of 53 significant bits, with so many zeros
behind the point, or without a point for no places. This is the integer itself if and only if 53
bits are enough for it, which they are for a smaller number times a power of two.
-/
theorem format_integer (args : List Value) (index : UInt64) (n : Int64) (places : UInt16)
    (harg : args[index.toNat]? = some (.int n)) :
    format ("\x7b" ++ toString index.toNat ++ ":." ++ toString places.toNat ++ "\x7d") args =
        .ok (toString (Binary64.nearestInt n.toInt) ++
          String.ofList (Decimal.zeroPlaces places.toNat)) ∧
      (Binary64.nearestInt n.toInt = n.toInt ↔
        ∃ (m : Int) (k : Nat), m.natAbs < 2 ^ 53 ∧ n.toInt = m * 2 ^ k) := by
  refine ⟨?_, Binary64.nearestInt_eq_self_iff n.toInt⟩
  have hindex := toNat_le_indexLimit index
  have hplaces : places.toNat ≤ placesLimit := Nat.le_of_lt_succ places.toNat_lt
  have hsmall : n.toInt.natAbs < 2 ^ 64 := by
    have hlow := n.le_toInt
    have hhigh := n.toInt_lt
    omega
  have hfill : fill args (writtenPlaces index.toNat places.toNat) =
      .ok (Decimal.fixed (Float.ofInt n.toInt) places.toNat).toList := by
    rw [fill, writtenPlaces, read?_places hindex hplaces]
    simp only [harg]
    rfl
  have hpattern : ("\x7b" ++ toString index.toNat ++ ":." ++ toString places.toNat ++
      "\x7d").toList = '\x7b' :: writtenPlaces index.toNat places.toNat ++ '\x7d' :: [] := by
    simp [writtenPlaces, Nat.repr_eq_ofList_toDigits]
  rw [format, hpattern, expand_placeholder [] [] hfill, expand, Decimal.fixed_ofInt hsmall]
  · simp [Except.map]
  · exact not_mem_writtenPlaces rfl (by decide) (by decide)
  · exact not_mem_writtenPlaces rfl (by decide) (by decide)

/-- A number with places that has all its digits. -/
theorem format_integer_negative :
    ([.int (-7)] : List Value)[(0 : UInt64).toNat]? = some (.int (-7)) ∧
      format "\x7b0:.2\x7d" [.int (-7)] = .ok "-7.00" := by
  have hwritten := (format_integer [.int (-7)] 0 (-7) 2 rfl).1
  have hpattern : "\x7b" ++ toString (0 : UInt64).toNat ++ ":." ++ toString (2 : UInt16).toNat ++
      "\x7d" = "\x7b0:.2\x7d" := by decide
  have htext : toString (Binary64.nearestInt (-7 : Int64).toInt) ++
      String.ofList (Decimal.zeroPlaces (2 : UInt16).toNat) = "-7.00" := by decide +kernel
  rw [hpattern, htext] at hwritten
  exact ⟨rfl, hwritten⟩

/-- The first integer for which 53 bits are not enough loses its last digit. -/
theorem format_integer_odd :
    format "\x7b0:.1\x7d" [.int 9007199254740993] ≠ .ok "9007199254740993.0" ∧
      format "\x7b0:.1\x7d" [.int 9007199254740993] = .ok "9007199254740992.0" := by
  decide +kernel

end Format
end ExprLang
