import ExprLang.Decimal.Fixed
import Mathlib

/-!
# Integers as floating-point numbers

A floating-point number of 64 bits has 53 significant ones. An integer that becomes such a number
keeps its 53 highest bits and is rounded at the first one that is left out, a half going to the even
side. The numbers themselves are computed by the logical model of floating-point numbers: a mantissa
is shifted to 53 bits, rounded by the two bits that tell what was shifted out, and shifted once more
if rounding made it longer.

Main definitions:
* `Binary64.nearestNat`, `Binary64.nearestInt`: integers with 53 significant bits;
* `Binary64.Shifted`: what the model keeps of a mantissa that is shifted;
* `Binary64.Represents`: a packed number with a natural number as value.

Main results:
* `nearestNat_nearest`, `nearestInt_eq_self_iff`: they are the nearest ones, and when nothing is
  lost;
* `Shifted.roundedMantissa`: rounding in the model is `Decimal.roundHalfEven`;
* `unpack_pack`, `parts_pack`: what is read of a packed number;
* `parts_ofInt`: what an integer becomes as a floating-point number.
-/

namespace ExprLang

open Float.Model Float.Model.UnpackedFloat

namespace Decimal

theorem roundHalfEven_mul_self (n : Nat) {den : Nat} (hden : 0 < den) :
    roundHalfEven (n * den) den = n := by
  rw [roundHalfEven, Nat.mul_div_cancel n hden, Nat.mul_mod_left]
  exact if_pos hden

/-- A fraction is rounded by its value. -/
theorem roundHalfEven_mul (num den : Nat) {factor : Nat} (hfactor : 0 < factor) :
    roundHalfEven (num * factor) (den * factor) = roundHalfEven num den := by
  have hbelow : 2 * (num % den * factor) < den * factor ↔ 2 * (num % den) < den := by
    rw [← Nat.mul_assoc]
    exact Nat.mul_lt_mul_right hfactor
  have habove : den * factor < 2 * (num % den * factor) ↔ den < 2 * (num % den) := by
    rw [← Nat.mul_assoc]
    exact Nat.mul_lt_mul_right hfactor
  simp only [roundHalfEven, Nat.mul_div_mul_right _ _ hfactor, Nat.mul_mod_mul_right, hbelow,
    habove]

/-- What is over a whole number is left out if it is at most a half, or else filled up. -/
theorem roundHalfEven_cases (num den : Nat) :
    (roundHalfEven num den = num / den ∧ 2 * (num % den) ≤ den) ∨
      (roundHalfEven num den = num / den + 1 ∧ den ≤ 2 * (num % den)) := by
  simp only [roundHalfEven]
  split_ifs <;> omega

/-- No whole number is nearer than the one that is rounded to. -/
theorem roundHalfEven_nearest (num : Nat) {den : Nat} (hden : 0 < den) (other : Nat) :
    ((num : Int) - (roundHalfEven num den * den : Nat)).natAbs ≤
      ((num : Int) - (other * den : Nat)).natAbs := by
  have hsplit : num / den * den + num % den = num := Nat.div_add_mod' num den
  have hlt : num % den < den := Nat.mod_lt num hden
  have hother : other * den ≤ num / den * den ∨ num / den * den + den ≤ other * den := by
    rcases Nat.lt_or_ge (num / den) other with hlow | hhigh
    · right
      rw [← Nat.succ_mul]
      exact Nat.mul_le_mul_right den hlow
    · left
      exact Nat.mul_le_mul_right den hhigh
  rcases roundHalfEven_cases num den with ⟨hdown, hhalf⟩ | ⟨hup, hhalf⟩
  · rw [hdown]
    omega
  · rw [hup, Nat.succ_mul]
    omega

end Decimal

namespace Binary64

/-- The natural number with 53 significant bits that is nearest to `n`, a half going to even. -/
def nearestNat (n : Nat) : Nat :=
  let unit := 2 ^ (n.log2 - fractionBits)
  Decimal.roundHalfEven n unit * unit

/-- The integer with 53 significant bits that is nearest to `n`, a half going to even. -/
def nearestInt (n : Int) : Int :=
  n.sign * nearestNat n.natAbs

section Nearest

/-- No number with 53 significant bits is nearer than the nearest one. -/
theorem nearestNat_nearest (n : Nat) {m : Nat} (hm : m < 2 ^ 53) (k : Nat) :
    ((n : Int) - nearestNat n).natAbs ≤ ((n : Int) - (m * 2 ^ k : Nat)).natAbs := by
  have hmultiple := fun other =>
    Decimal.roundHalfEven_nearest n (Nat.two_pow_pos (n.log2 - fractionBits)) other
  by_cases hk : n.log2 - fractionBits ≤ k
  · obtain ⟨shift, rfl⟩ := Nat.exists_eq_add_of_le' hk
    rw [pow_add, ← Nat.mul_assoc]
    exact hmultiple _
  · -- the other number is below all those that have as many bits as `n`
    have hbits : fractionBits = 52 := rfl
    have hn : n ≠ 0 := by
      rintro rfl
      exact hk (Nat.zero_le k)
    have hlow := Nat.log2_self_le hn
    have hpow : 2 ^ 52 * 2 ^ (n.log2 - fractionBits) = 2 ^ n.log2 := by
      rw [← pow_add]
      congr 1
      omega
    have hbelow : m * 2 ^ k < 2 ^ n.log2 := by
      calc m * 2 ^ k < 2 ^ 53 * 2 ^ k := Nat.mul_lt_mul_of_pos_right hm (Nat.two_pow_pos k)
        _ = 2 ^ (53 + k) := (pow_add 2 53 k).symm
        _ ≤ 2 ^ n.log2 := Nat.pow_le_pow_right Nat.two_pos (by omega)
    have hfirst := hmultiple (2 ^ 52)
    rw [hpow] at hfirst
    refine hfirst.trans ?_
    omega

/-- A number is the nearest one to itself if 53 bits are enough for it. -/
theorem nearestNat_eq_self_iff (n : Nat) :
    nearestNat n = n ↔ ∃ m k : Nat, m < 2 ^ 53 ∧ n = m * 2 ^ k := by
  constructor
  · intro h
    refine ⟨_, n.log2 - fractionBits, ?_, h.symm⟩
    have hbits : fractionBits = 52 := rfl
    have hlt : nearestNat n < 2 ^ 53 * 2 ^ (n.log2 - fractionBits) := by
      calc nearestNat n = n := h
        _ < 2 ^ (n.log2 + 1) := Nat.lt_log2_self
        _ ≤ 2 ^ (53 + (n.log2 - fractionBits)) := Nat.pow_le_pow_right Nat.two_pos (by omega)
        _ = 2 ^ 53 * 2 ^ (n.log2 - fractionBits) := pow_add _ _ _
    exact Nat.lt_of_mul_lt_mul_right hlt
  · rintro ⟨m, k, hm, hn⟩
    have hnearest := nearestNat_nearest n hm k
    rw [← hn] at hnearest
    omega

theorem nearestNat_pos {n : Nat} (hn : 0 < n) : 0 < nearestNat n := by
  have hbits : fractionBits = 52 := rfl
  have hunit : 2 ^ (n.log2 - fractionBits) ≤ n :=
    (Nat.pow_le_pow_right Nat.two_pos (Nat.sub_le _ _)).trans (Nat.log2_self_le hn.ne')
  have hfloor : 0 < n / 2 ^ (n.log2 - fractionBits) := Nat.div_pos hunit (Nat.two_pow_pos _)
  refine Nat.mul_pos ?_ (Nat.two_pow_pos _)
  rcases Decimal.roundHalfEven_cases n (2 ^ (n.log2 - fractionBits)) with ⟨hdown, -⟩ | ⟨hup, -⟩
  · rw [hdown]
    exact hfloor
  · rw [hup]
    exact Nat.succ_pos _

theorem nearestInt_of_nonneg {n : Int} (hn : 0 ≤ n) : nearestInt n = nearestNat n.natAbs := by
  rcases hn.eq_or_lt with rfl | hpos
  · rfl
  · rw [nearestInt, Int.sign_eq_one_of_pos hpos, Int.one_mul]

theorem nearestInt_of_neg {n : Int} (hn : n < 0) : nearestInt n = -nearestNat n.natAbs := by
  rw [nearestInt, Int.sign_eq_neg_one_of_neg hn, Int.neg_one_mul]

/-- An integer is the nearest one to itself if 53 bits are enough for it. -/
theorem nearestInt_eq_self_iff (n : Int) :
    nearestInt n = n ↔ ∃ (m : Int) (k : Nat), m.natAbs < 2 ^ 53 ∧ n = m * 2 ^ k := by
  have hsplit : n.sign * n.natAbs = n := Int.sign_mul_natAbs n
  constructor
  · intro h
    rcases eq_or_ne n 0 with rfl | hn
    · exact ⟨0, 0, by decide, rfl⟩
    · have habs : (nearestInt n).natAbs = nearestNat n.natAbs := by
        rw [nearestInt, Int.natAbs_mul, Int.natAbs_sign_of_ne_zero hn, Nat.one_mul,
          Int.natAbs_natCast]
      rw [h] at habs
      obtain ⟨m, k, hm, hself⟩ := (nearestNat_eq_self_iff n.natAbs).mp habs.symm
      refine ⟨n.sign * m, k, ?_, ?_⟩
      · rw [Int.natAbs_mul, Int.natAbs_sign_of_ne_zero hn, Nat.one_mul]
        exact hm
      · calc n = n.sign * n.natAbs := hsplit.symm
          _ = n.sign * (m * 2 ^ k : Nat) := by rw [← hself]
          _ = n.sign * m * 2 ^ k := by push_cast; ring
  · rintro ⟨m, k, hm, hn⟩
    have habs : n.natAbs = m.natAbs * 2 ^ k := by
      rw [hn, Int.natAbs_mul, Int.natAbs_pow]
      rfl
    rw [nearestInt, (nearestNat_eq_self_iff n.natAbs).mpr ⟨_, k, hm, habs⟩, hsplit]

end Nearest

section Shifting

variable {m count : Nat} {kept : ExtendedMantissa}

/--
A mantissa without its last `count` bits. The round bit says if these are half of a unit or more,
and the sticky bit if they are neither nothing nor a half.
-/
structure Shifted (m count : Nat) (kept : ExtendedMantissa) : Prop where
  quotient : kept.mantissa = m / 2 ^ count
  roundBit : kept.roundBit = true ↔ 2 ^ count ≤ 2 * (m % 2 ^ count)
  stickyBit : kept.stickyBit = true ↔
    2 * (m % 2 ^ count) ≠ 0 ∧ 2 * (m % 2 ^ count) ≠ 2 ^ count

theorem Shifted.shiftRightOne (h : Shifted m count kept) :
    Shifted m (count + 1) kept.shiftRightOne := by
  have hlt : m % 2 ^ count < 2 ^ count := Nat.mod_lt _ (Nat.two_pow_pos count)
  have hmod : m % 2 ^ (count + 1) = m % 2 ^ count + 2 ^ count * (m / 2 ^ count % 2) := by
    rw [pow_succ, Nat.mod_mul]
  have hpow : 2 ^ (count + 1) = 2 * 2 ^ count := by rw [pow_succ, Nat.mul_comm]
  refine ⟨?_, ?_, ?_⟩
  · rw [ExtendedMantissa.shiftRightOne, h.quotient, pow_succ, Nat.div_div_eq_div_mul]
  · rw [ExtendedMantissa.shiftRightOne, h.quotient, hmod, hpow, bne_iff_ne]
    rcases Nat.mod_two_eq_zero_or_one (m / 2 ^ count) with hbit | hbit
    · rw [hbit]
      omega
    · rw [hbit]
      omega
  · rw [ExtendedMantissa.shiftRightOne, Bool.or_eq_true, h.roundBit, h.stickyBit, hmod, hpow]
    rcases Nat.mod_two_eq_zero_or_one (m / 2 ^ count) with hbit | hbit
    · rw [hbit]
      omega
    · rw [hbit]
      omega

theorem shifted_exact (m count : Nat) :
    Shifted m count (ExtendedMantissa.ofMantissaAndAccuracy m .exact >>> count) := by
  induction count with
  | zero =>
      have hsame : ExtendedMantissa.ofMantissaAndAccuracy m .exact >>> 0 = ⟨m, false, false⟩ := rfl
      rw [hsame]
      refine ⟨?_, ?_, ?_⟩
      · simp
      · simp [Nat.mod_one]
      · simp [Nat.mod_one]
  | succ count ih => exact ih.shiftRightOne

/-- The two bits tell all that rounding needs. -/
theorem Shifted.roundedMantissa (h : Shifted m count kept) :
    kept.roundedMantissa = Decimal.roundHalfEven m (2 ^ count) := by
  obtain ⟨hquotient, hround, hsticky⟩ := h
  obtain ⟨kept, round, sticky⟩ := kept
  simp only at hquotient hround hsticky
  subst hquotient
  simp only [Decimal.roundHalfEven]
  cases round <;> cases sticky <;>
    simp only [Bool.false_eq_true, false_iff, true_iff] at hround hsticky <;>
    simp only [ExtendedMantissa.roundedMantissa, ExtendedMantissa.accuracy,
      Accuracy.roundToNearestEven] <;>
    split_ifs <;> omega

end Shifting

section Rounding

variable {m count : Nat}

theorem targetExponent_binary64 (m : Nat) (exponent : Int) :
    Format.binary64.targetExponent (totalExponent m exponent) =
      max (m.log2 + exponent - 52) leastExponent := by
  simp only [Format.targetExponent, totalExponent, Format.mantissaBits, Format.minExponent,
    leastExponent]
  omega

/-- A mantissa with so many bits too much is shifted by as many. -/
theorem shiftToTargetExponent_exact (exponent : Int) (hlog : m.log2 = 52 + count)
    (hleast : leastExponent ≤ exponent + count) :
    shiftToTargetExponent Format.binary64 m exponent .exact =
      (ExtendedMantissa.ofMantissaAndAccuracy m .exact >>> count, exponent + count) := by
  have htarget : Format.binary64.targetExponent (totalExponent m exponent) = exponent + count := by
    rw [targetExponent_binary64]
    omega
  have hcount : (exponent + count - exponent).toNat = count := by omega
  rw [shiftToTargetExponent, htarget, shiftToExponent, hcount]

theorem log2_mul_two_pow (hm : m ≠ 0) (count : Nat) :
    (m * 2 ^ count).log2 = m.log2 + count := by
  have hne : m * 2 ^ count ≠ 0 := Nat.mul_ne_zero hm (Nat.two_pow_pos count).ne'
  rw [Nat.log2_eq_iff hne, Nat.add_right_comm, pow_add, pow_add]
  exact ⟨Nat.mul_le_mul_right _ (Nat.log2_self_le hm),
    Nat.mul_lt_mul_of_pos_right Nat.lt_log2_self (Nat.two_pow_pos count)⟩

theorem log2_mantissa (hm : 2 ^ 52 ≤ m) (hm' : m < 2 ^ 53) (count : Nat) :
    (m * 2 ^ count).log2 = 52 + count := by
  have hne : m ≠ 0 := by omega
  rw [log2_mul_two_pow hne, (Nat.log2_eq_iff hne).mpr ⟨hm, hm'⟩]

/-- A rounded mantissa that is one bit too long is shifted by that bit. -/
theorem roundWithAccuracy_of_rounded (sign : Sign) (exponent : Int)
    (hlog : m.log2 = 52 + count) (hleast : leastExponent ≤ exponent + count) {r carry : Nat}
    (hr : 2 ^ 52 ≤ r) (hr' : r < 2 ^ 53)
    (hround : r * 2 ^ carry = Decimal.roundHalfEven m (2 ^ count)) :
    roundWithAccuracy Format.binary64 sign m exponent .exact =
      .finite sign r (exponent + count + carry) (Nat.lt_of_lt_of_le (by decide) hr) := by
  have hsecond := shiftToTargetExponent_exact (exponent + count) (log2_mantissa hr hr' carry)
    (by omega)
  have hmantissa := (shifted_exact (r * 2 ^ carry) carry).quotient
  rw [Nat.mul_div_cancel r (Nat.two_pow_pos carry)] at hmantissa
  have hne : r ≠ 0 := by omega
  simp only [roundWithAccuracy, shiftToTargetExponent_exact exponent hlog hleast,
    (shifted_exact m count).roundedMantissa, ← hround, hsecond, hmantissa, dif_neg hne]

/-- A number with 53 bits or more is rounded to 53 bits, perhaps to the next power of two. -/
theorem exists_roundWithAccuracy (sign : Sign) (exponent : Int) (hm : m ≠ 0)
    (hlog : m.log2 = 52 + count) (hleast : leastExponent ≤ exponent + count) :
    ∃ (r carry : Nat) (hr : 2 ^ 52 ≤ r), r < 2 ^ 53 ∧ carry ≤ 1 ∧
      r * 2 ^ carry = Decimal.roundHalfEven m (2 ^ count) ∧
      roundWithAccuracy Format.binary64 sign m exponent .exact =
        .finite sign r (exponent + count + carry) (Nat.lt_of_lt_of_le (by decide) hr) := by
  obtain ⟨hlow, hhigh⟩ := (Nat.log2_eq_iff hm).mp hlog
  have hfirst : 2 ^ 52 ≤ m / 2 ^ count := by
    rw [Nat.le_div_iff_mul_le (Nat.two_pow_pos count), ← pow_add]
    exact hlow
  have hlast : m / 2 ^ count < 2 ^ 53 := by
    rw [Nat.div_lt_iff_lt_mul (Nat.two_pow_pos count), ← pow_add,
      show 53 + count = 52 + count + 1 by omega]
    exact hhigh
  have hbounds : m / 2 ^ count ≤ Decimal.roundHalfEven m (2 ^ count) ∧
      Decimal.roundHalfEven m (2 ^ count) ≤ m / 2 ^ count + 1 := by
    rcases Decimal.roundHalfEven_cases m (2 ^ count) with ⟨hdown, -⟩ | ⟨hup, -⟩
    · omega
    · omega
  by_cases hshort : Decimal.roundHalfEven m (2 ^ count) < 2 ^ 53
  · have hround : Decimal.roundHalfEven m (2 ^ count) * 2 ^ 0 =
        Decimal.roundHalfEven m (2 ^ count) := Nat.mul_one _
    have hlong := hfirst.trans hbounds.1
    exact ⟨_, 0, hlong, hshort, Nat.zero_le 1, hround,
      roundWithAccuracy_of_rounded sign exponent hlog hleast hlong hshort hround⟩
  · have hround : 2 ^ 52 * 2 ^ 1 = Decimal.roundHalfEven m (2 ^ count) := by omega
    exact ⟨2 ^ 52, 1, le_rfl, by decide, le_rfl, hround,
      roundWithAccuracy_of_rounded sign exponent hlog hleast le_rfl (by decide) hround⟩

end Rounding

section Packing

variable {m : Nat} {exponent : Int}

/-- A positive number that is packed from a mantissa of 53 bits, with a natural number as value. -/
def Represents (x : Float) (value : Nat) : Prop :=
  ∃ (m : Nat) (exponent : Int) (hm : 2 ^ 52 ≤ m), m < 2 ^ 53 ∧ leastExponent ≤ exponent ∧
    exponent ≤ 971 ∧ (ratio m exponent).1 = value * (ratio m exponent).2 ∧
    x = .ofModel (Float.Model.pack
      (.finite .positive m exponent (Nat.lt_of_lt_of_le (by decide) hm)))

/-- The sign, the exponent and the mantissa stand behind one another. -/
theorem toNat_packComponents (sign : Sign) (scale : BitVec 11) (fraction : BitVec 52) :
    (packComponents Format.binary64 sign scale fraction).toNat =
      sign.toBitVec.toNat * 2 ^ 63 + scale.toNat * 2 ^ 52 + fraction.toNat := by
  have hscale := scale.isLt
  have hfraction := fraction.isLt
  simp only [packComponents, BitVec.toNat_append]
  rw [← Nat.shiftLeft_add_eq_or_of_lt hfraction, ← Nat.shiftLeft_add_eq_or_of_lt hscale,
    Nat.shiftLeft_eq, Nat.shiftLeft_eq]
  omega

/-- A mantissa of 53 bits is packed without its first one. -/
theorem pack_normal (sign : Sign) (hm : 2 ^ 52 ≤ m) (hm' : m < 2 ^ 53)
    (hleast : leastExponent ≤ exponent) (hmost : exponent ≤ 971) (hpos : 0 < m) :
    UnpackedFloat.pack Format.binary64 (.finite sign m exponent hpos) =
      packComponents Format.binary64 sign (BitVec.ofNat 11 (exponent + 1075).toNat)
        (BitVec.ofNat 52 m) := by
  have hlog : m.log2 = 52 := (Nat.log2_eq_iff hpos.ne').mpr ⟨hm, hm'⟩
  have hscale : (exponent + Format.binary64.exponentBias +
      Format.binary64.mantissaBitsWithoutImplicit).toNat = (exponent + 1075).toNat := by
    have hbias : Format.binary64.exponentBias = 1023 := rfl
    have hwidth : Format.binary64.mantissaBitsWithoutImplicit = 52 := rfl
    rw [hbias, hwidth]
    omega
  have hleast' : -1074 ≤ exponent := hleast
  rw [UnpackedFloat.pack]
  simp only [hlog, hscale]
  rw [if_neg (by omega), if_pos (by rfl)]

/-- The first bit of a mantissa is the only one that is not packed. -/
theorem toNat_fraction (hm : 2 ^ 52 ≤ m) (hm' : m < 2 ^ 53) :
    (BitVec.ofNat 52 m).toNat = m - 2 ^ 52 := by
  rw [BitVec.toNat_ofNat]
  omega

/-- A packed number is unpacked as it was. -/
theorem unpack_pack (sign : Sign) (hm : 2 ^ 52 ≤ m) (hm' : m < 2 ^ 53)
    (hleast : leastExponent ≤ exponent) (hmost : exponent ≤ 971) (hpos : 0 < m) :
    (Float.Model.pack (.finite sign m exponent hpos)).unpack = .finite sign m exponent hpos := by
  have hleast' : -1074 ≤ exponent := hleast
  have hscale : (BitVec.ofNat 11 (exponent + 1075).toNat).toNat = (exponent + 1075).toNat := by
    rw [BitVec.toNat_ofNat, Nat.mod_eq_of_lt (by omega)]
  have hnotAll : BitVec.ofNat 11 (exponent + 1075).toNat ≠ -1#11 := by
    intro heq
    have hall : (-1#11).toNat = 2047 := rfl
    rw [heq, hall] at hscale
    omega
  have hnotZero : BitVec.ofNat 11 (exponent + 1075).toNat ≠ 0#11 := by
    intro heq
    have hzero : (0#11).toNat = 0 := rfl
    rw [heq, hzero] at hscale
    omega
  have hmantissa : (1#1 ++ BitVec.ofNat 52 m).toNat = m := by
    have hone : (1#1).toNat = 1 := rfl
    rw [BitVec.toNat_append, ← Nat.shiftLeft_add_eq_or_of_lt (BitVec.ofNat 52 m).isLt,
      toNat_fraction hm hm', hone]
    omega
  have hpacked : (Float.Model.pack (.finite sign m exponent hpos)).toBits.toBitVec =
      packComponents Format.binary64 sign (BitVec.ofNat 11 (exponent + 1075).toNat)
        (BitVec.ofNat 52 m) := pack_normal sign hm hm' hleast hmost hpos
  rw [Float.Model.unpack, hpacked, UnpackedFloat.unpack]
  simp only [unpackMantissa_packComponents, unpackExponent_packComponents,
    unpackSign_packComponents, Sign.ofBitVec_toBitVec]
  rw [if_neg hnotAll, if_neg hnotZero]
  have hbias : ((Format.binary64.exponentBias : Nat) : Int) = 1023 := rfl
  simp only [hmantissa, hscale, hbias]
  congr 1
  omega

/-- The parts of a packed number are those it was packed from. -/
theorem parts_pack (sign : Sign) (hm : 2 ^ 52 ≤ m) (hm' : m < 2 ^ 53)
    (hleast : leastExponent ≤ exponent) (hmost : exponent ≤ 971) (hpos : 0 < m) :
    parts (.ofModel (Float.Model.pack (.finite sign m exponent hpos))) =
      .finite (sign == .negative) m exponent := by
  have hleast' : -1074 ≤ exponent := hleast
  have hbits : (Float.ofModel (Float.Model.pack (.finite sign m exponent hpos))).toBits.toNat =
      sign.toBitVec.toNat * 2 ^ 63 + (exponent + 1075).toNat * 2 ^ 52 + (m - 2 ^ 52) := by
    have hpacked : (Float.ofModel (Float.Model.pack (.finite sign m exponent hpos))).toBits.toNat =
        (UnpackedFloat.pack Format.binary64 (.finite sign m exponent hpos)).toNat := rfl
    rw [hpacked, pack_normal sign hm hm' hleast hmost hpos, toNat_packComponents,
      toNat_fraction hm hm', BitVec.toNat_ofNat]
    omega
  have hsign : (sign.toBitVec.toNat == 1) = (sign == .negative) := by
    cases sign with
    | negative => rfl
    | positive => rfl
  have hweight : signWeight = 2 ^ 63 := rfl
  have hfraction : fractionWeight = 2 ^ 52 := rfl
  rw [parts, hweight, hfraction]
  generalize (Float.ofModel (Float.Model.pack (.finite sign m exponent hpos))).toBits.toNat = bits
    at hbits ⊢
  have hnegative : bits / 2 ^ 63 = sign.toBitVec.toNat := by omega
  have hscale : bits / 2 ^ 52 % 2048 = (exponent + 1075).toNat := by omega
  have hrest : bits % 2 ^ 52 = m - 2 ^ 52 := by omega
  simp only [hnegative, hscale, hrest, hsign]
  rw [if_neg (by omega), if_neg (by omega), Nat.sub_add_cancel hm, leastExponent]
  congr 1
  omega

end Packing

section Integers

variable {n m : Nat} {exponent : Int}

/-- A mantissa of 53 bits with as many zeros behind it is rounded to itself. -/
theorem roundWithAccuracy_mul (sign : Sign) (exponent : Int) (count : Nat) (hm : 2 ^ 52 ≤ m)
    (hm' : m < 2 ^ 53) (hleast : leastExponent ≤ exponent + count) :
    roundWithAccuracy Format.binary64 sign (m * 2 ^ count) exponent .exact =
      .finite sign m (exponent + count) (Nat.lt_of_lt_of_le (by decide) hm) := by
  have hround : m * 2 ^ 0 = Decimal.roundHalfEven (m * 2 ^ count) (2 ^ count) := by
    rw [Decimal.roundHalfEven_mul_self m (Nat.two_pow_pos count)]
    exact Nat.mul_one m
  rw [roundWithAccuracy_of_rounded sign exponent (log2_mantissa hm hm' count) hleast hm hm' hround]
  congr 1
  omega

/-- A number of at most 53 bits is brought to 53 bits. -/
theorem exists_toFloat (hn : n ≠ 0) (hlt : n < 2 ^ 53) :
    ∃ (count : Nat) (hm : 2 ^ 52 ≤ n * 2 ^ count), n * 2 ^ count < 2 ^ 53 ∧ count ≤ 52 ∧
      n.toUInt64.toFloat = .ofModel (Float.Model.pack
        (.finite .positive (n * 2 ^ count) (-count) (Nat.lt_of_lt_of_le (by decide) hm))) := by
  have hlog : n.log2 < 53 := (Nat.log2_lt hn).mpr hlt
  obtain ⟨count, hcount⟩ : ∃ count, n.log2 + count = 52 := ⟨52 - n.log2, by omega⟩
  have hm : 2 ^ 52 ≤ n * 2 ^ count := by
    rw [← hcount, pow_add]
    exact Nat.mul_le_mul_right _ (Nat.log2_self_le hn)
  have hm' : n * 2 ^ count < 2 ^ 53 := by
    rw [show 53 = n.log2 + 1 + count by omega, pow_add]
    exact Nat.mul_lt_mul_of_pos_right Nat.lt_log2_self (Nat.two_pow_pos count)
  refine ⟨count, hm, hm', by omega, ?_⟩
  have hword : n.toUInt64.toNat = n := Nat.mod_eq_of_lt (by omega)
  have hcompare : compare (n : Int) 0 = .gt := Int.compare_eq_gt.mpr (by omega)
  have hleast : leastExponent = -1074 := rfl
  have hshift : (0 - Format.binary64.targetExponent (totalExponent n 0)).toNat = count := by
    rw [targetExponent_binary64]
    omega
  have hrounded := roundWithAccuracy_mul .positive (-count) 0 hm hm' (by omega)
  have hunpacked : UnpackedFloat.ofUInt64 Format.binary64 n.toUInt64 =
      .finite .positive (n * 2 ^ count) (-count) (Nat.lt_of_lt_of_le (by decide) hm) := by
    rw [UnpackedFloat.ofUInt64, UnpackedFloat.ofNat, UnpackedFloat.ofInt,
      UnpackedFloat.normalize, hword]
    simp only [hcompare, Int.toNat_natCast, UnpackedFloat.round, decreaseExponent, hshift,
      Nat.shiftLeft_eq]
    simpa using hrounded
  rw [UInt64.toFloat, Float.Model.ofUInt64, hunpacked]

/-- Multiplying by one leaves a number of 53 bits as it is. -/
theorem mul_one_pack (hm : 2 ^ 52 ≤ m) (hm' : m < 2 ^ 53) (hleast : leastExponent ≤ exponent)
    (hmost : exponent ≤ 971) (hpos : 0 < m) :
    Float.ofModel (Float.Model.pack (.finite .positive m exponent hpos)) *
        Float.ofBits 0x3FF0000000000000 =
      .ofModel (Float.Model.pack (.finite .positive m exponent hpos)) := by
  have hone : (Float.ofBits 0x3FF0000000000000).toModel.unpack =
      .finite .positive (2 ^ 52) (-52) (by decide) := rfl
  have hrounded := roundWithAccuracy_mul .positive (exponent + -52) 52 hm hm' (by omega)
  have hback : exponent + -52 + (52 : Nat) = exponent := by omega
  refine congrArg Float.ofModel ?_
  have hmul : (Float.Model.pack (.finite .positive m exponent hpos)) *
      (Float.ofBits 0x3FF0000000000000).toModel =
        Float.Model.pack (UnpackedFloat.mul Format.binary64
          (Float.Model.pack (.finite .positive m exponent hpos)).unpack
          (Float.ofBits 0x3FF0000000000000).toModel.unpack) := rfl
  refine hmul.trans ?_
  rw [unpack_pack .positive hm hm' hleast hmost hpos, hone, UnpackedFloat.mul]
  rw [show Sign.positive * Sign.positive = .positive from rfl, hrounded]
  simp only [hback]

/-- A number of at most 53 bits stays what it is. -/
theorem nearestNat_of_lt (h : n < 2 ^ 53) : nearestNat n = n := by
  have hlog : n.log2 - fractionBits = 0 := by
    by_cases hn : n = 0
    · rw [hn]
      rfl
    · have hlt : n.log2 < 53 := (Nat.log2_lt hn).mpr h
      have hbits : fractionBits = 52 := rfl
      omega
  have hround := Decimal.roundHalfEven_mul_self n Nat.one_pos
  rw [Nat.mul_one] at hround
  simp only [nearestNat, hlog, pow_zero, hround, Nat.mul_one]

theorem ratio_neg (n count : Nat) :
    (ratio (n * 2 ^ count) (-count)).1 = n * (ratio (n * 2 ^ count) (-count)).2 := by
  cases count with
  | zero => simp [ratio]
  | succ count =>
      have hneg : ¬ (0 : Int) ≤ -((count + 1 : Nat) : Int) := by omega
      rw [ratio, if_neg hneg, Int.neg_neg, Int.toNat_natCast, Nat.shiftLeft_eq, Nat.one_mul]

/-- Up to 53 bits the nearest number is the number itself. -/
theorem represents_of_lt (hn : n ≠ 0) (hlt : n < 2 ^ 53) :
    Represents (Float.ofNat n) (nearestNat n) := by
  obtain ⟨count, hm, hm', hcount, hfloat⟩ := exists_toFloat hn hlt
  have hleast : leastExponent = -1074 := rfl
  have hshort : Float.ofNat n = n.toUInt64.toFloat * Float.ofBits 0x3FF0000000000000 :=
    dif_pos ⟨hlt, by decide⟩
  refine ⟨n * 2 ^ count, -count, hm, hm', by omega, by omega, ?_, ?_⟩
  · rw [nearestNat_of_lt hlt]
    exact ratio_neg n count
  · rw [hshort, hfloat]
    exact mul_one_pack hm hm' (by omega) (by omega) _

/-- Beyond 53 bits the number is rounded. -/
theorem represents_of_le (hle : 2 ^ 53 ≤ n) (hlt : n < 2 ^ 64) :
    Represents (Float.ofNat n) (nearestNat n) := by
  have hn : n ≠ 0 := by omega
  have hlow : 53 ≤ n.log2 := (Nat.le_log2 hn).mpr hle
  have hhigh : n.log2 < 64 := (Nat.log2_lt hn).mpr hlt
  obtain ⟨extra, hextra⟩ : ∃ extra, n.log2 = 52 + extra := ⟨n.log2 - 52, by omega⟩
  have hleast : leastExponent = -1074 := rfl
  have hlog : (n * 2 ^ 53).log2 = 52 + (extra + 53) := by
    rw [log2_mul_two_pow hn, hextra, Nat.add_assoc]
  have hwide : n * 2 ^ 53 ≠ 0 := Nat.mul_ne_zero hn (by decide)
  obtain ⟨m, carry, hm, hm', hcarry, hround, hrounded⟩ :=
    exists_roundWithAccuracy .positive (-53) hwide hlog (by omega)
  have hlong : Float.ofNat n =
      .ofModel (Float.Model.pack (UnpackedFloat.ofScientific Format.binary64 n 0)) :=
    dif_neg (by omega)
  have hscientific : UnpackedFloat.ofScientific Format.binary64 n 0 =
      roundWithAccuracy Format.binary64 .positive (n * 2 ^ 53) (-53) .exact := by
    have hwidth : Format.binary64.mantissaBits = 53 := rfl
    have hpower : ¬ (0 : Int) < -(2 ^ Format.binary64.exponentBits + n.log2) := by
      have hbits : Format.binary64.exponentBits = 11 := rfl
      rw [hbits]
      omega
    rw [UnpackedFloat.ofScientific, dif_neg hn, if_neg (by decide), if_neg hpower,
      if_pos le_rfl, UnpackedFloat.mul]
    simp only [hwidth, Nat.shiftLeft_eq, Int.toNat_zero, pow_zero, Nat.mul_one, Int.add_zero]
    rfl
  have hexponent : -53 + ((extra + 53 : Nat) : Int) + carry = ((extra + carry : Nat) : Int) := by
    omega
  have hvalue : m * 2 ^ (extra + carry) = nearestNat n := by
    have hunit : n.log2 - fractionBits = extra := by
      have hbits : fractionBits = 52 := rfl
      omega
    rw [nearestNat, hunit, pow_add, Nat.mul_left_comm, hround, pow_add,
      Decimal.roundHalfEven_mul _ _ (Nat.two_pow_pos 53), Nat.mul_comm]
  refine ⟨m, ((extra + carry : Nat) : Int), hm, hm', by omega, by omega, ?_, ?_⟩
  · rw [ratio, if_pos (by omega), Int.toNat_natCast, Nat.shiftLeft_eq, hvalue, Nat.mul_one]
  · rw [hlong, hscientific, hrounded]
    simp only [hexponent]

/-- A positive number becomes the nearest one with 53 significant bits. -/
theorem represents_ofNat (hn : n ≠ 0) (hlt : n < 2 ^ 64) :
    Represents (Float.ofNat n) (nearestNat n) := by
  by_cases hshort : n < 2 ^ 53
  · exact represents_of_lt hn hshort
  · exact represents_of_le (Nat.le_of_not_lt hshort) hlt

/-- A negative number has the parts of the positive one with the other sign. -/
theorem parts_neg_pack (hm : 2 ^ 52 ≤ m) (hm' : m < 2 ^ 53) (hleast : leastExponent ≤ exponent)
    (hmost : exponent ≤ 971) (hpos : 0 < m) :
    parts (Float.neg (.ofModel (Float.Model.pack (.finite .positive m exponent hpos)))) =
      .finite true m exponent := by
  have hneg : Float.neg (.ofModel (Float.Model.pack (.finite .positive m exponent hpos))) =
      .ofModel (Float.Model.pack
        (Float.Model.pack (.finite .positive m exponent hpos)).unpack.neg) := rfl
  rw [hneg, unpack_pack .positive hm hm' hleast hmost hpos]
  exact parts_pack .negative hm hm' hleast hmost hpos

/--
An integer becomes a finite number with its sign, whose value is the nearest integer of 53
significant bits.
-/
theorem parts_ofInt {i : Int} (hlt : i.natAbs < 2 ^ 64) :
    ∃ (m : Nat) (exponent : Int),
      parts (Float.ofInt i) = .finite (decide (i < 0)) m exponent ∧
      (ratio m exponent).1 = nearestNat i.natAbs * (ratio m exponent).2 := by
  cases i with
  | ofNat n =>
      cases n with
      | zero =>
          refine ⟨0, leastExponent, rfl, ?_⟩
          rw [ratio, if_neg (by decide)]
          exact (Nat.zero_mul _).symm
      | succ n =>
          obtain ⟨m, exponent, hm, hm', hleast, hmost, hratio, hfloat⟩ :=
            represents_ofNat n.succ_ne_zero hlt
          have hsame : Float.ofInt (Int.ofNat (n + 1)) = Float.ofNat (n + 1) := rfl
          refine ⟨m, exponent, ?_, hratio⟩
          rw [hsame, hfloat]
          exact parts_pack .positive hm hm' hleast hmost _
  | negSucc n =>
      obtain ⟨m, exponent, hm, hm', hleast, hmost, hratio, hfloat⟩ :=
        represents_ofNat n.succ_ne_zero hlt
      have hsame : Float.ofInt (Int.negSucc n) = Float.neg (Float.ofNat (n + 1)) := rfl
      have hnegative : decide (Int.negSucc n < 0) = true := decide_eq_true (Int.negSucc_lt_zero n)
      refine ⟨m, exponent, ?_, hratio⟩
      rw [hsame, hfloat, hnegative]
      exact parts_neg_pack hm hm' hleast hmost _

end Integers

end Binary64
end ExprLang
