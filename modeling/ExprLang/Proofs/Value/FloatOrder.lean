import ExprLang.Proofs.Value.NearestFloats
import ExprLang.Value.Operation

/-!
# The order of floating-point numbers

A finite floating-point number is a multiple of the least positive one, and numbers are compared as
these multiples are, the infinities standing outside of them. The logical model compares exponents
first and mantissas then: that gives the same order because mantissas have all of their 53 bits
wherever the exponent is not the least one. An integer that is compared with a floating-point number
counts as the nearest number with 53 significant bits, so that different integers may count as one,
but never in the other order.

Main definitions:
* `Binary64.Parts.units?`: the value of a number in units of the least positive one;
* `Binary64.Parts.Canonical`: mantissas of 53 bits, but for the least exponent.

Main results:
* `Binary64.parts_eq_ofUnpacked`, `Binary64.canonical_parts`: the parts of a number are those of the
  logical model, and canonical;
* `Binary64.compareFloats_eq`: numbers are compared by their values;
* `Binary64.nearestInt_mono`, `Binary64.units?_ofInt`: integers among the floating-point numbers.
-/

namespace ExprLang

open Float.Model Float.Model.UnpackedFloat

namespace Binary64

section Unpacking

/-- What an unpacked number stands for. -/
def Parts.ofUnpacked : UnpackedFloat → Parts
  | .notANumber => .nan
  | .infinity sign => .infinite (sign == .negative)
  | .zero sign => .finite (sign == .negative) 0 leastExponent
  | .finite sign m exponent _ => .finite (sign == .negative) m exponent

variable (bits : BitVec Format.binary64.numBits)

theorem toNat_unpackExponent : (unpackExponent bits).toNat = bits.toNat / 2 ^ 52 % 2048 := by
  have hshift : (unpackExponent bits).toNat = (bits.toNat >>> 52) % 2048 := rfl
  rw [hshift, Nat.shiftRight_eq_div_pow]

theorem toNat_unpackMantissa : (unpackMantissa bits).toNat = bits.toNat % 2 ^ 52 := by
  have hshift : (unpackMantissa bits).toNat = (bits.toNat >>> 0) % 2 ^ 52 := rfl
  rw [hshift, Nat.shiftRight_zero]

theorem toNat_unpackSign : (unpackSign bits).toNat = bits.toNat / 2 ^ 63 := by
  have hshift : (unpackSign bits).toNat = (bits.toNat >>> 63) % 2 ^ 1 := rfl
  have hlt : bits.toNat < 2 ^ 64 := bits.isLt
  rw [hshift, Nat.shiftRight_eq_div_pow]
  omega

/-- The sign bit is one for negative numbers. -/
theorem ofBitVec_unpackSign :
    (Sign.ofBitVec (unpackSign bits) == .negative) = (bits.toNat / 2 ^ 63 == 1) := by
  have hsign := toNat_unpackSign bits
  have hbit := (unpackSign bits).isLt
  unfold Sign.ofBitVec
  by_cases hzero : unpackSign bits = 0#1
  · rw [if_pos hzero]
    rw [hzero] at hsign
    rw [← hsign]
    rfl
  · have hne : (unpackSign bits).toNat ≠ 0 := fun h => hzero (BitVec.eq_of_toNat_eq h)
    have hone : bits.toNat / 2 ^ 63 = 1 := by omega
    rw [if_neg hzero, hone]
    rfl

/-- A mantissa with the bit in front of it that is not packed. -/
theorem toNat_one_append (fraction : BitVec 52) :
    (1#1 ++ fraction).toNat = fraction.toNat + 2 ^ 52 := by
  have hone : (1#1).toNat = 1 := rfl
  rw [BitVec.toNat_append, ← Nat.shiftLeft_add_eq_or_of_lt fraction.isLt, hone, Nat.shiftLeft_eq]
  omega

/-- The parts of a number are those of the unpacked number. -/
theorem parts_eq_ofUnpacked (x : Float) : parts x = .ofUnpacked x.toModel.unpack := by
  obtain ⟨bits, hbits⟩ : ∃ bits : BitVec Format.binary64.numBits,
      bits = x.toModel.toBits.toBitVec := ⟨_, rfl⟩
  have hnat : x.toBits.toNat = bits.toNat := by
    rw [hbits]
    rfl
  have hunpack : x.toModel.unpack = UnpackedFloat.unpack Format.binary64 bits := by
    rw [hbits]
    rfl
  have hbias : ((Format.binary64.exponentBias : Nat) : Int) = 1023 := rfl
  have hwidth : ((Format.binary64.mantissaBitsWithoutImplicit : Nat) : Int) = 52 := rfl
  have hweight : signWeight = 2 ^ 63 := rfl
  have hfirst : fractionWeight = 2 ^ 52 := rfl
  simp only [parts, hnat, hunpack, UnpackedFloat.unpack, hweight, hfirst, ← ofBitVec_unpackSign,
    ← toNat_unpackExponent, ← toNat_unpackMantissa, hbias, hwidth]
  generalize unpackSign bits = sign
  have hall : unpackExponent bits = -1#11 ↔ (unpackExponent bits).toNat = 2047 :=
    BitVec.toNat_inj.symm
  have hnone : unpackExponent bits = 0#11 ↔ (unpackExponent bits).toNat = 0 :=
    BitVec.toNat_inj.symm
  have hzero : unpackMantissa bits = 0#52 ↔ (unpackMantissa bits).toNat = 0 :=
    BitVec.toNat_inj.symm
  have hlong : (1#1 ++ unpackMantissa bits).toNat = (unpackMantissa bits).toNat + 2 ^ 52 :=
    toNat_one_append _
  simp only [hall, hnone, hzero, hlong, leastExponent]
  split_ifs with hlast hinfinite hfirst hempty
  · rfl
  · rfl
  · rw [hempty]
    rfl
  · rw [hfirst]
    rfl
  · refine congrArg (Parts.finite _ _) ?_
    omega

end Unpacking

section Values

/-- The integer `± n`. -/
def signed : (negative : Bool) → Nat → Int
  | false, n => n
  | true, n => -n

/-- The value `m * 2 ^ exponent` in units of the least positive number. -/
def units (m : Nat) (exponent : Int) : Nat := m * 2 ^ (exponent - leastExponent).toNat

/-- The least power of two above all finite numbers. -/
def beyond : Nat := units 1 1024

/--
The value of a number in units of the least positive one, which it is a multiple of. The infinities
stand outside of all finite numbers.
-/
def Parts.units? : Parts → Option Int
  | .nan => none
  | .infinite negative => some (signed negative beyond)
  | .finite negative m exponent => some (signed negative (units m exponent))

/-- The mantissa has 53 bits, or the exponent is the least one and the mantissa shorter. -/
def Parts.Canonical : Parts → Prop
  | .finite _ m exponent =>
      m < 2 ^ 53 ∧ leastExponent ≤ exponent ∧ exponent ≤ 971 ∧
        (2 ^ 52 ≤ m ∨ exponent = leastExponent)
  | _ => True

theorem canonical_parts (x : Float) : (parts x).Canonical := by
  have hfirst : fractionWeight = 2 ^ 52 := rfl
  have hfraction : x.toBits.toNat % 2 ^ 52 < 2 ^ 52 := Nat.mod_lt _ (Nat.two_pow_pos 52)
  have hscale : x.toBits.toNat / 2 ^ 52 % 2048 < 2048 := Nat.mod_lt _ (by decide)
  simp only [parts, hfirst]
  generalize x.toBits.toNat / 2 ^ 52 % 2048 = scale at hscale ⊢
  generalize x.toBits.toNat % 2 ^ 52 = fraction at hfraction ⊢
  split_ifs
  · trivial
  · trivial
  · exact ⟨by omega, le_rfl, by decide, .inr rfl⟩
  · simp only [Parts.Canonical, leastExponent]
    omega

end Values

section Order

variable {m n : Nat} {e f : Int}

theorem units_pos (hm : 0 < m) (e : Int) : 0 < units m e := Nat.mul_pos hm (Nat.two_pow_pos _)

/-- Numbers with the longer exponent are the greater ones. -/
theorem units_lt_of_exponent_lt (hm : m < 2 ^ 53) (he : leastExponent ≤ e) (hef : e < f)
    (hn : 2 ^ 52 ≤ n) :
    units m e < units n f := by
  have hshift : (e - leastExponent).toNat + 1 ≤ (f - leastExponent).toNat := by omega
  calc units m e
      < 2 ^ 53 * 2 ^ (e - leastExponent).toNat :=
        Nat.mul_lt_mul_of_pos_right hm (Nat.two_pow_pos _)
    _ = 2 ^ 52 * 2 ^ ((e - leastExponent).toNat + 1) := by rw [pow_succ]; omega
    _ ≤ units n f :=
        Nat.mul_le_mul hn (Nat.pow_le_pow_right Nat.two_pos hshift)

theorem compare_units (hm : (Parts.finite false m e).Canonical)
    (hn : (Parts.finite false n f).Canonical) :
    compare (units m e) (units n f) = (compare e f).then (compare m n) := by
  obtain ⟨hmlt, hme, -, hmnormal⟩ := hm
  obtain ⟨hnlt, hnf, -, hnnormal⟩ := hn
  rcases lt_trichotomy e f with hlt | rfl | hgt
  · rw [compare_lt_iff_lt.mpr hlt]
    refine compare_lt_iff_lt.mpr (units_lt_of_exponent_lt hmlt hme hlt ?_)
    omega
  · rw [compare_eq_iff_eq.mpr rfl]
    have hpos : 0 < 2 ^ (e - leastExponent).toNat := Nat.two_pow_pos _
    rcases lt_trichotomy m n with hlt | rfl | hgt
    · rw [compare_lt_iff_lt.mpr hlt]
      exact compare_lt_iff_lt.mpr (Nat.mul_lt_mul_of_pos_right hlt hpos)
    · rw [compare_eq_iff_eq.mpr rfl, compare_eq_iff_eq.mpr rfl]
      rfl
    · rw [compare_gt_iff_gt.mpr hgt]
      exact compare_gt_iff_gt.mpr (Nat.mul_lt_mul_of_pos_right hgt hpos)
  · rw [compare_gt_iff_gt.mpr hgt]
    refine compare_gt_iff_gt.mpr (units_lt_of_exponent_lt hnlt hnf hgt ?_)
    omega

theorem units_lt_beyond {negative : Bool} (hm : (Parts.finite negative m e).Canonical) :
    units m e < beyond := by
  obtain ⟨hlt, hleast, hmost, -⟩ := hm
  have hshift : 53 + (e - leastExponent).toNat ≤ (1024 - leastExponent).toNat := by omega
  calc units m e
      < 2 ^ 53 * 2 ^ (e - leastExponent).toNat :=
        Nat.mul_lt_mul_of_pos_right hlt (Nat.two_pow_pos _)
    _ = 2 ^ (53 + (e - leastExponent).toNat) := (pow_add _ _ _).symm
    _ ≤ 2 ^ (1024 - leastExponent).toNat := Nat.pow_le_pow_right Nat.two_pos hshift
    _ = beyond := (Nat.one_mul _).symm

theorem compare_signed (negative : Bool) (p q : Nat) :
    compare (signed negative p) (signed negative q) =
      if negative then (compare p q).swap else compare p q := by
  rcases lt_trichotomy p q with hlt | rfl | hgt
  · rw [compare_lt_iff_lt.mpr hlt]
    cases negative with
    | false => exact compare_lt_iff_lt.mpr (Int.ofNat_lt.mpr hlt)
    | true => exact compare_gt_iff_gt.mpr (Int.neg_lt_neg (Int.ofNat_lt.mpr hlt))
  · rw [compare_eq_iff_eq.mpr rfl, compare_eq_iff_eq.mpr rfl]
    exact (ite_self _).symm
  · rw [compare_gt_iff_gt.mpr hgt]
    cases negative with
    | false => exact compare_gt_iff_gt.mpr (Int.ofNat_lt.mpr hgt)
    | true => exact compare_lt_iff_lt.mpr (Int.neg_lt_neg (Int.ofNat_lt.mpr hgt))

theorem units?_infinity (s : Sign) :
    (Parts.ofUnpacked (.infinity s)).units? = some (s.apply beyond) := by
  cases s with
  | negative => rfl
  | positive => rfl

theorem units?_zero (s : Sign) : (Parts.ofUnpacked (.zero s)).units? = some 0 := by
  cases s with
  | negative => exact congrArg (fun n => some (signed true n)) (Nat.zero_mul _)
  | positive => exact congrArg (fun n => some (signed false n)) (Nat.zero_mul _)

theorem units?_finite (s : Sign) (hm : 0 < m) :
    (Parts.ofUnpacked (.finite s m e hm)).units? = some (s.apply (units m e)) := by
  cases s with
  | negative => rfl
  | positive => rfl

theorem some_lt_eq {a b : Int} (h : a < b) :
    some Ordering.lt = Option.map₂ compare (some a) (some b) :=
  congrArg some (compare_lt_iff_lt.mpr h).symm

theorem some_gt_eq {a b : Int} (h : b < a) :
    some Ordering.gt = Option.map₂ compare (some a) (some b) :=
  congrArg some (compare_gt_iff_gt.mpr h).symm

theorem some_eq_eq {a b : Int} (h : a = b) :
    some Ordering.eq = Option.map₂ compare (some a) (some b) :=
  congrArg some (compare_eq_iff_eq.mpr h).symm

/-- The infinities are outside of all other numbers. -/
theorem compare_infinity (s : Sign) {v : UnpackedFloat} (hv : (Parts.ofUnpacked v).Canonical) :
    UnpackedFloat.compare (.infinity s) v =
      Option.map₂ compare (some (s.apply beyond)) (Parts.ofUnpacked v).units? := by
  have hbeyond : 0 < beyond := units_pos Nat.one_pos _
  cases v with
  | notANumber => cases s <;> rfl
  | infinity t =>
    rw [units?_infinity]
    cases s <;> cases t
    · exact some_eq_eq rfl
    · exact some_lt_eq (by simp only [Sign.apply]; omega)
    · exact some_gt_eq (by simp only [Sign.apply]; omega)
    · exact some_eq_eq rfl
  | zero t =>
    rw [units?_zero]
    cases s with
    | negative => exact some_lt_eq (by simp only [Sign.apply]; omega)
    | positive => exact some_gt_eq (by simp only [Sign.apply]; omega)
  | finite t n f hn =>
    have hfar := units_lt_beyond hv
    rw [units?_finite]
    cases s with
    | negative => exact some_lt_eq (by cases t <;> simp only [Sign.apply] <;> omega)
    | positive => exact some_gt_eq (by cases t <;> simp only [Sign.apply] <;> omega)

theorem compare_zero (s : Sign) (v : UnpackedFloat) :
    UnpackedFloat.compare (.zero s) v =
      Option.map₂ compare (some 0) (Parts.ofUnpacked v).units? := by
  have hbeyond : 0 < beyond := units_pos Nat.one_pos _
  cases v with
  | notANumber => rfl
  | infinity t =>
    rw [units?_infinity]
    cases t with
    | negative => exact some_gt_eq (by simp only [Sign.apply]; omega)
    | positive => exact some_lt_eq (by simp only [Sign.apply]; omega)
  | zero t =>
    rw [units?_zero]
    exact some_eq_eq rfl
  | finite t n f hn =>
    have hpos := units_pos hn f
    rw [units?_finite]
    cases t with
    | negative => exact some_gt_eq (by simp only [Sign.apply]; omega)
    | positive => exact some_lt_eq (by simp only [Sign.apply]; omega)

/-- Of finite numbers the exponents are compared first, and turned around for negative ones. -/
theorem compare_finite (s : Sign) (hm : 0 < m) (hc : (Parts.finite false m e).Canonical)
    {v : UnpackedFloat} (hv : (Parts.ofUnpacked v).Canonical) :
    UnpackedFloat.compare (.finite s m e hm) v =
      Option.map₂ compare (some (s.apply (units m e))) (Parts.ofUnpacked v).units? := by
  have hpos := units_pos hm e
  have hnear := units_lt_beyond hc
  cases v with
  | notANumber => rfl
  | infinity t =>
    rw [units?_infinity]
    cases t with
    | negative => exact some_gt_eq (by cases s <;> simp only [Sign.apply] <;> omega)
    | positive => exact some_lt_eq (by cases s <;> simp only [Sign.apply] <;> omega)
  | zero t =>
    rw [units?_zero]
    cases s with
    | negative => exact some_lt_eq (by simp only [Sign.apply]; omega)
    | positive => exact some_gt_eq (by simp only [Sign.apply]; omega)
  | finite t n f hn =>
    have hpos' := units_pos hn f
    have hsame := compare_units hc hv
    rw [units?_finite]
    cases s <;> cases t
    · rw [UnpackedFloat.compare, ← hsame]
      exact congrArg some (compare_signed true _ _).symm
    · exact some_lt_eq (by simp only [Sign.apply]; omega)
    · exact some_gt_eq (by simp only [Sign.apply]; omega)
    · rw [UnpackedFloat.compare, ← hsame]
      exact congrArg some (compare_signed false _ _).symm

/-- Canonical numbers are compared by their values. -/
theorem compare_unpacked {u v : UnpackedFloat} (hu : (Parts.ofUnpacked u).Canonical)
    (hv : (Parts.ofUnpacked v).Canonical) :
    u.compare v =
      Option.map₂ compare (Parts.ofUnpacked u).units? (Parts.ofUnpacked v).units? := by
  cases u with
  | notANumber => rfl
  | infinity s => rw [units?_infinity, compare_infinity s hv]
  | zero s => rw [units?_zero, compare_zero s v]
  | finite s m e hm => rw [units?_finite, compare_finite s hm hu hv]

/-- Floating-point numbers are compared by their values. -/
theorem compareFloats_eq (x y : Float) :
    Operation.compareFloats x y = Option.map₂ compare (parts x).units? (parts y).units? := by
  have hcompare := fun x y : Float =>
    compare_unpacked (parts_eq_ofUnpacked x ▸ canonical_parts x)
      (parts_eq_ofUnpacked y ▸ canonical_parts y)
  simp only [← parts_eq_ofUnpacked] at hcompare
  have hlt : ∀ x y : Float, x < y ↔ x.toModel.unpack.compare y.toModel.unpack = some .lt :=
    fun x y => decide_eq_true_iff.trans beq_iff_eq
  have heq : ∀ x y : Float,
      (x == y) = true ↔ x.toModel.unpack.compare y.toModel.unpack = some .eq := by
    intro x y
    change (x.toModel.unpack.compare y.toModel.unpack == some .eq) = true ↔ _
    exact beq_iff_eq
  simp only [Operation.compareFloats, hlt, heq, hcompare]
  cases (parts x).units? with
  | none => simp only [Option.map₂_none_left, Option.map₂_none_right, reduceCtorEq, if_false]
  | some a =>
    cases (parts y).units? with
    | none => simp only [Option.map₂_none_left, Option.map₂_none_right, reduceCtorEq, if_false]
    | some b =>
      simp only [Option.map₂_some_some, Option.some.injEq]
      rcases lt_trichotomy a b with hab | rfl | hab
      · rw [if_pos (compare_lt_iff_lt.mpr hab), compare_lt_iff_lt.mpr hab]
      · simp
      · rw [compare_gt_iff_gt.mpr hab, if_neg (by decide), if_pos (compare_lt_iff_lt.mpr hab)]

end Order

section Integers

variable {i j : Int}

/-- A nearest number has 53 significant bits. -/
theorem exists_nearestNat (n : Nat) : ∃ m k : Nat, m < 2 ^ 53 ∧ nearestNat n = m * 2 ^ k := by
  have hbits : fractionBits = 52 := rfl
  have hlt : n < 2 ^ 53 * 2 ^ (n.log2 - fractionBits) := by
    rw [← pow_add]
    exact Nat.lt_log2_self.trans_le (Nat.pow_le_pow_right Nat.two_pos (by omega))
  have hquotient := Nat.div_lt_of_lt_mul (Nat.mul_comm _ _ ▸ hlt)
  have hround : Decimal.roundHalfEven n (2 ^ (n.log2 - fractionBits)) ≤ 2 ^ 53 := by
    have hcases := Decimal.roundHalfEven_cases n (2 ^ (n.log2 - fractionBits))
    omega
  rcases hround.lt_or_eq with hshort | hlong
  · exact ⟨_, _, hshort, rfl⟩
  · refine ⟨2 ^ 52, 1 + (n.log2 - fractionBits), by decide, ?_⟩
    simp only [nearestNat, hlong]
    rw [← pow_add, ← pow_add]
    congr 1
    omega

theorem nearestNat_mono {a b : Nat} (hab : a ≤ b) : nearestNat a ≤ nearestNat b := by
  obtain ⟨m, k, hm, ha⟩ := exists_nearestNat a
  obtain ⟨n, l, hn, hb⟩ := exists_nearestNat b
  have hnear := nearestNat_nearest a hn l
  have hnear' := nearestNat_nearest b hm k
  rw [← hb] at hnear
  rw [← ha] at hnear'
  rcases hab.lt_or_eq with hlt | rfl
  · omega
  · exact le_rfl

theorem nearestInt_mono (hij : i ≤ j) : nearestInt i ≤ nearestInt j := by
  rcases lt_or_ge i 0 with hi | hi
  · rw [nearestInt_of_neg hi]
    rcases lt_or_ge j 0 with hj | hj
    · rw [nearestInt_of_neg hj]
      have hmono : nearestNat j.natAbs ≤ nearestNat i.natAbs := nearestNat_mono (by omega)
      omega
    · rw [nearestInt_of_nonneg hj]
      omega
  · rw [nearestInt_of_nonneg hi, nearestInt_of_nonneg (hi.trans hij)]
    have hmono : nearestNat i.natAbs ≤ nearestNat j.natAbs := nearestNat_mono (by omega)
    omega

theorem units_of_ratio {m value : Nat} {exponent : Int} (hleast : leastExponent ≤ exponent)
    (hratio : (ratio m exponent).1 = value * (ratio m exponent).2) :
    units m exponent = value * units 1 0 := by
  have hlow : leastExponent = -1074 := rfl
  rw [units, units, Nat.one_mul]
  rw [ratio] at hratio
  split_ifs at hratio with hsign
  · simp only [Nat.shiftLeft_eq, Nat.mul_one] at hratio
    rw [← hratio, Nat.mul_assoc, ← pow_add]
    congr 2
    omega
  · simp only [Nat.shiftLeft_eq, Nat.one_mul] at hratio
    rw [hratio, Nat.mul_assoc, ← pow_add]
    congr 2
    omega

/-- An integer as a floating-point number has the value of the nearest integer of 53 bits. -/
theorem units?_ofInt (hlt : i.natAbs < 2 ^ 64) :
    (parts (Float.ofInt i)).units? = some (nearestInt i * units 1 0) := by
  obtain ⟨m, exponent, hparts, hratio⟩ := parts_ofInt hlt
  have hcanonical := canonical_parts (Float.ofInt i)
  rw [hparts] at hcanonical ⊢
  have hunits := units_of_ratio hcanonical.2.1 hratio
  rw [Parts.units?, hunits]
  refine congrArg some ?_
  rcases lt_or_ge i 0 with hi | hi
  · rw [nearestInt_of_neg hi, decide_eq_true hi, signed]
    push_cast
    ring
  · rw [nearestInt_of_nonneg hi, decide_eq_false (by omega), signed]
    push_cast
    rfl

end Integers

end Binary64
end ExprLang
