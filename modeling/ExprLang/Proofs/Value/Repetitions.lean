import ExprLang.Proofs.Value.FloatOrder

/-!
# Repeated strings

A string times a number is a beginning of the endlessly repeated string: some whole copies of it and
a part of one more, whose length comes from the fraction of the number. The limit is checked for the
whole copies only. So it holds for the result wherever the number has no fraction, and otherwise up
to the last copy.

Main definitions:
* `Binary64.HasFraction`: a finite number that is no integer;
* `Operation.Begins`: a text is a beginning of the endlessly repeated one.

Main results:
* `Binary64.sub_ofNat_mul`: nothing is left of a number without a fraction;
* `Operation.repetition_eq_ok`: the copies that a repeated string is made of;
* `Operation.binary_repetition`: what `*` makes of a string and a number.
-/

namespace ExprLang

open Float.Model Float.Model.UnpackedFloat

namespace Binary64

/-- The number is finite and between two integers. -/
def HasFraction (x : Float) : Prop :=
  ∃ (negative : Bool) (m : Nat) (exponent : Int),
    parts x = .finite negative m exponent ∧ ¬ (ratio m exponent).2 ∣ (ratio m exponent).1

section Fractions

variable {x : Float} {m n : Nat} {e f : Int}

theorem ratio_den_pos (m : Nat) (e : Int) : 0 < (ratio m e).2 := by
  rw [ratio]
  split_ifs
  · exact Nat.one_pos
  · rw [Nat.one_shiftLeft]
    exact Nat.two_pow_pos _

theorem unpack_of_parts (hx : parts x = .finite false m e) (hm : 0 < m) :
    x.toModel.unpack = .finite .positive m e hm := by
  rw [parts_eq_ofUnpacked] at hx
  cases hu : x.toModel.unpack with
  | notANumber =>
    rw [hu] at hx
    cases hx
  | infinity s =>
    rw [hu] at hx
    cases hx
  | zero s =>
    rw [hu] at hx
    injection hx with _ hzero
    exact absurd hzero hm.ne
  | finite s m' e' hm' =>
    rw [hu] at hx
    cases s with
    | negative => cases hx
    | positive =>
      cases hx
      rfl

/-- Canonical numbers of one value have one mantissa and one exponent. -/
theorem eq_of_units_eq (hm : (Parts.finite false m e).Canonical)
    (hn : (Parts.finite false n f).Canonical) (hunits : units m e = units n f) :
    m = n ∧ e = f := by
  have hcompare := compare_units hm hn
  rw [compare_eq_iff_eq.mpr hunits, eq_comm, Ordering.then_eq_eq, compare_eq_iff_eq,
    compare_eq_iff_eq] at hcompare
  exact hcompare.symm

/-- A natural number of 53 bits is the only number with its value. -/
theorem unpack_ofNat (hx : parts x = .finite false m e) (hm : 0 < m) {whole : Nat}
    (hwhole : (ratio m e).1 = whole * (ratio m e).2) (hlt : whole < 2 ^ 53) :
    (Float.ofNat whole).toModel.unpack = x.toModel.unpack := by
  have hcanonical := canonical_parts x
  rw [hx] at hcanonical
  have hunits := units_of_ratio hcanonical.2.1 hwhole
  have hne : whole ≠ 0 := by
    rintro rfl
    have hpos := units_pos hm e
    omega
  obtain ⟨n, f, hn, hn', hleast, hmost, hratio, hfloat⟩ := represents_of_lt hne hlt
  rw [nearestNat_of_lt hlt] at hratio
  have hcanonical' : (Parts.finite false n f).Canonical := ⟨hn', hleast, hmost, .inl hn⟩
  obtain ⟨rfl, rfl⟩ := eq_of_units_eq hcanonical hcanonical'
    (hunits.trans (units_of_ratio hleast hratio).symm)
  rw [hfloat, unpack_of_parts hx hm]
  exact unpack_pack .positive hn hn' hleast hmost hm

theorem unpack_pack_zero (s : Sign) : (Float.Model.pack (.zero s)).unpack = .zero s := by
  cases s with
  | negative => rfl
  | positive => rfl

theorem unpack_pack_notANumber : (Float.Model.pack .notANumber).unpack = .notANumber := rfl

/-- Zero times anything is zero or no number. -/
theorem zero_mul_unpacked (u : UnpackedFloat) :
    UnpackedFloat.mul Format.binary64 (.zero .positive) u = .notANumber ∨
      ∃ s, UnpackedFloat.mul Format.binary64 (.zero .positive) u = .zero s := by
  cases u with
  | notANumber => exact .inl rfl
  | infinity s => exact .inl rfl
  | zero s => exact .inr ⟨_, rfl⟩
  | finite s m e hm => exact .inr ⟨_, rfl⟩

/-- An integer has no fraction, also where it is rounded. -/
theorem not_hasFraction_ofInt64 (i : Int64) : ¬ HasFraction (Float.ofInt i.toInt) := by
  have hlow := i.le_toInt
  have hhigh := i.toInt_lt
  rintro ⟨negative, m, e, hparts, hdvd⟩
  obtain ⟨m', e', hparts', hratio⟩ := parts_ofInt (show i.toInt.natAbs < 2 ^ 64 by omega)
  cases hparts.symm.trans hparts'
  exact hdvd (Dvd.intro_left _ hratio.symm)

/-- The difference of equal numbers is zero, whatever it is multiplied by. -/
theorem parts_sub_mul {x y : Float} (hm : 0 < m)
    (hx : x.toModel.unpack = .finite .positive m e hm)
    (hxy : y.toModel.unpack = x.toModel.unpack) (factor : Float) :
    parts ((x - y) * factor) = .nan ∨
      ∃ negative, parts ((x - y) * factor) = .finite negative 0 leastExponent := by
  have hsub : (x - y).toModel =
      Float.Model.pack (UnpackedFloat.sub Format.binary64 x.toModel.unpack y.toModel.unpack) := rfl
  have hmul : ((x - y) * factor).toModel = Float.Model.pack
      (UnpackedFloat.mul Format.binary64 (x - y).toModel.unpack factor.toModel.unpack) := rfl
  have hdifference : (x - y).toModel.unpack = .zero .positive := by
    rw [hsub, hxy, hx]
    simp only [UnpackedFloat.sub, Int.sub_self]
    exact unpack_pack_zero .positive
  rw [parts_eq_ofUnpacked, hmul, hdifference]
  rcases zero_mul_unpacked factor.toModel.unpack with hnan | ⟨s, hzero⟩
  · rw [hnan, unpack_pack_notANumber]
    exact .inl rfl
  · rw [hzero, unpack_pack_zero]
    exact .inr ⟨_, rfl⟩

end Fractions

end Binary64

namespace Operation

open Binary64

/-- The text is a beginning of the other one, repeated without end. -/
def Begins (s t : String) : Prop :=
  ∃ copies : Nat, t.toList <+: (List.replicate copies s.toList).flatten

section Copies

variable {s t : String} {times : Float} {m : Nat} {e : Int}

/-- Without a fraction there is no part of a copy. -/
theorem fractionLength_of_dvd (hparts : parts times = .finite false m e) (hm : 0 < m)
    (hdvd : (ratio m e).2 ∣ (ratio m e).1) (hlt : floorNat m e < 2 ^ 53) (length : Nat) :
    fractionLength times (floorNat m e) length = 0 := by
  have hwhole : (ratio m e).1 = floorNat m e * (ratio m e).2 := (Nat.div_mul_cancel hdvd).symm
  have hnone : roundNat 0 leastExponent = 0 := rfl
  rcases parts_sub_mul hm (unpack_of_parts hparts hm) (unpack_ofNat hparts hm hwhole hlt)
    (Float.ofNat length) with hnan | ⟨negative, hzero⟩
  · rw [fractionLength, hnan]
  · rw [fractionLength, hzero]
    cases negative with
    | false => exact hnone
    | true => rfl

theorem toList_firstChars (s : String) (count : Nat) :
    (firstChars s count).toList = s.toList.take count := by
  cases count with
  | zero => rfl
  | succ count => rw [firstChars, String.toList_ofList]

theorem toList_repeat (s : String) (count : Nat) :
    (Nat.repeat (· ++ s) count "").toList = (List.replicate count s.toList).flatten := by
  induction count with
  | zero => rfl
  | succ count ih =>
    rw [Nat.repeat, String.toList_append, ih, List.replicate_succ', List.flatten_append,
      List.flatten_singleton]

theorem toList_copies (s : String) (whole count : Nat) :
    (Nat.repeat (· ++ s) whole "" ++ firstChars s count).toList =
      (List.replicate whole s.toList).flatten ++ s.toList.take count := by
  rw [String.toList_append, toList_repeat, toList_firstChars]

/-- A repeated string is empty or made of whole copies and of a part of one. -/
theorem repetition_eq_ok (h : repetition s times = .ok t) :
    t = "" ∨ ∃ (m : Nat) (e : Int), parts times = .finite false m e ∧ 0 < m ∧ 0 < s.length ∧
      floorNat m e * s.length ≤ repetitionLimit ∧
      t.toList = (List.replicate (floorNat m e) s.toList).flatten ++
        s.toList.take (fractionLength times (floorNat m e) s.length) := by
  rw [repetition] at h
  cases hparts : parts times with
  | nan =>
    rw [hparts] at h
    cases h
    exact .inl rfl
  | infinite negative =>
    rw [hparts] at h
    simp only at h
    split_ifs at h
    cases h
    exact .inl rfl
  | finite negative m e =>
    rw [hparts] at h
    simp only at h
    split_ifs at h with hnone hlimit
    · cases h
      exact .inl rfl
    · cases h
      simp only [Bool.or_eq_true, beq_iff_eq, String.isEmpty_iff, not_or, Bool.not_eq_true] at hnone
      obtain ⟨⟨hpositive, hm⟩, hs⟩ := hnone
      subst hpositive
      have hlength : 0 < s.length := Nat.pos_of_ne_zero fun h => hs (String.length_eq_zero_iff.mp h)
      exact .inr ⟨m, e, rfl, Nat.pos_of_ne_zero hm, hlength, Nat.le_of_not_lt hlimit,
        toList_copies s _ _⟩

end Copies

section Products

variable {s t : String} {n : Value} {k : Number} {times : Float} {m : Nat} {e : Int}

theorem begins_of_toList {whole count : Nat}
    (ht : t.toList = (List.replicate whole s.toList).flatten ++ s.toList.take count) :
    Begins s t := by
  refine ⟨whole + 1, ?_⟩
  rw [ht, List.replicate_succ', List.flatten_append, List.flatten_singleton]
  exact (List.prefix_append_right_inj _).mpr (List.take_prefix _ _)

theorem length_of_toList {whole count : Nat}
    (ht : t.toList = (List.replicate whole s.toList).flatten ++ s.toList.take count) :
    t.length = whole * s.length + min count s.length := by
  have hlength := congrArg List.length ht
  simpa only [List.length_append, List.length_flatten, List.map_replicate, List.sum_replicate,
    List.length_take, String.length_toList, smul_eq_mul] using hlength

/-- Only a number with a fraction leads beyond the limit, and not over the next copy. -/
theorem length_le_of_repetition_eq_ok (h : repetition s times = .ok t) :
    t.length ≤ repetitionLimit ∨ HasFraction times ∧ ∃ whole : Nat,
      whole * s.length ≤ repetitionLimit ∧ t.length ≤ (whole + 1) * s.length := by
  rcases repetition_eq_ok h with rfl | ⟨m, e, hparts, hm, hs, hlimit, ht⟩
  · exact .inl (Nat.zero_le _)
  · have hlength := length_of_toList ht
    by_cases hdvd : (ratio m e).2 ∣ (ratio m e).1
    · have hwhole : floorNat m e < 2 ^ 53 := by
        have hle := Nat.le_mul_of_pos_right (floorNat m e) hs
        have hconst : repetitionLimit = 2 ^ 24 := rfl
        omega
      rw [fractionLength_of_dvd hparts hm hdvd hwhole] at hlength
      left
      omega
    · refine .inr ⟨⟨false, m, e, hparts, hdvd⟩, floorNat m e, hlimit, ?_⟩
      rw [Nat.succ_mul]
      omega

theorem binary_multiply_eq_ok (hk : n.number? = some k) {result : Value}
    (h : binary .multiply (.str s) n = .ok result ∨ binary .multiply n (.str s) = .ok result) :
    ∃ t, result = .str t ∧ repetition s k.toFloat = .ok t := by
  have hrepeat : (repetition s k.toFloat).map Value.str = .ok result := by
    rcases h with h | h
    · rw [← h, binary, multiply, repeatBy, hk]
    · cases n with
      | int x | float x =>
        cases hk
        exact h
      | _ => cases hk
  cases hresult : repetition s k.toFloat with
  | error e =>
    rw [hresult] at hrepeat
    cases hrepeat
  | ok t =>
    rw [hresult] at hrepeat
    cases hrepeat
    exact ⟨t, rfl, rfl⟩

/--
A string times a number, in either order, is a beginning of the endlessly repeated string. It is not
longer than the limit, unless the number has a fraction: the limit holds for the whole copies then,
and the part of one more copy comes in addition.
-/
theorem binary_repetition (s : String) (n : Value) (hk : n.number? = some k) {result : Value}
    (h : binary .multiply (.str s) n = .ok result ∨ binary .multiply n (.str s) = .ok result) :
    ∃ t, result = .str t ∧ Begins s t ∧
      (t.length ≤ repetitionLimit ∨ ∃ x, n = .float x ∧ HasFraction x ∧ ∃ whole : Nat,
        whole * s.length ≤ repetitionLimit ∧ t.length ≤ (whole + 1) * s.length) := by
  obtain ⟨t, ht, hrepetition⟩ := binary_multiply_eq_ok hk h
  refine ⟨t, ht, ?_, ?_⟩
  · rcases repetition_eq_ok hrepetition with rfl | ⟨m, e, -, -, -, -, hcopies⟩
    · exact ⟨0, List.prefix_rfl⟩
    · exact begins_of_toList hcopies
  · refine (length_le_of_repetition_eq_ok hrepetition).imp_right ?_
    rintro ⟨hfraction, hcopies⟩
    cases n with
    | int i =>
      cases hk
      exact absurd hfraction (not_hasFraction_ofInt64 i)
    | float x =>
      cases hk
      exact ⟨x, rfl, hfraction, hcopies⟩
    | _ => cases hk

/-- Two copies and a half. -/
theorem binary_repetition_half :
    ∃ t, binary .multiply (.str "ab") (.float 2.5) = .ok (.str t) ∧ Begins "ab" t := by
  have hresult : binary .multiply (.str "ab") (.float 2.5) = .ok (.str "ababa") := rfl
  obtain ⟨t, ht, hbegins, -⟩ := binary_repetition "ab" (.float 2.5) rfl (.inl hresult)
  cases ht
  exact ⟨_, hresult, hbegins⟩

/-- Half a copy more than the limit allows. -/
theorem binary_repetition_long :
    ∃ t, binary .multiply (.str "ab") (.float 8388608.5) = .ok (.str t) ∧
      repetitionLimit < t.length := by
  have hparts : parts 8388608.5 = .finite false 4503599895805952 (-29) := rfl
  have hwhole : floorNat 4503599895805952 (-29) = 8388608 := rfl
  have hcount : fractionLength 8388608.5 8388608 "ab".length = 1 := rfl
  have hresult : repetition "ab" 8388608.5 =
      .ok (Nat.repeat (· ++ "ab") 8388608 "" ++ firstChars "ab" 1) := by
    rw [repetition, hparts]
    simp only [hwhole, hcount]
    rfl
  have hlength := length_of_toList (toList_copies "ab" 8388608 1)
  refine ⟨Nat.repeat (· ++ "ab") 8388608 "" ++ firstChars "ab" 1, ?_, ?_⟩
  · simp only [binary, multiply, repeatBy, Value.number?, Number.toFloat, hresult, Except.map]
  · rw [hlength]
    decide

end Products

end Operation
end ExprLang
