import ExprLang.Proofs.Lexing.Scans
import ExprLang.Proofs.Value.Integers

/-!
# Numbers

A number is an optional minus with digits behind it, and perhaps a point with digits behind that.
Where a delimiter for numbers stands, as much as possible of the text is taken for the number. One
without a point is an integer, or a floating-point number if it has more than 64 bits; one with a
point is a floating-point number, and needs digits behind the point. Nothing else is ever wrong.

Main definitions:
* `WrittenNumber`: the text of a number, in its parts;
* `WrittenNumber.IsLongestIn`: the longest number at the start of a text;
* `StartsNumber`: what stands where a number is read.

Main results:
* `WrittenNumber.readInt64?_text`, `WrittenNumber.readFloat?_text`: the numbers that are read;
* `StartsNumber.exists_written`: the rule takes the longest number;
* `Grammar.number_scan`: what is read at a delimiter for numbers.
-/

namespace ExprLang

open Decimal

/-- The text of a number: an optional minus, digits, and perhaps a point with digits behind it. -/
structure WrittenNumber where
  negative : Bool
  whole : List Char
  fraction? : Option (List Char)
  whole_digits : ∀ c ∈ whole, c.isDigit = true
  fraction_digits : ∀ fraction ∈ fraction?, ∀ c ∈ fraction, c.isDigit = true

namespace WrittenNumber

section Parts

variable (number : WrittenNumber)

/-- The text behind the sign. -/
def decimal : List Char :=
  number.whole ++ number.fraction?.elim [] fun fraction => '.' :: fraction

/-- The whole text. -/
def text : List Char :=
  if number.negative then '-' :: number.decimal else number.decimal

/-- All digits. -/
def digits : List Char :=
  number.whole ++ number.fraction?.getD []

/-- The integer in front of the point. -/
def integer : Int :=
  let magnitude : Int := Numeral.value 10 (number.whole.map digitValue)
  if number.negative then -magnitude else magnitude

/-- The floating-point number that is nearest. -/
def float : Float :=
  let magnitude := nearest number.digits (-(number.fraction?.getD []).length)
  if number.negative then -magnitude else magnitude

/-- No longer number stands at the start of a text. -/
structure IsLongestIn (rest : List Char) : Prop where
  isPrefix : number.text <+: rest
  longest : ∀ other : WrittenNumber, other.text <+: rest → other.text <+: number.text

end Parts

section Characters

variable {number : WrittenNumber} {c : Char}

theorem isDigit_of_mem_digits (hc : c ∈ number.digits) : c.isDigit = true := by
  rcases List.mem_append.mp hc with hc | hc
  · exact number.whole_digits c hc
  · cases hfraction : number.fraction? with
    | none => simp [hfraction] at hc
    | some fraction =>
        rw [hfraction, Option.getD_some] at hc
        exact number.fraction_digits fraction hfraction c hc

/-- Behind the sign there are digits and perhaps a point. -/
theorem isDigit_or_of_mem_decimal (hc : c ∈ number.decimal) : c.isDigit = true ∨ c = '.' := by
  rcases List.mem_append.mp hc with hc | hc
  · exact .inl (number.whole_digits c hc)
  · cases hfraction : number.fraction? with
    | none => simp [hfraction] at hc
    | some fraction =>
        rw [hfraction] at hc
        rcases List.mem_cons.mp hc with rfl | hc
        · exact .inr rfl
        · exact .inl (number.fraction_digits fraction hfraction c hc)

/-- A character that is no digit and no point does not stand behind the sign. -/
theorem ne_of_mem_decimal {d : Char} (hc : c ∈ number.decimal) (hdigit : d.isDigit = false)
    (hpoint : d ≠ '.') : c ≠ d := by
  rintro rfl
  rcases isDigit_or_of_mem_decimal hc with hc | hc
  · rw [hdigit] at hc
    cases hc
  · exact hpoint hc

/-- If there is a number at all, it has digits, or ends in a point. -/
theorem digits_ne_nil (hne : number.decimal ≠ []) (hpoint : number.fraction? ≠ some []) :
    number.digits ≠ [] := by
  unfold decimal at hne
  unfold digits
  cases hfraction : number.fraction? with
  | none => simpa [hfraction] using hne
  | some fraction =>
      have hfraction_ne : fraction ≠ [] := fun hnil => hpoint (hnil ▸ hfraction)
      simp [hfraction_ne]

theorem isDigits_digits (hne : number.digits ≠ []) : isDigits number.digits = true := by
  unfold isDigits
  rw [Bool.and_eq_true_iff, List.all_eq_true]
  exact ⟨by simpa using hne, fun c hc => isDigit_of_mem_digits hc⟩

/-- A number ends in its point if and only if there are no digits behind it. -/
theorem getLast?_text : number.text.getLast? = some '.' ↔ number.fraction? = some [] := by
  have hsign : number.text.getLast? = some '.' ↔ number.decimal.getLast? = some '.' := by
    unfold text
    split
    · cases number.decimal with
      | nil => simp
      | cons c cs => rw [List.getLast?_cons_cons]
    · rfl
  rw [hsign]
  unfold decimal
  cases hfraction : number.fraction? with
  | none =>
      refine ⟨fun hlast => ?_, fun hnot => nomatch hnot⟩
      have hmem : '.' ∈ number.whole := by simpa using List.mem_of_getLast? hlast
      exact absurd (number.whole_digits _ hmem) (by decide)
  | some fraction =>
      cases fraction with
      | nil => simp
      | cons d fraction =>
          refine ⟨fun hlast => ?_, fun hnot => nomatch hnot⟩
          rw [Option.elim_some, List.getLast?_append_of_ne_nil _ (List.cons_ne_nil _ _),
            List.getLast?_cons_cons] at hlast
          exact absurd (number.fraction_digits _ hfraction _ (List.mem_of_getLast? hlast))
            (by decide)

theorem contains_text : number.text.contains '.' = number.fraction?.isSome := by
  have hwhole : '.' ∉ number.whole := fun hmem =>
    absurd (number.whole_digits _ hmem) (by decide)
  unfold text decimal
  cases number.fraction? with
  | none => split <;> simp [hwhole]
  | some fraction => split <;> simp

end Characters

section Reading

variable {number : WrittenNumber}

/-- The sign is split off. -/
theorem splitSign_text : splitSign number.text = (number.negative, number.decimal) := by
  unfold text
  cases hnegative : number.negative with
  | true => rfl
  | false =>
      rw [if_neg Bool.false_ne_true]
      unfold splitSign
      split
      · rename_i rest heq
        exact absurd rfl (ne_of_mem_decimal (d := '-') (heq ▸ List.mem_cons_self) rfl (by decide))
      · rename_i rest heq
        exact absurd rfl (ne_of_mem_decimal (d := '+') (heq ▸ List.mem_cons_self) rfl (by decide))
      · rfl

/-- Without a point the integer is read, if it has 64 bits. -/
theorem readInt64?_text (hne : number.decimal ≠ []) (hwhole : number.fraction? = none) :
    readInt64? number.text = fits? number.integer := by
  have hdigits : isDigits number.whole = true := by
    have hdigits := isDigits_digits (digits_ne_nil hne (hwhole ▸ nofun))
    rwa [digits, hwhole, Option.getD_none, List.append_nil] at hdigits
  have hdecimal : number.decimal = number.whole := by simp [decimal, hwhole]
  have hlimit : magnitudeLimit = 2 ^ 63 := rfl
  unfold readInt64? integer
  simp only [splitSign_text, hdecimal, readDigits?, hdigits, if_true,
    Numeral.value?_eq _ 10 (by decide)]
  split
  · rfl
  · rename_i hlarge
    refine (fits?_eq_none.mpr fun n heq => ?_).symm
    have hlow := n.le_toInt
    have hhigh := n.toInt_lt
    split at heq <;> omega

/-- No word for a number starts with a digit or a point. -/
theorem readWord?_decimal : readWord? number.decimal = none := by
  have hlower : ∀ c ∈ number.decimal, c.toLower = c := by
    intro c hc
    rcases isDigit_or_of_mem_decimal hc with hdigit | rfl
    · have hle : c.val ≤ 57 := by simpa using (Bool.and_eq_true_iff.mp hdigit).2
      unfold Char.toLower
      rw [dif_neg]
      intro hupper
      have hge : (65 : UInt32) ≤ c.val := hupper.1
      have := UInt32.le_trans hge hle
      exact absurd this (by decide)
    · rfl
  have hsame : number.decimal.map Char.toLower = number.decimal :=
    (List.map_congr_left hlower).trans (List.map_id' _)
  unfold readWord?
  rw [hsame]
  have hne : ∀ d rest, number.decimal = d :: rest → d ≠ 'i' ∧ d ≠ 'n' := fun d rest heq =>
    have hd : d ∈ number.decimal := heq ▸ List.mem_cons_self
    ⟨ne_of_mem_decimal hd rfl (by decide), ne_of_mem_decimal hd rfl (by decide)⟩
  split
  · rename_i heq
    exact absurd rfl (hne _ _ heq).1
  · rename_i heq
    exact absurd rfl (hne _ _ heq).1
  · rename_i heq
    exact absurd rfl (hne _ _ heq).2
  · rfl

/-- There is no exponent. -/
theorem splitExponent?_decimal : splitExponent? number.decimal = some (number.decimal, 0) := by
  have hall : number.decimal.takeWhile (fun c => c != 'e' && c != 'E') = number.decimal :=
    List.takeWhile_eq_self_iff.mpr fun c hc => by
      rw [Bool.and_eq_true_iff, bne_iff_ne, bne_iff_ne]
      exact ⟨ne_of_mem_decimal hc rfl (by decide), ne_of_mem_decimal hc rfl (by decide)⟩
  unfold splitExponent?
  simp only [hall, List.drop_length]

/-- The point stands between the digits in front of it and those behind it. -/
theorem readMagnitude?_decimal (hne : number.digits ≠ []) :
    readMagnitude? number.decimal =
      some (nearest number.digits (-(number.fraction?.getD []).length)) := by
  have hpoint : ∀ c ∈ number.whole, (c != '.') = true := fun c hc =>
    bne_iff_ne.mpr fun heq => absurd (number.whole_digits c hc) (heq ▸ by decide)
  have hwhole : number.decimal.takeWhile (· != '.') = number.whole := by
    unfold decimal
    rw [List.takeWhile_append_of_pos hpoint]
    cases number.fraction? with
    | none => simp
    | some fraction => simp
  have hfraction : (number.decimal.drop number.whole.length).drop 1 =
      number.fraction?.getD [] := by
    unfold decimal
    rw [List.drop_left]
    cases number.fraction? with
    | none => rfl
    | some fraction => rfl
  unfold readMagnitude?
  simp only [splitExponent?_decimal, Option.bind_some, hwhole, hfraction]
  have hdigits : isDigits (number.whole ++ number.fraction?.getD []) = true := isDigits_digits hne
  rw [if_pos hdigits, zero_sub]
  rfl

/-- Where there are digits a floating-point number is read. -/
theorem readFloat?_text (hne : number.digits ≠ []) :
    readFloat? number.text = some number.float := by
  unfold readFloat? float
  simp only [splitSign_text, readWord?_decimal, readMagnitude?_decimal hne, Option.orElse_none,
    Option.map_some]

end Reading

end WrittenNumber

/-- What stands where a number is read: a digit or a point, perhaps with a minus in front. -/
inductive StartsNumber : List Char → Prop
  | unsigned {c : Char} {behind : List Char} (hc : c.isDigit = true ∨ c = '.') :
      StartsNumber (c :: behind)
  | minus {c : Char} {behind : List Char} (hc : c.isDigit = true ∨ c = '.') :
      StartsNumber ('-' :: c :: behind)

namespace ScanRules

section Taking

variable {rest : List Char}

/-- Behind a point digits are taken. -/
theorem isDigit_of_mem_takeDecimal {c : Char} (hc : c ∈ takeDecimal true rest) :
    c.isDigit = true := by
  induction rest with
  | nil => cases hc
  | cons d rest ih =>
      rw [takeDecimal] at hc
      split at hc
      · rename_i hdigit
        rcases List.mem_cons.mp hc with rfl | hc
        · exact hdigit
        · exact ih hc
      · rw [Bool.not_true, Bool.and_false, if_neg Bool.false_ne_true] at hc
        cases hc

/-- What is taken behind a sign are the digits and the point of a number. -/
theorem exists_decimal (negative : Bool) (rest : List Char) :
    ∃ number : WrittenNumber, number.negative = negative ∧
      number.decimal = takeDecimal false rest := by
  induction rest with
  | nil => exact ⟨⟨negative, [], none, nofun, nofun⟩, rfl, rfl⟩
  | cons c rest ih =>
      by_cases hdigit : c.isDigit = true
      · obtain ⟨number, hnegative, hdecimal⟩ := ih
        refine ⟨{ number with
          whole := c :: number.whole
          whole_digits := List.forall_mem_cons.mpr ⟨hdigit, number.whole_digits⟩ }, hnegative, ?_⟩
        rw [takeDecimal, if_pos hdigit, ← hdecimal]
        rfl
      · by_cases hpoint : c = '.'
        · refine ⟨⟨negative, [], some (takeDecimal true rest), nofun, ?_⟩, rfl, ?_⟩
          · intro fraction hfraction d hd
            obtain rfl := Option.some.inj hfraction
            exact isDigit_of_mem_takeDecimal hd
          · rw [takeDecimal, if_neg hdigit, if_pos (by simp [hpoint]), hpoint]
            rfl
        · refine ⟨⟨negative, [], none, nofun, nofun⟩, rfl, ?_⟩
          rw [takeDecimal, if_neg hdigit, if_neg (by simp [hpoint])]
          rfl

/-- The digits and the point of a number are taken where they stand. -/
theorem decimal_isPrefix_takeDecimal {number : WrittenNumber} (h : number.decimal <+: rest) :
    number.decimal <+: takeDecimal false rest := by
  obtain ⟨behind, rfl⟩ := h
  unfold WrittenNumber.decimal
  rw [List.append_assoc, takeDecimal_digits_append number.whole_digits]
  refine (List.prefix_append_right_inj _).mpr ?_
  cases hfraction : number.fraction? with
  | none => exact List.nil_prefix
  | some fraction =>
      have hpoint : takeDecimal false ('.' :: (fraction ++ behind)) =
          '.' :: takeDecimal true (fraction ++ behind) := rfl
      rw [Option.elim_some, List.cons_append, hpoint,
        takeDecimal_digits_append (number.fraction_digits fraction hfraction)]
      exact List.cons_prefix_cons.mpr ⟨rfl, List.prefix_append _ _⟩

theorem takeNumber_cons {c : Char} (hc : c ≠ '-') (rest : List Char) :
    takeNumber (c :: rest) = takeDecimal false (c :: rest) := by
  unfold takeNumber
  split
  · rename_i heq
    exact absurd (List.cons.inj heq).1 hc
  · rfl

/-- Every number at the start of a text is taken. -/
theorem text_isPrefix_takeNumber {number : WrittenNumber} (h : number.text <+: rest) :
    number.text <+: takeNumber rest := by
  cases rest with
  | nil => exact h
  | cons c rest =>
      unfold WrittenNumber.text at h ⊢
      by_cases hminus : c = '-'
      · subst hminus
        rw [takeNumber]
        split at h
        · rename_i hnegative
          rw [if_pos hnegative]
          exact List.cons_prefix_cons.mpr
            ⟨rfl, decimal_isPrefix_takeDecimal (List.cons_prefix_cons.mp h).2⟩
        · rename_i hnegative
          rw [if_neg hnegative]
          cases hdecimal : number.decimal with
          | nil => exact List.nil_prefix
          | cons d behind =>
              rw [hdecimal] at h
              exact absurd (List.cons_prefix_cons.mp h).1
                (WrittenNumber.ne_of_mem_decimal (hdecimal ▸ List.mem_cons_self) rfl (by decide))
      · rw [takeNumber_cons hminus]
        split at h
        · exact absurd (List.cons_prefix_cons.mp h).1.symm hminus
        · rename_i hnegative
          rw [if_neg hnegative]
          exact decimal_isPrefix_takeDecimal h

end Taking

end ScanRules

section Reading

open ScanRules

variable {rest : List Char}

/-- Where a number starts, the rule takes the longest one, which is not only a sign. -/
theorem StartsNumber.exists_written (h : StartsNumber rest) :
    ∃ number : WrittenNumber, number.text = takeNumber rest ∧ number.IsLongestIn rest ∧
      number.decimal ≠ [] := by
  have htaken : ∀ c behind, c.isDigit = true ∨ c = '.' → takeDecimal false (c :: behind) ≠ [] := by
    rintro c behind (hdigit | rfl)
    · rw [takeDecimal, if_pos hdigit]
      exact List.cons_ne_nil _ _
    · exact List.cons_ne_nil _ _
  have hlongest : ∀ number : WrittenNumber, number.text = takeNumber rest →
      number.IsLongestIn rest := fun number heq =>
    ⟨heq ▸ takeNumber_isPrefix rest, fun other hother => heq ▸ text_isPrefix_takeNumber hother⟩
  cases h with
  | @unsigned c behind hc =>
      have hminus : c ≠ '-' := by
        rintro rfl
        rcases hc with hc | hc <;> cases hc
      obtain ⟨number, hnegative, hdecimal⟩ := exists_decimal false (c :: behind)
      have htext : number.text = takeNumber (c :: behind) := by
        rw [takeNumber_cons hminus, ← hdecimal, WrittenNumber.text, hnegative,
          if_neg Bool.false_ne_true]
      exact ⟨number, htext, hlongest number htext, hdecimal ▸ htaken c behind hc⟩
  | @minus c behind hc =>
      obtain ⟨number, hnegative, hdecimal⟩ := exists_decimal true (c :: behind)
      have htext : number.text = takeNumber ('-' :: c :: behind) := by
        rw [takeNumber, ← hdecimal, WrittenNumber.text, hnegative, if_pos rfl]
      exact ⟨number, htext, hlongest number htext, hdecimal ▸ htaken c behind hc⟩

/--
A scan reads a number: it takes all of it, finds fault with a point that no digits follow and with
nothing else, and gives the integer if there is no point and it has 64 bits, and otherwise the
nearest floating-point number.
-/
structure Scan.Reads (scan : Scan) (number : WrittenNumber) : Prop where
  consumed_eq : scan.consumed = Text.byteSize number.text
  error_iff : scan.error.isSome = true ↔ number.text.getLast? = some '.'
  error_eq : ∀ error ∈ scan.error,
    error = ⟨Text.byteSize number.text - 1, 1, .missingFraction⟩
  integer : number.fraction? = none → -2 ^ 63 ≤ number.integer → number.integer < 2 ^ 63 →
    ∃ n : Int64, n.toInt = number.integer ∧ scan.value = some (.int n)
  wide : number.fraction? = none → number.integer < -2 ^ 63 ∨ 2 ^ 63 ≤ number.integer →
    scan.value = some (.float number.float)
  decimal : ∀ fraction, number.fraction? = some fraction → fraction ≠ [] →
    scan.value = some (.float number.float)
  point : number.fraction? = some [] → scan.value = none

section Reads

variable {number : WrittenNumber}

/-- A point without digits behind it is the only fault. -/
theorem WrittenNumber.reads_point (hpoint : number.fraction? = some []) :
    ((Scan.plain (Text.byteSize number.text)).withError (Text.byteSize number.text - 1) 1
      .missingFraction).Reads number where
  consumed_eq := rfl
  error_iff := iff_of_true rfl (getLast?_text.mpr hpoint)
  error_eq _ herror := (Option.some.inj herror).symm
  integer hwhole := nomatch hpoint.symm.trans hwhole
  wide hwhole := nomatch hpoint.symm.trans hwhole
  decimal _ hfraction hne := absurd (Option.some.inj (hfraction.symm.trans hpoint)) hne
  point _ := rfl

/-- A number with a point, or with more than 64 bits, is a floating-point number. -/
theorem WrittenNumber.reads_float (hpoint : number.fraction? ≠ some [])
    (hwide : number.fraction? = none → ∀ n : Int64, n.toInt ≠ number.integer) :
    (Scan.ofValue (Text.byteSize number.text) (.float number.float)).Reads number where
  consumed_eq := rfl
  error_iff := iff_of_false Bool.false_ne_true fun hlast => hpoint (getLast?_text.mp hlast)
  error_eq _ herror := nomatch herror
  integer hwhole hlow hhigh := by
    obtain ⟨n, heq⟩ := exists_toInt_eq hlow hhigh
    exact absurd heq (hwide hwhole n)
  wide _ _ := rfl
  decimal _ _ _ := rfl
  point h := absurd h hpoint

/-- A number without a point that has 64 bits is an integer. -/
theorem WrittenNumber.reads_integer (hwhole : number.fraction? = none) {n : Int64}
    (heq : n.toInt = number.integer) :
    (Scan.ofValue (Text.byteSize number.text) (.int n)).Reads number where
  consumed_eq := rfl
  error_iff := iff_of_false Bool.false_ne_true fun hlast =>
    nomatch hwhole.symm.trans (getLast?_text.mp hlast)
  error_eq _ herror := nomatch herror
  integer _ _ _ := ⟨n, heq, rfl⟩
  wide _ hwide := by
    have hlow := n.le_toInt
    have hhigh := n.toInt_lt
    omega
  decimal _ hfraction _ := nomatch hwhole.symm.trans hfraction
  point h := nomatch hwhole.symm.trans h

end Reads

/-- Where a number starts, the longest one is read. -/
theorem StartsNumber.exists_reads (h : StartsNumber rest) {source : Source} {index : Nat}
    (hat : source.IsAt index rest) :
    ∃ number : WrittenNumber, number.IsLongestIn rest ∧
      (ScanRules.number source index).Reads number := by
  obtain ⟨number, htext, hlongest, hne⟩ := h.exists_written
  have hsize : (takeNumber rest).length = Text.byteSize number.text := by
    rw [htext, byteSize_takeNumber]
  refine ⟨number, hlongest, ?_⟩
  unfold ScanRules.number
  simp only [hat.textFrom_eq, hsize]
  rw [← htext]
  by_cases hpoint : number.fraction? = some []
  · rw [if_pos (WrittenNumber.getLast?_text.mpr hpoint)]
    exact WrittenNumber.reads_point hpoint
  · have hfloat := WrittenNumber.readFloat?_text (WrittenNumber.digits_ne_nil hne hpoint)
    rw [if_neg fun hlast => hpoint (WrittenNumber.getLast?_text.mp hlast),
      WrittenNumber.contains_text]
    cases hfraction : number.fraction? with
    | some fraction =>
        simp only [Option.isSome_some, if_true, hfloat]
        exact WrittenNumber.reads_float hpoint fun hwhole => nomatch hfraction.symm.trans hwhole
    | none =>
        simp only [Option.isSome_none, Bool.false_eq_true, if_false,
          WrittenNumber.readInt64?_text hne hfraction, hfloat]
        cases hfits : fits? number.integer with
        | some n => exact WrittenNumber.reads_integer hfraction (fits?_eq_some.mp hfits)
        | none => exact WrittenNumber.reads_float hpoint fun _ => fits?_eq_none.mp hfits

end Reading

namespace Grammar

variable {delimiter : Delimiter} {source : Source} {index : Nat}

/-- The delimiters for numbers are made of a digit, a minus or a point. -/
theorem number_literals : ∀ d ∈ literals, d.contextName? = some numberName →
    d.scan = some ScanRules.number ∧ ∀ c ∈ d.text, c.isDigit = true ∨ c = '-' ∨ c = '.' := by
  have hmarks : ∀ text : List Char,
      (text.all fun c => c.isDigit || c == '-' || c == '.') = true →
        ∀ c ∈ text, c.isDigit = true ∨ c = '-' ∨ c = '.' := by
    intro text hall c hc
    simpa [or_assoc] using List.all_eq_true.mp hall c hc
  refine List.forall_mem_append.mpr ⟨?_, fun d hd _ => ?_⟩
  · simp only [List.forall_mem_cons]
    refine ⟨fun _ => ⟨rfl, hmarks _ (by decide)⟩, fun _ => ⟨rfl, hmarks _ (by decide)⟩,
      fun hother => ?_, fun hother => ?_, fun hother => ?_, List.forall_mem_nil _⟩
    all_goals exact absurd hother (by decide)
  · obtain ⟨text, htext, rfl⟩ := List.mem_map.mp hd
    have hdigits : ∀ text ∈ ["0", "1", "2", "3", "4", "5", "6", "7", "8", "9"],
        (text.toList.all fun c => c.isDigit || c == '-' || c == '.') = true := by decide
    exact ⟨rfl, hmarks text.toList (hdigits text htext)⟩

/-- A number starts where a delimiter for numbers stands. -/
theorem startsNumber_of_standsAt (hmem : delimiter ∈ literals)
    (hnumber : delimiter.contextName? = some numberName) {rest : List Char}
    (hat : source.IsAt index rest) (hstands : delimiter.standsAt source index rest = true) :
    StartsNumber rest := by
  obtain ⟨hscan, hchars⟩ := number_literals delimiter hmem hnumber
  obtain ⟨hstarts, hholds⟩ := Bool.and_eq_true_iff.mp hstands
  obtain ⟨behind, rfl⟩ := Text.startsWith_iff.mp hstarts
  have hother : ∀ text c, delimiter.text = text → c ∈ text →
      ¬(c.isDigit = true ∨ c = '-' ∨ c = '.') → StartsNumber (delimiter.text ++ behind) :=
    fun text c htext hmem hnot => absurd (hchars c (htext ▸ hmem)) hnot
  cases known_literals delimiter hmem with
  | bare _ hbare _ =>
      rw [hbare] at hscan
      cases hscan
  | @digit c htext hdigit _ _ =>
      rw [htext]
      exact .unsigned (.inl hdigit)
  | minus htext hpredicate _ =>
      rw [htext] at hat
      have hdrop : source.drop? (index + 1) = some behind := hat.behind.drop?_eq
      rw [hpredicate] at hholds
      simp only [ScanRules.minusStartsNumber, ScanRules.charAt, hdrop] at hholds
      cases behind with
      | nil => cases hholds
      | cons c behind =>
          rw [htext]
          exact .minus (by simpa using hholds)
  | point htext _ _ =>
      rw [htext]
      exact .unsigned (.inr rfl)
  | hexadecimal htext _ _ => exact hother _ 'x' htext (by decide) (by decide)
  | boolean htext _ _ =>
      rcases htext with htext | htext
      · exact hother _ 'T' htext (by decide) (by decide)
      · exact hother _ 'F' htext (by decide) (by decide)
  | escape htext _ _ => exact hother _ _ htext List.mem_cons_self (by decide)
  | lineBreak htext _ _ =>
      rcases htext with htext | htext
      · exact hother _ _ htext List.mem_cons_self (by decide)
      · exact hother _ _ htext List.mem_cons_self (by decide)
  | continuation htext _ _ => exact hother _ _ htext List.mem_cons_self (by decide)

/-- Where a delimiter for numbers stands, its rule reads the longest number there. -/
theorem number_scan (hmem : delimiter ∈ literals)
    (hnumber : delimiter.contextName? = some numberName)
    (hat : delimiter.isAt source index = true) :
    delimiter.scan = some ScanRules.number ∧
      ∃ rest number, source.drop? index = some rest ∧
        WrittenNumber.IsLongestIn number rest ∧ (ScanRules.number source index).Reads number := by
  unfold Delimiter.isAt at hat
  split at hat
  · cases hat
  · rename_i rest hdrop
    have hplace := Source.isAt_of_drop? hdrop
    obtain ⟨number, hlongest, hreads⟩ :=
      (startsNumber_of_standsAt hmem hnumber hplace hat).exists_reads hplace
    exact ⟨(number_literals delimiter hmem hnumber).1, rest, number, hdrop, hlongest, hreads⟩

/-- The least integer, in front of a minus that is no part of it. -/
theorem number_scan_least :
    let minus := (Delimiter.ofContext "-" numberName).when ScanRules.minusStartsNumber
    let delimiter := (minus.scannedBy ScanRules.number).named "negative number"
    let source := Source.ofString "-9223372036854775808-"
    delimiter ∈ literals ∧ delimiter.contextName? = some numberName ∧
      delimiter.isAt source 0 = true ∧
      (ScanRules.number source 0).value = some (.int Int64.minValue) ∧
      ∃ rest number, source.drop? 0 = some rest ∧ WrittenNumber.IsLongestIn number rest ∧
        (ScanRules.number source 0).Reads number := by
  intro minus delimiter source
  have hmem : delimiter ∈ literals := List.mem_append_left _ List.mem_cons_self
  have hat : delimiter.isAt source 0 = true := by decide +kernel
  exact ⟨hmem, rfl, hat, by rfl, (number_scan hmem rfl hat).2⟩

end Grammar

end ExprLang
