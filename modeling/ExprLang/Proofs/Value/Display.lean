import ExprLang.Proofs.Lexing.Lookahead
import ExprLang.Value.Printer

/-!
# The texts of data

Values made of null, booleans, integers and lists are data. The text of an integer is an optional
minus with decimal digits behind it, and reading these digits gives the integer. That of a list
has the texts of its items with commas and blanks between them.

Main definitions:
* `Value.IsData`: values without floating-point numbers, strings and objects;
* `Decimal.IsWritten`: the texts of integers.

Main results:
* `Decimal.readInt64?_toString`: an integer is read from its text;
* `ScanRules.number_of_isWritten`: the scan rule for numbers takes the whole text of an integer.
-/

namespace ExprLang

/-- A value made of null, booleans, integers and lists. -/
inductive Value.IsData : Value → Prop
  | null : IsData .null
  | bool (b : Bool) : IsData (.bool b)
  | int (n : Int64) : IsData (.int n)
  | list (items : List Value) (hitems : ∀ item ∈ items, IsData item) : IsData (.list items)

namespace Decimal

section Digits

variable {text : List Char}

/-- An optional minus with digits behind it. -/
def IsWritten (text : List Char) : Prop :=
  ∃ digits, isDigits digits = true ∧ (text = digits ∨ text = '-' :: digits)

theorem isDigit_of_mem (h : isDigits text = true) {c : Char} (hc : c ∈ text) :
    c.isDigit = true :=
  List.all_eq_true.mp (Bool.and_eq_true_iff.mp h).2 c hc

theorem exists_cons_of_isDigits (h : isDigits text = true) :
    ∃ c rest, text = c :: rest ∧ c.isDigit = true := by
  cases text with
  | nil => cases h
  | cons c rest => exact ⟨c, rest, rfl, isDigit_of_mem h List.mem_cons_self⟩

theorem isDigits_toDigits (n : Nat) : isDigits (Nat.toDigits 10 n) = true := by
  unfold isDigits
  rw [Bool.and_eq_true_iff, List.all_eq_true]
  refine ⟨by simp [Nat.toDigits_ne_nil], fun c hc => ?_⟩
  exact Nat.isDigit_of_mem_toDigits (by decide) le_rfl hc

theorem value_toDigits (n : Nat) :
    Numeral.value 10 ((Nat.toDigits 10 n).map digitValue) = n := by
  have hdigits := Nat.ofDigitChars_ten_toDigits (n := n)
  rw [Nat.ofDigitChars_eq_foldl] at hdigits
  unfold Numeral.value
  rw [List.foldl_map]
  exact hdigits

/-- A number within the limit is read from its digits. -/
theorem readDigits?_toDigits {limit n : Nat} (h : n ≤ limit) :
    readDigits? limit (Nat.toDigits 10 n) = some n := by
  rw [readDigits?, if_pos (isDigits_toDigits n), Numeral.value?_eq _ _ (by decide), value_toDigits,
    if_pos h]

/-- Digits have no sign in front. -/
theorem splitSign_of_isDigits (h : isDigits text = true) : splitSign text = (false, text) := by
  obtain ⟨c, rest, rfl, hdigit⟩ := exists_cons_of_isDigits h
  unfold splitSign
  split
  · rename_i heq
    exact absurd ((List.cons.inj heq).1 ▸ hdigit) (by decide)
  · rename_i heq
    exact absurd ((List.cons.inj heq).1 ▸ hdigit) (by decide)
  · rfl

end Digits

section Integers

/-- The text of an integer: digits, with a minus in front of those of a negative one. -/
theorem toList_toString (i : Int) :
    (toString i).toList =
      if 0 ≤ i then Nat.toDigits 10 i.toNat else '-' :: Nat.toDigits 10 (-i).toNat := by
  rw [show toString i = i.repr from rfl, Int.repr_eq_if]
  split
  · rw [Nat.repr_eq_ofList_toDigits, String.toList_ofList]
  · rw [String.toList_append, Nat.repr_eq_ofList_toDigits, String.toList_ofList]
    rw [String.toList_ofList]
    exact List.singleton_append

theorem isWritten_toString (i : Int) : IsWritten (toString i).toList := by
  rw [toList_toString]
  split
  · exact ⟨_, isDigits_toDigits _, Or.inl rfl⟩
  · exact ⟨_, isDigits_toDigits _, Or.inr rfl⟩

theorem fits?_toInt (n : Int64) : fits? n.toInt = some n := by
  unfold fits?
  rw [if_pos ⟨n.minValue_le_toInt, n.toInt_le⟩, Int64.ofInt_toInt]

/-- A 64-bit integer is read from its text. -/
theorem readInt64?_toString (n : Int64) : readInt64? (toString n.toInt).toList = some n := by
  have hlow := n.le_toInt
  have hhigh := n.toInt_lt
  have hlimit : magnitudeLimit = 2 ^ 63 := rfl
  rw [toList_toString]
  by_cases hpositive : 0 ≤ n.toInt
  · rw [if_pos hpositive, readInt64?, splitSign_of_isDigits (isDigits_toDigits _)]
    simp only [Bool.false_eq_true, if_false]
    rw [readDigits?_toDigits (by omega), Option.bind_some, Int.toNat_of_nonneg hpositive, fits?_toInt]
  · rw [if_neg hpositive, readInt64?, splitSign]
    simp only [if_true]
    rw [readDigits?_toDigits (by omega), Option.bind_some, Int.toNat_of_nonneg (by omega), Int.neg_neg,
      fits?_toInt]

end Integers

section Writing

variable {text : List Char}

/-- The characters of an integer. -/
theorem IsWritten.isDigit_of_mem (h : IsWritten text) {c : Char} (hc : c ∈ text) :
    c.isDigit = true ∨ c = '-' := by
  obtain ⟨digits, hdigits, rfl | rfl⟩ := h
  · exact Or.inl (Decimal.isDigit_of_mem hdigits hc)
  · rcases List.mem_cons.mp hc with rfl | hc
    · exact Or.inr rfl
    · exact Or.inl (Decimal.isDigit_of_mem hdigits hc)

/-- An integer starts with a digit, or with a minus in front of a digit; more digits follow. -/
theorem IsWritten.exists_cons (h : IsWritten text) :
    ∃ c rest, text = c :: rest ∧ (∀ d ∈ rest, d.isDigit = true) ∧
      (c.isDigit = true ∨ c = '-' ∧ rest ≠ []) := by
  obtain ⟨digits, hdigits, rfl | rfl⟩ := h
  · obtain ⟨c, rest, rfl, hdigit⟩ := exists_cons_of_isDigits hdigits
    exact ⟨c, rest, rfl, fun d hd => Decimal.isDigit_of_mem hdigits (List.mem_cons_of_mem c hd),
      Or.inl hdigit⟩
  · obtain ⟨c, rest, rfl, -⟩ := exists_cons_of_isDigits hdigits
    exact ⟨'-', c :: rest, rfl, fun d => Decimal.isDigit_of_mem hdigits,
      Or.inr ⟨rfl, List.cons_ne_nil c rest⟩⟩

theorem IsWritten.ne_nil (h : IsWritten text) : text ≠ [] := by
  obtain ⟨c, rest, rfl, -⟩ := h.exists_cons
  exact List.cons_ne_nil c rest

/-- Every character of an integer takes one byte. -/
theorem IsWritten.byteSize_eq (h : IsWritten text) : Text.byteSize text = text.length := by
  refine Text.byteSize_eq_length fun c hc => ?_
  rcases h.isDigit_of_mem hc with hdigit | rfl
  · exact utf8Size_of_isDigit hdigit
  · rfl

end Writing

end Decimal

namespace ScanRules

open Decimal

variable {text : List Char}

/-- Digits in front of a text are taken with what is taken of the text. -/
theorem takeDecimal_digits_append {digits : List Char} (hdigits : ∀ c ∈ digits, c.isDigit = true)
    (seen : Bool) (rest : List Char) :
    takeDecimal seen (digits ++ rest) = digits ++ takeDecimal seen rest := by
  induction digits with
  | nil => rfl
  | cons c digits ih =>
      obtain ⟨hc, hdigits⟩ := List.forall_mem_cons.mp hdigits
      rw [List.cons_append, takeDecimal, if_pos hc, ih hdigits, List.cons_append]

theorem takeDecimal_of_isDigits (seen : Bool) (h : ∀ c ∈ text, c.isDigit = true) :
    takeDecimal seen text = text := by
  have happend := takeDecimal_digits_append h seen []
  rwa [takeDecimal, List.append_nil] at happend

/-- The text of an integer is a number. -/
theorem takeNumber_of_isWritten (h : IsWritten text) : takeNumber text = text := by
  obtain ⟨digits, hdigits, rfl | rfl⟩ := h
  · obtain ⟨c, rest, rfl, hdigit⟩ := exists_cons_of_isDigits hdigits
    unfold takeNumber
    split
    · rename_i heq
      exact absurd ((List.cons.inj heq).1 ▸ hdigit) (by decide)
    · exact takeDecimal_of_isDigits false fun _ => Decimal.isDigit_of_mem hdigits
  · rw [takeNumber, takeDecimal_of_isDigits false fun _ => Decimal.isDigit_of_mem hdigits]

/-- Where the text of an integer stands and no number goes on behind it, the integer is read. -/
theorem number_of_isWritten (h : IsWritten text) {n : Int64} (hread : readInt64? text = some n)
    {behind : List Char} (hbehind : EndsNumber behind) {source : Source} {index : Nat}
    (hat : source.IsAt index (text ++ behind)) :
    number source index = Scan.ofValue (Text.byteSize text) (.int n) := by
  have hpoint : '.' ∉ text := by
    intro hmem
    rcases h.isDigit_of_mem hmem with hdigit | hminus
    · cases hdigit
    · cases hminus
  have hlast : text.getLast? ≠ some '.' := fun heq => hpoint (List.mem_of_getLast? heq)
  have hcontains : text.contains '.' = false := by simpa using hpoint
  unfold number
  simp only [hat.textFrom_eq, takeNumber_append hbehind h.ne_nil, takeNumber_of_isWritten h,
    if_neg hlast, hcontains, Bool.false_eq_true, if_false, hread, h.byteSize_eq]

end ScanRules

end ExprLang
