import ExprLang.Proofs.Value.Display
import ExprLang.Value.Format
import Mathlib.Data.List.TakeWhile

/-!
# Patterns and what they are made of

A pattern can be put together from texts and from places for arguments: in a text every brace is
written twice, and an argument is its index between braces. Where such pieces meet there are runs of
braces of any length. They are read in pairs from the left, which finds the pieces again, since
every piece ends where a pair or a placeholder ends.

Main definitions:
* `Format.doubled`: a text with its braces written twice;
* `Format.Piece`: a piece of a pattern, how it is written and what it stands for.

Main results:
* `expand_doubled`, `expand_placeholder`: what is read of a text and of a placeholder;
* `format_pieces`: a pattern made of pieces gives what the pieces stand for.
-/

namespace ExprLang

section Digits

variable {text : List Char}

theorem Decimal.readNat?_toDigits {limit n : Nat} (h : n ≤ limit) :
    readNat? limit (Nat.toDigits 10 n) = some n := by
  obtain ⟨c, rest, htext, hdigit⟩ := exists_cons_of_isDigits (isDigits_toDigits n)
  have hplus : c ≠ '+' := by
    rintro rfl
    cases hdigit
  rw [← readDigits?_toDigits h, htext, readNat?]
  exact fun _ heq => hplus (List.cons.inj heq).1

theorem Text.isBlank_of_isDigit {c : Char} (h : c.isDigit = true) : isBlank c = false := by
  have hrange : 48 ≤ c.toNat ∧ c.toNat ≤ 57 := by
    simpa [Char.isDigit, UInt32.le_iff_toNat_le] using h
  simp [isBlank]
  omega

/-- Digits have no blanks at their ends. -/
theorem Text.trim_of_isDigits (h : Decimal.isDigits text = true) : trim text = text := by
  have hkeep : ∀ chars : List Char, (∀ c ∈ chars, c.isDigit = true) →
      chars.dropWhile isBlank = chars := by
    intro chars hchars
    refine List.dropWhile_eq_self_iff.mpr fun hpos => ?_
    rw [isBlank_of_isDigit (hchars _ (List.getElem_mem hpos))]
    exact Bool.false_ne_true
  have hdigit : ∀ c ∈ text, c.isDigit = true := fun c => Decimal.isDigit_of_mem h
  rw [trim, hkeep text hdigit, hkeep text.reverse (by simpa using hdigit), List.reverse_reverse]

end Digits

namespace Format

variable {args : List Value}

/-- A text with its braces written twice. -/
def doubled (text : List Char) : List Char :=
  text.flatMap fun c => if c = '\x7b' ∨ c = '\x7d' then [c, c] else [c]

/-- A piece of a pattern: text that stays as it is, or an argument by its index of 64 bits. -/
inductive Piece (args : List Value) where
  | text (content : String)
  | argument (index : UInt64) (hindex : index.toNat < args.length)

namespace Piece

/-- How a piece is written in a pattern. -/
def pattern : Piece args → String
  | text content => .ofList (doubled content.toList)
  | argument index _ => "\x7b" ++ toString index.toNat ++ "\x7d"

/-- What a piece stands for. -/
def filling : Piece args → String
  | text content => content
  | argument index _ => args[index.toNat].display

end Piece

section Placeholders

variable {index : Nat}

theorem bne_colon_of_isDigit {c : Char} (h : c.isDigit = true) : (c != ':') = true := by
  refine bne_iff_ne.mpr ?_
  rintro rfl
  cases h

/-- The index of a placeholder is read from its digits. -/
theorem read?_index (h : index ≤ indexLimit) :
    Placeholder.read? (Nat.toDigits 10 index) = some ⟨index, none⟩ := by
  have hdigits := Decimal.isDigits_toDigits index
  have hwritten : (Nat.toDigits 10 index).takeWhile (· != ':') = Nat.toDigits 10 index :=
    List.takeWhile_eq_self_iff.mpr fun c hc =>
      bne_colon_of_isDigit (Decimal.isDigit_of_mem hdigits hc)
  simp only [Placeholder.read?, hwritten, List.drop_length, Text.trim_of_isDigits hdigits,
    Decimal.readNat?_toDigits h, Option.map_some]

/-- The index and the places of a placeholder are read from their digits. -/
theorem read?_places {places : Nat} (h : index ≤ indexLimit) (hplaces : places ≤ placesLimit) :
    Placeholder.read? (Nat.toDigits 10 index ++ ':' :: '.' :: Nat.toDigits 10 places) =
      some ⟨index, some places⟩ := by
  have hdigits := Decimal.isDigits_toDigits index
  have hwritten : (Nat.toDigits 10 index ++ ':' :: '.' :: Nat.toDigits 10 places).takeWhile
      (· != ':') = Nat.toDigits 10 index := by
    rw [List.takeWhile_append_of_pos fun c hc =>
      bne_colon_of_isDigit (Decimal.isDigit_of_mem hdigits hc)]
    exact List.append_nil _
  simp only [Placeholder.read?, hwritten, List.drop_left, readPlaces?,
    Text.trim_of_isDigits hdigits, Decimal.readNat?_toDigits h, Decimal.readNat?_toDigits hplaces,
    Option.map_some, Option.bind_some]

end Placeholders

section Reading

variable {text : List Char}

/-- Braces that are written twice are read as one. -/
theorem expand_doubled (args : List Value) (written text rest : List Char) :
    expand args written none (doubled text ++ rest) =
      expand args (text.reverse ++ written) none rest := by
  induction text generalizing written with
  | nil => rfl
  | cons c text ih =>
      have hstep : expand args written none (doubled (c :: text) ++ rest) =
          expand args (c :: written) none (doubled text ++ rest) := by
        by_cases hopen : c = '\x7b'
        · subst hopen
          rfl
        · by_cases hclose : c = '\x7d'
          · subst hclose
            rfl
          · have hcons : doubled (c :: text) = c :: doubled text := by
              simp [doubled, hopen, hclose]
            rw [hcons, List.cons_append, expand]
            all_goals simp [hopen, hclose]
      rw [hstep, ih, List.reverse_cons, List.append_assoc, List.singleton_append]

/-- Everything up to the closing brace belongs to a placeholder. -/
theorem expand_inside (written rest : List Char) {inside filled : List Char}
    (hfill : fill args (inside.reverse ++ text) = .ok filled) (hclose : '\x7d' ∉ text) :
    expand args written (some inside) (text ++ '\x7d' :: rest) =
      expand args (filled.reverse ++ written) none rest := by
  induction text generalizing inside with
  | nil =>
      rw [List.append_nil] at hfill
      rw [List.nil_append, expand, hfill]
  | cons c text ih =>
      have hc : c ≠ '\x7d' := fun heq => hclose (heq ▸ List.mem_cons_self)
      rw [List.cons_append, expand]
      · refine ih ?_ fun hmem => hclose (List.mem_cons_of_mem c hmem)
        rw [List.reverse_cons, List.append_assoc, List.singleton_append]
        exact hfill
      · exact fun heq => absurd heq hc

/-- A placeholder is filled with what its text says. -/
theorem expand_placeholder (written rest : List Char) {filled : List Char}
    (hfill : fill args text = .ok filled) (hopen : '\x7b' ∉ text) (hclose : '\x7d' ∉ text) :
    expand args written none ('\x7b' :: text ++ '\x7d' :: rest) =
      expand args (filled.reverse ++ written) none rest := by
  have hcontains : (text ++ '\x7d' :: rest).contains '\x7d' = true := by simp
  rw [List.cons_append, expand, if_pos hcontains]
  · exact expand_inside written rest hfill hclose
  · intro behind hbehind
    cases text with
    | nil => exact absurd (List.cons.inj hbehind).1 (by decide)
    | cons c text => exact hopen ((List.cons.inj hbehind).1 ▸ List.mem_cons_self)

end Reading

section Pieces

/-- A 64-bit index can be written. -/
theorem toNat_le_indexLimit (index : UInt64) : index.toNat ≤ indexLimit :=
  Nat.le_of_lt_succ index.toNat_lt

/-- One piece is read as what it stands for, whatever is written before and behind it. -/
theorem expand_pattern (written : List Char) (piece : Piece args) (rest : List Char) :
    expand args written none (piece.pattern.toList ++ rest) =
      expand args (piece.filling.toList.reverse ++ written) none rest := by
  cases piece with
  | text content =>
      rw [Piece.pattern, String.toList_ofList]
      exact expand_doubled args written content.toList rest
  | argument index hindex =>
      have hdigits := Decimal.isDigits_toDigits index.toNat
      have hfill : fill args (Nat.toDigits 10 index.toNat) =
          .ok args[index.toNat].display.toList := by
        rw [fill, read?_index (toNat_le_indexLimit index)]
        simp [hindex]
      have hpattern : (Piece.argument index hindex).pattern.toList ++ rest =
          '\x7b' :: Nat.toDigits 10 index.toNat ++ '\x7d' :: rest := by
        simp [Piece.pattern, Nat.repr_eq_ofList_toDigits]
      rw [hpattern, expand_placeholder written rest hfill]
      · rfl
      · exact fun hmem => absurd (Decimal.isDigit_of_mem hdigits hmem) (by decide)
      · exact fun hmem => absurd (Decimal.isDigit_of_mem hdigits hmem) (by decide)

/-- Pieces are read one after the other. -/
theorem expand_pieces (written : List Char) (pieces : List (Piece args)) :
    expand args written none (String.join (pieces.map Piece.pattern)).toList =
      .ok (written.reverse ++ (String.join (pieces.map Piece.filling)).toList) := by
  induction pieces generalizing written with
  | nil => simp [expand]
  | cons piece pieces ih =>
      rw [List.map_cons, List.map_cons, String.join_cons, String.join_cons, String.toList_append,
        String.toList_append, expand_pattern, ih]
      simp

/--
A pattern made of pieces, in which every brace of a text is written twice and every argument is its
index between braces, gives the texts unchanged and the displays of the arguments, in their order.
-/
theorem format_pieces (args : List Value) (pieces : List (Piece args)) :
    format (String.join (pieces.map Piece.pattern)) args =
      .ok (String.join (pieces.map Piece.filling)) := by
  rw [format, expand_pieces]
  exact congrArg Except.ok String.ofList_toList

end Pieces

end Format
end ExprLang
