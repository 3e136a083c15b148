/-!
# Text and byte offsets

A text is a list of characters. Positions in it are offsets into its UTF-8
form, so every character counts for as many offsets as it has bytes, and an
offset inside a character is not a position of the text.

Main functions:
* `byteSize`: the length of a text in bytes;
* `drop?`, `take?`, `slice?`: the text from, up to and between offsets, defined
  on character boundaries only;
* `splitReaching`: the shortest run of whole characters with enough bytes.
-/

namespace ExprLang
namespace Text

/-- Number of bytes of a text. -/
def byteSize : List Char → Nat
  | [] => 0
  | c :: cs => c.utf8Size + byteSize cs

/-- The text from offset `n` on; none unless `n` is a character boundary. -/
def drop? : List Char → Nat → Option (List Char)
  | cs, 0 => some cs
  | [], _ + 1 => none
  | c :: cs, n + 1 =>
      if c.utf8Size ≤ n + 1 then
        drop? cs (n + 1 - c.utf8Size)
      else
        none

/-- The text before offset `n`; none unless `n` is a character boundary. -/
def take? : List Char → Nat → Option (List Char)
  | _, 0 => some []
  | [], _ + 1 => none
  | c :: cs, n + 1 =>
      if c.utf8Size ≤ n + 1 then
        (take? cs (n + 1 - c.utf8Size)).map (c :: ·)
      else
        none

/--
The text between two offsets; none unless both are character boundaries and
stand in order.
-/
def slice? (text : List Char) (start stop : Nat) : Option (List Char) :=
  if start ≤ stop then
    (drop? text start).bind fun rest => take? rest (stop - start)
  else
    none

/--
Splits off whole characters until they have at least `n` bytes or the text
ends: the number of bytes split off, and what is left.
-/
def splitReaching : Nat → List Char → Nat × List Char
  | 0, cs => (0, cs)
  | _ + 1, [] => (0, [])
  | n + 1, c :: cs =>
      let (size, rest) := splitReaching (n + 1 - c.utf8Size) cs
      (c.utf8Size + size, rest)

/-- What follows `head` in a text that starts with it. -/
def dropHead? : (head : List Char) → List Char → Option (List Char)
  | [], cs => some cs
  | _ :: _, [] => none
  | h :: hs, c :: cs => if h = c then dropHead? hs cs else none

/-- Does the text start with `head`? -/
def startsWith (head text : List Char) : Bool :=
  (dropHead? head text).isSome

section Lemmas

variable (c : Char) (cs : List Char)

@[simp]
theorem byteSize_nil : byteSize [] = 0 := rfl

@[simp]
theorem byteSize_cons : byteSize (c :: cs) = c.utf8Size + byteSize cs := rfl

theorem byteSize_append (as bs : List Char) :
    byteSize (as ++ bs) = byteSize as + byteSize bs := by
  induction as with
  | nil => simp
  | cons a as ih => simp [ih, Nat.add_assoc]

@[simp]
theorem drop?_zero : drop? cs 0 = some cs := by
  cases cs <;> rfl

@[simp]
theorem take?_zero : take? cs 0 = some [] := by
  cases cs <;> rfl

/-- Dropping the bytes of a first part leaves the second. -/
theorem drop?_byteSize_append (as bs : List Char) :
    drop? (as ++ bs) (byteSize as) = some bs := by
  induction as with
  | nil => simp
  | cons a as ih =>
      have pos := a.utf8Size_pos
      obtain ⟨n, hn⟩ : ∃ n, byteSize (a :: as) = n + 1 :=
        ⟨byteSize (a :: as) - 1, by simp; omega⟩
      have le : a.utf8Size ≤ n + 1 := by simp at hn; omega
      have sub : n + 1 - a.utf8Size = byteSize as := by simp at hn; omega
      rw [hn, List.cons_append, drop?, if_pos le, sub, ih]

/-- Taking the bytes of a first part gives that part. -/
theorem take?_byteSize_append (as bs : List Char) :
    take? (as ++ bs) (byteSize as) = some as := by
  induction as with
  | nil => simp
  | cons a as ih =>
      have pos := a.utf8Size_pos
      obtain ⟨n, hn⟩ : ∃ n, byteSize (a :: as) = n + 1 :=
        ⟨byteSize (a :: as) - 1, by simp; omega⟩
      have le : a.utf8Size ≤ n + 1 := by simp at hn; omega
      have sub : n + 1 - a.utf8Size = byteSize as := by simp at hn; omega
      rw [hn, List.cons_append, take?, if_pos le, sub, ih]
      rfl

end Lemmas

end Text
end ExprLang
