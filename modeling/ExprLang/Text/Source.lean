import ExprLang.Text.Basic

/-!
# Sources

A source is a text that is read at many offsets. It keeps its size in bytes, and
entries into the text at regular distances, from which the text at an offset is
not far. Both follow from the text, so that sources of the same text are equal.

Main functions:
* `drop?`, `slice?`: what the functions of the same names give for the text, which
  `drop?_eq` and `slice?_eq` say.
-/

namespace ExprLang

/-- A place in a text: its offset, and the text from there on. -/
structure Entry where
  offset : Nat
  rest : List Char
  deriving DecidableEq, Inhabited

namespace Entry

/-- Number of bytes from one entry to where the next one is due. -/
def distance : Nat := 64

/--
The entries of a text that starts at `offset`, where the first one is due at
`due`: an entry stands at the first character that starts there or behind.
-/
def collect (offset due : Nat) : List Char → List Entry
  | [] => if due ≤ offset then [⟨offset, []⟩] else []
  | c :: cs =>
      if due ≤ offset then
        ⟨offset, c :: cs⟩ :: collect (offset + c.utf8Size) (due + distance) cs
      else
        collect (offset + c.utf8Size) due cs

/-- The text from offset `n` on, found from the last entry in front of it. -/
def drop? (n : Nat) : Option Entry → Option (List Char)
  | none => none
  | some entry => if entry.offset ≤ n then Text.drop? entry.rest (n - entry.offset) else none

/-- From the entry for its part of the text the text at any offset is found. -/
theorem drop?_getElem?_collect (text : List Char) (offset due k n : Nat)
    (near : offset < due + 4) (low : due + distance * k ≤ n)
    (high : n < due + distance * (k + 1)) :
    drop? n (collect offset due text)[k]? =
      if n < offset then none else Text.drop? text (n - offset) := by
  have regular : distance = 64 := rfl
  induction text generalizing offset due k with
  | nil =>
      rw [regular] at low high
      have empty (h : offset < n) : Text.drop? [] (n - offset) = none := by
        obtain ⟨m, hm⟩ : ∃ m, n - offset = m + 1 := ⟨n - offset - 1, by omega⟩
        rw [hm, Text.drop?]
      by_cases reached : due ≤ offset
      · rw [collect, if_pos reached]
        cases k with
        | zero =>
            by_cases behind : offset ≤ n
            · simp [drop?, behind, Nat.not_lt.2 behind]
            · simp [drop?, behind, Nat.not_le.1 behind]
        | succ k =>
            rw [empty (by omega), ite_self]
            rfl
      · rw [collect, if_neg reached, empty (by omega), ite_self]
        rfl
  | cons c cs ih =>
      rw [regular] at low high
      have pos := c.utf8Size_pos
      have small := c.utf8Size_le_four
      have step (h : offset < n) :
          (if n < offset + c.utf8Size then none
            else Text.drop? cs (n - (offset + c.utf8Size))) =
            if n < offset then none else Text.drop? (c :: cs) (n - offset) := by
        obtain ⟨m, hm⟩ : ∃ m, n - offset = m + 1 := ⟨n - offset - 1, by omega⟩
        rw [if_neg (show ¬n < offset by omega), hm, Text.drop?]
        by_cases inside : n < offset + c.utf8Size
        · rw [if_pos inside, if_neg (by omega)]
        · rw [if_neg inside, if_pos (by omega)]
          congr 1
          omega
      by_cases reached : due ≤ offset
      · rw [collect, if_pos reached]
        cases k with
        | zero =>
            by_cases behind : offset ≤ n
            · simp [drop?, behind, Nat.not_lt.2 behind]
            · simp [drop?, behind, Nat.not_le.1 behind]
        | succ k =>
            rw [List.getElem?_cons_succ,
              ih (offset + c.utf8Size) (due + distance) k (by rw [regular]; omega)
                (by rw [regular]; omega) (by rw [regular]; omega)]
            exact step (by omega)
      · rw [collect, if_neg reached,
          ih (offset + c.utf8Size) due k (by omega) (by rw [regular]; omega)
            (by rw [regular]; omega)]
        exact step (by omega)

end Entry

/-- A text with its size and its entries. -/
structure Source where
  chars : List Char
  size : Nat
  entries : Array Entry
  size_eq : size = Text.byteSize chars
  entries_eq : entries = (Entry.collect 0 0 chars).toArray

namespace Source

/-- The source of a text. -/
def ofChars (chars : List Char) : Source where
  chars := chars
  size := Text.byteSize chars
  entries := (Entry.collect 0 0 chars).toArray
  size_eq := rfl
  entries_eq := rfl

/-- The source of a string. -/
def ofString (s : String) : Source :=
  ofChars s.toList

instance : Inhabited Source :=
  ⟨ofChars []⟩

variable (source : Source)

/-- The text from offset `n` on; none unless `n` is a character boundary. -/
def drop? (n : Nat) : Option (List Char) :=
  Entry.drop? n source.entries[n / Entry.distance]?

/--
The text between two offsets; none unless both are character boundaries and
stand in order.
-/
def slice? (start stop : Nat) : Option (List Char) :=
  if start ≤ stop then
    (source.drop? start).bind fun rest => Text.take? rest (stop - start)
  else
    none

section Lemmas

@[simp]
theorem chars_ofChars (chars : List Char) : (ofChars chars).chars = chars := rfl

theorem chars_inj {a b : Source} : a.chars = b.chars ↔ a = b := by
  constructor
  · intro h
    obtain ⟨chars, size, entries, size_eq, entries_eq⟩ := a
    obtain ⟨chars', size', entries', size_eq', entries_eq'⟩ := b
    subst h size_eq size_eq' entries_eq entries_eq'
    rfl
  · rintro rfl
    rfl

theorem drop?_eq (n : Nat) : source.drop? n = Text.drop? source.chars n := by
  have part := Nat.div_add_mod n Entry.distance
  have rest := Nat.mod_lt n (show 0 < Entry.distance by decide)
  rw [drop?, source.entries_eq, List.getElem?_toArray,
    Entry.drop?_getElem?_collect source.chars 0 0 (n / Entry.distance) n (by omega)
      (by omega) (by rw [Nat.mul_add]; omega)]
  simp

theorem slice?_eq (start stop : Nat) :
    source.slice? start stop = Text.slice? source.chars start stop := by
  rw [slice?, Text.slice?, drop?_eq]

end Lemmas

end Source
end ExprLang
