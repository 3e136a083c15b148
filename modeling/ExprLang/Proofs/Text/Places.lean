import ExprLang.ScanRules
import Mathlib.Tactic

/-!
# Places in a text

A place in a text is an offset in bytes at which a character starts or the text ends. It splits the
text in two parts. What stands in front of it, and each part of the text in front of it, does not
depend on what follows the text.

Main definitions:
* `Source.IsAt`: a place in a source, with the text from there on.

Main results:
* `Text.exists_append_of_drop?`: a place splits a text;
* `Text.drop?_append`, `Text.slice?_append`: places and parts of a longer text;
* `Text.splitReaching_byteSize`: splitting off the bytes of a first part;
* `Text.startsWith_concat`: a character behind a text that no head ends with.
-/

namespace ExprLang

namespace Text

section Prefixes

theorem dropHead?_eq_some_iff {head text behind : List Char} :
    dropHead? head text = some behind ↔ text = head ++ behind := by
  induction head generalizing text with
  | nil => simp [dropHead?]
  | cons h head ih =>
      cases text with
      | nil => simp [dropHead?]
      | cons c text =>
          rw [dropHead?]
          by_cases hc : h = c
          · subst hc
            simp [ih]
          · have hne : c ≠ h := fun heq => hc heq.symm
            simp [hc, hne]

theorem startsWith_iff {head text : List Char} :
    startsWith head text = true ↔ ∃ behind, text = head ++ behind := by
  rw [startsWith, Option.isSome_iff_exists]
  simp only [dropHead?_eq_some_iff]

/-- A character that no head ends with makes no difference behind a text. -/
theorem dropHead?_concat {head text : List Char} {c : Char} (hc : c ∈ head → head = [c])
    (htext : text ≠ []) :
    dropHead? head (text ++ [c]) = (dropHead? head text).map (· ++ [c]) := by
  induction head generalizing text with
  | nil => simp [dropHead?]
  | cons h head ih =>
      cases text with
      | nil => exact absurd rfl htext
      | cons a text =>
          rw [List.cons_append, dropHead?, dropHead?]
          split
          · rename_i heq
            cases text with
            | nil =>
                cases head with
                | nil => rfl
                | cons b head =>
                    have hne : b ≠ c := by
                      rintro rfl
                      cases hc (by simp)
                    simp [dropHead?, hne]
            | cons b text =>
                refine ih (fun hmem => ?_) (List.cons_ne_nil b text)
                obtain ⟨-, rfl⟩ := List.cons.inj (hc (List.mem_cons_of_mem h hmem))
                cases hmem
          · rfl

theorem startsWith_concat {head text : List Char} {c : Char} (hc : c ∈ head → head = [c])
    (htext : text ≠ []) : startsWith head (text ++ [c]) = startsWith head text := by
  rw [startsWith, startsWith, dropHead?_concat hc htext, Option.isSome_map]

end Prefixes

theorem length_le_byteSize (text : List Char) : text.length ≤ byteSize text := by
  induction text with
  | nil => exact le_rfl
  | cons c text ih =>
      have hpos := c.utf8Size_pos
      rw [List.length_cons, byteSize_cons]
      omega

/-- A text of characters of one byte has as many bytes as characters. -/
theorem byteSize_eq_length {text : List Char} (h : ∀ c ∈ text, c.utf8Size = 1) :
    byteSize text = text.length := by
  induction text with
  | nil => rfl
  | cons c text ih =>
      obtain ⟨hc, htext⟩ := List.forall_mem_cons.mp h
      rw [byteSize_cons, hc, ih htext, List.length_cons, Nat.add_comm]

/-- A place in a text is the same place in a longer text. -/
theorem drop?_append {n : Nat} {text : List Char} (hn : n ≤ byteSize text) (behind : List Char) :
    drop? (text ++ behind) n = (drop? text n).map (· ++ behind) := by
  induction text generalizing n with
  | nil =>
      obtain rfl : n = 0 := Nat.le_zero.mp hn
      rw [drop?_zero, drop?_zero, Option.map_some]
  | cons c text ih =>
      cases n with
      | zero => rw [drop?_zero, drop?_zero, Option.map_some]
      | succ n =>
          rw [byteSize_cons] at hn
          rw [List.cons_append, drop?, drop?]
          split
          · exact ih (by omega)
          · rfl

/-- A place in a text splits it. -/
theorem exists_append_of_drop? {n : Nat} {text rest : List Char} (h : drop? text n = some rest) :
    ∃ before, text = before ++ rest ∧ byteSize before = n := by
  induction text generalizing n with
  | nil =>
      cases n with
      | zero => exact ⟨[], Option.some.inj h, rfl⟩
      | succ n => cases h
  | cons c text ih =>
      cases n with
      | zero => exact ⟨[], Option.some.inj h, rfl⟩
      | succ n =>
          rw [drop?] at h
          split at h
          · rename_i hle
            obtain ⟨before, rfl, hbefore⟩ := ih h
            exact ⟨c :: before, rfl, by rw [byteSize_cons, hbefore]; omega⟩
          · cases h

/-- What a place in a text leaves of it. -/
theorem byteSize_of_drop? {n : Nat} {text rest : List Char} (h : drop? text n = some rest) :
    byteSize text = n + byteSize rest := by
  obtain ⟨before, rfl, rfl⟩ := exists_append_of_drop? h
  exact byteSize_append before rest

theorem take?_append {n : Nat} {text : List Char} (hn : n ≤ byteSize text) (behind : List Char) :
    take? (text ++ behind) n = take? text n := by
  induction text generalizing n with
  | nil =>
      obtain rfl : n = 0 := Nat.le_zero.mp hn
      rw [take?_zero, take?_zero]
  | cons c text ih =>
      cases n with
      | zero => rw [take?_zero, take?_zero]
      | succ n =>
          rw [byteSize_cons] at hn
          rw [List.cons_append, take?, take?]
          split
          · rw [ih (by omega)]
          · rfl

/-- A part of a text does not depend on what follows the text. -/
theorem slice?_append {text : List Char} {start stop : Nat} (hstop : stop ≤ byteSize text)
    (behind : List Char) : slice? (text ++ behind) start stop = slice? text start stop := by
  unfold slice?
  split
  · rename_i hle
    rw [drop?_append (hle.trans hstop)]
    cases hdrop : drop? text start with
    | none => rfl
    | some rest =>
        have hsize := byteSize_of_drop? hdrop
        rw [Option.map_some, Option.bind_some, Option.bind_some, take?_append (by omega)]
  · rfl

/-- Behind a character of one byte a part of a text stands one offset further on. -/
theorem slice?_cons {c : Char} (hc : c.utf8Size = 1) (text : List Char) (start stop : Nat) :
    slice? (c :: text) (start + 1) (stop + 1) = slice? text start stop := by
  have hdrop : drop? (c :: text) (start + 1) = drop? text start := by
    rw [drop?, if_pos (by omega), hc, Nat.add_sub_cancel]
  unfold slice?
  rw [hdrop, Nat.add_sub_add_right]
  simp only [Nat.add_le_add_iff_right]

/-- What is split off a text that is long enough does not depend on what follows it. -/
theorem splitReaching_append {n : Nat} {text : List Char} (h : n ≤ byteSize text)
    (behind : List Char) :
    splitReaching n (text ++ behind) =
      ((splitReaching n text).1, (splitReaching n text).2 ++ behind) := by
  induction text generalizing n with
  | nil =>
      obtain rfl : n = 0 := Nat.le_zero.mp h
      rw [splitReaching, splitReaching, List.nil_append]
  | cons c text ih =>
      cases n with
      | zero => rfl
      | succ n =>
          rw [byteSize_cons] at h
          rw [List.cons_append, splitReaching, splitReaching, ih (by omega)]

/-- Splitting off the bytes of a first part splits off that part. -/
theorem splitReaching_byteSize (head behind : List Char) :
    splitReaching (byteSize head) (head ++ behind) = (byteSize head, behind) := by
  have hhead : splitReaching (byteSize head) head = (byteSize head, []) := by
    induction head with
    | nil => rfl
    | cons c head ih =>
        have hpos := c.utf8Size_pos
        obtain ⟨n, hn⟩ : ∃ n, byteSize (c :: head) = n + 1 :=
          ⟨byteSize (c :: head) - 1, by rw [byteSize_cons]; omega⟩
        have hless : n + 1 - c.utf8Size = byteSize head := by
          rw [byteSize_cons] at hn
          omega
        rw [hn, splitReaching, hless, ih, ← hn, byteSize_cons]
  rw [splitReaching_append le_rfl, hhead, List.nil_append]

end Text

namespace Source

/-- A place in a source, with the text from there on. -/
def IsAt (source : Source) (index : Nat) (rest : List Char) : Prop :=
  ∃ before, source.chars = before ++ rest ∧ Text.byteSize before = index

variable {source : Source} {index : Nat} {rest : List Char}

theorem IsAt.drop?_eq (h : source.IsAt index rest) : source.drop? index = some rest := by
  obtain ⟨before, hchars, rfl⟩ := h
  rw [Source.drop?_eq, hchars, Text.drop?_byteSize_append]

theorem IsAt.textFrom_eq (h : source.IsAt index rest) :
    ScanRules.textFrom source index = rest := by
  rw [ScanRules.textFrom, h.drop?_eq, Option.getD_some]

/-- Behind the first part of a text there is the other part. -/
theorem IsAt.behind {head behind : List Char} (h : source.IsAt index (head ++ behind)) :
    source.IsAt (index + Text.byteSize head) behind := by
  obtain ⟨before, hchars, rfl⟩ := h
  exact ⟨before ++ head, by rw [hchars, List.append_assoc], Text.byteSize_append before head⟩

/-- A text that stands at a place is a part of the source. -/
theorem IsAt.slice?_eq {head behind : List Char} (h : source.IsAt index (head ++ behind)) :
    source.slice? index (index + Text.byteSize head) = some head := by
  unfold Source.slice?
  rw [if_pos (Nat.le_add_right _ _), h.drop?_eq, Option.bind_some, Nat.add_sub_cancel_left,
    Text.take?_byteSize_append]

theorem IsAt.size_eq (h : source.IsAt index rest) : source.size = index + Text.byteSize rest := by
  obtain ⟨before, hchars, rfl⟩ := h
  rw [source.size_eq, hchars, Text.byteSize_append]

/-- The text from a place on is a part of the source. -/
theorem IsAt.slice?_size (h : source.IsAt index rest) :
    source.slice? index source.size = some rest := by
  have hall : source.IsAt index (rest ++ []) := by rwa [List.append_nil]
  rw [h.size_eq]
  exact hall.slice?_eq

theorem isAt_of_drop? (h : source.drop? index = some rest) : source.IsAt index rest :=
  Text.exists_append_of_drop? (source.drop?_eq index ▸ h)

end Source

end ExprLang
