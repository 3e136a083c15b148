import ExprLang.Proofs.Lexing.Lookahead
import Mathlib.Data.List.TakeWhile

/-!
# What scan rules read

A scan rule takes parts out of the text, at offsets that it works out from the place of its
delimiter, and says how many bytes it has read. Where one of the delimiters of the built-in grammars
stands, all these offsets are places of the text, and what is read is a run of whole characters.

Main definitions:
* `ScanRules.Builtin`: the scan rules of the built-in grammars;
* `ScanRules.Builtin.slices`: the parts that they take out of the text;
* `ScanRules.Builtin.scan?`: a rule that comes to nothing where one of these parts is not one;
* `Scan.Exact`: a scan that reads whole characters, which need not be corrected.

Main results:
* `Delimiter.Known.scan_eq`: which rule belongs to which delimiter;
* `Delimiter.Known.takes_scanAt`: what is read from the place of a delimiter;
* `ScanRules.Builtin.scan?_eq`: the parts of the text are where the rule says they are.
-/

namespace ExprLang

/-- What is read is a first part of a text, with at least one character. -/
def Scan.Takes (scan : Scan) (rest : List Char) : Prop :=
  ∃ taken, taken <+: rest ∧ taken ≠ [] ∧ scan.consumed = Text.byteSize taken

/--
What is read from a place are whole characters, at least one. To split off characters until there
are as many bytes, and at least one, is to split off what was read.
-/
structure Scan.Exact (scan : Scan) (source : Source) (index : Nat) : Prop where
  pos : 1 ≤ scan.consumed
  inside : index + scan.consumed ≤ source.size
  boundary : (source.drop? (index + scan.consumed)).isSome = true
  uncorrected : ∀ rest, source.drop? index = some rest →
    (Text.splitReaching (max 1 scan.consumed) rest).1 = scan.consumed

/-- A scan that takes a first part of the text from a place on is exact. -/
theorem Source.IsAt.exact {source : Source} {index : Nat} {rest : List Char}
    (h : source.IsAt index rest) {scan : Scan} (htakes : scan.Takes rest) :
    scan.Exact source index := by
  obtain ⟨taken, ⟨behind, rfl⟩, hne, hsize⟩ := htakes
  have hpos : 1 ≤ Text.byteSize taken :=
    (List.length_pos_of_ne_nil hne).trans_le (Text.length_le_byteSize taken)
  refine ⟨hsize ▸ hpos, ?_, ?_, fun other hother => ?_⟩
  · rw [h.size_eq, Text.byteSize_append, hsize]
    exact Nat.add_le_add_left (Nat.le_add_right _ _) index
  · rw [hsize, h.behind.drop?_eq]
    rfl
  · rw [h.drop?_eq] at hother
    rw [← Option.some.inj hother, hsize, Nat.max_eq_right hpos, Text.splitReaching_byteSize]

namespace ScanRules

/-- The scan rules of the built-in grammars. -/
inductive Builtin where
  | number
  | hexadecimal
  | boolean
  | escape
  | lineBreakInLiteral
  | lineContinuation
  deriving DecidableEq

namespace Builtin

/-- What the rule reads. -/
def rule : Builtin → ScanRule
  | number => ScanRules.number
  | hexadecimal => ScanRules.hexadecimal
  | boolean => ScanRules.boolean
  | escape => ScanRules.escape
  | lineBreakInLiteral => ScanRules.lineBreakInLiteral
  | lineContinuation => ScanRules.lineContinuation

/-- What stands in front of the text that the rule looks at. -/
def mark : Builtin → List Char
  | number => []
  | hexadecimal => ['0', 'x']
  | boolean => []
  | escape => ['\\']
  | lineBreakInLiteral => []
  | lineContinuation => ['\\']

/-- The characters behind a backslash after which the rule looks at the text behind them. -/
def looksBehind (c : Char) : Bool :=
  ['\r', 'x', 'u', 'U'].contains c

/-- The parts that the rule takes out of the text, each from an offset up to another one. -/
def slices (rule : Builtin) (source : Source) (index : Nat) : List (Nat × Nat) :=
  let start := index + Text.byteSize rule.mark
  let text := textFrom source start
  (start, source.size) ::
    match rule with
    | number => [(start, start + Text.byteSize (takeNumber text))]
    | hexadecimal => [(start, start + Text.byteSize (takeDigits 16 text))]
    | escape => if text.head?.any looksBehind then [(start + 1, source.size)] else []
    | boolean | lineBreakInLiteral | lineContinuation => []

/-- What the rule reads, if all parts that it takes are parts of the text. -/
def scan? (rule : Builtin) (source : Source) (index : Nat) : Option Scan := do
  guard ((rule.slices source index).all fun slice => (source.slice? slice.1 slice.2).isSome)
  return rule.rule source index

end Builtin

section Prefixes

theorem takeDecimal_isPrefix (seen : Bool) (text : List Char) : takeDecimal seen text <+: text := by
  induction text generalizing seen with
  | nil => exact List.prefix_rfl
  | cons c text ih =>
      rw [takeDecimal]
      split
      · exact List.cons_prefix_cons.mpr ⟨rfl, ih seen⟩
      · split
        · exact List.cons_prefix_cons.mpr ⟨rfl, ih true⟩
        · exact List.nil_prefix

theorem utf8Size_of_mem_takeDecimal {seen : Bool} {text : List Char} {c : Char}
    (h : c ∈ takeDecimal seen text) : c.utf8Size = 1 := by
  induction text generalizing seen with
  | nil => cases h
  | cons d text ih =>
      rw [takeDecimal] at h
      split at h
      · rename_i hdigit
        rcases List.mem_cons.mp h with rfl | h
        · exact utf8Size_of_isDigit hdigit
        · exact ih h
      · split at h
        · rename_i hpoint
          rcases List.mem_cons.mp h with rfl | h
          · rw [beq_iff_eq.mp (Bool.and_eq_true_iff.mp hpoint).1]
            rfl
          · exact ih h
        · cases h

theorem takeNumber_isPrefix (text : List Char) : takeNumber text <+: text := by
  unfold takeNumber
  split
  · exact List.cons_prefix_cons.mpr ⟨rfl, takeDecimal_isPrefix false _⟩
  · exact takeDecimal_isPrefix false text

theorem byteSize_takeNumber (text : List Char) :
    Text.byteSize (takeNumber text) = (takeNumber text).length := by
  refine Text.byteSize_eq_length fun c hc => ?_
  unfold takeNumber at hc
  split at hc
  · rcases List.mem_cons.mp hc with rfl | hc
    · rfl
    · exact utf8Size_of_mem_takeDecimal hc
  · exact utf8Size_of_mem_takeDecimal hc

theorem takeDigits_isPrefix (base : Nat) (text : List Char) : takeDigits base text <+: text :=
  List.takeWhile_prefix _

theorem byteSize_takeDigits (base : Nat) (text : List Char) :
    Text.byteSize (takeDigits base text) = (takeDigits base text).length := by
  refine Text.byteSize_eq_length fun c hc => ?_
  unfold takeDigits at hc
  have hdigit := List.mem_takeWhile_imp hc
  have hletter : ∀ {last : Char}, last.val ≤ 127 → c ≤ last → c.utf8Size = 1 :=
    fun hlast hc => Char.utf8Size_eq_one_iff.mpr (UInt32.le_trans hc hlast)
  unfold digitIn? at hdigit
  simp only at hdigit
  split at hdigit
  · rename_i h
    exact utf8Size_of_isDigit h
  · split at hdigit
    · rename_i h
      exact hletter (by decide) h.2
    · split at hdigit
      · rename_i h
        exact hletter (by decide) h.2
      · cases hdigit

end Prefixes

section Escapes

theorem consumed_hexEscape (text : List Char) (least most : Nat) :
    (hexEscape text least most).consumed =
      2 + Text.byteSize (takeDigits 16 (text.take most)) := by
  rw [byteSize_takeDigits]
  unfold hexEscape
  simp only
  split
  · rfl
  · exact consumed_codePoint _ _

theorem consumed_octalEscape (text : List Char) :
    (octalEscape text).consumed = 1 + Text.byteSize (takeDigits 8 (text.take 3)) := by
  rw [byteSize_takeDigits]
  exact consumed_codePoint _ _

/-- An escape reads the backslash and the first part of what stands behind it. -/
theorem exists_taken_escapeBody (text : List Char) :
    ∃ taken, taken <+: text ∧ (escapeBody text).consumed = 1 + Text.byteSize taken := by
  cases text with
  | nil => exact ⟨[], List.prefix_rfl, rfl⟩
  | cons c text =>
      have hone : [c] <+: c :: text := List.cons_prefix_cons.mpr ⟨rfl, List.nil_prefix⟩
      have hhex : ∀ least most, c.utf8Size = 1 → ∃ taken, taken <+: c :: text ∧
          (hexEscape text least most).consumed = 1 + Text.byteSize taken := by
        intro least most hc
        have hdigits := (takeDigits_isPrefix 16 (text.take most)).trans (List.take_prefix most text)
        refine ⟨_, List.cons_prefix_cons.mpr ⟨rfl, hdigits⟩, ?_⟩
        rw [consumed_hexEscape, Text.byteSize_cons, hc]
        omega
      unfold escapeBody
      simp only
      split
      · exact ⟨[c], hone, rfl⟩
      · split
        · rename_i hbreak
          obtain ⟨behind, rfl⟩ : ∃ behind, text = '\n' :: behind := by
            cases text with
            | nil => cases hbreak.2
            | cons a behind => exact ⟨behind, by rw [Option.some.inj hbreak.2]⟩
          refine ⟨[c, '\n'], ⟨behind, rfl⟩, ?_⟩
          rw [hbreak.1]
          rfl
        · split
          · rename_i hbreak
            refine ⟨[c], hone, ?_⟩
            rcases hbreak with rfl | rfl
            · rfl
            · rfl
          · split
            · rename_i hx
              exact hhex 1 2 (hx ▸ rfl)
            · split
              · rename_i hu
                exact hhex 4 4 (hu ▸ rfl)
              · split
                · rename_i hU
                  exact hhex 8 8 (hU ▸ rfl)
                · split
                  · exact ⟨_, (takeDigits_isPrefix 8 _).trans (List.take_prefix 3 (c :: text)),
                      consumed_octalEscape (c :: text)⟩
                  · exact ⟨[c], hone, rfl⟩

end Escapes

section Rules

variable {source : Source} {index : Nat} {behind : List Char}

theorem takes_number {rest : List Char} (hat : source.IsAt index rest)
    (hne : takeNumber rest ≠ []) : (number source index).Takes rest := by
  refine ⟨_, takeNumber_isPrefix rest, hne, ?_⟩
  rw [consumed_number, hat.textFrom_eq, byteSize_takeNumber]

theorem takes_hexadecimal (hat : source.IsAt index ('0' :: 'x' :: behind)) :
    (hexadecimal source index).Takes ('0' :: 'x' :: behind) := by
  have hsplit : source.IsAt index (['0', 'x'] ++ behind) := hat
  have hdigits : textFrom source (index + 2) = behind := hsplit.behind.textFrom_eq
  refine ⟨['0', 'x'] ++ takeDigits 16 behind, ?_, List.cons_ne_nil _ _, ?_⟩
  · exact (List.prefix_append_right_inj ['0', 'x']).mpr (takeDigits_isPrefix 16 behind)
  · rw [consumed_hexadecimal, hdigits, Text.byteSize_append, byteSize_takeDigits]
    rfl

theorem takes_boolean {word : List Char} (hword : word = "True".toList ∨ word = "False".toList)
    (hat : source.IsAt index (word ++ behind)) : (boolean source index).Takes (word ++ behind) := by
  unfold boolean
  rw [hat.textFrom_eq]
  rcases hword with rfl | rfl
  · have htrue : Text.startsWith ['T', 'r', 'u', 'e'] ("True".toList ++ behind) = true :=
      Text.startsWith_iff.mpr ⟨behind, rfl⟩
    rw [if_pos htrue]
    exact ⟨_, List.prefix_append _ behind, by decide, rfl⟩
  · have hfalse : Text.startsWith ['T', 'r', 'u', 'e'] ("False".toList ++ behind) = false := rfl
    rw [hfalse, if_neg Bool.false_ne_true]
    exact ⟨_, List.prefix_append _ behind, by decide, rfl⟩

theorem takes_escape (hat : source.IsAt index ('\\' :: behind)) :
    (escape source index).Takes ('\\' :: behind) := by
  have hsplit : source.IsAt index (['\\'] ++ behind) := hat
  have hbody : textFrom source (index + 1) = behind := hsplit.behind.textFrom_eq
  obtain ⟨taken, htaken, hsize⟩ := exists_taken_escapeBody behind
  refine ⟨'\\' :: taken, List.cons_prefix_cons.mpr ⟨rfl, htaken⟩, List.cons_ne_nil _ _, ?_⟩
  rw [escape, hbody, hsize]
  rfl

theorem takes_lineBreakInLiteral {c : Char} (hc : c = '\n' ∨ c = '\r')
    (hat : source.IsAt index (c :: behind)) :
    (lineBreakInLiteral source index).Takes (c :: behind) := by
  unfold lineBreakInLiteral
  rw [hat.textFrom_eq]
  simp only
  split
  · rename_i hbreaks
    obtain ⟨more, hmore⟩ := Text.startsWith_iff.mp hbreaks
    exact ⟨['\r', '\n'], ⟨more, hmore.symm⟩, List.cons_ne_nil _ _, rfl⟩
  · refine ⟨[c], ⟨behind, rfl⟩, List.cons_ne_nil _ _, ?_⟩
    rcases hc with rfl | rfl
    · rfl
    · rfl

theorem takes_lineContinuation (hat : source.IsAt index ('\\' :: behind))
    (hbreak : escapesLineBreak source index = true) :
    (lineContinuation source index).Takes ('\\' :: behind) := by
  have hsplit : source.IsAt index (['\\'] ++ behind) := hat
  have hbody : textFrom source (index + 1) = behind := hsplit.behind.textFrom_eq
  have hdrop : source.drop? (index + 1) = some behind := hsplit.behind.drop?_eq
  unfold lineContinuation
  rw [hbody]
  split
  · rename_i hbreaks
    obtain ⟨more, rfl⟩ := Text.startsWith_iff.mp hbreaks
    exact ⟨['\\', '\r', '\n'], ⟨more, rfl⟩, List.cons_ne_nil _ _, rfl⟩
  · unfold escapesLineBreak charAt at hbreak
    rw [hdrop] at hbreak
    cases behind with
    | nil => cases hbreak
    | cons c tail =>
        refine ⟨['\\', c], ⟨tail, rfl⟩, List.cons_ne_nil _ _, ?_⟩
        rcases Bool.or_eq_true_iff.mp hbreak with hc | hc
        · rw [beq_iff_eq.mp hc]
          rfl
        · rw [beq_iff_eq.mp hc]
          rfl

end Rules

section Slices

variable {source : Source} {index : Nat}

/-- Behind its mark a rule takes parts of the text only. -/
theorem Builtin.scan?_eq {rule : Builtin} {text : List Char}
    (hat : source.IsAt (index + Text.byteSize rule.mark) text) :
    rule.scan? source index = some (rule.rule source index) := by
  have hfrom : textFrom source (index + Text.byteSize rule.mark) = text := hat.textFrom_eq
  have hwhole : (source.slice? (index + Text.byteSize rule.mark) source.size).isSome = true := by
    rw [hat.slice?_size]
    rfl
  have hfirst : ∀ taken, taken <+: text → (source.slice? (index + Text.byteSize rule.mark)
      (index + Text.byteSize rule.mark + Text.byteSize taken)).isSome = true := by
    rintro taken ⟨behind, rfl⟩
    rw [hat.slice?_eq]
    rfl
  have hall : (rule.slices source index).all
      (fun slice => (source.slice? slice.1 slice.2).isSome) = true := by
    unfold slices
    simp only [hfrom, List.all_cons, hwhole, Bool.true_and]
    cases rule with
    | boolean | lineBreakInLiteral | lineContinuation => rfl
    | number => simpa using hfirst _ (takeNumber_isPrefix text)
    | hexadecimal => simpa using hfirst _ (takeDigits_isPrefix 16 text)
    | escape =>
        simp only
        split
        · rename_i hbehind
          cases text with
          | nil => cases hbehind
          | cons c text =>
              -- the characters after which the rule looks further take one byte
              have hone : c.utf8Size = 1 := by
                have hmem : c ∈ ['\r', 'x', 'u', 'U'] := by
                  simpa [looksBehind] using hbehind
                fin_cases hmem <;> rfl
              have hsplit : source.IsAt (index + Text.byteSize Builtin.escape.mark) ([c] ++ text) :=
                hat
              have hnext := hsplit.behind
              rw [Text.byteSize_cons, hone, Text.byteSize_nil] at hnext
              simp [hnext.slice?_size]
        · rfl
  simp only [scan?, guard, hall, if_true, Option.pure_def, Option.bind_eq_bind, Option.bind_some]

end Slices

end ScanRules

namespace Delimiter

open ScanRules (Builtin)

/-- The rule that reads on from a delimiter of the built-in grammars. -/
def builtinRule? (d : Delimiter) : Option Builtin :=
  if d.scan.isNone then none
  else if d.text = ['\\'] then
    if d.predicate.isSome then some .lineContinuation else some .escape
  else if d.text = ['\n'] ∨ d.text = ['\r'] then some .lineBreakInLiteral
  else if d.text = ['0', 'x'] then some .hexadecimal
  else if d.text = "True".toList ∨ d.text = "False".toList then some .boolean
  else some .number

variable {d : Delimiter} {source : Source} {index : Nat} {rest : List Char}

/-- The mark of the rule is a first part of the text of the delimiter. -/
theorem mark_isPrefix {rule : Builtin} (h : d.builtinRule? = some rule) : rule.mark <+: d.text := by
  unfold builtinRule? at h
  split at h
  · cases h
  · split at h
    · rename_i htext
      rw [htext]
      split at h
      · rw [← Option.some.inj h]
        exact List.prefix_rfl
      · rw [← Option.some.inj h]
        exact List.prefix_rfl
    · split at h
      · rw [← Option.some.inj h]
        exact List.nil_prefix
      · split at h
        · rename_i htext
          rw [htext, ← Option.some.inj h]
          exact List.prefix_rfl
        · split at h
          · rw [← Option.some.inj h]
            exact List.nil_prefix
          · rw [← Option.some.inj h]
            exact List.nil_prefix

/-- The rule is the one that the delimiter has. -/
theorem Known.scan_eq (hd : d.Known) : d.scan = d.builtinRule?.map Builtin.rule := by
  unfold builtinRule?
  cases hd with
  | bare _ hscan _ => simp [hscan]
  | @digit c htext hdigit _ hscan =>
      have hne : ∀ c', c'.isDigit = false → c ≠ c' := by
        rintro c' hc' rfl
        rw [hc'] at hdigit
        cases hdigit
      simp [hscan, htext, hne, Builtin.rule]
  | minus htext _ hscan => simp [hscan, htext, Builtin.rule]
  | point htext _ hscan => simp [hscan, htext, Builtin.rule]
  | hexadecimal htext _ hscan => simp [hscan, htext, Builtin.rule]
  | boolean htext _ hscan =>
      rcases htext with htext | htext
      · simp [hscan, htext, Builtin.rule]
      · simp [hscan, htext, Builtin.rule]
  | escape htext hpredicate hscan => simp [hscan, htext, hpredicate, Builtin.rule]
  | lineBreak htext _ hscan =>
      rcases htext with htext | htext
      · simp [hscan, htext, Builtin.rule]
      · simp [hscan, htext, Builtin.rule]
  | continuation htext hpredicate hscan => simp [hscan, htext, hpredicate, Builtin.rule]

/-- What is read from the place of a delimiter is a first part of the text there. -/
theorem Known.takes_scanAt (hd : d.Known) (hne : d.scan = none → d.text ≠ [])
    (hat : source.IsAt index rest) (hstands : d.standsAt source index rest = true) :
    (d.scanAt source index).Takes rest := by
  obtain ⟨hstarts, hholds⟩ := Bool.and_eq_true_iff.mp hstands
  obtain ⟨behind, rfl⟩ := Text.startsWith_iff.mp hstarts
  unfold scanAt
  cases hd with
  | bare _ hscan _ =>
      rw [hscan]
      exact ⟨d.text, List.prefix_append d.text behind, hne hscan, rfl⟩
  | @digit c htext hdigit _ hscan =>
      rw [hscan]
      refine ScanRules.takes_number hat ?_
      have hminus : c ≠ '-' := by
        rintro rfl
        cases hdigit
      rw [htext, List.singleton_append]
      unfold ScanRules.takeNumber
      split
      · exact List.cons_ne_nil _ _
      · rw [ScanRules.takeDecimal, if_pos hdigit]
        exact List.cons_ne_nil _ _
  | minus htext _ hscan =>
      rw [hscan]
      refine ScanRules.takes_number hat ?_
      rw [htext]
      exact List.cons_ne_nil _ _
  | point htext _ hscan =>
      rw [hscan]
      refine ScanRules.takes_number hat ?_
      rw [htext]
      exact List.cons_ne_nil _ _
  | hexadecimal htext _ hscan =>
      rw [htext] at hat
      rw [hscan, htext]
      exact ScanRules.takes_hexadecimal hat
  | boolean htext _ hscan =>
      rw [hscan]
      exact ScanRules.takes_boolean htext hat
  | escape htext _ hscan =>
      rw [htext] at hat
      rw [hscan, htext]
      exact ScanRules.takes_escape hat
  | lineBreak htext _ hscan =>
      rw [hscan]
      rcases htext with htext | htext
      · rw [htext] at hat ⊢
        exact ScanRules.takes_lineBreakInLiteral (Or.inl rfl) hat
      · rw [htext] at hat ⊢
        exact ScanRules.takes_lineBreakInLiteral (Or.inr rfl) hat
  | continuation htext hpredicate hscan =>
      rw [hpredicate] at hholds
      rw [htext] at hat
      rw [hscan, htext]
      exact ScanRules.takes_lineContinuation hat hholds

end Delimiter
end ExprLang
