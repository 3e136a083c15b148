import ExprLang.Proofs.Grammar.Delimiters
import ExprLang.Proofs.Text.Places

/-!
# What a closing parenthesis behind a text changes

Whether a delimiter stands at a place, and how much its scan rule reads from there, depends on
the text from there on. For the delimiters of the built-in grammars it makes no difference
whether this text is the end of the source or a closing parenthesis follows, unless the rule
finds fault with the text that ends.

Main definitions:
* `Enclosed`: a source in parentheses.

Main results:
* `Delimiter.Known.standsAt_enclosed`: where a delimiter stands;
* `Delimiter.Known.scanAt_enclosed`: what is read from there.
-/

namespace ExprLang

/-- The second source is the first one in parentheses. -/
def Enclosed (inner outer : Source) : Prop :=
  outer.chars = '(' :: (inner.chars ++ [')'])

namespace Enclosed

variable {inner outer : Source} {index : Nat} {rest : List Char}

theorem size_eq (h : Enclosed inner outer) : outer.size = inner.size + 2 := by
  rw [outer.size_eq, inner.size_eq, h, Text.byteSize_cons, Text.byteSize_append]
  simp only [Text.byteSize_cons, Text.byteSize_nil]
  have hopen : ('(' : Char).utf8Size = 1 := by decide
  have hclose : (')' : Char).utf8Size = 1 := by decide
  omega

/-- Every part of the inner source is one of the outer source, one offset further on. -/
theorem slice?_eq (h : Enclosed inner outer) {start stop : Nat} (hstop : stop ≤ inner.size) :
    outer.slice? (start + 1) (stop + 1) = inner.slice? start stop := by
  rw [Source.slice?_eq, Source.slice?_eq, h, Text.slice?_cons (by decide),
    Text.slice?_append (inner.size_eq ▸ hstop)]

theorem isAt (h : Enclosed inner outer) (hat : inner.IsAt index rest) :
    outer.IsAt (index + 1) (rest ++ [')']) := by
  obtain ⟨before, hchars, rfl⟩ := hat
  refine ⟨'(' :: before, ?_, ?_⟩
  · rw [h, hchars, List.append_assoc, List.cons_append]
  · rw [Text.byteSize_cons, Nat.add_comm]
    rfl

end Enclosed

section Reading

open ScanRules

/-- A digit takes one byte. -/
theorem utf8Size_of_isDigit {c : Char} (h : c.isDigit = true) : c.utf8Size = 1 := by
  have hle : c.val ≤ 57 := by simpa using (Bool.and_eq_true_iff.mp h).2
  exact Char.utf8Size_eq_one_iff.mpr (UInt32.le_trans hle (by decide))

/-- No number goes on with the text. -/
def EndsNumber (text : List Char) : Prop :=
  ∀ c ∈ text.head?, c.isDigit = false ∧ c ≠ '.'

theorem endsNumber_paren : EndsNumber [')'] := by
  intro c hc
  obtain rfl := Option.some.inj hc
  exact ⟨rfl, by decide⟩

theorem takeDecimal_append {behind : List Char} (hbehind : EndsNumber behind) (seen : Bool)
    (text : List Char) : takeDecimal seen (text ++ behind) = takeDecimal seen text := by
  induction text generalizing seen with
  | nil =>
      cases behind with
      | nil => rfl
      | cons c behind =>
          obtain ⟨hdigit, hpoint⟩ := hbehind c rfl
          simp [takeDecimal, hdigit, hpoint]
  | cons c text ih => rw [List.cons_append, takeDecimal, takeDecimal, ih, ih]

theorem takeNumber_append {behind : List Char} (hbehind : EndsNumber behind) {text : List Char}
    (htext : text ≠ []) : takeNumber (text ++ behind) = takeNumber text := by
  obtain ⟨c, text, rfl⟩ := List.exists_cons_of_ne_nil htext
  by_cases hminus : c = '-'
  · subst hminus
    rw [List.cons_append, takeNumber, takeNumber, takeDecimal_append hbehind]
  · have hplain : ∀ cs, takeNumber (c :: cs) = takeDecimal false (c :: cs) := by
      intro cs
      unfold takeNumber
      split
      · rename_i heq
        exact absurd (List.cons.inj heq).1 hminus
      · rfl
    rw [List.cons_append, hplain, hplain, ← List.cons_append, takeDecimal_append hbehind]

theorem length_takeDecimal_le (seen : Bool) (text : List Char) :
    (takeDecimal seen text).length ≤ text.length := by
  induction text generalizing seen with
  | nil => exact le_rfl
  | cons c text ih =>
      have hseen := ih seen
      have htrue := ih true
      rw [takeDecimal]
      split
      · simpa using hseen
      · split
        · simpa using htrue
        · simp

theorem length_takeNumber_le (text : List Char) : (takeNumber text).length ≤ text.length := by
  unfold takeNumber
  split
  · simpa using length_takeDecimal_le false _
  · exact length_takeDecimal_le false _

/-- A number is as long as its digits, whatever they are. -/
theorem consumed_number (source : Source) (index : Nat) :
    (number source index).consumed = (takeNumber (textFrom source index)).length := by
  unfold number
  simp only
  split
  · rfl
  · split
    · split
      · rfl
      · rfl
    · split
      · rfl
      · split
        · rfl
        · rfl

/-- A hexadecimal number is as long as its mark and its digits. -/
theorem consumed_hexadecimal (source : Source) (index : Nat) :
    (hexadecimal source index).consumed =
      2 + (takeDigits 16 (textFrom source (index + 2))).length := by
  unfold hexadecimal
  simp only
  split
  · rfl
  · split
    · rfl
    · rfl

theorem takeDigits_concat (base : Nat) (text : List Char) :
    takeDigits base (text ++ [')']) = takeDigits base text := by
  have hparen : (digitIn? base ')').isSome = false := rfl
  induction text with
  | nil => simp [takeDigits, hparen]
  | cons c text ih =>
      unfold takeDigits at ih ⊢
      rw [List.cons_append, List.takeWhile_cons, List.takeWhile_cons, ih]

theorem takeDigits_take_concat (base n : Nat) (text : List Char) :
    takeDigits base ((text ++ [')']).take n) = takeDigits base (text.take n) := by
  rw [List.take_append]
  cases n - text.length with
  | zero => rw [List.take_zero, List.append_nil]
  | succ m => rw [List.take_succ_cons, List.take_nil, takeDigits_concat]

theorem length_takeDigits_le (base : Nat) (text : List Char) :
    (takeDigits base text).length ≤ text.length :=
  (List.takeWhile_sublist _).length_le

theorem hexEscape_concat (text : List Char) (least most : Nat) :
    hexEscape (text ++ [')']) least most = hexEscape text least most := by
  unfold hexEscape
  rw [takeDigits_take_concat]

theorem consumed_codePoint (value size : Nat) : (codePoint value size).consumed = size := by
  by_cases hvalid : value.isValidChar
  · rw [codePoint, dif_pos hvalid]
    rfl
  · rw [codePoint, dif_neg hvalid]
    rfl

theorem consumed_hexEscape_le (text : List Char) (least most : Nat) :
    (hexEscape text least most).consumed ≤ 2 + text.length := by
  have hdigits := (length_takeDigits_le 16 (text.take most)).trans (List.length_take_le' most text)
  unfold hexEscape
  simp only
  split
  · exact Nat.add_le_add_left hdigits 2
  · rw [consumed_codePoint]
    exact Nat.add_le_add_left hdigits 2

theorem octalEscape_concat (text : List Char) : octalEscape (text ++ [')']) = octalEscape text := by
  unfold octalEscape
  rw [takeDigits_take_concat]

theorem consumed_octalEscape_le (text : List Char) :
    (octalEscape text).consumed ≤ 1 + text.length := by
  have hdigits := (length_takeDigits_le 8 (text.take 3)).trans (List.length_take_le' 3 text)
  unfold octalEscape
  rw [consumed_codePoint]
  exact Nat.add_le_add_left hdigits 1

/-- An escape with a character behind the backslash. -/
theorem escapeBody_concat {text : List Char} (htext : text ≠ []) :
    escapeBody (text ++ [')']) = escapeBody text ∧
      (escapeBody text).consumed ≤ 1 + Text.byteSize text := by
  obtain ⟨c, text, rfl⟩ := List.exists_cons_of_ne_nil htext
  have hpos := c.utf8Size_pos
  have hlength := Text.length_le_byteSize text
  have hhead : (text ++ [')']).head? = some '\n' ↔ text.head? = some '\n' := by
    cases text with
    | nil => decide
    | cons a text => exact Iff.rfl
  rw [List.cons_append, Text.byteSize_cons]
  unfold escapeBody
  simp only [hhead]
  split
  · exact ⟨rfl, by simp only [Scan.ofValue]; omega⟩
  · split
    · rename_i hbreak
      obtain ⟨behind, rfl⟩ : ∃ behind, text = '\n' :: behind := by
        cases text with
        | nil => cases hbreak.2
        | cons a behind => exact ⟨behind, by rw [Option.some.inj hbreak.2]⟩
      refine ⟨rfl, ?_⟩
      simp only [Scan.ofValue, Text.byteSize_cons]
      have hnewline := ('\n' : Char).utf8Size_pos
      omega
    · split
      · exact ⟨rfl, by simp only [Scan.ofValue]; omega⟩
      · split
        · have hconsumed := consumed_hexEscape_le text 1 2
          exact ⟨hexEscape_concat text 1 2, by omega⟩
        · split
          · have hconsumed := consumed_hexEscape_le text 4 4
            exact ⟨hexEscape_concat text 4 4, by omega⟩
          · split
            · have hconsumed := consumed_hexEscape_le text 8 8
              exact ⟨hexEscape_concat text 8 8, by omega⟩
            · split
              · have hconsumed := consumed_octalEscape_le (c :: text)
                rw [List.length_cons] at hconsumed
                exact ⟨octalEscape_concat (c :: text), by omega⟩
              · exact ⟨rfl, by simp only [Scan.withError, Scan.ofValue]; omega⟩

end Reading

section Enclosing

open ScanRules

variable {inner outer : Source} {index : Nat} {rest : List Char} {d : Delimiter}

/-- A condition on the character behind one at a place, which a parenthesis does not fulfil. -/
theorem charAt_enclosed (h : Enclosed inner outer) {c : Char} (hsize : c.utf8Size = 1)
    (hat : inner.IsAt index (c :: rest)) {holds : Char → Bool} (hparen : holds ')' = false) :
    charAt outer (index + 1 + 1) holds = charAt inner (index + 1) holds := by
  have hsplit : inner.IsAt index ([c] ++ rest) := hat
  have hbehind := hsplit.behind
  rw [show Text.byteSize [c] = 1 from hsize] at hbehind
  unfold charAt
  rw [(h.isAt hbehind).drop?_eq, hbehind.drop?_eq]
  cases rest with
  | nil => simpa using hparen
  | cons a rest => rfl

/-- A known delimiter stands at a place, whether a parenthesis follows the text or not. -/
theorem Delimiter.Known.standsAt_enclosed (hd : d.Known) (h : Enclosed inner outer)
    (hat : inner.IsAt index rest) (hrest : rest ≠ []) :
    d.standsAt outer (index + 1) (rest ++ [')']) = d.standsAt inner index rest := by
  have hpredicate : ∀ {c : Char} {holds : Char → Bool}, d.text = [c] → c.utf8Size = 1 →
      holds ')' = false →
      (Text.startsWith d.text rest && charAt outer (index + 1 + 1) holds) =
        (Text.startsWith d.text rest && charAt inner (index + 1) holds) := by
    intro c holds htext hsize hparen
    cases hs : Text.startsWith d.text rest with
    | false => rfl
    | true =>
        obtain ⟨behind, hbehind⟩ := Text.startsWith_iff.mp hs
        rw [htext, List.singleton_append] at hbehind
        rw [hbehind] at hat
        rw [charAt_enclosed h hsize hat hparen]
  unfold Delimiter.standsAt
  rw [Text.startsWith_concat hd.text_paren hrest]
  cases hd with
  | minus htext hp _ =>
      rw [hp]
      exact hpredicate htext (by decide) rfl
  | point htext hp _ =>
      rw [hp]
      exact hpredicate htext (by decide) rfl
  | continuation htext hp _ =>
      rw [hp]
      exact hpredicate htext (by decide) rfl
  | bare hp _ _ => rw [hp]
  | digit _ _ hp _ => rw [hp]
  | hexadecimal _ hp _ => rw [hp]
  | boolean _ hp _ => rw [hp]
  | escape _ hp _ => rw [hp]
  | lineBreak _ hp _ => rw [hp]

/-- What is read from the place of a delimiter: its text, or what its scan rule says. -/
def Delimiter.scanAt (d : Delimiter) (source : Source) (index : Nat) : Scan :=
  match d.scan with
  | none => .plain (Text.byteSize d.text)
  | some rule => rule source index

/--
A known delimiter reads the same and no more than there is, whether a parenthesis follows the
text or not, unless it finds a fault.
-/
theorem Delimiter.Known.scanAt_enclosed (hd : d.Known) (h : Enclosed inner outer)
    (hat : inner.IsAt index rest) (hstands : d.standsAt inner index rest = true)
    (hsound : (d.scanAt inner index).error = none) :
    d.scanAt outer (index + 1) = d.scanAt inner index ∧
      (d.scanAt inner index).consumed ≤ Text.byteSize rest := by
  obtain ⟨hstarts, hholds⟩ := Bool.and_eq_true_iff.mp hstands
  obtain ⟨behind, rfl⟩ := Text.startsWith_iff.mp hstarts
  have hinner := hat.textFrom_eq
  have houter := (h.isAt hat).textFrom_eq
  have hlength := Text.length_le_byteSize (d.text ++ behind)
  have hnumber : ∀ c text, d.text = c :: text → d.scan = some number →
      d.scanAt outer (index + 1) = d.scanAt inner index ∧
        (d.scanAt inner index).consumed ≤ Text.byteSize (d.text ++ behind) := by
    intro c text htext hscan
    unfold Delimiter.scanAt
    rw [hscan]
    simp only
    have hconsumed := consumed_number inner index
    rw [hinner] at hconsumed
    refine ⟨?_, hconsumed ▸ (length_takeNumber_le _).trans hlength⟩
    unfold number
    rw [hinner, houter, takeNumber_append endsNumber_paren (by simp [htext])]
  cases hd with
  | bare _ hscan _ =>
      unfold Delimiter.scanAt
      rw [hscan, Text.byteSize_append]
      exact ⟨rfl, Nat.le_add_right _ _⟩
  | digit htext _ _ hscan => exact hnumber _ _ htext hscan
  | minus htext _ hscan => exact hnumber _ _ htext hscan
  | point htext _ hscan => exact hnumber _ _ htext hscan
  | hexadecimal htext _ hscan =>
      have hdigits := hat.behind
      rw [htext] at hdigits
      have hsize : Text.byteSize ['0', 'x'] = 2 := by decide
      rw [hsize] at hdigits
      have hdigitsOuter : textFrom outer (index + 1 + 2) = behind ++ [')'] :=
        (h.isAt hdigits).textFrom_eq
      have hbehind := length_takeDigits_le 16 behind
      have hall := Text.length_le_byteSize behind
      have hconsumed := consumed_hexadecimal inner index
      rw [hdigits.textFrom_eq] at hconsumed
      unfold Delimiter.scanAt
      rw [hscan, htext, Text.byteSize_append, hsize]
      simp only
      refine ⟨?_, by omega⟩
      unfold ScanRules.hexadecimal
      simp only [hdigits.textFrom_eq, hdigitsOuter, takeDigits_concat]
  | boolean htext _ hscan =>
      unfold Delimiter.scanAt
      rw [hscan]
      simp only
      have hne : d.text ++ behind ≠ [] := by
        rcases htext with htext | htext
        · simp [htext]
        · simp [htext]
      unfold ScanRules.boolean
      rw [hinner, houter, Text.startsWith_concat (by decide) hne]
      refine ⟨rfl, ?_⟩
      rcases htext with htext | htext
      · have htrue : Text.startsWith ['T', 'r', 'u', 'e'] (d.text ++ behind) = true :=
          Text.startsWith_iff.mpr ⟨behind, by rw [htext]; rfl⟩
        rw [if_pos htrue, htext, Text.byteSize_append]
        exact Nat.le_add_right 4 _
      · have hfalse : Text.startsWith ['T', 'r', 'u', 'e'] (d.text ++ behind) = false := by
          rw [htext]
          rfl
        rw [if_neg (by simp [hfalse]), htext, Text.byteSize_append]
        exact Nat.le_add_right 5 _
  | escape htext _ hscan =>
      have hbody := hat.behind
      rw [htext] at hbody
      have hbodyOuter : textFrom outer (index + 1 + 1) = behind ++ [')'] :=
        (h.isAt hbody).textFrom_eq
      have hbodyInner : textFrom inner (index + 1) = behind := hbody.textFrom_eq
      unfold Delimiter.scanAt at hsound ⊢
      rw [hscan] at hsound ⊢
      simp only [ScanRules.escape, hbodyInner, hbodyOuter] at hsound ⊢
      have hne : behind ≠ [] := by
        rintro rfl
        cases hsound
      obtain ⟨hsame, hle⟩ := escapeBody_concat hne
      rw [htext, Text.byteSize_append]
      exact ⟨hsame, hle⟩
  | lineBreak _ _ hscan =>
      unfold Delimiter.scanAt at hsound
      rw [hscan] at hsound
      cases hsound
  | continuation htext hp hscan =>
      have hbody := hat.behind
      rw [htext] at hbody
      have hbodyOuter : textFrom outer (index + 1 + 1) = behind ++ [')'] :=
        (h.isAt hbody).textFrom_eq
      have hbodyInner : textFrom inner (index + 1) = behind := hbody.textFrom_eq
      have hchar : charAt inner (index + 1) (fun c => c == '\n' || c == '\r') = true := by
        rw [hp] at hholds
        exact hholds
      have hdrop : inner.drop? (index + 1) = some behind := hbody.drop?_eq
      obtain ⟨c, tail, rfl⟩ : ∃ c tail, behind = c :: tail := by
        cases behind with
        | nil =>
            rw [charAt, hdrop] at hchar
            cases hchar
        | cons c tail => exact ⟨c, tail, rfl⟩
      unfold Delimiter.scanAt
      rw [hscan]
      simp only [lineContinuation, hbodyInner, hbodyOuter]
      rw [Text.startsWith_concat (by decide) (by simp), htext, Text.byteSize_append]
      refine ⟨rfl, ?_⟩
      have hpos := c.utf8Size_pos
      have hback : Text.byteSize ['\\'] = 1 := by decide
      rw [hback, Text.byteSize_cons]
      split
      · rename_i hbreaks
        obtain ⟨more, hmore⟩ := Text.startsWith_iff.mp hbreaks
        have htail : tail = '\n' :: more := (List.cons.inj hmore).2
        have hnewline := ('\n' : Char).utf8Size_pos
        rw [htail, Text.byteSize_cons]
        simp only [Scan.plain]
        omega
      · simp only [Scan.plain]
        omega

end Enclosing

end ExprLang
