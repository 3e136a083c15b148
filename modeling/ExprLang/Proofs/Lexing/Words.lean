import ExprLang.Proofs.Lexing.Enclosure
import ExprLang.Proofs.Lexing.Interruption
import ExprLang.Proofs.Lexing.Keywords

/-!
# Reading words

A word that is no delimiter is read as plain text, up to its end: within it no delimiter is found,
and one that is found in front of it would have to be all of it. So a text of words with one blank
between them is read as one token for each word. A digit is no part of a word, for it starts a
number wherever it stands.

Main definitions:
* `Text.spaced`: words with one blank between them;
* `LexInput.wordTokens`: the tokens that they are read as;
* `Text.IsIdentifier`: words in which there may be digits.

Main results:
* `LexInput.flushText_runSteps_word`, `LexInput.step_if`: the two kinds of words;
* `LexInput.lex_spaced`: what a text of words is read as;
* `LexInput.exists_lex_of_digit`: a word ends in front of a digit;
* `LexInput.lex_identifier`: an identifier is one token if and only if there is no digit in it.
-/

namespace ExprLang

open Grammar
open Language (ofSource)

namespace Text

/-- Words with one blank between them. -/
def spaced (words : List (List Char)) : List Char :=
  [' '].intercalate words

theorem spaced_singleton (word : List Char) : spaced [word] = word := by
  simp [spaced]

theorem spaced_cons_cons (word next : List Char) (words : List (List Char)) :
    spaced (word :: next :: words) = word ++ ' ' :: spaced (next :: words) := by
  simp [spaced, List.intercalate_cons_cons]

/-- Letters, underscores and digits, the first one no digit. -/
def IsIdentifier (word : List Char) : Prop :=
  (∃ c rest, word = c :: rest ∧ c.isDigit = false) ∧
    ∀ c ∈ word, c.isAlpha = true ∨ c = '_' ∨ c.isDigit = true

end Text

namespace LexInput

/-- A word that is read as plain text, or the one that starts a conditional. -/
def IsSpacedWord (word : List Char) : Prop :=
  word ≠ [] ∧ (∀ c ∈ word, IsWordChar c) ∧ (word ∈ keywords → word = "if".toList)

/-- The tokens for words with one blank between them, from an offset on. -/
def wordTokens : (start : Nat) → List (List Char) → List Token
  | _, [] => []
  | start, word :: words =>
      ⟨.ofLength start (Text.byteSize word),
        if word = "if".toList then .delimiter ifWord else .text⟩ ::
          wordTokens (start + Text.byteSize word + 1) words

/-- A state of the root's list in which no plain text is being read and nothing has been built. -/
def between (source : Source) (cursor : Nat) (rest : List Char) (tokens : List Token) : LexState :=
  { (ofSource source).fresh with cursor := cursor, rest := rest, pending := tokens.toArray }

variable {source : Source} {state : LexState} {cursor : Nat} {word behind : List Char}
  {tokens : List Token}

section Words

theorem between_push (token : Token) :
    between source cursor behind (tokens ++ [token]) =
      (between source cursor behind tokens).pushToken token := by
  unfold between LexState.pushToken
  rw [List.push_toArray]

/-- In the list of the root the delimiters of the language are found. -/
theorem currentRules_of_root (source : Source) (hroot : state.stack = []) :
    (ofSource source).currentRules state = builtin.startRules := by
  unfold currentRules
  rw [hroot]
  rfl

/-- The rest of a word is read as plain text. -/
theorem runSteps_word (hopen : state.finished = false) (hroot : state.stack = []) (start : Nat)
    (hstart : state.textStart = some start) (hword : ∀ c ∈ word, IsWordChar c)
    (hrest : state.rest = word ++ behind) :
    (ofSource source).runSteps word.length state =
      state.advance (Text.byteSize word) behind := by
  induction word generalizing state with
  | nil =>
      rw [List.nil_append] at hrest
      rw [← hrest]
      rfl
  | cons c word ih =>
      have hc := hword c List.mem_cons_self
      have hrules := currentRules_of_root source hroot
      have hstep : (ofSource source).step state = state.advance c.utf8Size (word ++ behind) := by
        rw [step_of_text hopen hrest (hrules ▸ isWhitespace_wordChar hc)]
        · unfold LexState.advance
          simp [hstart]
        · rw [hstart]
          exact findIn_wordChar hc _ _ _
      have hsum : (state.advance c.utf8Size (word ++ behind)).advance (Text.byteSize word) behind =
          state.advance (Text.byteSize (c :: word)) behind := by
        unfold LexState.advance
        rw [Text.byteSize_cons, Nat.add_assoc]
      rw [List.length_cons, runSteps, hstep, ← hsum]
      exact ih hopen hroot hstart (fun a ha => hword a (List.mem_cons_of_mem c ha)) rfl

/-- A word at which no delimiter is found is read as plain text. -/
theorem flushText_runSteps_word (hne : word ≠ []) (hword : ∀ c ∈ word, IsWordChar c)
    (hfind : builtin.findIn builtin.startRules builtin.startRules source cursor (word ++ behind)
      false = none) :
    ((ofSource source).runSteps word.length
        (between source cursor (word ++ behind) tokens)).flushText =
      between source (cursor + Text.byteSize word) behind
        (tokens ++ [⟨.ofLength cursor (Text.byteSize word), .text⟩]) := by
  obtain ⟨c, word, rfl⟩ := List.exists_cons_of_ne_nil hne
  have hc := hword c List.mem_cons_self
  have hstep : (ofSource source).step (between source cursor (c :: word ++ behind) tokens) =
      { between source cursor (c :: word ++ behind) tokens with
        textStart := some cursor }.advance c.utf8Size (word ++ behind) :=
    step_of_text rfl rfl (isWhitespace_wordChar hc) hfind
  rw [List.length_cons, runSteps, hstep, runSteps_word rfl rfl cursor rfl
    (fun a ha => hword a (List.mem_cons_of_mem c ha)) rfl]
  rw [between_push, Span.ofLength, Text.byteSize_cons, ← Nat.add_assoc]
  rfl

/-- The word that starts a conditional is read. -/
theorem step_if (hbehind : ∀ c ∈ behind.head?, c = ' ') :
    (ofSource source).step (between source cursor ("if".toList ++ behind) tokens) =
      between source (cursor + 2) behind
        (tokens ++ [⟨.ofLength cursor 2, .delimiter ifWord⟩]) := by
  obtain ⟨-, htext, -, hscan, hopens, hcloses, -⟩ := table_conditional
  have hi : IsWordChar 'i' := by decide
  have hstep : (ofSource source).step (between source cursor ("if".toList ++ behind) tokens) =
      (ofSource source).readDelimiter
        (between source cursor ("if".toList ++ behind) tokens).flushText ifWord :=
    step_of_delimiter rfl rfl (isWhitespace_wordChar hi) (findIn_if source cursor hbehind)
  have hread : (ofSource source).readDelimiter
      (between source cursor ("if".toList ++ behind) tokens) ifWord = _ :=
    readDelimiter_of_isNone hscan htext rfl (by decide)
  rw [hstep, flushText_of_eq_none rfl, hread, placeDelimiter_of_token _ _ hcloses hopens]
  rw [between_push]
  rfl

/-- The blank behind a word ends it. -/
theorem step_blank (hflush : state.flushText = between source cursor (' ' :: behind) tokens) :
    (ofSource source).step state = between source (cursor + 1) behind tokens := by
  obtain ⟨hcursor, hopen, -⟩ := samePlace_flushText state
  have hstack := stack_flushText state
  have hrest := rest_flushText state
  rw [hflush] at hopen hstack hrest
  have hblank := table_conditional.2.2.2.2.2.2.2
  rw [step_of_whitespace hopen.symm hrest.symm
    ((currentRules_of_root source hstack.symm) ▸ hblank), hflush]
  rfl

/-- A word is read as one token, in front of a blank or the end of the text. -/
theorem exists_flushText_word (source : Source) (cursor : Nat) (tokens : List Token)
    (hword : IsSpacedWord word) (behind : List Char) (hbehind : ∀ c ∈ behind.head?, c = ' ') :
    ∃ steps, ((ofSource source).runSteps steps
        (between source cursor (word ++ behind) tokens)).flushText =
      between source (cursor + Text.byteSize word) behind
        (tokens ++ [⟨.ofLength cursor (Text.byteSize word),
          if word = "if".toList then .delimiter ifWord else .text⟩]) := by
  obtain ⟨hne, hchars, hkeyword⟩ := hword
  by_cases hif : word = "if".toList
  · subst hif
    refine ⟨1, ?_⟩
    rw [runSteps, runSteps, step_if hbehind, if_pos rfl]
    exact flushText_of_eq_none rfl
  · have hblank : ¬IsWordChar ' ' := by decide
    refine ⟨word.length, ?_⟩
    rw [if_neg hif]
    refine flushText_runSteps_word hne hchars (findIn_of_not_mem_keywords source cursor hne hchars
      (fun c hc => ?_) (fun hmem => hif (hkeyword hmem)) false)
    rw [hbehind c hc]
    exact hblank

/-- Words with one blank between them are read as one token each. -/
theorem exists_flushText_spaced (source : Source) (cursor : Nat) (tokens : List Token)
    {words : List (List Char)} (hwords : ∀ word ∈ words, IsSpacedWord word) :
    ∃ steps, ((ofSource source).runSteps steps
        (between source cursor (Text.spaced words) tokens)).flushText =
      between source (cursor + Text.byteSize (Text.spaced words)) []
        (tokens ++ wordTokens cursor words) := by
  induction words generalizing cursor tokens with
  | nil => exact ⟨0, by rw [wordTokens, List.append_nil]; rfl⟩
  | cons word words ih =>
      obtain ⟨hword, hwords⟩ := List.forall_mem_cons.mp hwords
      cases words with
      | nil =>
          obtain ⟨steps, hsteps⟩ := exists_flushText_word source cursor tokens hword [] nofun
          rw [List.append_nil] at hsteps
          rw [Text.spaced_singleton]
          exact ⟨steps, hsteps⟩
      | cons next words =>
          obtain ⟨steps, hsteps⟩ := exists_flushText_word source cursor tokens hword
            (' ' :: Text.spaced (next :: words)) (fun c hc => (Option.some.inj hc).symm)
          obtain ⟨more, hmore⟩ := ih (cursor + Text.byteSize word + 1)
            (tokens ++ [⟨.ofLength cursor (Text.byteSize word),
              if word = "if".toList then .delimiter ifWord else .text⟩]) hwords
          refine ⟨steps + (1 + more), ?_⟩
          rw [runSteps_add, runSteps_add, Text.spaced_cons_cons]
          show ((ofSource source).runSteps more ((ofSource source).step _)).flushText = _
          rw [step_blank hsteps, hmore, List.append_assoc, Text.byteSize_append,
            Text.byteSize_cons]
          have hblank : ' '.utf8Size = 1 := by decide
          rw [hblank, Nat.add_assoc, Nat.add_assoc]
          rfl

end Words

/-- A run that has read its text in the root's list ends with what has been read. -/
theorem lex_of_flushText {steps : Nat} (hsize : source.size < Span.offsetCount)
    (hsteps : ((ofSource source).runSteps steps (ofSource source).fresh).flushText =
      between source source.size [] tokens) :
    (ofSource source).lex =
      ⟨(Forest.ofSource source builtin.startRules).closeNode Forest.root tokens.toArray none
        source.size, .ofSource source⟩ := by
  obtain ⟨hcursor, hopen, -⟩ :=
    samePlace_flushText ((ofSource source).runSteps steps (ofSource source).fresh)
  have hstack := stack_flushText ((ofSource source).runSteps steps (ofSource source).fresh)
  have hrest := rest_flushText ((ofSource source).runSteps steps (ofSource source).fresh)
  rw [hsteps] at hcursor hopen hstack hrest
  rw [lex_eq_stop hsize hopen.symm hrest.symm, stop_of_stack_eq_nil hopen.symm hstack.symm, hsteps,
    ← hcursor]
  rfl

/-- A text of words with one blank between them is read as one token for each, without a report. -/
theorem lex_spaced {words : List (List Char)} (hwords : ∀ word ∈ words, IsSpacedWord word)
    (hchars : source.chars = Text.spaced words) (hsize : source.size < Span.offsetCount) :
    (ofSource source).lex =
      ⟨(Forest.ofSource source builtin.startRules).closeNode Forest.root
        (wordTokens 0 words).toArray none source.size, .ofSource source⟩ := by
  obtain ⟨steps, hsteps⟩ := exists_flushText_spaced source 0 [] hwords
  have hfresh : (ofSource source).fresh = between source 0 (Text.spaced words) [] := by
    unfold between
    rw [← hchars]
    rfl
  rw [← hfresh, List.nil_append, Nat.zero_add, ← hchars, ← source.size_eq] at hsteps
  exact lex_of_flushText hsize hsteps

/-- The tokens of the root are those of the words. -/
theorem tokenList_lex_spaced {words : List (List Char)}
    (hwords : ∀ word ∈ words, IsSpacedWord word) (hchars : source.chars = Text.spaced words)
    (hsize : source.size < Span.offsetCount) :
    (ofSource source).lex.forest.tokenList Forest.root = wordTokens 0 words := by
  have hindex : Forest.root.index < (Forest.ofSource source builtin.startRules).nodes.size :=
    Nat.one_pos
  rw [lex_spaced hwords hchars hsize,
    Forest.tokenList_closeNode _ (Forest.Packed.ofSource _ _) hindex, if_pos rfl]

section Identifiers

variable {token : Token}

/-- A token of the root that is complete at some place is the first one in the end. -/
theorem exists_tokenList_lex {past : LexState} {count : Nat}
    (hsize : source.size < Span.offsetCount)
    (hreads : (ofSource source).Reads ((ofSource source).runSteps count (ofSource source).fresh))
    (honward : past.Onward ((ofSource source).runSteps count (ofSource source).fresh))
    (hroot : past.stack = []) (hpending : past.pending = #[token]) :
    ∃ more, (ofSource source).lex.forest.tokenList Forest.root = token :: more := by
  have hstart : (ofSource source).start = (ofSource source).fresh := if_pos hsize
  obtain ⟨last, hlast, hbehind, hrun⟩ := hreads.exists_stop _
    (show ((ofSource source).runSteps _ _).finished = true from
      finished_runSteps _ (Nat.lt_succ_self _))
  have hroots := ((honward.trans hbehind).endsIn hlast.endsIn_stop).roots
  have hcount : past.progress.topLevel = 1 := by
    rw [LexState.topLevel_progress, hroot, hpending]
    rfl
  have hlex : (ofSource source).lex.forest = ((ofSource source).stop last).forest := by
    unfold lex
    rw [hstart, ← run_runSteps (ofSource source) (ofSource source).fresh count]
    exact congrArg LexState.forest hrun
  rw [hcount, hpending, ← hlex] at hroots
  cases hlist : (ofSource source).lex.forest.tokenList Forest.root with
  | nil =>
      rw [hlist] at hroots
      cases hroots
  | cons first more =>
      rw [hlist] at hroots
      exact ⟨more, congrArg (· :: more) (List.cons.inj hroots).1⟩

variable {word behind : List Char} {c : Char} (hne : word ≠ []) (hword : ∀ a ∈ word, IsWordChar a)
  (hc : c.isDigit = true) (hchars : source.chars = word ++ c :: behind)
  (hsize : source.size < Span.offsetCount)

include hne hword hc hchars hsize

/-- A word in front of a digit that is a delimiter is one token, which is no plain text. -/
theorem exists_lex_of_keyword {id : DelimiterId}
    (hfind : builtin.findIn builtin.startRules builtin.startRules source 0 (word ++ c :: behind)
      false = some id) :
    ∃ token more, (ofSource source).lex.forest.tokenList Forest.root = token :: more ∧
      token.kind ≠ .text := by
  have hdigit : ∀ a ∈ (c :: behind).head?, ¬IsWordChar a := by
    intro a ha
    rw [← Option.some.inj ha]
    exact not_isWordChar_of_isDigit hc
  have hreads := reads_fresh (ofSource source)
  have hrest : source.chars ≠ [] :=
    hchars ▸ List.append_ne_nil_of_right_ne_nil _ (List.cons_ne_nil c behind)
  have htext := text_of_findIn_word source 0 hne hword hdigit hfind
  obtain ⟨a, more, rfl⟩ := List.exists_cons_of_ne_nil hne
  have ha := hword a List.mem_cons_self
  obtain ⟨token, hkeyword, -, hpending, -, -, hstack⟩ := exists_isKeyword_readDelimiter
    (show (ofSource source).table = builtin from rfl) htext hchars rfl hreads
    ((isWordChar_iff htext).mp ha)
  have hread : (ofSource source).step (ofSource source).fresh =
      (ofSource source).readDelimiter (ofSource source).fresh.flushText id :=
    step_of_delimiter rfl hchars (isWhitespace_wordChar ha) hfind
  have hstep : (ofSource source).runSteps 1 (ofSource source).fresh =
      (ofSource source).readDelimiter (ofSource source).fresh id := hread
  have hnext := hreads.readDelimiter rfl hrest id
  rw [← hstep] at hnext hpending hstack
  obtain ⟨rest, hlist⟩ := exists_tokenList_lex hsize hnext (.refl _) hstack hpending
  exact ⟨token, rest, hlist, hkeyword.1⟩

/-- A word in front of a digit that is no delimiter is one token of plain text. -/
theorem exists_lex_of_findIn_eq_none
    (hfind : builtin.findIn builtin.startRules builtin.startRules source 0 (word ++ c :: behind)
      false = none) :
    ∃ token more, (ofSource source).lex.forest.tokenList Forest.root = token :: more ∧
      token.span.stop = Text.byteSize word := by
  have hfresh : (ofSource source).fresh = between source 0 (word ++ c :: behind) [] := by
    unfold between
    rw [← hchars]
    rfl
  have hflush : ((ofSource source).runSteps word.length
      (between source 0 (word ++ c :: behind) [])).flushText = _ :=
    flushText_runSteps_word hne hword hfind
  have hlast := (reads_fresh (ofSource source)).runSteps word.length
  have hsplit := runSteps_add (ofSource source) (ofSource source).fresh word.length 1
  rw [← hfresh] at hflush
  generalize (ofSource source).runSteps word.length (ofSource source).fresh = last at *
  obtain ⟨-, hopen, -⟩ := samePlace_flushText last
  have hstack := stack_flushText last
  have hleft := rest_flushText last
  rw [hflush] at hopen hstack hleft
  have hrules := currentRules_of_root source hstack.symm
  obtain ⟨hpast, hnone, -⟩ := (hlast hopen.symm).flushText
  -- the digit starts a number, so that the plain text in front of it ends
  obtain ⟨id, hnumber⟩ := Option.isSome_iff_exists.mp
    (RuleSetTable.findIn_isSome_of_breaksAt (breaksAt_digit hc source last.cursor behind)
      last.textStart.isSome)
  have hread : (ofSource source).step last = (ofSource source).readDelimiter last.flushText id :=
    step_of_delimiter hopen.symm hleft.symm (by rw [hrules]; exact isWhitespace_digit hc)
      (by rw [hrules]; exact hnumber)
  have hstep : (ofSource source).runSteps (word.length + 1) (ofSource source).fresh =
      (ofSource source).readDelimiter last.flushText id := hsplit.trans hread
  have hnext := hpast.readDelimiter hnone (by rw [hflush]; exact List.cons_ne_nil c behind) id
  have honward := hpast.onward_readDelimiter id
  rw [← hstep] at hnext honward
  obtain ⟨rest, hlist⟩ := exists_tokenList_lex hsize hnext honward (by rw [hflush]; rfl)
    (by rw [hflush]; rfl)
  exact ⟨_, rest, hlist, Nat.zero_add _⟩

/-- In front of a digit the token of a word is complete, whether it is plain text or not. -/
theorem exists_lex_of_digit :
    ∃ token more, (ofSource source).lex.forest.tokenList Forest.root = token :: more ∧
      (token.kind = .text → token.span.stop = Text.byteSize word) := by
  cases hfind : builtin.findIn builtin.startRules builtin.startRules source 0
      (word ++ c :: behind) false with
  | some id =>
      obtain ⟨token, more, hlist, hkind⟩ :=
        exists_lex_of_keyword hne hword hc hchars hsize hfind
      exact ⟨token, more, hlist, fun htext => absurd htext hkind⟩
  | none =>
      obtain ⟨token, more, hlist, hstop⟩ :=
        exists_lex_of_findIn_eq_none hne hword hc hchars hsize hfind
      exact ⟨token, more, hlist, fun _ => hstop⟩

end Identifiers

/-- A word that is none of the language is read as one token of plain text, without a report. -/
theorem lex_word {word : List Char} (hne : word ≠ []) (hword : ∀ c ∈ word, IsWordChar c)
    (hkeyword : word ∉ keywords) (hsize : (Source.ofChars word).size < Span.offsetCount) :
    (ofSource (.ofChars word)).lex.log.entries.toList = [] ∧
      (ofSource (.ofChars word)).lex.forest.tokenList Forest.root =
        [⟨⟨0, (Source.ofChars word).size⟩, .text⟩] := by
  have hspaced : ∀ w ∈ [word], IsSpacedWord w :=
    List.forall_mem_singleton.mpr ⟨hne, hword, fun hmem => absurd hmem hkeyword⟩
  have htext : (Source.ofChars word).chars = Text.spaced [word] := (Text.spaced_singleton word).symm
  have hif : word ≠ "if".toList := fun heq => hkeyword (heq ▸ by decide)
  have hlog := congrArg (fun output => output.log.entries.toList) (lex_spaced hspaced htext hsize)
  refine ⟨hlog, ?_⟩
  rw [tokenList_lex_spaced hspaced htext hsize, wordTokens, wordTokens, if_neg hif, Span.ofLength,
    Nat.zero_add]
  rfl

end LexInput

namespace Text.IsIdentifier

variable {word : List Char} (h : IsIdentifier word)

include h

theorem ne_nil : word ≠ [] := by
  obtain ⟨⟨first, more, rfl, -⟩, -⟩ := h
  exact List.cons_ne_nil first more

/-- What is no digit in an identifier may stand in a word. -/
theorem isWordChar {c : Char} (hc : c ∈ word) (hdigit : c.isDigit = false) : IsWordChar c := by
  rcases h.2 c hc with halpha | hunderscore | hdigit'
  · exact Or.inl halpha
  · exact Or.inr (Or.inl hunderscore)
  · exact nomatch hdigit.symm.trans hdigit'

/-- In front of the first digit of an identifier there is a word. -/
theorem exists_digit (hdigit : ∃ c ∈ word, c.isDigit = true) :
    ∃ before c behind, word = before ++ c :: behind ∧ c.isDigit = true ∧ before ≠ [] ∧
      ∀ a ∈ before, IsWordChar a := by
  obtain ⟨c, hfind⟩ := Option.isSome_iff_exists.mp (List.find?_isSome.mpr hdigit)
  obtain ⟨hc, before, behind, hsplit, hbefore⟩ := List.find?_eq_some_iff_append.mp hfind
  refine ⟨before, c, behind, hsplit, hc, ?_, fun a ha => ?_⟩
  · rintro rfl
    obtain ⟨⟨first, more, hfirst, hletter⟩, -⟩ := h
    rw [hfirst] at hsplit
    rw [(List.cons.inj hsplit).1, hc] at hletter
    cases hletter
  · exact h.isWordChar (hsplit ▸ List.mem_append_left _ ha) (by simpa using hbefore a ha)

/-- An identifier with a digit is not read as one token of plain text. -/
theorem tokenList_ne (hsize : (Source.ofChars word).size < Span.offsetCount)
    (hdigit : ∃ c ∈ word, c.isDigit = true) :
    (ofSource (.ofChars word)).lex.forest.tokenList Forest.root ≠
      [⟨⟨0, (Source.ofChars word).size⟩, .text⟩] := by
  intro hlist
  obtain ⟨before, c, behind, hsplit, hc, hne, hword⟩ := h.exists_digit hdigit
  obtain ⟨token, more, htokens, hstop⟩ := LexInput.exists_lex_of_digit hne hword hc
    (show (Source.ofChars word).chars = before ++ c :: behind from hsplit) hsize
  obtain rfl : token = ⟨⟨0, (Source.ofChars word).size⟩, .text⟩ :=
    (List.cons.inj (htokens.symm.trans hlist)).1
  have hshort : (Source.ofChars word).size = byteSize before := hstop rfl
  have hlong : (Source.ofChars word).size = byteSize (before ++ c :: behind) :=
    congrArg byteSize hsplit
  rw [byteSize_append, byteSize_cons] at hlong
  have hpos := c.utf8Size_pos
  omega

end Text.IsIdentifier

namespace LexInput

/--
An identifier that is none of the words of the language is read as one token of plain text, without
a report, if and only if there is no digit in it: digits are not hidden in words, since the numbers
that start with them break words. A text with more bytes than there are offsets is not read.
-/
theorem lex_identifier {word : List Char} (hword : Text.IsIdentifier word)
    (hkeyword : word ∉ keywords) :
    let source := Source.ofChars word
    let output := (ofSource source).lex
    if source.size < Span.offsetCount then
      (output.log.entries.toList = [] ∧
          output.forest.tokenList Forest.root = [⟨⟨0, source.size⟩, .text⟩]) ↔
        ∀ c ∈ word, c.isDigit = false
    else
      output.log.entries.toList =
        [(Log.ofSource source).entry .lex (.point 0) (tooLargeMessage source.size)] := by
  intro source output
  split
  · rename_i hsize
    constructor
    · rintro ⟨-, hlist⟩ c hc
      by_contra hdigit
      have hone := hword.tokenList_ne hsize ⟨c, hc, Bool.eq_true_of_not_eq_false hdigit⟩
      exact hone hlist
    · intro hdigits
      exact lex_word hword.ne_nil (fun c hc => hword.isWordChar hc (hdigits c hc)) hkeyword hsize
  · rename_i hsize
    have hlex := finish_of_size_le (ofSource source) (Nat.not_lt.mp hsize) []
    exact congrArg (fun output => output.log.entries.toList) hlex

/-- A word that starts with one of the language, in one token. -/
theorem lex_identifier_notable :
    Text.IsIdentifier "notable_".toList ∧ "notable_".toList ∉ keywords ∧
      (ofSource (.ofChars "notable_".toList)).lex.log.entries.toList = [] ∧
      (ofSource (.ofChars "notable_".toList)).lex.forest.tokenList Forest.root =
        [⟨⟨0, 8⟩, .text⟩] := by
  have hword : Text.IsIdentifier "notable_".toList := by
    refine ⟨⟨'n', "otable_".toList, rfl, rfl⟩, List.forall_iff_forall_mem.mp ?_⟩
    decide
  have hkeyword : "notable_".toList ∉ keywords := by decide
  have hdigits : ∀ c ∈ "notable_".toList, c.isDigit = false := by
    refine List.forall_iff_forall_mem.mp ?_
    decide
  have hsize : (Source.ofChars "notable_".toList).size < Span.offsetCount := by decide
  have hlex := lex_identifier hword hkeyword
  simp only [hsize, if_true] at hlex
  obtain ⟨hlog, htokens⟩ := hlex.mpr hdigits
  exact ⟨hword, hkeyword, hlog, htokens⟩

/-- A letter and a digit: the letter is plain text, and the digit a number. -/
theorem lex_letter_digit :
    Text.IsIdentifier "x1".toList ∧ "x1".toList ∉ keywords ∧
      (ofSource (.ofChars "x1".toList)).lex.forest.tokenList Forest.root =
        [⟨⟨0, 1⟩, .text⟩, ⟨⟨1, 2⟩, .literal ⟨0⟩⟩] ∧
      (ofSource (.ofChars "x1".toList)).lex.forest.tokenList Forest.root ≠ [⟨⟨0, 2⟩, .text⟩] := by
  have htokens : (ofSource (.ofChars "x1".toList)).lex.forest.tokenList Forest.root =
      [⟨⟨0, 1⟩, .text⟩, ⟨⟨1, 2⟩, .literal ⟨0⟩⟩] := by
    decide +kernel
  refine ⟨⟨⟨'x', ['1'], rfl, rfl⟩, List.forall_iff_forall_mem.mp (by decide)⟩, by decide, htokens,
    ?_⟩
  rw [htokens]
  decide

end LexInput
end ExprLang
