import ExprLang.Forest.Content
import ExprLang.Proofs.Lexing.Interruption
import ExprLang.Proofs.Lexing.Scans
import ExprLang.Proofs.Lexing.TextBodies

/-!
# Reading strings

The text between two quotes consists of pieces: characters that stand for themselves, and escapes.
One step is taken for each piece, and after it has been read the content of the string has grown by
what the piece stands for. How plain text and escapes alternate does not matter for this, as the
content counts the plain text that is still being read.

Main definitions:
* `TextPiece`, `TextPiece.written`, `TextPiece.denoted`: the pieces of a string;
* `LexInput.InString`: a lexer between the quotes, and the content that it has read.

Main results:
* `TextPiece.scan_written`: what an escape is scanned as;
* `LexInput.InString.piece_next`: one step reads one piece;
* `LexInput.exists_lex_of_pieces`: the forest of a string.
-/

namespace ExprLang

open Grammar

/-- The characters behind a backslash that stand for one character, with this character. -/
def letterEscapes : List (Char × Char) :=
  [('a', '\x07'), ('b', '\x08'), ('e', '\x1b'), ('f', '\x0c'), ('n', '\n'), ('r', '\r'),
    ('t', '\t'), ('v', '\x0b'), ('\\', '\\'), ('\x27', '\x27'), ('"', '"'), ('?', '?')]

/-- The number that hexadecimal digits stand for. -/
def hexValue (digits : List Char) : Nat :=
  Numeral.value 16 (ScanRules.digitsIn 16 digits)

/-- Four digits behind `u`, or eight behind `U`, that name a character. -/
structure IsCode (mark : Char) (digits : List Char) : Prop where
  width : (mark, digits.length) ∈ [('u', 4), ('U', 8)]
  hex : ∀ d ∈ digits, (ScanRules.digitIn? 16 d).isSome = true
  valid : (hexValue digits).isValidChar

/-- A piece of the text between two quotes. -/
inductive TextPiece where
  /-- A character that stands for itself. -/
  | plain (c : Char) (h : c ∉ stringMarks)
  /-- A backslash and a character for another one. -/
  | letter (c value : Char) (h : (c, value) ∈ letterEscapes)
  /-- A backslash and the code point of a character. -/
  | code (mark : Char) (digits : List Char) (h : IsCode mark digits)
  /-- A backslash in front of a line break. -/
  | lineBreak (text : List Char) (h : text ∈ [['\n'], ['\r'], ['\r', '\n']])

namespace TextPiece

/-- The text of a piece. -/
def written : TextPiece → List Char
  | plain c _ => [c]
  | letter c _ _ => ['\\', c]
  | code mark digits _ => '\\' :: mark :: digits
  | lineBreak text _ => '\\' :: text

/-- What a piece stands for. -/
def denoted : TextPiece → List Char
  | plain c _ => [c]
  | letter _ value _ => [value]
  | code _ digits _ => [Char.ofNat (hexValue digits)]
  | lineBreak _ _ => []

/-- A piece starts neither a line break nor the end of the string. -/
theorem exists_written_eq (piece : TextPiece) :
    ∃ c rest, piece.written = c :: rest ∧ c ≠ '\n' := by
  cases piece with
  | plain c h =>
      refine ⟨c, [], rfl, ?_⟩
      rintro rfl
      exact h (by decide)
  | letter c value h => exact ⟨'\\', [c], rfl, by decide⟩
  | code mark digits h => exact ⟨'\\', mark :: digits, rfl, by decide⟩
  | lineBreak text h => exact ⟨'\\', text, rfl, by decide⟩

section Scans

open ScanRules

theorem simpleEscape?_eq_some {c value : Char} (h : (c, value) ∈ letterEscapes) :
    simpleEscape? c = some value := by
  have hall : ∀ pair ∈ letterEscapes, simpleEscape? pair.1 = some pair.2 := by decide
  exact hall _ h

/-- Digits are read up to the number of digits that is asked for. -/
theorem takeDigits_take {digits : List Char}
    (hdigits : ∀ d ∈ digits, (digitIn? 16 d).isSome = true) (rest : List Char) :
    takeDigits 16 ((digits ++ rest).take digits.length) = digits := by
  rw [List.take_left, takeDigits, List.takeWhile_eq_self_iff]
  exact hdigits

/-- A code point is scanned as the character that it names. -/
theorem hexEscape_of_isCode {mark : Char} {digits : List Char} (h : IsCode mark digits)
    (rest : List Char) :
    hexEscape (digits ++ rest) digits.length digits.length =
      .ofValue (Text.byteSize ('\\' :: mark :: digits))
        (.str (String.singleton (Char.ofNat (hexValue digits)))) := by
  have htaken := takeDigits_take h.hex rest
  have hsize : Text.byteSize digits = digits.length := by
    rw [← htaken, byteSize_takeDigits]
  have hmark : mark.utf8Size = 1 := by
    have hall : ∀ code ∈ [('u', 4), ('U', 8)], code.1.utf8Size = 1 := by decide
    exact hall _ h.width
  have hwritten : Text.byteSize ('\\' :: mark :: digits) = 2 + digits.length := by
    rw [Text.byteSize_cons, Text.byteSize_cons, hmark, hsize, ← Nat.add_assoc]
    rfl
  have hchar : Char.ofNat (hexValue digits) = Char.ofNatAux (hexValue digits) h.valid :=
    dif_pos h.valid
  unfold hexEscape
  simp only [htaken, Nat.lt_irrefl, if_false]
  rw [hwritten, hchar]
  exact dif_pos h.valid

/-- An escape is scanned as what it stands for, if no line feed makes another one of it. -/
theorem scan_written {piece : TextPiece} {behind : List Char}
    (hpiece : piece.written = '\\' :: behind) {rest : List Char}
    (hrest : ∀ c ∈ rest.head?, c ≠ '\n') :
    escapeBody (behind ++ rest) =
      .ofValue (Text.byteSize piece.written) (.str (String.ofList piece.denoted)) := by
  cases piece with
  | plain c h =>
      obtain rfl : c = '\\' := (List.cons.inj hpiece).1
      exact absurd (by decide) h
  | letter c value h =>
      obtain rfl : [c] = behind := (List.cons.inj hpiece).2
      unfold escapeBody
      simp only [List.singleton_append, simpleEscape?_eq_some h]
      rfl
  | code mark digits h =>
      obtain rfl : mark :: digits = behind := (List.cons.inj hpiece).2
      have hscan := hexEscape_of_isCode h rest
      obtain ⟨hmark, hlength⟩ | ⟨hmark, hlength⟩ :
          mark = 'u' ∧ digits.length = 4 ∨ mark = 'U' ∧ digits.length = 8 := by
        simpa using h.width
      · subst hmark
        rw [hlength] at hscan
        exact hscan
      · subst hmark
        rw [hlength] at hscan
        exact hscan
  | lineBreak text h =>
      obtain rfl : text = behind := (List.cons.inj hpiece).2
      simp only [List.mem_cons, List.not_mem_nil, or_false] at h
      rcases h with rfl | rfl | rfl
      · rfl
      · -- a line feed behind the carriage return would belong to the line break
        have hother : ¬('\r' = '\r' ∧ rest.head? = some '\n') := fun h => hrest '\n' h.2 rfl
        exact (if_neg hother).trans (if_pos (Or.inr rfl))
      · rfl

/-- Where an escape stands in the source, it is what is scanned there. -/
theorem scanAt_backslash {source : Source} {index : Nat} {piece : TextPiece} {behind : List Char}
    (hpiece : piece.written = '\\' :: behind) {rest : List Char}
    (hplace : source.IsAt index (piece.written ++ rest)) (hrest : ∀ c ∈ rest.head?, c ≠ '\n') :
    (builtin.delimiter backslash).scanAt source index =
      .ofValue (Text.byteSize piece.written) (.str (String.ofList piece.denoted)) := by
  have hbehind : source.IsAt (index + 1) (behind ++ rest) := by
    have hhead : source.IsAt index (['\\'] ++ (behind ++ rest)) := by
      rwa [hpiece] at hplace
    exact hhead.behind
  unfold Delimiter.scanAt
  rw [delimiter_backslash.1]
  refine (congrArg escapeBody hbehind.textFrom_eq).trans ?_
  exact scan_written hpiece hrest

end Scans

end TextPiece

/-- What a token adds to the content depends on the source and on the literals. -/
theorem Forest.tokenContent_congr {forest forest' : Forest} {owner : NodeId} {token : Token}
    (hsource : forest'.source = forest.source)
    (hliterals : ∀ id, token.kind = .literal id → forest'.literal id = forest.literal id) :
    forest'.tokenContent owner token = forest.tokenContent owner token := by
  unfold tokenContent tokenText spanText
  rw [hsource]
  cases hkind : token.kind with
  | literal id => simp only [hliterals id hkind]
  | node id => rfl
  | delimiter id => rfl
  | text => rfl

/-- The content of a node that has been closed is that of its tokens. -/
theorem Forest.content_closeNode {forest : Forest} (hpacked : forest.Packed) {id : NodeId}
    (hindex : id.index < forest.nodes.size) (tokens : Array Token) (closer : Option DelimiterId)
    (stop : Nat) :
    (forest.closeNode id tokens closer stop).content id =
      tokens.toList.flatMap (forest.tokenContent id) := by
  unfold content
  rw [← tokenList, tokenList_closeNode _ hpacked hindex, if_pos rfl]
  exact List.flatMap_congr fun token _ => tokenContent_congr rfl fun _ _ => rfl

namespace LexInput

/-- A string is the only open context. Its tokens have this content, together with the plain text
that is being read. -/
structure InString (input : LexInput) (node : NodeId) (state : LexState) (content : List Char) :
    Prop where
  reads : input.Reads state
  stack : state.stack = [⟨node, stringRules, quoteMark, 0, 0⟩]
  log : state.log = .ofSource input.source
  literals : state.KnowsLiterals
  content : ∃ taken, input.source.IsAt (state.textStart.getD state.cursor) (taken ++ state.rest) ∧
    state.cursor = state.textStart.getD state.cursor + Text.byteSize taken ∧
    content = state.pending.toList.flatMap (state.forest.tokenContent node) ++ taken

/-- A string has been read, and nothing else. -/
structure HasString (input : LexInput) (node : NodeId) (state : LexState) (content : List Char) :
    Prop where
  reads : input.Reads state
  between : state.textStart = none
  stack : state.stack = []
  log : state.log = .ofSource input.source
  pending : state.pending = #[⟨⟨0, state.cursor⟩, .node node⟩]
  node_ne : node ≠ Forest.root
  rules : (state.forest.header node).rules = stringRules
  content : state.forest.content node = content

variable {input : LexInput} {node : NodeId} {state : LexState} {content rest : List Char}

namespace InString

theorem currentRules_eq (h : input.InString node state content) :
    input.currentRules state = stringRules := by
  unfold currentRules
  rw [h.stack]

/-- Between two pieces of plain text the tokens have all of the content. -/
theorem content_of_eq_none (h : input.InString node state content)
    (hnone : state.textStart = none) :
    state.pending.toList.flatMap (state.forest.tokenContent node) = content := by
  obtain ⟨taken, -, hreach, hcontent⟩ := h.content
  rw [hnone, Option.getD_none] at hreach
  have hnothing : taken = [] := by
    refine List.length_eq_zero_iff.mp ?_
    have hle := Text.length_le_byteSize taken
    omega
  rw [hcontent, hnothing, List.append_nil]

/-- The end of plain text does not change the content. -/
theorem flushText (h : input.InString node state content) :
    input.InString node state.flushText content ∧ state.flushText.textStart = none := by
  cases hstart : state.textStart with
  | none =>
      rw [flushText_of_eq_none hstart]
      exact ⟨h, hstart⟩
  | some start =>
      obtain ⟨hreads, hnone, -⟩ := h.reads.flushText
      obtain ⟨taken, hat, hreach, hcontent⟩ := h.content
      rw [hstart, Option.getD_some] at hat hreach
      have htext : state.forest.tokenContent node ⟨⟨start, state.cursor⟩, .text⟩ = taken := by
        have hslice := hat.slice?_eq
        rw [← hreach, ← h.reads.draft.source_eq] at hslice
        exact congrArg (Option.getD · []) hslice
      have hflush : state.flushText =
          { state with textStart := none }.pushToken ⟨⟨start, state.cursor⟩, .text⟩ := by
        unfold LexState.flushText
        rw [hstart]
      have hknows := h.literals.flushText
      rw [hflush] at hreads hknows ⊢
      refine ⟨⟨hreads, h.stack, h.log, hknows, [], hreads.place, rfl, ?_⟩, rfl⟩
      rw [LexState.pushToken, Array.toList_push, List.flatMap_append, List.flatMap_singleton,
        htext, hcontent, List.append_nil]

/-- A literal that is read between pieces of plain text adds its text to the content. -/
theorem add_literal (h : input.InString node state content) (hnone : state.textStart = none)
    {size : Nat} {id : DelimiterId} {span : Span} {text : List Char}
    (hreads : input.Reads (pushDelimiter (state.advance size rest) id span
      (some (.str (String.ofList text))))) :
    input.InString node (pushDelimiter (state.advance size rest) id span
      (some (.str (String.ofList text)))) (content ++ text) := by
  have hold : state.pending.toList.flatMap
      ((state.forest.pushLiteral (.str (String.ofList text))).2.tokenContent node) = content := by
    rw [← h.content_of_eq_none hnone]
    refine List.flatMap_congr fun token htoken => Forest.tokenContent_congr rfl fun id hkind => ?_
    exact (state.forest.keeps_pushLiteral _).literal_eq
      (h.literals token id (List.mem_append_left _ htoken) hkind)
  have hnew : (state.forest.pushLiteral (.str (String.ofList text))).2.tokenContent node
      ⟨span, .literal (state.forest.pushLiteral (.str (String.ofList text))).1⟩ = text := by
    have hdisplay := congrArg (fun literal : Literal => literal.display.toList)
      (Forest.literal_of_getElem? (state.forest.literals_pushLiteral (.str (String.ofList text))))
    exact hdisplay.trans String.toList_ofList
  have hadvanced : (state.advance size rest).KnowsLiterals := h.literals
  refine ⟨hreads, h.stack, h.log, knowsLiterals_pushDelimiter hadvanced _ _ _, [], ?_, ?_, ?_⟩
  · simp only [pushDelimiter, LexState.pushToken, LexState.advance]
    rw [hnone]
    exact hreads.place
  · simp only [pushDelimiter, LexState.pushToken, LexState.advance]
    rw [hnone]
    rfl
  · simp only [pushDelimiter, LexState.pushToken, LexState.advance, Array.toList_push]
    rw [List.flatMap_append, hold, List.flatMap_singleton, hnew, List.append_nil]

section Steps

variable (h : input.InString node state content) (htable : input.table = builtin)

include h htable

theorem isWhitespace_eq (c : Char) :
    input.table.isWhitespace (input.currentRules state) input.rules c = false := by
  rw [htable, h.currentRules_eq]
  exact isTextBody_string.isWhitespace_eq _ c

/-- A character that stands for itself is read as plain text. -/
theorem plain_next {c : Char} (hc : c ∉ stringMarks) (hrest : state.rest = c :: rest) :
    input.InString node (input.step state) (content ++ [c]) ∧
      (input.step state).rest = rest := by
  have hreads := h.reads.next (hrest ▸ List.cons_ne_nil c rest)
  have hstep : input.step state =
      { state with textStart := state.textStart <|> some state.cursor }.advance c.utf8Size
        rest := by
    refine step_of_text h.reads.unfinished hrest (h.isWhitespace_eq htable c) ?_
    rw [htable, h.currentRules_eq]
    exact findIn_plain _ _ _ _ hc
  rw [hstep] at hreads ⊢
  obtain ⟨taken, hat, hreach, hcontent⟩ := h.content
  have hstart : (state.textStart <|> some state.cursor).getD (state.cursor + c.utf8Size) =
      state.textStart.getD state.cursor := by
    cases state.textStart with
    | none => rfl
    | some start => rfl
  refine ⟨⟨hreads, h.stack, h.log, h.literals, taken ++ [c], ?_, ?_, ?_⟩, rfl⟩
  · simp only [LexState.advance]
    rw [hstart, List.append_assoc, List.singleton_append, ← hrest]
    exact hat
  · simp only [LexState.advance]
    rw [hstart, Text.byteSize_append, ← Nat.add_assoc, ← hreach]
    rfl
  · simp only [LexState.advance]
    rw [hcontent, List.append_assoc]

/-- An escape is read as one literal. -/
theorem escape_next {piece : TextPiece} {behind : List Char}
    (hpiece : piece.written = '\\' :: behind) (hrest : state.rest = piece.written ++ rest)
    (hbehind : ∀ c ∈ rest.head?, c ≠ '\n') :
    input.InString node (input.step state) (content ++ piece.denoted) ∧
      (input.step state).rest = rest := by
  obtain ⟨hflushed, hnone⟩ := h.flushText
  obtain ⟨-, hopens, hcloses⟩ := delimiter_backslash
  have hcons : state.rest = '\\' :: (behind ++ rest) := by
    rw [hrest, hpiece, List.cons_append]
  have hrestFlushed : state.flushText.rest = piece.written ++ rest :=
    (rest_flushText state).trans hrest
  have hscanned : (input.table.delimiter backslash).scanAt input.source state.flushText.cursor =
      .ofValue (Text.byteSize piece.written) (.str (String.ofList piece.denoted)) := by
    rw [htable]
    exact TextPiece.scanAt_backslash hpiece (hrestFlushed ▸ hflushed.reads.place) hbehind
  have hstep : input.step state =
      pushDelimiter (state.flushText.advance (Text.byteSize piece.written) rest) backslash
        (.ofLength state.flushText.cursor (Text.byteSize piece.written))
        (some (.str (String.ofList piece.denoted))) := by
    rw [step_of_delimiter h.reads.unfinished hcons (h.isWhitespace_eq htable _)
      (by rw [htable, h.currentRules_eq]; exact findIn_backslash _ _ _ _)]
    rw [readDelimiter_of_scan hscanned hrestFlushed (hpiece ▸ List.cons_ne_nil _ _),
      placeDelimiter_of_token _ _ (htable ▸ hcloses) (htable ▸ hopens)]
  have hreads := h.reads.next (hcons ▸ List.cons_ne_nil _ _)
  rw [hstep] at hreads ⊢
  exact ⟨hflushed.add_literal hnone hreads, rfl⟩

/-- One step reads one piece. -/
theorem piece_next {piece : TextPiece} (hrest : state.rest = piece.written ++ rest)
    (hbehind : ∀ c ∈ rest.head?, c ≠ '\n') :
    input.InString node (input.step state) (content ++ piece.denoted) ∧
      (input.step state).rest = rest := by
  cases piece with
  | plain c hc => exact h.plain_next htable hc hrest
  | letter c value hletter => exact h.escape_next htable rfl hrest hbehind
  | code mark digits hcode => exact h.escape_next htable rfl hrest hbehind
  | lineBreak text htext => exact h.escape_next htable rfl hrest hbehind

/-- A quote closes the string that is open. -/
theorem step_quote (hrest : state.rest = '"' :: rest) :
    input.step state =
      { state.flushText.advance 1 rest with
        pending := #[⟨⟨0, state.flushText.cursor + 1⟩, .node node⟩]
        stack := []
        forest := state.flushText.forest.closeNode node
          (state.flushText.pending.push ⟨.ofLength state.flushText.cursor 1, .node node⟩)
          (some quoteMark) (state.flushText.cursor + 1) } := by
  obtain ⟨hflushed, -⟩ := h.flushText
  have hrestFlushed : state.flushText.rest = ['"'] ++ rest := (rest_flushText state).trans hrest
  obtain ⟨htext, hscan, -, hcloses, hname⟩ := delimiter_quoteMark
  have hstack : (state.flushText.advance 1 rest).stack = [⟨node, stringRules, quoteMark, 0, 0⟩] :=
    hflushed.stack
  have hbelongs : input.belongsToInnermost (state.flushText.advance 1 rest)
      (input.table.delimiter quoteMark) = true := by
    unfold belongsToInnermost
    rw [hstack, htable, hname]
    exact beq_iff_eq.mpr name_stringRules
  rw [step_of_delimiter h.reads.unfinished hrest (h.isWhitespace_eq htable _)
    (by rw [htable, h.currentRules_eq]; exact findIn_quote _ _ _ _),
    readDelimiter_of_isNone (htable ▸ hscan) (htable ▸ htext) hrestFlushed (List.cons_ne_nil _ _)]
  refine (placeDelimiter_of_belongs _ _ (htable ▸ hcloses) hbelongs).trans ?_
  unfold LexState.closeContext LexState.currentNode LexState.pushToken LexState.advance
  simp only [hflushed.stack]
  rw [Array.extract_size, Array.shrink_eq_take, Array.take, Array.extract_zero]
  rfl

/-- The closing quote ends the string. -/
theorem quote_next (hrest : state.rest = '"' :: rest) :
    input.HasString node (input.step state) content ∧ (input.step state).rest = rest := by
  obtain ⟨hflushed, hnone⟩ := h.flushText
  have hmem : (⟨node, stringRules, quoteMark, 0, 0⟩ : OpenContext) ∈ state.flushText.stack :=
    hflushed.stack ▸ List.mem_cons_self
  obtain ⟨hindex, -, -, hrules, -⟩ := hflushed.reads.header_of_mem hmem
  have hpacked := (Framed.of_draft hflushed.reads.draft).packed
  have hreads := h.reads.next (hrest ▸ List.cons_ne_nil _ _)
  rw [h.step_quote htable hrest] at hreads ⊢
  refine ⟨⟨hreads, hnone, rfl, hflushed.log, rfl, hflushed.reads.nodup_nodes.2 _ hmem, ?_, ?_⟩, rfl⟩
  · rw [Forest.header_closeNode, if_pos ⟨rfl, hindex⟩]
    exact hrules
  · have hmarker : state.flushText.forest.tokenContent node
        ⟨.ofLength state.flushText.cursor 1, .node node⟩ = [] := if_pos rfl
    refine (Forest.content_closeNode hpacked hindex _ _ _).trans ?_
    rw [Array.toList_push, List.flatMap_append, List.flatMap_singleton, hmarker,
      hflushed.content_of_eq_none hnone, List.append_nil]

end Steps

/-- The pieces of a string are read one after the other. -/
theorem pieces_next (htable : input.table = builtin) (pieces : List TextPiece)
    (h : input.InString node state content)
    (hrest : state.rest = pieces.flatMap TextPiece.written ++ rest)
    (hbehind : ∀ c ∈ rest.head?, c ≠ '\n') :
    input.InString node (input.runSteps pieces.length state)
        (content ++ pieces.flatMap TextPiece.denoted) ∧
      (input.runSteps pieces.length state).rest = rest := by
  induction pieces generalizing state content with
  | nil =>
      rw [List.flatMap_nil, List.append_nil]
      exact ⟨h, hrest⟩
  | cons piece pieces ih =>
      rw [List.flatMap_cons, List.append_assoc] at hrest
      -- a line feed would belong to a carriage return at the end of the piece
      have hnot : ∀ c ∈ (pieces.flatMap TextPiece.written ++ rest).head?, c ≠ '\n' := by
        cases pieces with
        | nil => exact hbehind
        | cons next pieces =>
            obtain ⟨c, others, hwritten, hc⟩ := next.exists_written_eq
            rw [List.flatMap_cons, hwritten]
            intro d hd
            rwa [← Option.some.inj hd]
      obtain ⟨hnext, hleft⟩ := h.piece_next htable hrest hnot
      rw [List.flatMap_cons, ← List.append_assoc]
      exact ih hnext hleft

end InString

/-- A quote at the start of a text opens a string. -/
theorem inString_open (htable : input.table = builtin) (hrules : IsTopLevel input.rules)
    (hchars : input.source.chars = '"' :: rest) :
    input.InString ⟨1⟩ (input.step input.fresh) [] ∧ (input.step input.fresh).rest = rest := by
  obtain ⟨htext, hscan, hopens, -, hname⟩ := delimiter_quoteMark
  have hfind : (builtin.delimiter quoteMark).contextName?.bind builtin.find? =
      some stringRules := by
    rw [hname, Option.bind_some, find?_string]
  have hrest : input.fresh.rest = ['"'] ++ rest := hchars
  have hreads := (reads_fresh input).next (hrest ▸ List.cons_ne_nil _ _)
  have hplace : input.placeDelimiter (input.fresh.advance 1 rest) quoteMark (.ofLength 0 1) none =
      input.openContext (input.fresh.advance 1 rest) quoteMark (.ofLength 0 1) := by
    -- a quote also closes strings, but there is none to close
    have hbelongs : input.belongsToInnermost (input.fresh.advance 1 rest)
        (input.table.delimiter quoteMark) = false := rfl
    unfold placeDelimiter
    simp only [hbelongs, Bool.and_false, Bool.false_eq_true, if_false]
    rw [htable, if_pos hopens]
  have hstep : input.step input.fresh =
      input.openContext (input.fresh.advance 1 rest) quoteMark (.ofLength 0 1) := by
    rw [step_of_delimiter rfl hrest (by rw [htable]; exact hrules.isWhitespace_quote)
      (by rw [htable]; exact hrules.findIn_quote _ _ _ _), flushText_of_eq_none rfl,
      readDelimiter_of_isNone (htable ▸ hscan) (htable ▸ htext) hrest (List.cons_ne_nil _ _)]
    exact hplace
  have hfresh : input.fresh.KnowsLiterals := fun _ _ hmem => nomatch hmem
  have hknows : (input.step input.fresh).KnowsLiterals := knowsLiterals_step hfresh
  rw [hstep] at hreads hknows ⊢
  unfold openContext at hreads hknows ⊢
  simp only [htable, hfind] at hreads hknows ⊢
  exact ⟨⟨hreads, rfl, rfl, hknows, [], hreads.place, rfl, rfl⟩, rfl⟩

/-- A string that is the whole text is the only node of the root. -/
theorem HasString.stop_eq (h : input.HasString node state content) :
    (input.stop state).log = .ofSource input.source ∧
      (input.stop state).forest.tokenList Forest.root = [⟨⟨0, state.cursor⟩, .node node⟩] ∧
      ((input.stop state).forest.header node).rules = stringRules ∧
      (input.stop state).forest.content node = content := by
  have hpacked := (Framed.of_draft h.reads.draft).packed
  have hindex : Forest.root.index < state.forest.nodes.size := h.reads.size_pos
  rw [stop_of_stack_eq_nil h.reads.unfinished h.stack, flushText_of_eq_none h.between]
  refine ⟨h.log, ?_, ?_, ?_⟩
  · rw [LexState.forest_closeRoot, Forest.tokenList_closeNode _ hpacked hindex, if_pos rfl,
      h.pending]
  · rw [LexState.forest_closeRoot, Forest.header_closeNode, if_neg fun hroot => h.node_ne hroot.1]
    exact h.rules
  · rw [LexState.forest_closeRoot, ← h.content]
    unfold Forest.content
    rw [← Forest.tokenList, Forest.tokenList_closeNode _ hpacked hindex, if_neg h.node_ne]
    exact List.flatMap_congr fun token _ => Forest.tokenContent_congr rfl fun _ _ => rfl

/-- A string is read without a report, as one node. Its content is what its pieces stand for. -/
theorem exists_lex_of_pieces (htable : input.table = builtin) (hrules : IsTopLevel input.rules)
    {pieces : List TextPiece}
    (hchars : input.source.chars = '"' :: (pieces.flatMap TextPiece.written ++ ['"']))
    (hsize : input.source.size < Span.offsetCount) :
    ∃ id, input.lex.log = .ofSource input.source ∧
      input.lex.forest.tokenList Forest.root = [⟨⟨0, input.source.size⟩, .node id⟩] ∧
      (input.lex.forest.header id).rules = stringRules ∧
      input.lex.forest.content id = pieces.flatMap TextPiece.denoted := by
  obtain ⟨hopened, hinner⟩ := inString_open htable hrules hchars
  have hquote : ∀ c ∈ ['"'].head?, c ≠ '\n' := by
    rintro c hc rfl
    exact absurd (Option.some.inj hc) (by decide)
  obtain ⟨hread, hclosing⟩ := hopened.pieces_next htable pieces hinner hquote
  rw [List.nil_append] at hread
  obtain ⟨hstring, hend⟩ := hread.quote_next htable hclosing
  have hsteps : input.runSteps (1 + (pieces.length + 1)) input.fresh =
      input.step (input.runSteps pieces.length (input.step input.fresh)) := by
    rw [runSteps_add, runSteps_add]
    rfl
  rw [← hsteps] at hstring hend
  have hplace : input.source.IsAt _ [] := hend ▸ hstring.reads.place
  rw [lex_eq_stop hsize hstring.reads.unfinished hend, hplace.size_eq]
  exact ⟨⟨1⟩, hstring.stop_eq⟩

end LexInput
end ExprLang
