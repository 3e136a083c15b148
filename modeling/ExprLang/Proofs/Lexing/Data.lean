import ExprLang.Proofs.Forest.Data
import ExprLang.Proofs.Lexing.Enclosure

/-!
# Reading data

The text of data is read without a report. Between two values no plain text is being read, and the
contexts that are open are lists. From there the word for null, a literal or a list is read as one
token, whatever the lists are in which it stands and as long as what follows may follow a value.
This is an induction on the value: between its brackets a list has the texts of its items, one
after the other, with commas and blanks between them.

Main definitions:
* `LexInput.InData`: a state between two values;
* `LexInput.Adds`: what reading values adds to a state;
* `LexInput.ReadsValue`: wherever the text of a value stands it is read as one token.

Main results:
* `LexInput.InData.literal_next`, `LexInput.InData.null_next`, `LexInput.InData.open_next`,
  `LexInput.InData.close_next`: the steps that are taken;
* `LexInput.exists_readAll`: the items of a list;
* `LexInput.readsValue_of_isData`: data is read as one token;
* `LexInput.exists_lex_of_isData`: the forest of the text of data.
-/

namespace ExprLang
namespace LexInput

open Grammar
open Language (ofSource)

/-- Commas are the only delimiters among tokens. -/
def OnlyCommas (tokens : List Token) : Prop :=
  ∀ token ∈ tokens, ∀ id, token.kind = .delimiter id → id = comma

theorem OnlyCommas.concat {tokens : List Token} (h : OnlyCommas tokens) {token : Token}
    (htoken : ∀ id, token.kind = .delimiter id → id = comma) : OnlyCommas (tokens ++ [token]) := by
  intro t ht
  rcases List.mem_append.mp ht with ht | ht
  · exact h t ht
  · rw [List.mem_singleton.mp ht]
    exact htoken

/-- No plain text is being read, the open contexts are lists, and the only delimiters are commas. -/
structure InData (source : Source) (state : LexState) : Prop where
  reads : (ofSource source).Reads state
  between : state.textStart = none
  lists : ∀ context ∈ state.stack, context.rules = bracketsRules
  commas : OnlyCommas (state.forest.arena.toList ++ state.pending.toList)

/-- What reading values has added to a state. -/
structure Adds (before after : LexState) (tokens : List Token) : Prop where
  stack : after.stack = before.stack
  pending : after.pending = before.pending ++ tokens.toArray
  log : after.log = before.log
  keeps : before.forest.Keeps after.forest

theorem Adds.trans {first second third : LexState} {tokens more : List Token}
    (h : Adds first second tokens) (h' : Adds second third more) :
    Adds first third (tokens ++ more) := by
  refine ⟨h'.stack.trans h.stack, ?_, h'.log.trans h.log, h.keeps.trans h'.keeps⟩
  rw [h'.pending, h.pending, Array.append_assoc, List.append_toArray tokens more]

/-- Passing over a part of the text adds nothing. -/
theorem adds_advance (state : LexState) (size : Nat) (rest : List Char) :
    Adds state (state.advance size rest) [] :=
  ⟨rfl, Array.append_empty.symm, rfl, .refl _⟩

variable {source : Source} {state past : LexState} {c : Char} {rest : List Char}

section Lookups

variable (hlists : ∀ context ∈ state.stack, context.rules = bracketsRules)

include hlists

/-- In lists the delimiters of the language are found. -/
theorem findIn_of_lists (index : Nat) (rest : List Char) (started : Bool) :
    builtin.findIn ((ofSource source).currentRules state) builtin.startRules source index rest
        started =
      builtin.findIn builtin.startRules builtin.startRules source index rest started := by
  unfold currentRules
  split
  · rfl
  · rename_i context _ hstack
    rw [hlists context (hstack ▸ List.mem_cons_self)]
    exact inherits_brackets.findIn_eq _ _ _ _ _

theorem isWhitespace_of_lists (c : Char) :
    builtin.isWhitespace ((ofSource source).currentRules state) builtin.startRules c =
      builtin.isWhitespace builtin.startRules builtin.startRules c := by
  unfold currentRules
  split
  · rfl
  · rename_i context _ hstack
    rw [hlists context (hstack ▸ List.mem_cons_self)]
    exact inherits_brackets.isWhitespace_eq _ _

end Lookups

namespace InData

/-- A bracket or a comma ends the value in front of it and is read. -/
theorem step_mark (h : InData source past) (hflush : state.flushText = past)
    (hrest : past.rest = c :: rest) {id : DelimiterId} (hmark : (c, id) ∈ listMarks) :
    (ofSource source).step state = (ofSource source).readDelimiter past id := by
  obtain ⟨hcursor, hopen, -⟩ := samePlace_flushText state
  have hstack := stack_flushText state
  have hrestState := rest_flushText state
  rw [hflush] at hcursor hopen hstack hrestState
  have hlists : ∀ context ∈ state.stack, context.rules = bracketsRules := hstack ▸ h.lists
  rw [← hflush]
  refine step_of_delimiter (hopen.symm.trans h.reads.unfinished) (hrestState.symm.trans hrest) ?_ ?_
  · exact (isWhitespace_of_lists hlists c).trans (isWhitespace_listMark.1 _ hmark)
  · exact (findIn_of_lists hlists _ _ _).trans (findIn_listMark hmark _ _ _ _)

/-- A bracket or a comma is read as it is. -/
theorem readDelimiter_mark {id : DelimiterId} (hmark : (c, id) ∈ listMarks)
    (hrest : past.rest = c :: rest) :
    (ofSource source).readDelimiter past id =
      (ofSource source).placeDelimiter (past.advance 1 rest) id (.ofLength past.cursor 1) none := by
  obtain ⟨-, htext, -, -, hscan, hsize⟩ := startingWith_listMark _ hmark
  have hbytes : Text.byteSize [c] = 1 := hsize
  rw [← hbytes]
  have hread := @readDelimiter_of_isNone (ofSource source) past id [c] rest hscan htext hrest
  exact hread (List.cons_ne_nil c [])

/-- A comma is read. -/
theorem readDelimiter_comma (hrest : past.rest = ',' :: rest) :
    (ofSource source).readDelimiter past comma =
      (past.advance 1 rest).pushToken ⟨.ofLength past.cursor 1, .delimiter comma⟩ := by
  obtain ⟨hopens, hcloses, -⟩ := delimiter_comma
  have hmark : (',', comma) ∈ listMarks := by simp [listMarks]
  rw [readDelimiter_mark hmark hrest]
  exact placeDelimiter_of_token _ _ hcloses hopens

theorem comma_next (h : InData source past) (hrest : past.rest = ',' :: rest) :
    InData source ((ofSource source).readDelimiter past comma) ∧
      ((ofSource source).readDelimiter past comma).rest = rest ∧
      ∃ token, token.kind = .delimiter comma ∧
        Adds past ((ofSource source).readDelimiter past comma) [token] := by
  have hne : past.rest ≠ [] := by simp [hrest]
  have hreads := h.reads.readDelimiter h.between hne comma
  rw [readDelimiter_comma hrest] at hreads ⊢
  refine ⟨⟨hreads, h.between, h.lists, ?_⟩, rfl, ⟨.ofLength past.cursor 1, .delimiter comma⟩, rfl,
    rfl, Array.push_eq_append, rfl, .refl _⟩
  rw [LexState.pushToken, Array.toList_push, ← List.append_assoc]
  exact h.commas.concat fun id hkind => (TokenKind.delimiter.inj hkind).symm

/-- A blank is passed over. -/
theorem blank_next (h : InData source past) (hrest : past.rest = ' ' :: rest) :
    (ofSource source).step past = past.advance 1 rest ∧ InData source (past.advance 1 rest) := by
  have hstep : (ofSource source).step past = past.advance 1 rest := by
    rw [step_of_whitespace h.reads.unfinished hrest
      ((isWhitespace_of_lists h.lists ' ').trans isWhitespace_listMark.2),
      flushText_of_eq_none h.between]
    rfl
  have hne : past.rest ≠ [] := by simp [hrest]
  refine ⟨hstep, ?_, h.between, h.lists, h.commas⟩
  rw [← hstep]
  exact h.reads.next hne

/-- A literal is read. -/
theorem literal_next (h : InData source state) {text : List Char} (hrest : state.rest = text ++ rest)
    {literal : Literal} {id : DelimiterId}
    (hfinds : FindsLiteral source state.cursor text rest literal id) :
    InData source ((ofSource source).step state) ∧ ((ofSource source).step state).rest = rest ∧
      ∃ token node, token.kind = .literal node ∧
        ((ofSource source).step state).forest.literals[node.index]? = some literal ∧
        Adds state ((ofSource source).step state) [token] := by
  have htable : (ofSource source).table = builtin := rfl
  obtain ⟨c, text, rfl⟩ := List.exists_cons_of_ne_nil hfinds.ne_nil
  have hne : state.rest ≠ [] := by simp [hrest]
  have hopens := hfinds.opens
  have hcloses := hfinds.closes
  have hscanned := hfinds.scanned
  rw [← htable] at hopens hcloses hscanned
  have hstarted : state.textStart.isSome = false := by rw [h.between]; rfl
  have hfound := (findIn_of_lists h.lists state.cursor (c :: text ++ rest) false).trans hfinds.found
  rw [← hstarted] at hfound
  have hreads := h.reads.next hne
  have hstep : (ofSource source).step state =
      pushDelimiter (state.advance (Text.byteSize (c :: text)) rest) id
        (.ofLength state.cursor (Text.byteSize (c :: text))) (some literal) := by
    rw [step_of_delimiter h.reads.unfinished hrest
      ((isWhitespace_of_lists h.lists c).trans (hfinds.visible c rfl)) hfound,
      flushText_of_eq_none h.between, readDelimiter_of_scan hscanned hrest hfinds.ne_nil,
      placeDelimiter_of_token _ _ hcloses hopens]
  rw [hstep] at hreads ⊢
  refine ⟨⟨hreads, h.between, h.lists, ?_⟩, rfl,
    ⟨.ofLength state.cursor (Text.byteSize (c :: text)), .literal ⟨state.forest.literals.size⟩⟩, _,
    rfl, Forest.literals_pushLiteral _ _, rfl, Array.push_eq_append, rfl,
    Forest.keeps_pushLiteral _ _⟩
  simp only [pushDelimiter, LexState.pushToken]
  rw [Array.toList_push, ← List.append_assoc]
  exact h.commas.concat fun id hkind => by cases hkind

/-- A list is opened. -/
theorem open_next (h : InData source past) (hrest : past.rest = '[' :: rest) :
    InData source ((ofSource source).step past) ∧ ((ofSource source).step past).rest = rest ∧
      ((ofSource source).step past).log = past.log ∧
      past.forest.Keeps ((ofSource source).step past).forest ∧
      ∃ context opener, opener.isMarkerOf context.node = true ∧ context.first = past.pending.size ∧
        ((ofSource source).step past).stack = context :: past.stack ∧
        ((ofSource source).step past).pending = past.pending ++ #[opener] := by
  have htable : (ofSource source).table = builtin := rfl
  have hmark : ('[', openBracket) ∈ listMarks := by simp [listMarks]
  have hne : past.rest ≠ [] := by simp [hrest]
  obtain ⟨hopens, hcloses, hname⟩ := delimiter_openBracket
  have hrules : (builtin.delimiter openBracket).contextName?.bind builtin.find? =
      some bracketsRules := by
    rw [hname, Option.bind_some, find?_brackets]
  have hreads := h.reads.next hne
  have hstep : (ofSource source).step past =
      (ofSource source).openContext (past.advance 1 rest) openBracket (.ofLength past.cursor 1) := by
    rw [h.step_mark (flushText_of_eq_none h.between) hrest hmark, readDelimiter_mark hmark hrest]
    exact placeDelimiter_of_opens _ _ hcloses hopens
  rw [hstep] at hreads ⊢
  unfold openContext at hreads ⊢
  simp only [htable, hrules] at hreads ⊢
  refine ⟨⟨hreads, h.between, ?_, ?_⟩, rfl, rfl, Forest.keeps_openNode _ _, _,
    ⟨.ofLength past.cursor 1, .node past.forest.nextId⟩, ?_, rfl, rfl, Array.push_eq_append⟩
  · intro context hcontext
    rcases List.mem_cons.mp hcontext with rfl | hcontext
    · rfl
    · exact h.lists context hcontext
  · simp only [LexState.pushToken]
    rw [Array.toList_push, ← List.append_assoc]
    exact h.commas.concat fun id hkind => by cases hkind
  · exact decide_eq_true rfl

/-- A closing bracket ends the innermost list. -/
theorem readDelimiter_close (h : InData source past) (hrest : past.rest = ']' :: rest)
    {context : OpenContext} {outer : List OpenContext} (hstack : past.stack = context :: outer) :
    (ofSource source).readDelimiter past closeBracket =
      ((past.advance 1 rest).pushToken
        ⟨.ofLength past.cursor 1, .node context.node⟩).closeContext (some closeBracket)
          (past.cursor + 1) := by
  have hmark : (']', closeBracket) ∈ listMarks := by simp [listMarks]
  obtain ⟨hcloses, hname⟩ := delimiter_closeBracket
  have hlist : context.rules = bracketsRules := h.lists context (hstack ▸ List.mem_cons_self)
  have hstackNext : (past.advance 1 rest).stack = context :: outer := hstack
  have hbelongs : (ofSource source).belongsToInnermost (past.advance 1 rest)
      (builtin.delimiter closeBracket) = true := by
    unfold belongsToInnermost
    rw [hstackNext, hname]
    simp only [hlist]
    exact beq_iff_eq.mpr ruleSet_brackets.1
  have hcurrent : (past.advance 1 rest).currentNode = context.node := by
    unfold LexState.currentNode
    rw [hstackNext]
  rw [readDelimiter_mark hmark hrest, ← hcurrent]
  exact placeDelimiter_of_belongs _ _ hcloses hbelongs

/-- The innermost list is closed: its node gets the tokens, and one token takes their place. -/
theorem close_next (h : InData source past) (hflush : state.flushText = past)
    (hrest : past.rest = ']' :: rest) {context : OpenContext} {outer : List OpenContext}
    (hstack : past.stack = context :: outer) {before tokens : Array Token}
    (hpending : past.pending = before ++ tokens) (hfirst : context.first = before.size) :
    InData source ((ofSource source).step state) ∧ ((ofSource source).step state).rest = rest ∧
      ((ofSource source).step state).log = past.log ∧
      ((ofSource source).step state).stack = outer ∧
      past.forest.Keeps ((ofSource source).step state).forest ∧
      (((ofSource source).step state).forest.header context.node).rules = bracketsRules ∧
      (((ofSource source).step state).forest.header context.node).contextClass =
        .ofFlags [.enclosure] ∧
      ∃ closer token, closer.isMarkerOf context.node = true ∧ token.kind = .node context.node ∧
        ((ofSource source).step state).pending = before ++ #[token] ∧
        ((ofSource source).step state).forest.tokenList context.node =
          tokens.toList ++ [closer] := by
  have hmark : (']', closeBracket) ∈ listMarks := by simp [listMarks]
  have hne : past.rest ≠ [] := by simp [hrest]
  have hlist : context.rules = bracketsRules := h.lists context (hstack ▸ List.mem_cons_self)
  obtain ⟨hindex, hempty, -, hrules, hclass⟩ := h.reads.header_of_mem (hstack ▸ List.mem_cons_self)
  have hpacked := (Framed.of_draft h.reads.draft).packed
  have hreads := h.reads.readDelimiter h.between hne closeBracket
  set closer : Token := ⟨.ofLength past.cursor 1, .node context.node⟩ with hcloser
  set token : Token := ⟨⟨context.start, past.cursor + 1⟩, .node context.node⟩ with htoken
  have hclosed : (ofSource source).step state =
      { past.advance 1 rest with
        pending := before.push token
        stack := outer
        forest := past.forest.closeNode context.node (tokens.push closer) (some closeBracket)
          (past.cursor + 1) } := by
    have hslots : past.pending.push closer = before ++ tokens.push closer := by
      rw [hpending, Array.append_push]
    rw [h.step_mark hflush hrest hmark, h.readDelimiter_close hrest hstack]
    unfold LexState.closeContext LexState.pushToken LexState.advance
    simp only [hstack, ← hcloser, ← htoken, hslots, hfirst, extract_append, shrink_append]
  rw [← h.step_mark hflush hrest hmark, hclosed] at hreads
  rw [hclosed]
  refine ⟨⟨hreads, h.between, ?_, ?_⟩, rfl, rfl, rfl,
    past.forest.keeps_closeNode hpacked hindex hempty _ _ _, ?_, ?_, closer, token,
    decide_eq_true rfl, rfl, Array.push_eq_append, ?_⟩
  · exact fun other hother => h.lists other (hstack ▸ List.mem_cons_of_mem _ hother)
  · -- the tokens of the list move from the pending ones to the arena
    have hcommas := h.commas
    rw [hpending, Array.toList_append] at hcommas
    intro t ht id hkind
    simp only [Forest.closeNode, Array.toList_append, Array.toList_push, List.mem_append,
      List.mem_singleton] at ht
    rcases ht with (ht | ht | rfl) | ht | rfl
    · exact hcommas t (List.mem_append_left _ ht) id hkind
    · exact hcommas t (List.mem_append_right _ (List.mem_append_right _ ht)) id hkind
    · cases hkind
    · exact hcommas t (List.mem_append_right _ (List.mem_append_left _ ht)) id hkind
    · cases hkind
  · rw [Forest.header_closeNode, if_pos ⟨rfl, hindex⟩]
    exact hrules.trans hlist
  · rw [Forest.header_closeNode, if_pos ⟨rfl, hindex⟩]
    simp only
    rw [hclass, hlist]
    exact contextClass_brackets
  · rw [Forest.tokenList_closeNode _ hpacked hindex, if_pos rfl, Array.toList_push]

/-- The rest of the word for null is read as plain text. -/
theorem runSteps_null {before word : List Char} (hword : ['n', 'u', 'l', 'l'] = before ++ word)
    {start : Nat} (hreads : (ofSource source).Reads state)
    (hlists : ∀ context ∈ state.stack, context.rules = bracketsRules)
    (hstart : state.textStart = some start) (hrest : state.rest = word ++ rest) :
    (ofSource source).runSteps word.length state = state.advance (Text.byteSize word) rest ∧
      (ofSource source).Reads (state.advance (Text.byteSize word) rest) := by
  induction word generalizing before state with
  | nil =>
      have hsame : state.advance (Text.byteSize []) rest = state := by
        rw [List.nil_append] at hrest
        rw [← hrest]
        rfl
      rw [hsame]
      exact ⟨rfl, hreads⟩
  | cons c word ih =>
      have hc : c ∈ ['n', 'u', 'l', 'l'] := by
        rw [hword]
        exact List.mem_append_right _ List.mem_cons_self
      have hfound := (findIn_of_lists hlists state.cursor (c :: (word ++ rest)) state.textStart.isSome).trans
        (findIn_null hword source state.cursor rest _)
      have hstep : (ofSource source).step state = state.advance c.utf8Size (word ++ rest) := by
        rw [step_of_text hreads.unfinished hrest
          ((isWhitespace_of_lists hlists c).trans (startingWith_null c hc).2) hfound, hstart]
        unfold LexState.advance
        simp [hstart]
      have hnext := hreads.next (by simp [hrest])
      rw [hstep] at hnext
      rw [List.length_cons, runSteps, hstep]
      have hword' : ['n', 'u', 'l', 'l'] = (before ++ [c]) ++ word := by
        rw [hword, List.append_assoc, List.singleton_append]
      have hsum : (state.advance c.utf8Size (word ++ rest)).advance (Text.byteSize word) rest =
          state.advance (Text.byteSize (c :: word)) rest := by
        unfold LexState.advance
        rw [Text.byteSize_cons, Nat.add_assoc]
      rw [← hsum]
      exact ih hword' hnext hlists hstart rfl

/-- The word for null is read. -/
theorem null_next (h : InData source state) (hrest : state.rest = ['n', 'u', 'l', 'l'] ++ rest) :
    ∃ past token, ((ofSource source).runSteps 4 state).flushText = past ∧ InData source past ∧
      past.rest = rest ∧ Adds state past [token] ∧ past.forest.StandsFor .null token := by
  have hne : state.rest ≠ [] := by simp [hrest]
  have hfirst : (ofSource source).step state =
      { state with textStart := some state.cursor }.advance 1 (['u', 'l', 'l'] ++ rest) := by
    have hfound := (findIn_of_lists h.lists state.cursor ('n' :: (['u', 'l', 'l'] ++ rest))
      state.textStart.isSome).trans
        (findIn_null (List.nil_append _).symm source state.cursor rest _)
    have hvisible := (startingWith_null 'n' List.mem_cons_self).2
    rw [step_of_text h.reads.unfinished hrest ((isWhitespace_of_lists h.lists 'n').trans hvisible)
      hfound, h.between]
    rfl
  have hreads := h.reads.next hne
  rw [hfirst] at hreads
  have hword : ['n', 'u', 'l', 'l'] = ['n'] ++ ['u', 'l', 'l'] := rfl
  obtain ⟨hrun, hlast⟩ := runSteps_null hword hreads h.lists rfl rfl
  have hsteps : (ofSource source).runSteps 4 state = _ :=
    (congrArg ((ofSource source).runSteps 3) hfirst).trans hrun
  obtain ⟨hflushed, -, -⟩ := hlast.flushText
  have hat : source.IsAt state.cursor (['n', 'u', 'l', 'l'] ++ rest) := hrest ▸ h.reads.place
  have hpast : (({ state with textStart := some state.cursor }.advance 1
      (['u', 'l', 'l'] ++ rest)).advance (Text.byteSize ['u', 'l', 'l']) rest).flushText =
        { state with
          textStart := none
          cursor := state.cursor + 4
          rest := rest
          pending := state.pending.push ⟨⟨state.cursor, state.cursor + 4⟩, .text⟩ } := rfl
  rw [hpast] at hflushed
  rw [hsteps, hpast]
  refine ⟨_, ⟨⟨state.cursor, state.cursor + 4⟩, .text⟩, rfl, ⟨hflushed, rfl, h.lists, ?_⟩, rfl,
    ⟨rfl, Array.push_eq_append, rfl, .refl _⟩, ?_⟩
  · simp only
    rw [Array.toList_push, ← List.append_assoc]
    exact h.commas.concat fun id hkind => by cases hkind
  · rw [Forest.StandsFor]
    refine ⟨rfl, ?_⟩
    have hsource : state.forest.source = source := h.reads.draft.source_eq
    unfold Forest.tokenText Forest.spanText
    simp only [hsource]
    exact congrArg (fun text => text.getD []) hat.slice?_eq

end InData

section Values

/-- Wherever the text of a value stands, the lexer reads it as one token for the value. -/
def ReadsValue (source : Source) (value : Value) : Prop :=
  ∀ (state : LexState) (rest : List Char), InData source state →
    state.rest = value.display.toList ++ rest → EndsValue rest →
      ∃ steps past token, ((ofSource source).runSteps steps state).flushText = past ∧
        InData source past ∧ past.rest = rest ∧ Adds state past [token] ∧
          past.forest.StandsFor value token

/-- The texts of values with commas between them are read one after the other. -/
theorem exists_readAll (items : List Value) (hitems : ∀ item ∈ items, ReadsValue source item)
    {state : LexState} (h : InData source state)
    (hrest : state.rest = (Value.displayAll items).toList ++ rest) (hends : EndsValue rest) :
    ∃ steps past tokens, ((ofSource source).runSteps steps state).flushText = past ∧
      InData source past ∧ past.rest = rest ∧ Adds state past tokens ∧
        past.forest.StandForAll items tokens := by
  induction items generalizing state with
  | nil =>
      refine ⟨0, state, [], flushText_of_eq_none h.between, h, ?_,
        ⟨rfl, by simp, rfl, .refl _⟩, rfl⟩
      rw [hrest, Value.displayAll]
      rfl
  | cons item items ih =>
      cases items with
      | nil =>
          obtain ⟨steps, past, token, hsteps, hpast, hleft, hadds, hstands⟩ :=
            hitems item List.mem_cons_self state rest h hrest hends
          exact ⟨steps, past, [token], hsteps, hpast, hleft, hadds, token, rfl, hstands⟩
      | cons next items =>
          have htext : (Value.displayAll (item :: next :: items)).toList =
              item.display.toList ++ (',' :: ' ' :: (Value.displayAll (next :: items)).toList) := by
            rw [Value.displayAll]
            · simp
            · simp
          rw [htext, List.append_assoc] at hrest
          have hcomma : EndsValue
              ((',' :: ' ' :: (Value.displayAll (next :: items)).toList) ++ rest) := by
            intro c hc
            exact Or.inl (Option.some.inj hc).symm
          obtain ⟨steps, past, token, hsteps, hpast, hleft, hadds, hstands⟩ :=
            hitems item List.mem_cons_self state _ h hrest hcomma
          have hmark : (',', comma) ∈ listMarks := by simp [listMarks]
          have hread := hpast.step_mark hsteps hleft hmark
          obtain ⟨hbehind, hblank, separator, hkind, hseparator⟩ := hpast.comma_next hleft
          obtain ⟨hskip, hready⟩ := hbehind.blank_next hblank
          obtain ⟨more, last, tokens, hmore, hlast, hend, haddsAll, hstandsAll⟩ :=
            ih (fun v hv => hitems v (List.mem_cons_of_mem _ hv)) hready rfl
          have hmoved := adds_advance ((ofSource source).readDelimiter past comma) 1
            ((Value.displayAll (next :: items)).toList ++ rest)
          have haddsBehind := (hseparator.trans hmoved).trans haddsAll
          refine ⟨steps + (1 + (1 + more)), last, token :: separator :: tokens, ?_, hlast, hend,
            hadds.trans haddsBehind, ?_⟩
          · rw [runSteps_add, runSteps_add, runSteps_add]
            simp only [runSteps, hread, hskip]
            exact hmore
          · refine Forest.standForAll_cons.mpr ⟨token, separator, tokens, rfl, ?_, hkind, hstandsAll⟩
            exact haddsBehind.keeps.standsFor _ _ hstands

/-- A literal that is found where a value stands is one token for the value. -/
theorem readsValue_of_findsLiteral {value : Value} (literal : Literal)
    (hfinds : ∀ index rest, source.IsAt index (value.display.toList ++ rest) → EndsValue rest →
      ∃ id, FindsLiteral source index value.display.toList rest literal id)
    (hstands : ∀ (forest : Forest) (token : Token) (id : LiteralId), token.kind = .literal id →
      forest.literals[id.index]? = some literal → forest.StandsFor value token) :
    ReadsValue source value := by
  intro state rest h hrest hends
  obtain ⟨id, hid⟩ := hfinds state.cursor rest (hrest ▸ h.reads.place) hends
  obtain ⟨hnext, hleft, token, node, hkind, hliteral, hadds⟩ := h.literal_next hrest hid
  exact ⟨1, _, token, flushText_of_eq_none hnext.between, hnext, hleft, hadds,
    hstands _ token node hkind hliteral⟩

/-- A list is read if its items are. -/
theorem readsValue_list {items : List Value} (hitems : ∀ item ∈ items, ReadsValue source item) :
    ReadsValue source (.list items) := by
  intro state rest h hrest hends
  have htext : (Value.list items).display.toList =
      '[' :: ((Value.displayAll items).toList ++ [']']) := by
    rw [Value.display]
    simp
  rw [htext, List.cons_append, List.append_assoc] at hrest
  have hclosing : EndsValue ([']'] ++ rest) := by
    intro c hc
    exact Or.inr (Option.some.inj hc).symm
  obtain ⟨hopened, hinner, hlogOpen, hkeepsOpen, context, opener, hopener, hfirst, hstack,
    hpending⟩ := h.open_next hrest
  obtain ⟨steps, past, tokens, hsteps, hpast, hleft, hadds, hstands⟩ :=
    exists_readAll items hitems hopened hinner hclosing
  have hslots : past.pending = state.pending ++ (opener :: tokens).toArray := by
    rw [hadds.pending, hpending, Array.append_assoc]
    exact congrArg (state.pending ++ ·) (List.append_toArray [opener] tokens)
  obtain ⟨hclosed, hend, hlogClose, hstackClose, hkeepsClose, hrules, hclass, closer, token, hcloser,
    hkind, hpendingClose, hlist⟩ :=
    hpast.close_next hsteps hleft (hadds.stack.trans hstack) hslots hfirst
  have hall := hkeepsClose.standForAll items tokens hstands
  refine ⟨1 + (steps + 1), _, token, ?_, hclosed, hend, ⟨?_, ?_, ?_, ?_⟩, ?_⟩
  · rw [runSteps_add, runSteps_add]
    exact flushText_of_eq_none hclosed.between
  · exact hstackClose
  · exact hpendingClose
  · exact hlogClose.trans (hadds.log.trans hlogOpen)
  · exact hkeepsOpen.trans (hadds.keeps.trans hkeepsClose)
  · rw [Forest.StandsFor]
    obtain ⟨-, hempty, -⟩ := hpast.reads.header_of_mem
      ((hadds.stack.trans hstack) ▸ List.mem_cons_self)
    exact ⟨context.node, hkind, hrules, hclass, opener, tokens, closer, hlist, hopener, hcloser,
      hstands.isMarkerOf_eq_false hempty, hall⟩

/-- The text of data is read as one token for it. -/
theorem readsValue_of_isData {value : Value} (h : value.IsData) : ReadsValue source value := by
  induction h with
  | null =>
      intro state rest hstate hrest _
      obtain ⟨past, token, hsteps, hpast, hleft, hadds, hstands⟩ := hstate.null_next hrest
      exact ⟨4, past, token, hsteps, hpast, hleft, hadds, hstands⟩
  | bool b =>
      refine readsValue_of_findsLiteral (.bool b)
        (fun index rest hat hends => ⟨boolWord b, findsLiteral_bool b hends hat⟩)
        fun forest token id hkind hliteral => ?_
      rw [Forest.StandsFor]
      exact ⟨id, hkind, hliteral⟩
  | int n =>
      refine readsValue_of_findsLiteral (.int n)
        (fun index rest hat hends => ?_) fun forest token id hkind hliteral => ?_
      · exact findsLiteral_int (Decimal.isWritten_toString n.toInt) (Decimal.readInt64?_toString n)
          hends hat
      · rw [Forest.StandsFor]
        exact ⟨id, hkind, hliteral⟩
  | list items _ ih => exact readsValue_list ih

end Values

/-- The text of data is read without a report, as one token for it. -/
theorem exists_lex_of_isData {value : Value} (h : value.IsData)
    (hchars : source.chars = value.display.toList) (hsize : source.size < Span.offsetCount) :
    ∃ token, (ofSource source).lex.log = .ofSource source ∧
      (ofSource source).lex.forest.tokenList Forest.root = [token] ∧
      token.isMarkerOf Forest.root = false ∧
      (ofSource source).lex.forest.StandsFor value token ∧
      OnlyCommas (ofSource source).lex.forest.arena.toList := by
  have hfresh : InData source (ofSource source).fresh :=
    ⟨reads_fresh _, rfl, fun _ hcontext => (List.not_mem_nil hcontext).elim,
      fun _ htoken => (List.not_mem_nil htoken).elim⟩
  have hrest : (ofSource source).fresh.rest = value.display.toList ++ [] :=
    hchars.trans (List.append_nil _).symm
  have hends : EndsValue [] := fun _ hc => nomatch hc
  obtain ⟨steps, past, token, hsteps, hpast, hleft, hadds, hstands⟩ :=
    readsValue_of_isData h _ [] hfresh hrest hends
  obtain ⟨-, hopen, -⟩ := samePlace_flushText ((ofSource source).runSteps steps (ofSource source).fresh)
  have hstack := stack_flushText ((ofSource source).runSteps steps (ofSource source).fresh)
  have hleft' := rest_flushText ((ofSource source).runSteps steps (ofSource source).fresh)
  rw [hsteps] at hopen hstack hleft'
  have hunfinished := hopen.symm.trans hpast.reads.unfinished
  obtain ⟨stop, hlex⟩ : ∃ stop, (ofSource source).lex = (past.closeRoot stop).output := by
    rw [lex_eq_stop hsize hunfinished (hleft'.symm.trans hleft),
      stop_of_stack_eq_nil hunfinished (hstack.symm.trans hadds.stack), hsteps]
    exact ⟨_, rfl⟩
  have hpending : past.pending = #[token] := by
    rw [hadds.pending]
    rfl
  have hempty : past.forest.tokenList Forest.root = [] := by
    obtain ⟨frame, hframe, hroot, -⟩ := (Framed.of_draft hpast.reads.draft).root
    rw [← hroot]
    exact hpast.reads.draft.tokenList_eq_nil frame (List.mem_of_getLast? hframe)
  have hpacked := (Framed.of_draft hpast.reads.draft).packed
  have hindex : Forest.root.index < past.forest.nodes.size := hpast.reads.size_pos
  have hcommas := hpast.commas
  rw [hlex]
  unfold LexState.output
  refine ⟨token, hadds.log, ?_, hstands.isMarkerOf_eq_false hempty, ?_, ?_⟩
  · rw [LexState.forest_closeRoot, Forest.tokenList_closeNode _ hpacked hindex, if_pos rfl, hpending]
  · exact (past.forest.keeps_closeNode hpacked hindex hempty _ _ _).standsFor _ _ hstands
  · rw [← Array.toList_append] at hcommas
    exact hcommas

end LexInput
end ExprLang
