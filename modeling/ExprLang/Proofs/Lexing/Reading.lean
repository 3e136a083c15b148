import ExprLang.Proofs.Lexing.Calls
import ExprLang.Proofs.Lexing.Draft

/-!
# How the lexer builds a forest

Between two steps the tokens of all lists that are being read are pending in one array,
and each open context knows the slot of its first one. Cut at these slots the array
falls into the lists of a draft, and every step of the lexer is one of the ways in which
a draft can grow.

Main results:
* `framesOf_push`: a token is added to the innermost list, and to no other one;
* `draft_placeDelimiter`, `Reads.step`: what a delimiter and what a step does;
* `lexed_final`: every lexer ends in a forest whose last list is closed.
-/

namespace ExprLang

/--
The lists that are being read, the innermost one first: a context has the pending tokens
from its first slot on, and those before it belong to the lists below.
-/
def framesOf (rules : RuleSetId) : List OpenContext → (pending : Array Token) → List Frame
  | [], pending => [⟨Forest.root, rules, 0, pending⟩]
  | context :: outer, pending =>
      ⟨context.node, context.rules, context.start, pending.extract context.first⟩ ::
        framesOf rules outer (pending.shrink context.first)

/-- Open contexts start in the order in which they were opened, within `size` pending tokens. -/
def Stacked : List OpenContext → (size : Nat) → Prop
  | [], _ => True
  | context :: outer, size => context.first ≤ size ∧ Stacked outer context.first

theorem Stacked.mono {stack : List OpenContext} {m n : Nat} (h : Stacked stack m) (hle : m ≤ n) :
    Stacked stack n := by
  cases stack with
  | nil => trivial
  | cons context outer => exact ⟨Nat.le_trans h.1 hle, h.2⟩

section Slots

variable {pending : Array Token} {first : Nat}

theorem extract_push (h : first ≤ pending.size) (token : Token) :
    (pending.push token).extract first = (pending.extract first).push token := by
  rw [Array.extract_push, if_neg (by simp), if_pos h]

theorem shrink_push (h : first ≤ pending.size) (token : Token) :
    (pending.push token).shrink first = pending.shrink first := by
  rw [Array.shrink_eq_take, Array.shrink_eq_take, Array.take, Array.take,
    Array.extract_push_of_le h]

theorem extract_size_push (pending : Array Token) (token : Token) :
    (pending.push token).extract pending.size = #[token] := by
  rw [extract_push le_rfl, Array.extract_empty_of_size_le_start le_rfl]
  rfl

theorem shrink_size_push (pending : Array Token) (token : Token) :
    (pending.push token).shrink pending.size = pending := by
  rw [shrink_push le_rfl, Array.shrink_eq_take, Array.take, Array.extract_size]

theorem extract_append (pending tokens : Array Token) :
    (pending ++ tokens).extract pending.size = tokens := by
  simp

theorem shrink_append (pending tokens : Array Token) :
    (pending ++ tokens).shrink pending.size = pending := by
  simp [Array.shrink_eq_take]

end Slots

/-- A pending token is added to the innermost list. -/
theorem framesOf_push (rules : RuleSetId) (stack : List OpenContext) (pending : Array Token)
    (h : Stacked stack pending.size) :
    ∃ frame outer, framesOf rules stack pending = frame :: outer ∧
      ∀ token, framesOf rules stack (pending.push token) = frame.push token :: outer := by
  cases stack with
  | nil => exact ⟨_, _, rfl, fun _ => rfl⟩
  | cons context outer =>
      refine ⟨_, _, rfl, ?_⟩
      intro token
      rw [framesOf, extract_push h.1, shrink_push h.1]
      rfl

namespace LexInput

variable (input : LexInput)

/-- The lists that a lexer is reading. -/
def frames (state : LexState) : List Frame :=
  framesOf input.rules state.stack state.pending

/-- A lexer that is not finished: where it is in the text, and what it has built. -/
structure Reads (state : LexState) : Prop where
  unfinished : state.finished = false
  place : ∃ before, input.source.chars = before ++ state.rest ∧
    Text.byteSize before = state.cursor
  text : ∀ start, state.textStart = some start → start < state.cursor
  stacked : Stacked state.stack state.pending.size
  draft : Draft input state.forest (input.frames state) (state.textStart.getD state.cursor)

variable {input} {state : LexState}

section Frames

/-- The innermost list is the one to which tokens are added. -/
theorem exists_frames (input : LexInput) (hstacked : Stacked state.stack state.pending.size) :
    ∃ frame outer, input.frames state = frame :: outer ∧
      frame.node = state.currentNode ∧ frame.rules = input.currentRules state ∧
      ∀ token, input.frames (state.pushToken token) = frame.push token :: outer := by
  obtain ⟨frame, outer, hframes, hpush⟩ := framesOf_push input.rules _ _ hstacked
  refine ⟨frame, outer, hframes, ?_, ?_, hpush⟩
  · unfold LexState.currentNode
    cases hstack : state.stack with
    | nil =>
        rw [hstack] at hframes
        exact (congrArg Frame.node (List.cons.inj hframes).1).symm
    | cons context rest =>
        rw [hstack] at hframes
        exact (congrArg Frame.node (List.cons.inj hframes).1).symm
  · unfold currentRules
    cases hstack : state.stack with
    | nil =>
        rw [hstack] at hframes
        exact (congrArg Frame.rules (List.cons.inj hframes).1).symm
    | cons context rest =>
        rw [hstack] at hframes
        exact (congrArg Frame.rules (List.cons.inj hframes).1).symm

theorem stacked_pushToken (state : LexState) (hstacked : Stacked state.stack state.pending.size)
    (token : Token) :
    Stacked (state.pushToken token).stack (state.pushToken token).pending.size := by
  refine hstacked.mono ?_
  simp [LexState.pushToken]

theorem stacked_closeContext (hstacked : Stacked state.stack state.pending.size)
    (closer : Option DelimiterId) (stop : Nat) :
    Stacked (state.closeContext closer stop).stack
      (state.closeContext closer stop).pending.size := by
  unfold LexState.closeContext
  cases hstack : state.stack with
  | nil =>
      rw [hstack] at hstacked
      simp only [hstack]
      exact hstacked
  | cons context outer =>
      rw [hstack] at hstacked
      refine stacked_pushToken _ (hstacked.2.mono ?_) _
      simp only [Array.size_shrink]
      exact Nat.le_min.mpr ⟨le_rfl, hstacked.1⟩

theorem stacked_placeDelimiter (hstacked : Stacked state.stack state.pending.size)
    (id : DelimiterId) (span : Span) (value : Option Literal) :
    Stacked (input.placeDelimiter state id span value).stack
      (input.placeDelimiter state id span value).pending.size := by
  have hleaf : ∀ s : LexState, Stacked s.stack s.pending.size →
      Stacked (pushDelimiter s id span value).stack
        (pushDelimiter s id span value).pending.size := by
    intro s hs
    unfold pushDelimiter
    cases value with
    | none => exact stacked_pushToken s hs _
    | some literal => exact stacked_pushToken _ hs _
  rcases placeDelimiter_cases input state id span value with
    ⟨-, -, hclose⟩ | ⟨-, hopen⟩ | ⟨-, hreport⟩ | ⟨-, hplain⟩
  · rw [hclose]
    exact stacked_closeContext (stacked_pushToken state hstacked _) _ _
  · rw [hopen]
    simp only [openContext]
    split
    · exact stacked_pushToken (state.report _ _ _) hstacked _
    · exact stacked_pushToken { state with stack := _ :: state.stack } ⟨le_rfl, hstacked⟩ _
  · rw [hreport]
    exact hleaf (state.report _ _ _) hstacked
  · rw [hplain]
    exact hleaf state hstacked

end Frames

section Places

/-- A token that is no node is added at the place up to which the text is read. -/
theorem draft_pushToken (state : LexState) (hstacked : Stacked state.stack state.pending.size)
    (span : Span) (kind : TokenKind)
    (hdraft : Draft input state.forest (input.frames state) span.start)
    (hpos : span.start < span.stop) (hkind : ∀ id, kind ≠ .node id) :
    Draft input (state.pushToken ⟨span, kind⟩).forest
      (input.frames (state.pushToken ⟨span, kind⟩)) span.stop := by
  obtain ⟨frame, outer, hframes, -, -, hpush⟩ := exists_frames input hstacked
  rw [hframes] at hdraft
  rw [hpush]
  exact hdraft.leaf span.stop hpos kind hkind

/-- Closing the innermost context closes its list. -/
theorem draft_closeContext {context : OpenContext} {outer : List OpenContext}
    (hstack : state.stack = context :: outer)
    (hstacked : Stacked (context :: outer) state.pending.size) {reach stop : Nat}
    {closer : Option DelimiterId} {frame : Frame}
    (hdraft : Draft input state.forest
      (frame :: framesOf input.rules outer (state.pending.shrink context.first)) reach)
    (hnode : frame.node = context.node) (hstart : frame.start = context.start)
    (hends : frame.Ends reach closer (state.pending.extract context.first) stop) :
    Draft input (state.closeContext closer stop).forest
      (input.frames (state.closeContext closer stop)) stop := by
  have hsize : (state.pending.shrink context.first).size = context.first := by
    rw [Array.size_shrink]
    exact Nat.min_eq_left hstacked.1
  obtain ⟨next, rest, hframes, hpush⟩ := framesOf_push input.rules outer
    (state.pending.shrink context.first) (by rw [hsize]; exact hstacked.2)
  unfold LexState.closeContext frames
  rw [hstack]
  simp only [LexState.pushToken]
  rw [hpush]
  rw [hframes] at hdraft
  rw [← hnode, ← hstart]
  exact hdraft.closed hends

/-- A context that is closed without a delimiter ends where the text is read to. -/
theorem draft_cutContext {context : OpenContext} {outer : List OpenContext}
    (hstack : state.stack = context :: outer)
    (hstacked : Stacked state.stack state.pending.size) {stop : Nat}
    (hdraft : Draft input state.forest (input.frames state) stop) :
    Draft input (state.closeContext none stop).forest
      (input.frames (state.closeContext none stop)) stop := by
  unfold frames at hdraft
  rw [hstack] at hstacked hdraft
  exact draft_closeContext hstack hstacked hdraft rfl rfl Frame.Ends.cut

/-- A closing delimiter becomes the last token of the innermost context, which it closes. -/
theorem draft_closeInnermost {context : OpenContext} {outer : List OpenContext}
    (hstack : state.stack = context :: outer)
    (hstacked : Stacked state.stack state.pending.size) {id : DelimiterId} {span : Span}
    (hdraft : Draft input state.forest (input.frames state) span.start)
    (hpos : span.start < span.stop) :
    Draft input
      ((state.pushToken ⟨span, .node state.currentNode⟩).closeContext (some id) span.stop).forest
      (input.frames
        ((state.pushToken ⟨span, .node state.currentNode⟩).closeContext (some id) span.stop))
      span.stop := by
  have hmarked := stacked_pushToken state hstacked ⟨span, .node state.currentNode⟩
  have hcurrent : state.currentNode = context.node := by
    unfold LexState.currentNode
    rw [hstack]
  have hstack' : (state.pushToken ⟨span, .node state.currentNode⟩).stack = context :: outer :=
    hstack
  have hpending : (state.pushToken ⟨span, .node state.currentNode⟩).pending =
      state.pending.push ⟨span, .node state.currentNode⟩ := rfl
  rw [hstack'] at hmarked
  rw [hstack] at hstacked
  unfold frames at hdraft
  rw [hstack, framesOf, ← shrink_push hstacked.1 ⟨span, .node state.currentNode⟩,
    ← hpending] at hdraft
  have hends : Frame.Ends
      ⟨context.node, context.rules, context.start, state.pending.extract context.first⟩ span.start
      (some id) ((state.pushToken ⟨span, .node state.currentNode⟩).pending.extract context.first)
      span.stop := by
    rw [hpending, extract_push hstacked.1, hcurrent]
    exact .closed id span.stop hpos
  exact draft_closeContext hstack' hmarked hdraft rfl rfl hends

/-- An opened context has a list of its own, with its marker in it. -/
theorem draft_openContext (hstacked : Stacked state.stack state.pending.size)
    {id : DelimiterId} {span : Span}
    (hdraft : Draft input state.forest (input.frames state) span.start)
    (hpos : span.start < span.stop) :
    Draft input (input.openContext state id span).forest
      (input.frames (input.openContext state id span)) span.stop := by
  simp only [openContext]
  split
  · exact draft_pushToken (state.report _ _ _) hstacked span _ hdraft hpos
      (fun _ h => by cases h)
  · rename_i rules _
    obtain ⟨frame, outer, hframes, hnode, -, -⟩ := exists_frames input hstacked
    have hopened := hdraft
    rw [hframes] at hopened
    have hnext := hopened.opened span.stop hpos rules id
    rw [hnode, ← hframes] at hnext
    unfold frames LexState.pushToken
    simp only
    rw [framesOf, extract_size_push, shrink_size_push]
    exact hnext

/-- A placed delimiter is a leaf, opens a context or closes one. -/
theorem draft_placeDelimiter (hstacked : Stacked state.stack state.pending.size)
    {id : DelimiterId} {span : Span} {value : Option Literal}
    (hdraft : Draft input state.forest (input.frames state) span.start)
    (hpos : span.start < span.stop) :
    Draft input (input.placeDelimiter state id span value).forest
      (input.frames (input.placeDelimiter state id span value)) span.stop := by
  have hleaf : ∀ s : LexState, Stacked s.stack s.pending.size →
      Draft input s.forest (input.frames s) span.start →
        Draft input (pushDelimiter s id span value).forest
          (input.frames (pushDelimiter s id span value)) span.stop := by
    intro s hs hdraft
    unfold pushDelimiter
    cases value with
    | none =>
        exact draft_pushToken s hs span (.delimiter id) hdraft hpos (fun _ h => by cases h)
    | some literal =>
        exact draft_pushToken { s with forest := (s.forest.pushLiteral literal).2 } hs span _
          (hdraft.value literal) hpos (fun _ h => by cases h)
  rcases placeDelimiter_cases input state id span value with
    ⟨-, hbelongs, hclose⟩ | ⟨-, hopen⟩ | ⟨-, hreport⟩ | ⟨-, hplain⟩
  · rw [hclose]
    cases hstack : state.stack with
    | nil => simp [belongsToInnermost, hstack] at hbelongs
    | cons context outer => exact draft_closeInnermost hstack hstacked hdraft hpos
  · rw [hopen]
    exact draft_openContext hstacked hdraft hpos
  · rw [hreport]
    exact hleaf (state.report _ _ _) hstacked hdraft
  · rw [hplain]
    exact hleaf state hstacked hdraft

/-- Splitting off bytes splits the text. -/
theorem splitReaching_spec (n : Nat) (text : List Char) :
    ∃ taken, text = taken ++ (Text.splitReaching n text).2 ∧
      Text.byteSize taken = (Text.splitReaching n text).1 := by
  induction text generalizing n with
  | nil =>
      refine ⟨[], ?_, ?_⟩
      · cases n <;> rfl
      · cases n <;> rfl
  | cons c cs ih =>
      cases n with
      | zero => exact ⟨[], rfl, rfl⟩
      | succ n =>
          obtain ⟨taken, htext, hsize⟩ := ih (n + 1 - c.utf8Size)
          refine ⟨c :: taken, ?_, ?_⟩
          · simp only [Text.splitReaching, List.cons_append]
            rw [← htext]
          · simp only [Text.splitReaching, Text.byteSize_cons]
            rw [hsize]

theorem splitReaching_fst_pos {n : Nat} (hn : 0 < n) (c : Char) (cs : List Char) :
    0 < (Text.splitReaching n (c :: cs)).1 := by
  obtain ⟨m, rfl⟩ : ∃ m, n = m + 1 := ⟨n - 1, by omega⟩
  have hpos := c.utf8Size_pos
  simp only [Text.splitReaching]
  omega

end Places

section States

theorem reads_fresh (input : LexInput) : input.Reads input.fresh where
  unfinished := rfl
  place := ⟨[], rfl, rfl⟩
  text := by
    intro start h
    cases h
  stacked := trivial
  draft := Draft.start

/-- After the plain text has ended, the text is read up to the cursor. -/
theorem Reads.flushText (h : input.Reads state) :
    input.Reads state.flushText ∧ state.flushText.textStart = none ∧
      state.flushText.cursor = state.cursor := by
  unfold LexState.flushText
  cases htext : state.textStart with
  | none => exact ⟨h, htext, rfl⟩
  | some start =>
      have hdraft := h.draft
      rw [htext] at hdraft
      have hpushed := draft_pushToken { state with textStart := none } h.stacked
        ⟨start, state.cursor⟩ .text hdraft (h.text start htext) (fun _ hk => by cases hk)
      have hstacked := stacked_pushToken { state with textStart := none } h.stacked
        ⟨⟨start, state.cursor⟩, .text⟩
      have hsame := samePlace_pushToken { state with textStart := none }
        ⟨⟨start, state.cursor⟩, .text⟩
      refine ⟨⟨?_, ?_, ?_, hstacked, ?_⟩, hsame.textStart, hsame.cursor⟩
      · exact hsame.finished.trans h.unfinished
      · rw [hsame.rest, hsame.cursor]
        exact h.place
      · intro start' hstart'
        rw [hsame.textStart] at hstart'
        cases hstart'
      · rw [hsame.textStart, hsame.cursor]
        exact hpushed

/-- A delimiter that ends at the cursor is placed, and the text is read up to there. -/
theorem reads_placeDelimiter (state : LexState) {id : DelimiterId} {span : Span}
    {value : Option Literal} (hopen : state.finished = false)
    (hstacked : Stacked state.stack state.pending.size) (hnone : state.textStart = none)
    (hplace : ∃ before, input.source.chars = before ++ state.rest ∧
      Text.byteSize before = state.cursor)
    (hdraft : Draft input state.forest (input.frames state) span.start)
    (hpos : span.start < span.stop) (hstop : span.stop = state.cursor) :
    input.Reads (input.placeDelimiter state id span value) := by
  have hsame := samePlace_placeDelimiter input state id span value
  refine ⟨hsame.finished.trans hopen, ?_, ?_, stacked_placeDelimiter hstacked id span value, ?_⟩
  · rw [hsame.rest, hsame.cursor]
    exact hplace
  · intro start hstart
    rw [hsame.textStart, hnone] at hstart
    cases hstart
  · rw [hsame.textStart, hsame.cursor, hnone, Option.getD_none, ← hstop]
    exact draft_placeDelimiter hstacked hdraft hpos

/-- A delimiter is read from the cursor on, and the cursor moves behind it. -/
theorem Reads.readDelimiter (h : input.Reads state) (hnone : state.textStart = none)
    (hrest : state.rest ≠ []) (id : DelimiterId) :
    input.Reads (input.readDelimiter state id) := by
  obtain ⟨before, hchars, hbefore⟩ := h.place
  obtain ⟨c, cs, hcs⟩ : ∃ c cs, state.rest = c :: cs := List.exists_cons_of_ne_nil hrest
  have hdraft := h.draft
  rw [hnone, Option.getD_none] at hdraft
  unfold LexInput.readDelimiter
  simp only
  generalize input.scanDelimiter state (input.table.delimiter id) = scan
  obtain ⟨taken, htaken, hsize⟩ := splitReaching_spec (max 1 scan.consumed) state.rest
  have hpos : 0 < (Text.splitReaching (max 1 scan.consumed) state.rest).1 := by
    rw [hcs]
    exact splitReaching_fst_pos (by omega) c cs
  generalize Text.splitReaching (max 1 scan.consumed) state.rest = split at *
  obtain ⟨size, rest⟩ := split
  have hplace : ∃ before, input.source.chars = before ++ rest ∧
      Text.byteSize before = state.cursor + size := by
    refine ⟨before ++ taken, ?_, ?_⟩
    · rw [hchars, htaken, List.append_assoc]
    · rw [Text.byteSize_append, hbefore, hsize]
  have hlonger : state.cursor < state.cursor + size := Nat.lt_add_of_pos_right hpos
  -- what is reported about the scan does not change what is built
  split
  · exact reads_placeDelimiter (state.advance size rest) h.unfinished h.stacked hnone hplace
      hdraft hlonger rfl
  · exact reads_placeDelimiter ((state.report _ _ _).advance size rest) h.unfinished h.stacked
      hnone hplace hdraft hlonger rfl

/-- Every step reads on, or ends the run. -/
theorem Reads.step (h : input.Reads state) :
    input.Reads (input.step state) ∨ input.step state = input.stop state := by
  obtain ⟨before, hchars, hbefore⟩ := h.place
  obtain ⟨hflushed, hnone, hcursor⟩ := h.flushText
  have hdraft := hflushed.draft
  rw [hnone, hcursor, Option.getD_none] at hdraft
  rcases step_cases input h.unfinished with
    ⟨-, hstop⟩ | ⟨c, rest, hrest, ⟨hblank, hskip⟩ | ⟨id, -, hread⟩ | htext⟩
  · right
    exact hstop
  · left
    rw [hrest] at hchars
    rw [hskip]
    refine ⟨hflushed.unfinished, ⟨before ++ [c], ?_, ?_⟩, ?_, hflushed.stacked, ?_⟩
    · simpa [LexState.advance] using hchars
    · simp [LexState.advance, hcursor, Text.byteSize_append, hbefore]
    · intro start hstart
      rw [LexState.advance, hnone] at hstart
      cases hstart
    · obtain ⟨frame, outer, hframes, -, hrules, -⟩ :=
        exists_frames input hflushed.stacked
      -- the blank was tested before the text ended, in the same context
      have hinner : input.currentRules state.flushText = input.currentRules state := by
        unfold LexState.flushText currentRules
        cases state.textStart with
        | none => rfl
        | some start => rfl
      rw [hframes, ← hbefore] at hdraft
      rw [← hinner, ← hrules] at hblank
      have hnext := hdraft.skip hchars hblank
      rw [← hframes, hbefore] at hnext
      have hreach : (state.flushText.advance c.utf8Size rest).textStart.getD
          (state.flushText.advance c.utf8Size rest).cursor = state.cursor + c.utf8Size := by
        simp [LexState.advance, hnone, hcursor]
      rw [hreach]
      exact hnext
  · left
    rw [hread]
    exact hflushed.readDelimiter hnone (by rw [rest_flushText, hrest]; simp) id
  · left
    rw [hrest] at hchars
    rw [htext]
    have hpos := c.utf8Size_pos
    refine ⟨h.unfinished, ⟨before ++ [c], ?_, ?_⟩, ?_, h.stacked, ?_⟩
    · simpa [LexState.advance] using hchars
    · simp [LexState.advance, Text.byteSize_append, hbefore]
    · intro start hstart
      simp only [LexState.advance] at hstart ⊢
      cases hold : state.textStart with
      | none =>
          rw [hold] at hstart
          simp at hstart
          omega
      | some start' =>
          rw [hold] at hstart
          simp at hstart
          have := h.text start' hold
          omega
    · -- the draft stays where the text in progress starts
      have hreach : ({ state with textStart := state.textStart <|> some state.cursor }.advance
          c.utf8Size rest).textStart.getD (state.cursor + c.utf8Size) =
            state.textStart.getD state.cursor := by
        simp only [LexState.advance]
        cases state.textStart <;> rfl
      exact hreach ▸ h.draft

end States

section Ending

theorem samePlace_closeAll (stop count : Nat) (state : LexState) :
    SamePlace (closeAll stop count state) state := by
  induction count generalizing state with
  | zero => exact ⟨rfl, rfl, rfl, rfl⟩
  | succ count ih => exact (ih _).trans (samePlace_closeContext state none stop)

/-- Every context that is closed at the end leaves the stack. -/
theorem stack_closeAll (stop count : Nat) (state : LexState) :
    (closeAll stop count state).stack = state.stack.drop count := by
  induction count generalizing state with
  | zero => rfl
  | succ count ih => rw [closeAll, ih, stack_closeContext, List.drop_tail]

/-- Closing all contexts, the innermost one first, leaves the list of the root. -/
theorem draft_closeAll (state : LexState) (hstacked : Stacked state.stack state.pending.size)
    {stop : Nat} (hdraft : Draft input state.forest (input.frames state) stop) :
    Draft input (closeAll stop state.stack.length state).forest
      [⟨Forest.root, input.rules, 0, (closeAll stop state.stack.length state).pending⟩] stop := by
  generalize hcount : state.stack.length = count
  induction count generalizing state with
  | zero =>
      have hstack : state.stack = [] := List.length_eq_zero_iff.mp hcount
      unfold frames at hdraft
      rw [hstack] at hdraft
      exact hdraft
  | succ count ih =>
      obtain ⟨context, outer, hstack⟩ : ∃ context outer, state.stack = context :: outer :=
        List.exists_cons_of_length_eq_add_one hcount
      have hlength : (state.closeContext none stop).stack.length = count := by
        rw [stack_closeContext, List.length_tail, hcount, Nat.add_sub_cancel]
      exact ih _ (stacked_closeContext hstacked none stop)
        (draft_cutContext hstack hstacked hdraft) hlength

/-- A run that ends has the text up to its cursor in lists when it closes them. -/
theorem Reads.draft_reported (h : input.Reads state) :
    Stacked (input.reported state).stack (input.reported state).pending.size ∧
      Draft input (input.reported state).forest (input.frames (input.reported state))
        state.cursor := by
  obtain ⟨hflushed, hnone, hcursor⟩ := h.flushText
  have hdraft := hflushed.draft
  rw [hnone, hcursor, Option.getD_none] at hdraft
  exact ⟨hflushed.stacked, hdraft⟩

theorem cursor_stop (input : LexInput) (state : LexState) :
    (input.stop state).cursor = state.cursor := by
  by_cases hopen : state.finished = false
  · rw [stop_eq hopen]
    exact (samePlace_closeAll _ _ (input.reported state)).cursor.trans
      (samePlace_flushText state).1
  · rw [stop_of_finished input state (by simpa using hopen)]

/-- A lexer that is stopped has closed everything at its cursor. -/
theorem Reads.stop (h : input.Reads state) :
    Lexed input (input.stop state).forest (input.stop state).cursor := by
  obtain ⟨hstacked, hdraft⟩ := h.draft_reported
  rw [cursor_stop, stop_eq h.unfinished]
  exact Lexed.intro (draft_closeAll (input.reported state) hstacked hdraft)

/-- Every lexer ends with a forest that is completely closed at its cursor. -/
theorem lexed_final (input : LexInput) (calls : List LexCall) :
    Lexed input (input.final calls).forest (input.final calls).cursor := by
  have hsound : input.Reads (input.final calls) ∨
      ((input.final calls).finished = true ∧
        Lexed input (input.final calls).forest (input.final calls).cursor) := by
    refine final_induction
      (P := fun s => input.Reads s ∨ (s.finished = true ∧ Lexed input s.forest s.cursor))
      ?_ ?_ ?_ calls
    · unfold start
      split
      · exact Or.inl (reads_fresh input)
      · exact Or.inr ⟨rfl, Lexed.intro Draft.start⟩
    · rintro s (hreads | ⟨hdone, hlexed⟩)
      · rcases hreads.step with hnext | hstop
        · exact Or.inl hnext
        · right
          rw [hstop]
          exact ⟨finished_stop, hreads.stop⟩
      · right
        rw [step_of_finished input s hdone]
        exact ⟨hdone, hlexed⟩
    · rintro s (hreads | ⟨hdone, hlexed⟩)
      · exact Or.inr ⟨finished_stop, hreads.stop⟩
      · right
        rw [stop_of_finished input s hdone]
        exact ⟨hdone, hlexed⟩
  rcases hsound with hreads | ⟨-, hlexed⟩
  · have hdone := finished_final input calls
    rw [hreads.unfinished] at hdone
    cases hdone
  · exact hlexed

end Ending

end LexInput
end ExprLang
