import ExprLang.Proofs.Diagnostics.Positions
import ExprLang.Proofs.Lexing.Coverage
import ExprLang.Proofs.Lexing.Steps

/-!
# Where tokens and contexts end

Whatever the grammar, the lexer stops between two characters only. So every token is a part of the
source, and what is read in each step starts where the step before has ended. A context ends with
the delimiter that closes it, and without one it ends where the reading ends.

Main definitions:
* `Source.Bounds`: spans from one place of a source to another one;
* `LexState.Bounded`: a state with such spans only, whose closed contexts have ended.

Main results:
* `LexState.Bounded.closeContext`, `LexInput.bounded_step`: what a step keeps;
* `LexInput.isPart_of_mem_tokenList`: every token is a part of the source;
* `LexInput.stop_eq_of_closer_eq_none`: where contexts without a closing delimiter end.
-/

namespace ExprLang

/-- A span from one place of a source to another one. -/
structure Source.Bounds (source : Source) (span : Span) : Prop where
  start : source.IsBoundary span.start
  stop : source.IsBoundary span.stop

/--
A state in which all tokens are between places of the source, and all nodes that are no longer open
have a closing delimiter, or are ended where the reading has `ended`.
-/
structure LexState.Bounded (source : Source) (ended : Option Nat) (state : LexState) : Prop where
  text : ∀ start, state.textStart = some start → source.IsBoundary start
  pending : ∀ token ∈ state.pending.toList, source.Bounds token.span
  arena : ∀ token ∈ state.forest.arena.toList, source.Bounds token.span
  opened : ∀ context ∈ state.stack, source.IsBoundary context.start ∧
    context.node.index < state.forest.nodes.size
  closed : ∀ id, id.index < state.forest.nodes.size → id ≠ Forest.root →
    (∀ context ∈ state.stack, context.node ≠ id) →
      (state.forest.header id).closer ≠ none ∨ some (state.forest.header id).span.stop = ended

namespace LexState.Bounded

variable {source : Source} {ended : Option Nat} {state : LexState}

/-- When the reading ends, nothing has been ended without a closing delimiter before. -/
theorem ending (h : state.Bounded source none) (stop : Nat) : state.Bounded source (some stop) :=
  ⟨h.text, h.pending, h.arena, h.opened, fun id hid hroot hopen =>
    .inl ((h.closed id hid hroot hopen).resolve_right (Option.some_ne_none _))⟩

theorem pushToken (h : state.Bounded source ended) {token : Token}
    (htoken : source.Bounds token.span) : (state.pushToken token).Bounded source ended where
  text := h.text
  pending := by
    intro other hmem
    rw [LexState.pushToken, Array.toList_push] at hmem
    rcases List.mem_append.mp hmem with hmem | hmem
    · exact h.pending other hmem
    · rw [List.mem_singleton.mp hmem]
      exact htoken
  arena := h.arena
  opened := h.opened
  closed := h.closed

theorem report (h : state.Bounded source ended) (category : Category) (span : Span)
    (message : String) : (state.report category span message).Bounded source ended :=
  ⟨h.text, h.pending, h.arena, h.opened, h.closed⟩

theorem advance (h : state.Bounded source ended) (size : Nat) (rest : List Char) :
    (state.advance size rest).Bounded source ended :=
  ⟨h.text, h.pending, h.arena, h.opened, h.closed⟩

/-- The plain text ends at a place. -/
theorem flushText (h : state.Bounded source ended) (hcursor : source.IsBoundary state.cursor) :
    state.flushText.Bounded source ended := by
  unfold LexState.flushText
  split
  · exact h
  · rename_i start hstart
    have hended : { state with textStart := none }.Bounded source ended :=
      ⟨(fun _ hnone => nomatch hnone), h.pending, h.arena, h.opened, h.closed⟩
    exact hended.pushToken ⟨h.text start hstart, hcursor⟩

/-- A context is closed by a delimiter, or where the reading ends. -/
theorem closeContext (h : state.Bounded source ended) {closer : Option DelimiterId} {stop : Nat}
    (hstop : source.IsBoundary stop) (hends : closer ≠ none ∨ some stop = ended) :
    (state.closeContext closer stop).Bounded source ended := by
  unfold LexState.closeContext
  cases hstack : state.stack with
  | nil => exact h
  | cons context outer =>
      obtain ⟨hstart, hindex⟩ := h.opened context (hstack ▸ List.mem_cons_self)
      refine pushToken ?_ ⟨hstart, hstop⟩
      refine ⟨h.text, fun token hmem => ?_, fun token hmem => ?_, fun other hother => ?_,
        fun id hid hroot hopen => ?_⟩
      · rw [Array.shrink_eq_take] at hmem
        exact h.pending token (Forest.mem_of_mem_extract hmem)
      · rcases Forest.mem_arena_closeNode.mp hmem with hmem | hmem
        · exact h.arena token hmem
        · exact h.pending token (Forest.mem_of_mem_extract hmem)
      · rw [Forest.size_closeNode]
        exact h.opened other (hstack ▸ List.mem_cons_of_mem _ hother)
      · rw [Forest.size_closeNode] at hid
        rw [Forest.header_closeNode]
        split
        · exact hends
        · rename_i hother
          refine h.closed id hid hroot fun known hknown => ?_
          rcases List.mem_cons.mp (hstack ▸ hknown) with rfl | hknown
          · exact fun heq => hother ⟨heq.symm, heq ▸ hindex⟩
          · exact hopen known hknown

theorem closeAll (h : state.Bounded source ended) (count : Nat) {stop : Nat}
    (hstop : source.IsBoundary stop) (hends : some stop = ended) :
    (LexInput.closeAll stop count state).Bounded source ended := by
  induction count generalizing state with
  | zero => exact h
  | succ count ih => exact ih (h.closeContext hstop (.inr hends))

theorem pushDelimiter (h : state.Bounded source ended) (id : DelimiterId) {span : Span}
    (hspan : source.Bounds span) (value : Option Literal) :
    (LexInput.pushDelimiter state id span value).Bounded source ended := by
  unfold LexInput.pushDelimiter
  cases value with
  | none => exact h.pushToken hspan
  | some literal =>
      have hkept : { state with forest := (state.forest.pushLiteral literal).2 }.Bounded source
          ended := ⟨h.text, h.pending, h.arena, h.opened, h.closed⟩
      exact hkept.pushToken hspan

end LexState.Bounded

namespace LexInput

variable {input : LexInput} {state : LexState} {source : Source} {ended : Option Nat}

section Delimiters

variable {id : DelimiterId} {span : Span} (hspan : source.Bounds span)

include hspan

/-- A context that is opened is open. -/
theorem bounded_openContext (h : state.Bounded source ended) :
    (input.openContext state id span).Bounded source ended := by
  unfold openContext
  simp only
  split
  · exact (h.report _ _ _).pushToken hspan
  · refine LexState.Bounded.pushToken ?_ hspan
    refine ⟨h.text, h.pending, h.arena, fun context hcontext => ?_,
      fun other hother hroot hopen => ?_⟩
    · rw [Forest.size_openNode]
      rcases List.mem_cons.mp hcontext with rfl | hcontext
      · exact ⟨hspan.start, Nat.lt_succ_self _⟩
      · obtain ⟨hstart, hindex⟩ := h.opened context hcontext
        exact ⟨hstart, Nat.lt_succ_of_lt hindex⟩
    · obtain ⟨hnew, hopen⟩ := List.forall_mem_cons.mp hopen
      have hne : other ≠ state.forest.nextId := fun heq => hnew heq.symm
      rw [Forest.size_openNode] at hother
      rw [Forest.header_openNode, if_neg hne]
      exact h.closed other (Forest.index_lt_of_ne_nextId hother hne) hroot hopen

theorem bounded_placeDelimiter (h : state.Bounded source ended) (value : Option Literal) :
    (input.placeDelimiter state id span value).Bounded source ended := by
  rcases placeDelimiter_cases input state id span value with
    ⟨-, -, hclose⟩ | ⟨-, hopen⟩ | ⟨-, hreport⟩ | ⟨-, hplain⟩
  · rw [hclose]
    exact (h.pushToken hspan).closeContext hspan.stop (.inl (Option.some_ne_none id))
  · rw [hopen]
    exact bounded_openContext hspan h
  · rw [hreport]
    exact (h.report _ _ _).pushDelimiter id hspan value
  · rw [hplain]
    exact h.pushDelimiter id hspan value

end Delimiters

/-- What is read of a delimiter ends between two characters. -/
theorem bounded_readDelimiter (h : state.Bounded input.source ended)
    (hplace : input.source.IsAt state.cursor state.rest) (id : DelimiterId) :
    (input.readDelimiter state id).Bounded input.source ended := by
  unfold readDelimiter
  simp only
  generalize input.scanDelimiter state (input.table.delimiter id) = scan
  obtain ⟨taken, htaken, hsize⟩ := splitReaching_spec (max 1 scan.consumed) state.rest
  rw [htaken] at hplace
  have hspan : input.source.Bounds
      (.ofLength state.cursor (Text.splitReaching (max 1 scan.consumed) state.rest).1) :=
    ⟨⟨_, hplace⟩, ⟨_, hsize ▸ hplace.behind⟩⟩
  refine bounded_placeDelimiter hspan ?_ _
  refine LexState.Bounded.advance ?_ _ _
  split
  · exact h
  · exact h.report _ _ _

/-- Every step ends between two characters, and closes contexts with delimiters only. -/
theorem bounded_step (hreads : input.Reads state) (h : state.Bounded input.source ended)
    {c : Char} {rest : List Char} (hrest : state.rest = c :: rest) :
    (input.step state).Bounded input.source ended := by
  have hplace : input.source.IsAt state.cursor state.rest := hreads.place
  have hflushed := h.flushText ⟨_, hplace⟩
  obtain ⟨hsame, -, -⟩ := samePlace_flushText state
  rcases step_cases input hreads.unfinished with
    ⟨hnil, -⟩ | ⟨_, _, -, ⟨-, hblank⟩ | ⟨id, -, hread⟩ | htext⟩
  · rw [hrest] at hnil
    cases hnil
  · rw [hblank]
    exact hflushed.advance _ _
  · rw [hread]
    refine bounded_readDelimiter hflushed ?_ id
    rw [hsame, rest_flushText]
    exact hplace
  · rw [htext]
    refine LexState.Bounded.advance ?_ _ _
    refine ⟨fun start hstart => ?_, h.pending, h.arena, h.opened, h.closed⟩
    cases hold : state.textStart with
    | none =>
        rw [hold] at hstart
        exact Option.some.inj hstart ▸ ⟨_, hplace⟩
    | some old =>
        rw [hold] at hstart
        exact h.text start (hold.trans hstart)

section Ending

/-- At the end of a run nothing is open any more. -/
theorem bounded_stop (hreads : input.Reads state) (h : state.Bounded input.source none) :
    (input.stop state).Bounded input.source (some (input.stop state).cursor) ∧
      (input.stop state).stack = [] := by
  have hcursor : input.source.IsBoundary state.cursor := ⟨_, hreads.place⟩
  have hflushed := (h.flushText hcursor).ending state.cursor
  have hreported : (input.reported state).Bounded input.source (some state.cursor) :=
    ⟨hflushed.text, hflushed.pending, hflushed.arena, hflushed.opened, hflushed.closed⟩
  have hclosed := hreported.closeAll (input.reported state).stack.length hcursor rfl
  have hstack := stack_closeAll state.cursor (input.reported state).stack.length
    (input.reported state)
  rw [List.drop_length] at hstack
  rw [cursor_stop, stop_eq hreads.unfinished]
  refine ⟨⟨hclosed.text, (fun _ hmem => nomatch hmem), fun token hmem => ?_,
    fun context hcontext => ?_, fun id hid hroot hopen => ?_⟩, hstack⟩
  · rcases Forest.mem_arena_closeNode.mp hmem with hmem | hmem
    · exact hclosed.arena token hmem
    · exact hclosed.pending token hmem
  · rw [LexState.forest_closeRoot, Forest.size_closeNode]
    exact hclosed.opened context hcontext
  · rw [LexState.forest_closeRoot, Forest.size_closeNode] at hid
    rw [LexState.forest_closeRoot, Forest.header_closeNode, if_neg fun hsame => hroot hsame.1]
    exact hclosed.closed id hid hroot hopen

theorem bounded_fresh (input : LexInput) : input.fresh.Bounded input.source none := by
  refine ⟨(fun _ hnone => nomatch hnone), (fun _ hmem => nomatch hmem),
    (fun _ hmem => nomatch hmem), (fun _ hmem => nomatch hmem), fun id hid hroot _ => ?_⟩
  obtain ⟨i⟩ := id
  obtain rfl : i = 0 := Nat.lt_one_iff.mp hid
  exact absurd rfl hroot

/-- A source that is read ends in a state in which all is closed. -/
theorem bounded_final (hsize : input.source.size < Span.offsetCount) (calls : List LexCall) :
    (input.final calls).Bounded input.source (some (input.final calls).cursor) ∧
      (input.final calls).stack = [] := by
  obtain ⟨last, hreads, hlast, hfinal⟩ := exists_final_eq_stop hsize (bounded_fresh input)
    (fun _ _ _ hreads hs hrest => bounded_step hreads hs hrest) calls
  rw [hfinal]
  exact bounded_stop hreads hlast

variable (input)

/-- Every token of a lexed forest is a part of the source, whatever the grammar. -/
theorem isPart_of_mem_tokenList (calls : List LexCall) {id : NodeId} {token : Token}
    (htoken : token ∈ (input.finish calls).forest.tokenList id) :
    input.source.IsPart token.span := by
  have hid := Forest.index_lt_of_mem_tokenList _ htoken
  have hpos := ((lexed_final input calls).covers hid).nonempty token htoken
  by_cases hsize : input.source.size < Span.offsetCount
  · obtain ⟨hstart, hstop⟩ :=
      (bounded_final hsize calls).1.arena token (Forest.mem_of_mem_extract htoken)
    exact ⟨hpos, hstart, hstop⟩
  · rw [finish_of_size_le input (Nat.le_of_not_lt hsize)] at htoken
    cases Forest.mem_of_mem_extract htoken

/-- A node without a closing delimiter ends where the reading ends. -/
theorem stop_eq_of_closer_eq_none (calls : List LexCall) {id : NodeId}
    (hid : id.index < (input.finish calls).forest.nodes.size)
    (hcloser : ((input.finish calls).forest.header id).closer = none) :
    ((input.finish calls).forest.header id).span.stop = (input.final calls).cursor := by
  by_cases hroot : id = Forest.root
  · rw [hroot]
    exact congrArg Span.stop (lexed_final input calls).span_root
  · by_cases hsize : input.source.size < Span.offsetCount
    · obtain ⟨hbounded, hstack⟩ := bounded_final hsize calls
      have hopen : ∀ context ∈ (input.final calls).stack, context.node ≠ id := by
        rw [hstack]
        exact fun _ hmem => nomatch hmem
      have hended := (hbounded.closed id hid hroot hopen).resolve_left (not_not.mpr hcloser)
      exact Option.some.inj hended
    · -- a source that is too large has no node but the root
      rw [finish_of_size_le input (Nat.le_of_not_lt hsize)] at hid
      obtain ⟨i⟩ := id
      rw [Forest.size_closeNode] at hid
      obtain rfl : i = 0 := Nat.lt_one_iff.mp hid
      exact absurd rfl hroot

end Ending

end LexInput

end ExprLang
