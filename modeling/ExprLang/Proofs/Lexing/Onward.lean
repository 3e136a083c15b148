import ExprLang.Proofs.Forest.Data
import ExprLang.Proofs.Lexing.Nesting
import ExprLang.Proofs.Lexing.Reading

/-!
# What reading on leaves alone

The complete tokens of the root stand in front of those of all open contexts, and closing a
context takes tokens from behind its first one only. So reading on adds to the tokens of the root
and changes none of them. The nodes below them are closed, and a node that is closed keeps its list.

Main definitions:
* `LexState.Onward`: one state is reached from another one by reading on;
* `LexState.EndsIn`: a forest in which the text ends, now or later.

Main results:
* `LexInput.Reads.step_onward`: what a step leaves alone;
* `LexInput.Reads.endsIn_stop`, `LexInput.Reads.exists_stop`: how a run ends.
-/

namespace ExprLang

/-- A list with another one below it is not that of the root. -/
theorem Framed.node_ne_root {forest : Forest} {frame next : Frame} {outer : List Frame}
    (h : Framed forest (frame :: next :: outer)) : frame.node ≠ Forest.root := by
  obtain ⟨last, hlast, hroot, -⟩ := h.root
  rw [List.getLast?_cons_cons] at hlast
  intro heq
  refine (List.nodup_cons.mp h.distinct).1 (List.mem_map.mpr ⟨last, ?_, hroot.trans heq.symm⟩)
  exact List.mem_of_getLast? hlast

/-- The lists of contexts have tokens, from the opening delimiter on. -/
structure Filled (forest : Forest) (frames : List Frame) : Prop where
  reading : ∀ frame ∈ frames, frame.node ≠ Forest.root → frame.tokens.toList ≠ []
  closed : ∀ id, id.index < forest.nodes.size → (∀ frame ∈ frames, frame.node ≠ id) →
    forest.tokenList id ≠ []

namespace Filled

variable {input : LexInput} {forest : Forest} {frames : List Frame} {reach : Nat}

theorem push {frame : Frame} {outer : List Frame} (h : Filled forest (frame :: outer))
    (token : Token) : Filled forest (frame.push token :: outer) := by
  refine ⟨fun f hf hroot => ?_, fun id hid hopen => h.closed id hid (forall_node_ne_push.mp hopen)⟩
  rcases List.mem_cons.mp hf with rfl | hf
  · simp [Frame.push]
  · exact h.reading f (List.mem_cons_of_mem _ hf) hroot

/-- Every node but the root has tokens as soon as it is opened. -/
theorem of_draft (draft : Draft input forest frames reach) : Filled forest frames := by
  induction draft with
  | start =>
      refine ⟨fun f hf hroot => absurd (congrArg Frame.node (List.mem_singleton.mp hf)) hroot,
        fun id hid hopen => ?_⟩
      have hzero : id.index = 0 := Nat.lt_one_iff.mp hid
      exact absurd (congrArg NodeId.mk hzero.symm) (hopen _ List.mem_cons_self)
  | skip _ _ _ ih => exact ih
  | leaf _ _ _ _ _ ih => exact ih.push _
  | value _ _ ih => exact ⟨ih.reading, ih.closed⟩
  | @opened forest frame outer reach draft stop hpos rules opener ih =>
      refine ⟨fun f hf hroot => ?_, fun id hid hopen => ?_⟩
      · rcases List.mem_cons.mp hf with rfl | hf
        · simp
        · exact ih.reading f hf hroot
      · obtain ⟨hnext, hopen⟩ := List.forall_mem_cons.mp hopen
        rw [Forest.size_openNode] at hid
        rw [Forest.tokenList_openNode]
        refine ih.closed id (Nat.lt_of_le_of_ne (Nat.lt_succ_iff.mp hid) fun hsize => ?_) hopen
        exact hnext (congrArg NodeId.mk hsize.symm)
  | @closed forest frame next outer reach stop closer tokens draft hends ih =>
      have hframed := Framed.of_draft draft
      have hlist : tokens.toList ≠ [] := by
        cases hends with
        | closed id stop hpos => simp
        | cut => exact ih.reading frame List.mem_cons_self hframed.node_ne_root
      refine push ⟨fun f hf => ih.reading f (List.mem_cons_of_mem _ hf), fun id hid hopen => ?_⟩ _
      rw [Forest.size_closeNode] at hid
      rw [Forest.tokenList_closeNode forest hframed.packed (hframed.header frame (by simp)).1]
      split
      · exact hlist
      · rename_i hne
        exact ih.closed id hid (List.forall_mem_cons.mpr ⟨fun heq => hne heq.symm, hopen⟩)

end Filled

/-- Number of the tokens of the root among `size` pending ones. -/
def rootCount (stack : List OpenContext) (size : Nat) : Nat :=
  match stack.getLast? with
  | none => size
  | some context => context.first

section Counts

theorem rootCount_cons (context : OpenContext) (outer : List OpenContext) (size : Nat) :
    rootCount (context :: outer) size = rootCount outer context.first := by
  cases outer with
  | nil => rfl
  | cons next outer =>
      unfold rootCount
      rw [List.getLast?_cons_cons]
      cases hlast : (next :: outer).getLast? with
      | none => simp at hlast
      | some last => rfl

theorem rootCount_le {stack : List OpenContext} {size : Nat} (h : Stacked stack size) :
    rootCount stack size ≤ size := by
  induction stack generalizing size with
  | nil => exact le_rfl
  | cons context outer ih =>
      rw [rootCount_cons]
      exact (ih h.2).trans h.1

theorem rootCount_mono (stack : List OpenContext) {m n : Nat} (h : m ≤ n) :
    rootCount stack m ≤ rootCount stack n := by
  cases stack with
  | nil => exact h
  | cons context outer => rw [rootCount_cons, rootCount_cons]

end Counts

namespace LexState

theorem topLevel_progress (state : LexState) :
    state.progress.topLevel = rootCount state.stack state.pending.size := rfl

/-- One state is reached from another one by reading on. -/
structure Onward (s s' : LexState) : Prop where
  keeps : s.forest.Keeps s'.forest
  topLevel_le : s.progress.topLevel ≤ s'.progress.topLevel
  pending : s'.pending.toList.take s.progress.topLevel = s.pending.toList.take s.progress.topLevel

/-- A forest in which the complete tokens of the root come first, with all nodes below them. -/
structure EndsIn (s : LexState) (forest : Forest) : Prop where
  keeps : s.forest.Keeps forest
  roots : (forest.tokenList Forest.root).take s.progress.topLevel =
    s.pending.toList.take s.progress.topLevel

namespace Onward

theorem of_eq {s s' : LexState} (hforest : s'.forest = s.forest) (hpending : s'.pending = s.pending)
    (hstack : s'.stack = s.stack) : Onward s s' := by
  have hsame : s'.progress.topLevel = s.progress.topLevel := by
    unfold progress
    rw [hpending, hstack]
  exact ⟨hforest ▸ .refl _, hsame.ge, by rw [hpending]⟩

theorem refl (s : LexState) : Onward s s := of_eq rfl rfl rfl

theorem trans {first second third : LexState} (h : Onward first second)
    (h' : Onward second third) : Onward first third := by
  refine ⟨h.keeps.trans h'.keeps, h.topLevel_le.trans h'.topLevel_le, ?_⟩
  have hpending := congrArg (List.take first.progress.topLevel) h'.pending
  rw [List.take_take, List.take_take, Nat.min_eq_left h.topLevel_le] at hpending
  exact hpending.trans h.pending

theorem endsIn {first second : LexState} {forest : Forest} (h : Onward first second)
    (h' : EndsIn second forest) : EndsIn first forest := by
  refine ⟨h.keeps.trans h'.keeps, ?_⟩
  have hroots := congrArg (List.take first.progress.topLevel) h'.roots
  rw [List.take_take, List.take_take, Nat.min_eq_left h.topLevel_le] at hroots
  exact hroots.trans h.pending

end Onward

section Changes

variable {state : LexState}

theorem onward_pushToken (state : LexState) (hstacked : Stacked state.stack state.pending.size)
    (token : Token) : Onward state (state.pushToken token) := by
  refine ⟨.refl _, ?_, ?_⟩
  · have hsize : (state.pushToken token).pending.size = state.pending.size + 1 := Array.size_push _
    rw [topLevel_progress, topLevel_progress, hsize]
    exact rootCount_mono state.stack (Nat.le_succ _)
  · have hlist : (state.pushToken token).pending.toList = state.pending.toList ++ [token] :=
      Array.toList_push
    rw [hlist, List.take_append_of_le_length]
    rw [Array.length_toList]
    exact rootCount_le hstacked

theorem onward_flushText (hstacked : Stacked state.stack state.pending.size) :
    Onward state state.flushText := by
  unfold LexState.flushText
  split
  · exact .refl state
  · have hended : Onward state { state with textStart := none } := .of_eq rfl rfl rfl
    exact hended.trans (onward_pushToken { state with textStart := none } hstacked _)

/-- Closing the innermost context, which has no tokens in the forest yet. -/
theorem onward_closeContext (state : LexState) {context : OpenContext} {outer : List OpenContext}
    (hstack : state.stack = context :: outer) (hstacked : Stacked state.stack state.pending.size)
    (hpacked : state.forest.Packed) (hindex : context.node.index < state.forest.nodes.size)
    (hempty : state.forest.tokenList context.node = []) (closer : Option DelimiterId) (stop : Nat) :
    Onward state (state.closeContext closer stop) := by
  have htop : state.progress.topLevel = rootCount outer context.first := by
    rw [topLevel_progress, hstack, rootCount_cons]
  rw [hstack] at hstacked
  have hle := rootCount_le hstacked.2
  unfold LexState.closeContext
  rw [hstack]
  refine ⟨state.forest.keeps_closeNode hpacked hindex hempty _ _ _, ?_, ?_⟩
  · rw [htop]
    refine rootCount_mono outer ?_
    simp [LexState.pushToken, hstacked.1]
  · rw [htop]
    simp only [LexState.pushToken, Array.toList_push, Array.shrink_eq_take, Array.take,
      Array.toList_extract, List.extract_eq_take_drop, Nat.sub_zero, List.drop_zero]
    rw [List.take_append_of_le_length, List.take_take, Nat.min_eq_left hle]
    rw [List.length_take, Array.length_toList]
    exact Nat.le_min.mpr ⟨hle, hle.trans hstacked.1⟩

end Changes

end LexState

namespace LexInput

open LexState

variable {input : LexInput} {state : LexState}

section Delimiters

theorem onward_openContext (state : LexState) (hstacked : Stacked state.stack state.pending.size)
    (id : DelimiterId) (span : Span) : Onward state (input.openContext state id span) := by
  simp only [openContext]
  split
  · have hreported : ∀ category span message, Onward state (state.report category span message) :=
      fun _ _ _ => .of_eq rfl rfl rfl
    exact (hreported _ _ _).trans (onward_pushToken (state.report _ _ _) hstacked _)
  · -- the tokens of the root end in front of the first one of the context
    refine Onward.trans ?_ (onward_pushToken _ ?_ _)
    · refine ⟨state.forest.keeps_openNode _, ?_, rfl⟩
      rw [topLevel_progress, topLevel_progress]
      simp only [rootCount_cons, le_rfl]
    · exact ⟨le_rfl, hstacked⟩

theorem onward_pushDelimiter (state : LexState) (hstacked : Stacked state.stack state.pending.size)
    (id : DelimiterId) (span : Span) (value : Option Literal) :
    Onward state (pushDelimiter state id span value) := by
  unfold pushDelimiter
  cases value with
  | none => exact onward_pushToken state hstacked _
  | some literal =>
      have hliteral : Onward state { state with forest := (state.forest.pushLiteral literal).2 } :=
        ⟨state.forest.keeps_pushLiteral literal, le_rfl, rfl⟩
      exact hliteral.trans (onward_pushToken
        { state with forest := (state.forest.pushLiteral literal).2 } hstacked _)

/-- What the draft says of the innermost context. -/
theorem context_of_draft {context : OpenContext} {outer : List OpenContext} {reach : Nat}
    (hstack : state.stack = context :: outer)
    (hdraft : Draft input state.forest (input.frames state) reach) :
    state.forest.Packed ∧ context.node.index < state.forest.nodes.size ∧
      state.forest.tokenList context.node = [] := by
  have hframed := Framed.of_draft hdraft
  have hmem : (⟨context.node, context.rules, context.start, state.pending.extract context.first⟩ :
      Frame) ∈ input.frames state := by
    unfold frames
    rw [hstack, framesOf]
    exact List.mem_cons_self
  exact ⟨hframed.packed, (hframed.header _ hmem).1, hdraft.tokenList_eq_nil _ hmem⟩

theorem onward_placeDelimiter (state : LexState)
    (hstacked : Stacked state.stack state.pending.size) {reach : Nat}
    (hdraft : Draft input state.forest (input.frames state) reach)
    (id : DelimiterId) (span : Span) (value : Option Literal) :
    Onward state (input.placeDelimiter state id span value) := by
  rcases placeDelimiter_cases input state id span value with
    ⟨-, hbelongs, hclose⟩ | ⟨-, hopen⟩ | ⟨-, hreport⟩ | ⟨-, hplain⟩
  · rw [hclose]
    cases hstack : state.stack with
    | nil => simp [belongsToInnermost, hstack] at hbelongs
    | cons context outer =>
        obtain ⟨hpacked, hindex, hempty⟩ := context_of_draft hstack hdraft
        have hmarked := onward_pushToken state hstacked ⟨span, .node state.currentNode⟩
        have hstacked' := stacked_pushToken state hstacked ⟨span, .node state.currentNode⟩
        exact hmarked.trans
          (onward_closeContext (state.pushToken _) hstack hstacked' hpacked hindex hempty _ _)
  · rw [hopen]
    exact onward_openContext state hstacked id span
  · rw [hreport]
    have hreported : ∀ message, Onward state (state.report .structural span message) :=
      fun _ => .of_eq rfl rfl rfl
    exact (hreported _).trans (onward_pushDelimiter (state.report _ _ _) hstacked id span value)
  · rw [hplain]
    exact onward_pushDelimiter state hstacked id span value

theorem Reads.onward_readDelimiter (h : input.Reads state) (id : DelimiterId) :
    Onward state (input.readDelimiter state id) := by
  unfold LexInput.readDelimiter
  simp only
  generalize Text.splitReaching _ state.rest = split
  split
  · have hmoved : Onward state (state.advance split.1 split.2) := .of_eq rfl rfl rfl
    exact hmoved.trans (onward_placeDelimiter (state.advance _ _) h.stacked h.draft _ _ _)
  · rename_i error _
    have hmoved : Onward state ((state.report .lex
        (.ofLength (state.cursor + error.offset) error.length) error.fault.message).advance
          split.1 split.2) := .of_eq rfl rfl rfl
    exact hmoved.trans
      (onward_placeDelimiter ((state.report _ _ _).advance _ _) h.stacked h.draft _ _ _)

end Delimiters

section Runs

/-- A step of a run that does not end reads on. -/
theorem Reads.step_onward (h : input.Reads state) :
    (input.Reads (input.step state) ∧ Onward state (input.step state)) ∨
      input.step state = input.stop state := by
  rcases h.step with hreads | hstop
  · left
    refine ⟨hreads, ?_⟩
    rcases step_cases input h.unfinished with
      ⟨-, hstop⟩ | ⟨c, rest, -, ⟨-, hskip⟩ | ⟨id, -, hread⟩ | htext⟩
    · have hdone := hreads.unfinished
      rw [hstop, finished_stop] at hdone
      cases hdone
    · rw [hskip]
      exact (onward_flushText h.stacked).trans (.of_eq rfl rfl rfl)
    · rw [hread]
      exact (onward_flushText h.stacked).trans (h.flushText.1.onward_readDelimiter id)
    · rw [htext]
      exact .of_eq rfl rfl rfl
  · right
    exact hstop

/-- Closing all contexts leaves only tokens of the root pending. -/
theorem onward_closeAll (state : LexState) (hstacked : Stacked state.stack state.pending.size)
    {stop : Nat} (hdraft : Draft input state.forest (input.frames state) stop) :
    Onward state (closeAll stop state.stack.length state) ∧
      (closeAll stop state.stack.length state).stack = [] := by
  generalize hcount : state.stack.length = count
  induction count generalizing state with
  | zero => exact ⟨.refl state, List.length_eq_zero_iff.mp hcount⟩
  | succ count ih =>
      obtain ⟨context, outer, hstack⟩ : ∃ context outer, state.stack = context :: outer :=
        List.exists_cons_of_length_eq_add_one hcount
      obtain ⟨hpacked, hindex, hempty⟩ := context_of_draft hstack hdraft
      have honward := onward_closeContext state hstack hstacked hpacked hindex hempty none stop
      have hlength : (state.closeContext none stop).stack.length = count := by
        rw [stack_closeContext, List.length_tail, hcount, Nat.add_sub_cancel]
      obtain ⟨hbehind, hempty⟩ := ih _ (stacked_closeContext hstacked none stop)
        (draft_cutContext hstack hstacked hdraft) hlength
      exact ⟨honward.trans hbehind, hempty⟩

/-- The end of a run leaves the complete tokens of the root where they are. -/
theorem Reads.endsIn_stop (h : input.Reads state) : EndsIn state (input.stop state).forest := by
  obtain ⟨hstacked, hdraft⟩ := h.draft_reported
  rw [stop_eq h.unfinished, LexState.forest_closeRoot]
  have hreports : Onward state.flushText (input.reported state) := .of_eq rfl rfl rfl
  obtain ⟨honward, hstack⟩ := onward_closeAll (input.reported state) hstacked hdraft
  have hclosed := draft_closeAll (input.reported state) hstacked hdraft
  have hframed := Framed.of_draft hclosed
  have hindex := (hframed.header _ (List.mem_singleton_self _)).1
  refine ((onward_flushText h.stacked).trans (hreports.trans honward)).endsIn ⟨?_, ?_⟩
  · exact Forest.keeps_closeNode _ hframed.packed hindex
      (hclosed.tokenList_eq_nil _ (List.mem_singleton_self _)) _ _ _
  · rw [Forest.tokenList_closeNode _ hframed.packed hindex, if_pos rfl]

/-- A run that is finished was at some place before its end, which was reached by reading on. -/
theorem Reads.exists_stop (h : input.Reads state) (count : Nat)
    (hdone : (input.runSteps count state).finished = true) :
    ∃ last, input.Reads last ∧ Onward state last ∧
      input.runSteps count state = input.stop last := by
  induction count generalizing state with
  | zero =>
      rw [runSteps, h.unfinished] at hdone
      cases hdone
  | succ count ih =>
      rw [runSteps] at hdone ⊢
      rcases h.step_onward with ⟨hreads, honward⟩ | hstop
      · obtain ⟨last, hlast, hbehind, hrun⟩ := ih hreads hdone
        exact ⟨last, hlast, honward.trans hbehind, hrun⟩
      · rw [hstop, runSteps_of_finished finished_stop]
        exact ⟨state, h, .refl state, rfl⟩

end Runs

end LexInput
end ExprLang
