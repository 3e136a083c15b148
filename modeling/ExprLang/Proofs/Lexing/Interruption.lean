import ExprLang.Proofs.Lexing.Onward
import ExprLang.Proofs.Lexing.Steps
import ExprLang.Language

/-!
# Interrupted runs

A run may be taken in any number of pieces and ends as if it had been taken in one. If it is ended
early, then the tokens of the root that were complete just before are those with which the whole
text begins, and below them everything is the same. So the first word of a text is that of the
whole text, although no more is read than is needed for it.

Main definitions:
* `Forest.Below`: the tokens in some lists, and below them;
* `Forest.AgreesOn`: two forests are the same below the first tokens of their roots;
* `LexCall.ReadsOn`, `LexInput.EndsAt`: calls that read on, and the step before which a call ends.

Main results:
* `LexInput.Reads.exists_owner`: what is below complete tokens belongs to closed nodes;
* `LexInput.Reads.agreesOn`: what is below complete tokens is the same in a later forest;
* `LexInput.agreesOn_stop`: a run that is ended early;
* `LexInput.finish_interrupted`: all of it for calls of a lexer.
-/

namespace ExprLang

namespace Forest

/-- The tokens of a list and those of the nodes for which they stand, at every depth. -/
inductive Below (forest : Forest) (tokens : List Token) : Token → Prop
  | top {token : Token} (h : token ∈ tokens) : Below forest tokens token
  | inside {token inner : Token} {id : NodeId} (h : Below forest tokens token)
      (hkind : token.kind = .node id) (hinner : inner ∈ forest.tokenList id) :
      Below forest tokens inner

/-- Two forests have the same first tokens in the root, and below these everything is the same. -/
structure AgreesOn (early full : Forest) (count : Nat) : Prop where
  source : early.source = full.source
  count_le : count ≤ (early.tokenList root).length
  tokens : (early.tokenList root).take count = (full.tokenList root).take count
  nodes : ∀ token id, early.Below ((early.tokenList root).take count) token →
    token.kind = .node id →
      early.tokenList id = full.tokenList id ∧ early.header id = full.header id
  literals : ∀ token id, early.Below ((early.tokenList root).take count) token →
    token.kind = .literal id → early.literal id = full.literal id

end Forest

section Frames

variable {forest : Forest} {frames : List Frame}

/-- The list of a node that is being read. -/
theorem listIn_of_mem (hdistinct : (frames.map Frame.node).Nodup) {frame : Frame}
    (hmem : frame ∈ frames) : listIn forest frames frame.node = frame.tokens.toList := by
  induction frames with
  | nil => cases hmem
  | cons first outer ih =>
      obtain ⟨hnot, hrest⟩ := List.nodup_cons.mp hdistinct
      rcases List.mem_cons.mp hmem with rfl | hmem
      · exact listIn_cons_self
      · rw [listIn_cons_of_ne fun heq => hnot (heq ▸ List.mem_map_of_mem hmem)]
        exact ih hrest hmem

/-- The complete tokens of the root are its list so far. -/
theorem exists_root_framesOf (rules : RuleSetId) (stack : List OpenContext) (pending : Array Token)
    (hstacked : Stacked stack pending.size) :
    ∃ tokens, ⟨Forest.root, rules, 0, tokens⟩ ∈ framesOf rules stack pending ∧
      tokens.toList = pending.toList.take (rootCount stack pending.size) := by
  induction stack generalizing pending with
  | nil =>
      refine ⟨pending, List.mem_singleton_self _, ?_⟩
      rw [show rootCount [] pending.size = pending.toList.length from Array.length_toList.symm,
        List.take_length]
  | cons context outer ih =>
      have hsize : (pending.shrink context.first).size = context.first := by
        rw [Array.size_shrink]
        exact Nat.min_eq_left hstacked.1
      obtain ⟨tokens, hmem, htokens⟩ := ih (pending.shrink context.first) (by
        rw [hsize]
        exact hstacked.2)
      refine ⟨tokens, List.mem_cons_of_mem _ hmem, ?_⟩
      rw [htokens, hsize, rootCount_cons, Array.shrink_eq_take, Array.take, Array.toList_extract,
        List.extract_eq_take_drop, Nat.sub_zero, List.drop_zero, List.take_take,
        Nat.min_eq_left (rootCount_le hstacked.2)]

end Frames

namespace LexState

/-- Every literal among the tokens of a run has its value. -/
def KnowsLiterals (state : LexState) : Prop :=
  ∀ token id, token ∈ state.pending.toList ++ state.forest.arena.toList →
    token.kind = .literal id → id.index < state.forest.literals.size

section Literals

variable {state : LexState}

/-- Other tokens and more literals are added. -/
theorem KnowsLiterals.extend {after : LexState} (h : state.KnowsLiterals)
    (hsize : state.forest.literals.size ≤ after.forest.literals.size)
    (htokens : ∀ token ∈ after.pending.toList ++ after.forest.arena.toList,
      token ∈ state.pending.toList ++ state.forest.arena.toList ∨
        ∀ id, token.kind = .literal id → id.index < after.forest.literals.size) :
    after.KnowsLiterals := by
  intro token id hmem hkind
  rcases htokens token hmem with hold | hnew
  · exact (h token id hold hkind).trans_le hsize
  · exact hnew id hkind

theorem KnowsLiterals.pushToken (h : state.KnowsLiterals) {token : Token}
    (htoken : ∀ id, token.kind = .literal id → id.index < state.forest.literals.size) :
    (state.pushToken token).KnowsLiterals := by
  refine h.extend le_rfl fun other hother => ?_
  simp only [LexState.pushToken, Array.toList_push, List.mem_append, List.mem_singleton] at hother ⊢
  rcases hother with (hother | rfl) | hother
  · exact .inl (.inl hother)
  · exact .inr htoken
  · exact .inl (.inr hother)

theorem KnowsLiterals.flushText (h : state.KnowsLiterals) : state.flushText.KnowsLiterals := by
  unfold LexState.flushText
  split
  · exact h
  · have hended : KnowsLiterals { state with textStart := none } := h
    exact hended.pushToken fun _ hkind => by cases hkind

theorem KnowsLiterals.closeContext (h : state.KnowsLiterals) (closer : Option DelimiterId)
    (stop : Nat) : (state.closeContext closer stop).KnowsLiterals := by
  unfold LexState.closeContext
  split
  · exact h
  · refine pushToken ?_ fun _ hkind => by cases hkind
    refine h.extend le_rfl fun token htoken => .inl ?_
    simp only [Forest.closeNode, Array.toList_append, List.mem_append, Array.shrink_eq_take,
      Array.take, Array.toList_extract, List.extract_eq_take_drop] at htoken ⊢
    rcases htoken with htoken | htoken | htoken
    · exact .inl (List.mem_of_mem_drop (List.mem_of_mem_take htoken))
    · exact .inr htoken
    · exact .inl (List.mem_of_mem_drop (List.mem_of_mem_take htoken))

end Literals

end LexState

namespace LexInput

open LexState

variable {input : LexInput} {state : LexState}

section Literals

theorem knowsLiterals_pushDelimiter (h : state.KnowsLiterals) (id : DelimiterId) (span : Span)
    (value : Option Literal) : (pushDelimiter state id span value).KnowsLiterals := by
  unfold pushDelimiter
  cases value with
  | none => exact h.pushToken fun _ hkind => by cases hkind
  | some literal =>
      have hliteral : KnowsLiterals { state with forest := (state.forest.pushLiteral literal).2 } :=
        h.extend (by simp [Forest.pushLiteral]) fun token htoken => .inl htoken
      refine hliteral.pushToken fun kept hkind => ?_
      obtain rfl := TokenKind.literal.inj hkind
      simp [Forest.pushLiteral]

theorem knowsLiterals_openContext (h : state.KnowsLiterals) (id : DelimiterId) (span : Span) :
    (input.openContext state id span).KnowsLiterals := by
  simp only [openContext]
  split
  · have hreported : ∀ category span message, (state.report category span message).KnowsLiterals :=
      fun _ _ _ => h
    exact (hreported _ _ _).pushToken fun _ hkind => by cases hkind
  · refine KnowsLiterals.pushToken ?_ fun _ hkind => by cases hkind
    exact h.extend le_rfl fun token htoken => .inl htoken

theorem knowsLiterals_placeDelimiter (h : state.KnowsLiterals) (id : DelimiterId) (span : Span)
    (value : Option Literal) : (input.placeDelimiter state id span value).KnowsLiterals := by
  rcases placeDelimiter_cases input state id span value with
    ⟨-, -, hclose⟩ | ⟨-, hopen⟩ | ⟨-, hreport⟩ | ⟨-, hplain⟩
  · rw [hclose]
    exact (h.pushToken fun _ hkind => by cases hkind).closeContext _ _
  · rw [hopen]
    exact knowsLiterals_openContext h id span
  · rw [hreport]
    have hreported : ∀ message, (state.report .structural span message).KnowsLiterals := fun _ => h
    exact knowsLiterals_pushDelimiter (hreported _) id span value
  · rw [hplain]
    exact knowsLiterals_pushDelimiter h id span value

theorem knowsLiterals_readDelimiter (h : state.KnowsLiterals) (id : DelimiterId) :
    (input.readDelimiter state id).KnowsLiterals := by
  unfold readDelimiter
  simp only
  generalize Text.splitReaching _ state.rest = split
  refine knowsLiterals_placeDelimiter ?_ _ _ _
  split
  · exact h
  · exact h

theorem knowsLiterals_stop (h : state.KnowsLiterals) : (input.stop state).KnowsLiterals := by
  have hall : ∀ (stop count : Nat) (s : LexState), s.KnowsLiterals →
      (closeAll stop count s).KnowsLiterals := by
    intro stop count
    induction count with
    | zero => exact fun s hs => hs
    | succ count ih => exact fun s hs => ih _ (hs.closeContext none stop)
  by_cases hopen : state.finished = false
  · rw [stop_eq hopen]
    refine KnowsLiterals.extend (hall state.cursor (input.reported state).stack.length
      (input.reported state) h.flushText) le_rfl fun token htoken => .inl ?_
    simp only [LexState.closeRoot, Forest.closeNode, Array.toList_append, List.mem_append]
      at htoken ⊢
    rcases htoken with htoken | htoken | htoken
    · cases htoken
    · exact .inr htoken
    · exact .inl htoken
  · rw [stop_of_finished input state (by simpa using hopen)]
    exact h

theorem knowsLiterals_step (h : state.KnowsLiterals) : (input.step state).KnowsLiterals := by
  by_cases hdone : state.finished = true
  · rw [step_of_finished input state hdone]
    exact h
  · rcases step_cases input (Bool.eq_false_iff.mpr hdone) with
      ⟨-, hstop⟩ | ⟨c, rest, -, ⟨-, hskip⟩ | ⟨id, -, hread⟩ | htext⟩
    · rw [hstop]
      exact knowsLiterals_stop h
    · rw [hskip]
      exact h.flushText
    · rw [hread]
      exact knowsLiterals_readDelimiter h.flushText id
    · rw [htext]
      exact h

/-- Whatever is called, the literals among the tokens have values. -/
theorem knowsLiterals_after (input : LexInput) (calls : List LexCall) :
    (input.after calls).KnowsLiterals := by
  refine after_induction (P := KnowsLiterals) ?_ (fun _ => knowsLiterals_step)
    (fun _ => knowsLiterals_stop) calls
  unfold start
  split
  · exact fun token id hmem => (nomatch hmem)
  · exact fun token id hmem => (nomatch hmem)

end Literals

section Below

/-- What is below complete tokens of the root is closed. -/
theorem Reads.exists_owner (h : input.Reads state) {token : Token}
    (hbelow : state.forest.Below (state.pending.toList.take state.progress.topLevel) token) :
    (∃ owner, token ∈ listIn state.forest (input.frames state) owner ∧ (owner = Forest.root ∨
      owner.index < state.forest.nodes.size ∧ ∀ frame ∈ input.frames state, frame.node ≠ owner)) ∧
    ∀ id, token.kind = .node id →
      id.index < state.forest.nodes.size ∧ ∀ frame ∈ input.frames state, frame.node ≠ id := by
  have hplaced := Placed.of_draft h.draft
  have hframed := Framed.of_draft h.draft
  have hclosed : ∀ token owner, token ∈ listIn state.forest (input.frames state) owner →
      (owner = Forest.root ∨ owner.index < state.forest.nodes.size ∧
        ∀ frame ∈ input.frames state, frame.node ≠ owner) → ∀ id, token.kind = .node id →
      id.index < state.forest.nodes.size ∧ ∀ frame ∈ input.frames state, frame.node ≠ id := by
    intro token owner hmem howner id hkind
    by_cases hself : id = owner
    · subst hself
      rcases howner with rfl | hclosed
      · exact absurd hkind (hplaced.unmarked _ token hmem)
      · exact hclosed
    · obtain ⟨hid, -, -, hopen⟩ := hplaced.nested owner token id hmem hkind hself
      exact ⟨hid, hopen⟩
  induction hbelow with
  | @top token htoken =>
      obtain ⟨tokens, hframe, htokens⟩ := exists_root_framesOf input.rules state.stack
        state.pending h.stacked
      have hlist : listIn state.forest (input.frames state) Forest.root = _ :=
        listIn_of_mem hframed.distinct hframe
      have hmem : token ∈ listIn state.forest (input.frames state) Forest.root := by
        rw [hlist, htokens]
        exact htoken
      exact ⟨⟨_, hmem, .inl rfl⟩, hclosed token _ hmem (.inl rfl)⟩
  | @inside token inner id _ hkind hinner ih =>
      have hid := ih.2 id hkind
      have hmem : inner ∈ listIn state.forest (input.frames state) id := by
        rw [listIn_of_forall_ne hid.2]
        exact hinner
      exact ⟨⟨id, hmem, .inr hid⟩, hclosed inner id hmem (.inr hid)⟩

/-- The nodes below complete tokens of the root have tokens. -/
theorem Reads.tokenList_ne_nil (h : input.Reads state) {token : Token} {id : NodeId}
    (hbelow : state.forest.Below (state.pending.toList.take state.progress.topLevel) token)
    (hkind : token.kind = .node id) : state.forest.tokenList id ≠ [] := by
  obtain ⟨hid, hopen⟩ := (h.exists_owner hbelow).2 id hkind
  exact (Filled.of_draft h.draft).closed id hid hopen

/-- What is below complete tokens of the root is among the tokens of the run. -/
theorem mem_of_below {tokens : List Token} {token : Token}
    (hbelow : state.forest.Below tokens token) (htokens : tokens ⊆ state.pending.toList) :
    token ∈ state.pending.toList ++ state.forest.arena.toList := by
  cases hbelow with
  | top htoken => exact List.mem_append_left _ (htokens htoken)
  | @inside outer _ id _ _ hinner =>
      exact List.mem_append_right _ (Forest.mem_of_mem_extract hinner)

/-- In a forest in which the text ends, the same is below complete tokens as before. -/
theorem Reads.below_of_endsIn (h : input.Reads state) {forest : Forest}
    (hends : EndsIn state forest) {token : Token}
    (hbelow : forest.Below (state.pending.toList.take state.progress.topLevel) token) :
    state.forest.Below (state.pending.toList.take state.progress.topLevel) token := by
  induction hbelow with
  | top htoken => exact .top htoken
  | inside _ hkind hinner ih =>
      rw [(hends.keeps.nodes _ (h.tokenList_ne_nil ih hkind)).1] at hinner
      exact .inside ih hkind hinner

/-- All forests in which the text ends agree on what is below complete tokens of the root. -/
theorem Reads.agreesOn (h : input.Reads state) (hknows : state.KnowsLiterals)
    {early full : Forest} (hearly : EndsIn state early) (hfull : EndsIn state full) :
    early.AgreesOn full state.progress.topLevel := by
  have hbelow : ∀ token, early.Below
      ((early.tokenList Forest.root).take state.progress.topLevel) token →
        state.forest.Below (state.pending.toList.take state.progress.topLevel) token := by
    rw [hearly.roots]
    exact fun token => h.below_of_endsIn hearly
  refine ⟨hearly.keeps.source.trans hfull.keeps.source.symm, ?_,
    hearly.roots.trans hfull.roots.symm, ?_, ?_⟩
  · have hlength := congrArg List.length hearly.roots
    have hsize : state.progress.topLevel ≤ state.pending.toList.length := by
      rw [Array.length_toList]
      exact rootCount_le h.stacked
    rw [List.length_take, List.length_take, Nat.min_eq_left hsize] at hlength
    exact min_eq_left_iff.mp hlength
  · intro token id htoken hkind
    have hlist := h.tokenList_ne_nil (hbelow token htoken) hkind
    obtain ⟨hearly, hheader⟩ := hearly.keeps.nodes id hlist
    obtain ⟨hfull, hheader'⟩ := hfull.keeps.nodes id hlist
    exact ⟨hearly.trans hfull.symm, hheader.trans hheader'.symm⟩
  · intro token id htoken hkind
    have hlt := hknows token id
      (mem_of_below (hbelow token htoken) (List.take_subset _ _)) hkind
    exact (hearly.keeps.literal_eq hlt).trans (hfull.keeps.literal_eq hlt).symm

end Below

section Runs

theorem Reads.runSteps (h : input.Reads state) (count : Nat)
    (hopen : (input.runSteps count state).finished = false) :
    input.Reads (input.runSteps count state) := by
  induction count generalizing state with
  | zero => exact h
  | succ count ih =>
      rw [LexInput.runSteps] at hopen ⊢
      rcases h.step with hreads | hstop
      · exact ih hreads hopen
      · rw [hstop, runSteps_of_finished finished_stop, finished_stop] at hopen
        cases hopen

/-- A run that has not ended after some steps reads there. -/
theorem reads_runSteps_start (count : Nat)
    (hopen : (input.runSteps count input.start).finished = false) :
    input.Reads (input.runSteps count input.start) := by
  by_cases hsize : input.source.size < Span.offsetCount
  · have hstart : input.start = input.fresh := if_pos hsize
    rw [hstart] at hopen ⊢
    exact (reads_fresh input).runSteps count hopen
  · have hdone : input.start.finished = true := by
      unfold start
      rw [if_neg hsize]
    rw [runSteps_of_finished hdone, hdone] at hopen
    cases hopen

/-- Steps that are taken before do not change where a run ends. -/
theorem run_runSteps (input : LexInput) (state : LexState) (count : Nat) :
    input.run (input.runSteps count state) = input.run state := by
  have hdone : (input.runSteps (count + ((input.runSteps count state).rest.length + 1))
      state).finished = true := by
    rw [runSteps_add]
    exact finished_runSteps _ (Nat.lt_succ_self _)
  rw [run_eq_of_finished hdone, runSteps_add]
  rfl

/-- A run that is ended early agrees with the whole run on what was complete. -/
theorem agreesOn_stop (count : Nat)
    (hopen : (input.runSteps count input.start).finished = false) :
    (input.stop (input.runSteps count input.start)).forest.AgreesOn input.lex.forest
      (input.runSteps count input.start).progress.topLevel := by
  have hreads := reads_runSteps_start count hopen
  have hknows : (input.runSteps count input.start).KnowsLiterals :=
    knowsLiterals_after input [.runSteps count]
  obtain ⟨last, hlast, honward, hrun⟩ := hreads.exists_stop
    ((input.runSteps count input.start).rest.length + 1)
      (finished_runSteps _ (Nat.lt_succ_self _))
  have hlex : input.lex.forest = (input.stop last).forest := by
    rw [← hrun]
    exact congrArg LexState.forest (run_runSteps input input.start count).symm
  rw [hlex]
  exact hreads.agreesOn hknows hreads.endsIn_stop (honward.endsIn hlast.endsIn_stop)

end Runs

end LexInput

namespace LexCall

/-- Does a call only read on? -/
def ReadsOn : LexCall → Prop
  | .step => True
  | .runSteps _ => True
  | .run => True
  | .runWhile _ => False
  | .stop => False

end LexCall

namespace LexInput

variable {input : LexInput} {state : LexState}

/--
Which step it is before which a call ends a run: the next one, or the first one where the condition
of a run does not hold or the text has ended.
-/
def EndsAt (input : LexInput) (state : LexState) : (ending : LexCall) → (count : Nat) → Prop
  | .stop, count => count = 0
  | .runWhile holds, count =>
      (∀ n < count, (input.runSteps n state).finished = false ∧
        holds (input.runSteps n state).progress = true) ∧
      ((input.runSteps count state).finished = true ∨
        holds (input.runSteps count state).progress = false)
  | _, _ => False

section Calls

/-- Reading on is taking steps. -/
theorem exists_runSteps_after (input : LexInput) {calls : List LexCall}
    (hcalls : ∀ call ∈ calls, call.ReadsOn) :
    ∃ count, input.after calls = input.runSteps count input.start := by
  have hfold : ∀ state, ∃ count, calls.foldl input.call state = input.runSteps count state := by
    induction calls with
    | nil => exact fun state => ⟨0, rfl⟩
    | cons call calls ih =>
        intro state
        obtain ⟨hcall, hcalls⟩ := List.forall_mem_cons.mp hcalls
        obtain ⟨first, hfirst⟩ : ∃ first, input.call state call = input.runSteps first state := by
          cases call with
          | step => exact ⟨1, rfl⟩
          | runSteps count => exact ⟨count, rfl⟩
          | run => exact ⟨_, rfl⟩
          | runWhile holds => exact hcall.elim
          | stop => exact hcall.elim
        obtain ⟨behind, hbehind⟩ := ih hcalls (input.runSteps first state)
        refine ⟨first + behind, ?_⟩
        rw [List.foldl_cons, hfirst, hbehind, runSteps_add]
  exact hfold input.start

/-- A run under a condition ends where it does not hold, or with the text. -/
theorem exists_endsAt_runWhileWithin (input : LexInput) (holds : LexProgress → Bool)
    (limit : Nat) (state : LexState)
    (hlimit : state.finished = true ∨ state.rest.length < limit) :
    ∃ count, input.EndsAt state (.runWhile holds) count ∧
      input.runWhileWithin holds limit state = input.stop (input.runSteps count state) := by
  induction limit generalizing state with
  | zero =>
      have hdone : state.finished = true := hlimit.resolve_right (Nat.not_lt_zero _)
      exact ⟨0, ⟨fun n hn => (nomatch hn), .inl hdone⟩, (stop_of_finished input state hdone).symm⟩
  | succ limit ih =>
      rw [runWhileWithin]
      split
      · rename_i hdone
        exact ⟨0, ⟨fun n hn => (nomatch hn), .inl hdone⟩, (stop_of_finished input state hdone).symm⟩
      · rename_i hopen
        have hopen : state.finished = false := Bool.eq_false_iff.mpr hopen
        split
        · rename_i hholds
          have hnext : (input.step state).finished = true ∨
              (input.step state).rest.length < limit := by
            refine (step_advances input hopen).imp_right fun hless => ?_
            have hlength := hlimit.resolve_left (by rw [hopen]; decide)
            omega
          obtain ⟨count, ⟨hbefore, hend⟩, hrun⟩ := ih (input.step state) hnext
          refine ⟨count + 1, ⟨fun n hn => ?_, hend⟩, hrun⟩
          cases n with
          | zero => exact ⟨hopen, hholds⟩
          | succ n => exact hbefore n (Nat.lt_of_succ_lt_succ hn)
        · rename_i hfails
          exact ⟨0, ⟨fun n hn => (nomatch hn), .inr (Bool.eq_false_iff.mpr hfails)⟩, rfl⟩

theorem exists_endsAt (state : LexState) {ending : LexCall} (hending : ¬ending.ReadsOn) :
    ∃ count, input.EndsAt state ending count ∧
      input.call state ending = input.stop (input.runSteps count state) := by
  cases ending with
  | step => exact absurd trivial hending
  | runSteps count => exact absurd trivial hending
  | run => exact absurd trivial hending
  | runWhile holds =>
      exact exists_endsAt_runWhileWithin input holds _ state (.inr (Nat.lt_succ_self _))
  | stop => exact ⟨0, rfl, rfl⟩

/-- Taken in pieces a run ends as if it had been taken in one. -/
theorem finish_of_readsOn (input : LexInput) {calls : List LexCall}
    (hcalls : ∀ call ∈ calls, call.ReadsOn) : input.finish calls = input.lex := by
  obtain ⟨count, hafter⟩ := exists_runSteps_after input hcalls
  unfold finish final
  rw [hafter, run_runSteps]
  rfl

end Calls

section Endings

/-- A call that ends a run leaves nothing to do. -/
theorem finish_of_endsAt {calls : List LexCall} {ending : LexCall} {count : Nat}
    (hcall : input.call (input.after calls) ending =
      input.stop (input.runSteps count (input.after calls))) :
    input.finish (calls ++ [ending]) =
      (input.stop (input.runSteps count (input.after calls))).output := by
  have hafter : input.after (calls ++ [ending]) = input.call (input.after calls) ending := by
    unfold after
    rw [List.foldl_append]
    rfl
  unfold finish final
  rw [hafter, hcall]
  exact congrArg LexState.output (runSteps_of_finished finished_stop _)

/-- A run that has ended by itself is the whole run. -/
theorem stop_eq_run (state : LexState) {count : Nat}
    (hdone : (input.runSteps count state).finished = true) :
    input.stop (input.runSteps count state) = input.run state := by
  rw [stop_of_finished input _ hdone, run_eq_of_finished hdone]

/-- The first word of a text is the text of the first token in its forest. -/
theorem firstWord?_eq (source : String) :
    Language.firstWord? source =
      (Language.input source).lex.forest.topLevel[0]?.map fun token =>
        String.ofList ((Language.input source).lex.forest.tokenText token) := by
  let input := Language.input source
  obtain ⟨count, ⟨-, hend⟩, hrun⟩ := exists_endsAt_runWhileWithin input
    (fun progress => progress.topLevel = 0) (input.start.rest.length + 1) input.start
      (.inr (Nat.lt_succ_self _))
  have hstop : input.run (input.runWhile (fun progress => progress.topLevel = 0) input.start) =
      input.stop (input.runSteps count input.start) := by
    unfold runWhile
    rw [hrun]
    exact runSteps_of_finished finished_stop _
  unfold Language.firstWord?
  simp only
  rw [hstop]
  cases hdone : (input.runSteps count input.start).finished with
  | true =>
      rw [stop_eq_run input.start hdone]
      rfl
  | false =>
      have hagrees := agreesOn_stop count hdone
      have hpos : 0 < (input.runSteps count input.start).progress.topLevel := by
        rw [hdone] at hend
        have hfails := hend.resolve_left (by decide)
        exact Nat.pos_of_ne_zero (of_decide_eq_false hfails)
      have hfirst := congrArg (fun tokens => tokens[0]?) hagrees.tokens
      simp only [List.getElem?_take_of_lt hpos] at hfirst
      have htokens : ∀ forest : Forest, forest.topLevel[0]? = (forest.tokenList Forest.root)[0]? :=
        fun forest => Array.getElem?_toList.symm
      have htext : (input.stop (input.runSteps count input.start)).forest.tokenText =
          input.lex.forest.tokenText := by
        funext token
        unfold Forest.tokenText Forest.spanText
        rw [hagrees.source]
      rw [htokens, htokens, hfirst, htext]

end Endings

/--
A run that is taken in pieces ends with the same forest and the same problems as one that is not.
One that is ended early ends with a forest in which the tokens of the root that were complete, and
everything below them, are those of the whole text. So is the first word of a text.
-/
theorem finish_interrupted (input : LexInput) (source : String) :
    (∀ calls, (∀ call ∈ calls, LexCall.ReadsOn call) → input.finish calls = input.lex) ∧
    (∀ calls ending, (∀ call ∈ calls, LexCall.ReadsOn call) → ¬LexCall.ReadsOn ending →
      ∃ count, input.EndsAt (input.after calls) ending count ∧
        let last := input.runSteps count (input.after calls)
        (last.finished = true → input.finish (calls ++ [ending]) = input.lex) ∧
        (last.finished = false →
          (input.finish (calls ++ [ending])).forest.AgreesOn input.lex.forest
            last.progress.topLevel)) ∧
    Language.firstWord? source =
      (Language.input source).lex.forest.topLevel[0]?.map fun token =>
        String.ofList ((Language.input source).lex.forest.tokenText token) := by
  refine ⟨fun calls => finish_of_readsOn input, fun calls ending hcalls hending => ?_,
    firstWord?_eq source⟩
  obtain ⟨count, hat, hcall⟩ := exists_endsAt (input.after calls) hending
  refine ⟨count, hat, ?_⟩
  obtain ⟨steps, hsteps⟩ := exists_runSteps_after input hcalls
  have hlast : input.runSteps count (input.after calls) =
      input.runSteps (steps + count) input.start := by
    rw [hsteps, runSteps_add]
  rw [finish_of_endsAt hcall, hlast]
  refine ⟨fun hdone => ?_, fun hopen => agreesOn_stop _ hopen⟩
  rw [stop_eq_run input.start hdone]
  rfl

/-- A run that is ended in a second pair of parentheses has three complete tokens. -/
theorem finish_interrupted_inside :
    (∀ call ∈ [LexCall.runSteps 13], LexCall.ReadsOn call) ∧ ¬LexCall.ReadsOn .stop ∧
      ((Language.input "ab (cd) ef (gh)").finish [.runSteps 13, .stop]).forest.AgreesOn
        (Language.input "ab (cd) ef (gh)").lex.forest 3 := by
  have hcalls : ∀ call ∈ [LexCall.runSteps 13], LexCall.ReadsOn call :=
    List.forall_mem_singleton.mpr trivial
  obtain ⟨count, hat, -, hagrees⟩ := (finish_interrupted (Language.input "ab (cd) ef (gh)")
    "ab (cd) ef (gh)").2.1 [.runSteps 13] .stop hcalls id
  obtain rfl : count = 0 := hat
  have hopen : ((Language.input "ab (cd) ef (gh)").after [.runSteps 13]).finished = false := by
    decide +kernel
  have hthree : ((Language.input "ab (cd) ef (gh)").after [.runSteps 13]).progress.topLevel = 3 := by
    decide +kernel
  have hwords := hagrees hopen
  rw [runSteps, hthree] at hwords
  exact ⟨hcalls, id, hwords⟩

end LexInput
end ExprLang
