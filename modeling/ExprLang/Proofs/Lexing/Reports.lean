import ExprLang.Proofs.Lexing.Frames
import ExprLang.Proofs.Lexing.Reading

/-!
# What the lexer reports

The lexer only adds to its log. When a run ends, every context that is still open is reported,
unless it may end with the text; such a context is a line comment, and its node has no closing
delimiter.

Main results:
* `LexInput.length_log_step`, `LexInput.length_log_runSteps`: no step takes a report back;
* `LexInput.Reads.stack_eq_nil`: a run that ends without a report has no context to close, if it
  has closed its line comments.
-/

namespace ExprLang

section Nodes

variable {input : LexInput} {forest : Forest} {frames : List Frame} {reach : Nat}

/-- A context is of the kind that its rule set says. -/
theorem Draft.contextClass_eq (draft : Draft input forest frames reach) {id : NodeId}
    (hid : id.index < forest.nodes.size) (hroot : id ≠ Forest.root) :
    (forest.header id).contextClass =
      (input.table.ruleSet (forest.header id).rules).contextClass := by
  induction draft with
  | start =>
      obtain ⟨i⟩ := id
      obtain rfl : i = 0 := Nat.lt_one_iff.mp hid
      exact absurd rfl hroot
  | skip _ _ _ ih => exact ih hid
  | leaf _ _ _ _ _ ih => exact ih hid
  | value _ _ ih => exact ih hid
  | opened _ _ _ _ _ ih =>
      rw [Forest.size_openNode] at hid
      rw [Forest.header_openNode]
      split
      · rfl
      · rename_i hnew
        exact ih (Forest.index_lt_of_ne_nextId hid hnew)
  | closed _ _ ih =>
      rw [Forest.size_closeNode] at hid
      rw [Forest.header_closeNode]
      split
      · rename_i hself
        rw [← hself.1]
        exact ih hid
      · exact ih hid

theorem Draft.header_root (draft : Draft input forest frames reach) :
    (forest.header Forest.root).contextClass = .ofFlags [.root] ∧
      (forest.header Forest.root).opener = none := by
  induction draft with
  | start => exact ⟨rfl, rfl⟩
  | skip _ _ _ ih => exact ih
  | leaf _ _ _ _ _ ih => exact ih
  | value _ _ ih => exact ih
  | opened draft _ _ _ _ ih =>
      obtain ⟨frame, hlast, hroot, -⟩ := (Framed.of_draft draft).root
      have hindex := ((Framed.of_draft draft).header frame (List.mem_of_getLast? hlast)).1
      rw [hroot] at hindex
      rw [Forest.header_openNode, if_neg (Forest.nextId_ne_of_index_lt hindex)]
      exact ih
  | closed _ _ ih =>
      rw [Forest.header_closeNode]
      split
      · rename_i hself
        rw [← hself.1]
        exact ih
      · exact ih

/-- The root of a lexed forest is no other context than the root, and no delimiter opens it. -/
theorem Lexed.header_root {stop : Nat} (h : Lexed input forest stop) :
    (forest.header Forest.root).contextClass = .ofFlags [.root] ∧
      (forest.header Forest.root).opener = none := by
  cases h with
  | intro draft =>
      rw [Forest.header_closeNode]
      split
      · exact draft.header_root
      · exact draft.header_root

theorem Draft.source_eq (draft : Draft input forest frames reach) :
    forest.source = input.source := by
  induction draft with
  | start => rfl
  | skip _ _ _ ih => exact ih
  | leaf _ _ _ _ _ ih => exact ih
  | value _ _ ih => exact ih
  | opened _ _ _ _ _ ih => exact ih
  | closed _ _ ih => exact ih

theorem Lexed.source_eq {stop : Nat} (h : Lexed input forest stop) :
    forest.source = input.source := by
  cases h with
  | intro draft => exact draft.source_eq

/-- A node whose list is being read has no closing delimiter yet. -/
theorem Draft.closer_eq_none (draft : Draft input forest frames reach) :
    ∀ frame ∈ frames, (forest.header frame.node).closer = none := by
  induction draft with
  | start =>
      intro frame hframe
      rw [List.mem_singleton.mp hframe]
      rfl
  | skip _ _ _ ih => exact ih
  | @leaf _ first _ _ _ _ _ _ _ ih =>
      intro frame hframe
      rcases List.mem_cons.mp hframe with rfl | hframe
      · exact ih first List.mem_cons_self
      · exact ih frame (List.mem_cons_of_mem _ hframe)
  | value _ _ ih => exact ih
  | opened draft _ _ _ _ ih =>
      intro frame hframe
      rw [Forest.header_openNode]
      split
      · rfl
      · rename_i hnew
        rcases List.mem_cons.mp hframe with rfl | hframe
        · exact absurd rfl hnew
        · exact ih frame hframe
  | @closed _ closed next outer _ _ _ _ draft _ ih =>
      have hdistinct := (List.nodup_cons.mp (Framed.of_draft draft).distinct).1
      have hother : ∀ frame ∈ next :: outer, frame.node ≠ closed.node := fun frame hframe heq =>
        hdistinct (heq ▸ List.mem_map_of_mem hframe)
      intro frame hframe
      rw [Forest.header_closeNode, if_neg]
      · rcases List.mem_cons.mp hframe with rfl | hframe
        · exact ih next (by simp)
        · exact ih frame (by simp [hframe])
      · rintro ⟨heq, -⟩
        rcases List.mem_cons.mp hframe with rfl | hframe
        · exact hother next List.mem_cons_self heq
        · exact hother frame (List.mem_cons_of_mem _ hframe) heq

end Nodes

/-- What a node may become when the text ends: it is closed without a delimiter, or left alone. -/
structure NodeHeader.EndsAs (header header' : NodeHeader) : Prop where
  opener : header'.opener = header.opener
  contextClass : header'.contextClass = header.contextClass
  parent : header'.parent = header.parent
  closer : header.closer = none → header'.closer = none

namespace NodeHeader.EndsAs

variable {first second third : NodeHeader}

theorem refl (header : NodeHeader) : header.EndsAs header :=
  ⟨rfl, rfl, rfl, id⟩

theorem trans (h : first.EndsAs second) (h' : second.EndsAs third) : first.EndsAs third :=
  ⟨h'.opener.trans h.opener, h'.contextClass.trans h.contextClass, h'.parent.trans h.parent,
    fun hnone => h'.closer (h.closer hnone)⟩

theorem closeNode (forest : Forest) (id other : NodeId) (tokens : Array Token) (stop : Nat) :
    (forest.header other).EndsAs ((forest.closeNode id tokens none stop).header other) := by
  rw [Forest.header_closeNode]
  split
  · rename_i hself
    rw [hself.1]
    exact ⟨rfl, rfl, rfl, fun _ => rfl⟩
  · exact refl _

end NodeHeader.EndsAs

/-- A line comment without a closing delimiter. -/
def NodeHeader.IsOpenLineComment (header : NodeHeader) : Prop :=
  header.contextClass.has .lineComment = true ∧ header.closer = none

namespace LexInput

variable {input : LexInput} {state : LexState}

section Steps

variable (category : Category) (span : Span) (message : String)

theorem length_log_report (state : LexState) :
    (state.report category span message).log.length = state.log.length + 1 := by
  simp [LexState.report, Log.report, Log.length]

theorem log_pushDelimiter (state : LexState) (id : DelimiterId) (value : Option Literal) :
    (pushDelimiter state id span value).log = state.log := by
  unfold pushDelimiter
  cases value with
  | none => rfl
  | some literal => rfl

theorem log_closeContext (state : LexState) (closer : Option DelimiterId) (stop : Nat) :
    (state.closeContext closer stop).log = state.log := by
  unfold LexState.closeContext
  split
  · rfl
  · rfl

/-- Placing a delimiter takes nothing out of the log. -/
theorem length_log_placeDelimiter (input : LexInput) (state : LexState) (id : DelimiterId)
    (span : Span) (value : Option Literal) :
    state.log.length ≤ (input.placeDelimiter state id span value).log.length := by
  rcases placeDelimiter_cases input state id span value with
    ⟨-, -, hclose⟩ | ⟨-, hopen⟩ | ⟨-, hreport⟩ | ⟨-, hplain⟩
  · rw [hclose, log_closeContext]
    rfl
  · rw [hopen]
    unfold openContext
    simp only
    split
    · exact (Nat.le_succ _).trans_eq (length_log_report _ _ _ state).symm
    · rfl
  · rw [hreport, log_pushDelimiter, length_log_report]
    exact Nat.le_succ _
  · rw [hplain, log_pushDelimiter]

theorem length_log_readDelimiter (input : LexInput) (state : LexState) (id : DelimiterId) :
    state.log.length ≤ (input.readDelimiter state id).log.length := by
  unfold readDelimiter
  simp only
  refine le_trans ?_ (length_log_placeDelimiter _ _ _ _ _)
  split
  · rfl
  · exact (Nat.le_succ _).trans_eq (length_log_report _ _ _ state).symm

end Steps

section Ending

/-- May a context not end with the text? -/
def needsCloser (input : LexInput) (context : OpenContext) : Bool :=
  !(input.table.ruleSet context.rules).contextClass.has .lineComment

/-- The report on a context that is still open. -/
def missingCloser (input : LexInput) (log : Log) (context : OpenContext) : Diagnostic :=
  let text := (input.table.delimiter context.opener).text
  log.entry .lex (.ofLength context.start (Text.byteSize text))
    (ContextFault.missingCloser (String.ofList text)).message

/-- The open contexts are reported in their order, those apart that may end with the text. -/
theorem foldl_reportOpen (input : LexInput) (contexts : List OpenContext) (log : Log) :
    (contexts.foldl input.reportOpen log).lines = log.lines ∧
      (contexts.foldl input.reportOpen log).entries.toList =
        log.entries.toList ++
          (contexts.filter input.needsCloser).map (input.missingCloser log) := by
  induction contexts generalizing log with
  | nil => exact ⟨rfl, (List.append_nil _).symm⟩
  | cons context contexts ih =>
      obtain ⟨hlines, hentries⟩ := ih (input.reportOpen log context)
      by_cases hcomment :
          (input.table.ruleSet context.rules).contextClass.has .lineComment = true
      · have hlog : input.reportOpen log context = log := if_pos hcomment
        have hneeds : ¬input.needsCloser context = true := by simp [needsCloser, hcomment]
        rw [hlog] at hlines hentries
        rw [List.foldl_cons, hlog, List.filter_cons_of_neg hneeds]
        exact ⟨hlines, hentries⟩
      · have hlog : input.reportOpen log context =
            { log with entries := log.entries.push (input.missingCloser log context) } :=
          if_neg hcomment
        have hneeds : input.needsCloser context = true := by simp [needsCloser, hcomment]
        have hsame : input.missingCloser (input.reportOpen log context) =
            input.missingCloser log := by
          funext other
          exact Log.entry_congr (by rw [hlog]) _ _ _
        rw [hsame, hlog] at hentries
        rw [hlog] at hlines
        rw [List.foldl_cons, hlog, List.filter_cons_of_pos hneeds, hentries, Array.toList_push,
          List.map_cons, List.append_assoc]
        exact ⟨hlines, rfl⟩

theorem log_closeAll (stop count : Nat) (state : LexState) :
    (closeAll stop count state).log = state.log := by
  induction count generalizing state with
  | zero => rfl
  | succ count ih => rw [closeAll, ih, log_closeContext]

/-- When a run ends, the open contexts are reported. -/
theorem log_stop (hopen : state.finished = false) :
    (input.stop state).log = state.stack.reverse.foldl input.reportOpen state.log := by
  rw [stop_eq hopen]
  refine (log_closeAll _ _ (input.reported state)).trans ?_
  rw [reported, stack_flushText, log_flushText]

/-- No step takes a report back. -/
theorem length_log_step (input : LexInput) (state : LexState) :
    state.log.length ≤ (input.step state).log.length := by
  by_cases hopen : state.finished = false
  · rcases step_cases input hopen with
      ⟨-, hstop⟩ | ⟨c, rest, -, ⟨-, hblank⟩ | ⟨id, -, hread⟩ | htext⟩
    · rw [hstop, log_stop hopen, Log.length, Log.length, ← Array.length_toList,
        ← Array.length_toList, (foldl_reportOpen _ _ _).2, List.length_append]
      exact Nat.le_add_right _ _
    · rw [hblank]
      exact (congrArg Log.length (log_flushText state)).ge
    · rw [hread, ← log_flushText]
      exact length_log_readDelimiter _ _ _
    · rw [htext]
      rfl
  · rw [step_of_finished input state (by simpa using hopen)]

theorem length_log_runSteps (input : LexInput) (count : Nat) (state : LexState) :
    state.log.length ≤ (input.runSteps count state).log.length := by
  induction count generalizing state with
  | zero => exact le_rfl
  | succ count ih => exact (length_log_step input state).trans (ih _)

theorem endsAs_closeAll (stop count : Nat) (state : LexState) (id : NodeId) :
    (state.forest.header id).EndsAs ((closeAll stop count state).forest.header id) := by
  induction count generalizing state with
  | zero => exact .refl _
  | succ count ih =>
      refine .trans ?_ (ih _)
      unfold LexState.closeContext
      split
      · exact .refl _
      · exact .closeNode _ _ _ _ _

/-- The end of a run closes nodes without a delimiter, and does nothing else to any node. -/
theorem endsAs_stop (hopen : state.finished = false) (id : NodeId) :
    (state.forest.header id).EndsAs ((input.stop state).forest.header id) := by
  rw [stop_eq hopen, ← forest_flushText]
  exact (endsAs_closeAll _ _ (input.reported state) id).trans (.closeNode _ _ _ _ _)

theorem map_node_framesOf (rules : RuleSetId) (stack : List OpenContext) (pending : Array Token) :
    (framesOf rules stack pending).map Frame.node =
      stack.map OpenContext.node ++ [Forest.root] := by
  induction stack generalizing pending with
  | nil => rfl
  | cons context outer ih => exact congrArg (context.node :: ·) (ih _)

/-- The contexts that are open have nodes of their own, and none of them is the root. -/
theorem Reads.nodup_nodes (h : input.Reads state) :
    (state.stack.map OpenContext.node).Nodup ∧
      ∀ context ∈ state.stack, context.node ≠ Forest.root := by
  have hdistinct := (Framed.of_draft h.draft).distinct
  unfold frames at hdistinct
  rw [map_node_framesOf] at hdistinct
  refine ⟨hdistinct.of_append_left, fun context hcontext hroot => ?_⟩
  exact (List.disjoint_of_nodup_append hdistinct) (List.mem_map_of_mem hcontext)
    (List.mem_singleton.mpr hroot)

/-- The list that is read for an open context. -/
theorem exists_frame_of_mem {stack : List OpenContext} {context : OpenContext}
    (hcontext : context ∈ stack) (rules : RuleSetId) (pending : Array Token) :
    ∃ frame ∈ framesOf rules stack pending, frame.node = context.node ∧
      frame.rules = context.rules := by
  induction stack generalizing pending with
  | nil => cases hcontext
  | cons innermost outer ih =>
      rcases List.mem_cons.mp hcontext with rfl | hcontext
      · exact ⟨_, List.mem_cons_self, rfl, rfl⟩
      · obtain ⟨frame, hframe, hsame⟩ := ih hcontext (pending.shrink innermost.first)
        exact ⟨frame, List.mem_cons_of_mem _ hframe, hsame⟩

theorem Reads.size_pos (h : input.Reads state) : 0 < state.forest.nodes.size := by
  obtain ⟨frame, hlast, -⟩ := (Framed.of_draft h.draft).root
  exact Nat.zero_lt_of_lt ((Framed.of_draft h.draft).header frame (List.mem_of_getLast? hlast)).1

/--
The node of an open context has no tokens and no closing delimiter yet, and is of the kind of its
rule set.
-/
theorem Reads.header_of_mem (h : input.Reads state) {context : OpenContext}
    (hcontext : context ∈ state.stack) :
    context.node.index < state.forest.nodes.size ∧ state.forest.tokenList context.node = [] ∧
      (state.forest.header context.node).closer = none ∧
      (state.forest.header context.node).rules = context.rules ∧
      (state.forest.header context.node).contextClass =
        (input.table.ruleSet context.rules).contextClass := by
  obtain ⟨frame, hframe, hnode, hsame⟩ := exists_frame_of_mem hcontext input.rules state.pending
  have hroot : frame.node ≠ Forest.root := hnode ▸ h.nodup_nodes.2 context hcontext
  obtain ⟨hindex, hrules, -⟩ := (Framed.of_draft h.draft).header frame hframe
  rw [← hnode, ← hsame]
  refine ⟨hindex, h.draft.tokenList_eq_nil _ hframe, h.draft.closer_eq_none _ hframe, hrules, ?_⟩
  rw [h.draft.contextClass_eq hindex hroot, hrules]

/--
A run that ends without a report has no context to close, if no line comment is without its
closing delimiter then.
-/
theorem Reads.stack_eq_nil (h : input.Reads state)
    (hlog : (input.stop state).log.length ≤ state.log.length)
    (hclosed : ∀ id, ¬((input.stop state).forest.header id).IsOpenLineComment) :
    state.stack = [] := by
  by_contra hne
  obtain ⟨context, contexts, hstack⟩ := List.exists_cons_of_ne_nil hne
  have hmem : context ∈ state.stack := hstack ▸ List.mem_cons_self
  have hneeds : state.stack.filter input.needsCloser = [] := by
    rw [log_stop h.unfinished, Log.length, ← Array.length_toList, (foldl_reportOpen _ _ _).2,
      List.length_append, List.length_map, Log.length, ← Array.length_toList] at hlog
    rw [← List.reverse_eq_nil_iff, ← List.filter_reverse]
    exact List.length_eq_zero_iff.mp (by omega)
  have hcomment := List.filter_eq_nil_iff.mp hneeds context hmem
  obtain ⟨-, -, hcloser, -, hclass⟩ := h.header_of_mem hmem
  have hends := @endsAs_stop input state h.unfinished context.node
  refine hclosed context.node ⟨?_, hends.closer hcloser⟩
  rw [hends.contextClass, hclass]
  simpa [needsCloser] using hcomment

end Ending

end LexInput
end ExprLang
