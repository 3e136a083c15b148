import ExprLang.Proofs.Lexing.Onward
import ExprLang.Proofs.Lexing.Strays

/-!
# Contexts without a closing delimiter

A context that is read to its end is closed by a delimiter, and one that is still open when the run
ends is closed without one. So the nodes without a closing delimiter are those of the contexts that
are open at the end. These are nested in each other, and are reported from the outside to the
inside, each at the delimiter that opened it; only a line comment may end with the text.

Main definitions:
* `Headed`, `LexState.Tracks`: what is known of the contexts that are open, and of the other ones;
* `Forest.IsUnclosed`, `Forest.ReportsUnclosed`: a node without a closing delimiter, and the report
  on it.

Main results:
* `LexInput.tracks_step`: what a step keeps;
* `LexInput.contextReports_finish`: what is reported on closing delimiters and unclosed contexts,
  wherever a run ends.
-/

namespace ExprLang

/-- A report that a context has no closing delimiter. -/
def Diagnostic.IsMissingCloser (report : Diagnostic) : Prop :=
  ∃ opener, report.message = (ContextFault.missingCloser opener).message

namespace Forest

variable (forest : Forest)

/-- One node is inside another one, directly or within others. -/
def IsBelow (inner outer : NodeId) : Prop :=
  Relation.TransGen (fun id owner => (forest.header id).parent = some owner) inner outer

instance : Trans forest.IsBelow forest.IsBelow forest.IsBelow :=
  ⟨Relation.TransGen.trans⟩

/-- A context that has no closing delimiter and may not end with the text. -/
def IsUnclosed (id : NodeId) : Prop :=
  id.index < forest.nodes.size ∧ id ≠ root ∧ (forest.header id).closer = none ∧
    (forest.header id).contextClass.has .lineComment = false

/-- The report on an unclosed context, which is at its first token: the delimiter that opened it. -/
def ReportsUnclosed (table : RuleSetTable) (log : Log) (report : Diagnostic) (id : NodeId) : Prop :=
  ∃ opener marker rest, (forest.header id).opener = some opener ∧
    forest.tokenList id = marker :: rest ∧ marker.isMarkerOf id = true ∧
      report = log.entry .lex marker.span
        (ContextFault.missingCloser (String.ofList (table.delimiter opener).text)).message

end Forest

section Wording

/-- The first characters of a report on an unclosed context. -/
theorem ContextFault.take_message_missingCloser (opener : String) :
    (missingCloser opener).message.toList.take 2 = ['m', 'i'] := by
  unfold message
  rw [String.toList_append, String.toList_append]
  rfl

/-- No other fault is worded like an unclosed context. -/
theorem not_isMissingCloser {report : Diagnostic} (h : report.message.toList.take 2 ≠ ['m', 'i']) :
    ¬report.IsMissingCloser := by
  rintro ⟨opener, hmessage⟩
  rw [hmessage] at h
  exact h (ContextFault.take_message_missingCloser opener)

theorem ScanFault.IsBuiltIn.take_message_ne {fault : ScanFault} (h : fault.IsBuiltIn) :
    fault.message.toList.take 2 ≠ ['m', 'i'] := by
  cases fault with
  | other message => exact h.elim
  | _ => decide

theorem ContextFault.take_message_unexpectedCloser (closer : String) :
    (unexpectedCloser closer).message.toList.take 2 ≠ ['m', 'i'] := by
  unfold message
  rw [String.toList_append, String.toList_append]
  exact (by decide : ['u', 'n'] ≠ ['m', 'i'])

end Wording

section Contexts

/-- The token of the delimiter that opened a context. -/
def OpenContext.marker (table : RuleSetTable) (context : OpenContext) : Token :=
  ⟨.ofLength context.start (Text.byteSize (table.delimiter context.opener).text),
    .node context.node⟩

/-- The tokens of each open context start with the delimiter that opened it. -/
def Headed (table : RuleSetTable) : List OpenContext → (pending : Array Token) → Prop
  | [], _ => True
  | context :: outer, pending =>
      (∃ rest, (pending.extract context.first).toList = context.marker table :: rest) ∧
        Headed table outer (pending.shrink context.first)

/-- So they start in the order in which they were opened. -/
theorem Headed.stacked {table : RuleSetTable} {stack : List OpenContext} {pending : Array Token}
    (h : Headed table stack pending) : Stacked stack pending.size := by
  induction stack generalizing pending with
  | nil => trivial
  | cons context outer ih =>
      obtain ⟨⟨rest, hrest⟩, houter⟩ := h
      have hfirst : context.first ≤ pending.size := by
        by_contra hbehind
        rw [Array.extract_empty_of_size_le_start (Nat.le_of_not_le hbehind)] at hrest
        cases hrest
      have hstacked := ih houter
      rw [Array.size_shrink, Nat.min_eq_left hfirst] at hstacked
      exact ⟨hfirst, hstacked⟩

/-- A pending token is added behind the others. -/
theorem Headed.push {table : RuleSetTable} {stack : List OpenContext} {pending : Array Token}
    (h : Headed table stack pending) (token : Token) : Headed table stack (pending.push token) := by
  have hstacked := h.stacked
  cases stack with
  | nil => trivial
  | cons context outer =>
      obtain ⟨⟨rest, hrest⟩, houter⟩ := h
      rw [Headed, extract_push hstacked.1, shrink_push hstacked.1]
      exact ⟨⟨rest ++ [token], by rw [Array.toList_push, hrest, List.cons_append]⟩, houter⟩

/--
The open contexts start with their delimiters, all other ones but the root have a closing delimiter,
and no context has been reported to be without one.
-/
structure LexState.Tracks (table : RuleSetTable) (state : LexState) : Prop where
  headed : Headed table state.stack state.pending
  opener : ∀ context ∈ state.stack, context.node.index < state.forest.nodes.size ∧
    (state.forest.header context.node).opener = some context.opener
  closed : ∀ id, id.index < state.forest.nodes.size → id ≠ Forest.root →
    (∀ context ∈ state.stack, context.node ≠ id) → (state.forest.header id).closer ≠ none
  silent : ∀ report ∈ state.log.entries.toList, ¬report.IsMissingCloser

namespace LexState.Tracks

variable {table : RuleSetTable} {state : LexState}

theorem advance (h : state.Tracks table) (size : Nat) (rest : List Char) :
    (state.advance size rest).Tracks table :=
  ⟨h.headed, h.opener, h.closed, h.silent⟩

theorem pushToken (h : state.Tracks table) (token : Token) : (state.pushToken token).Tracks table :=
  ⟨h.headed.push token, h.opener, h.closed, h.silent⟩

theorem flushText (h : state.Tracks table) : state.flushText.Tracks table := by
  unfold LexState.flushText
  split
  · exact h
  · have hended : { state with textStart := none }.Tracks table :=
      ⟨h.headed, h.opener, h.closed, h.silent⟩
    exact hended.pushToken _

theorem report (h : state.Tracks table) (category : Category) (span : Span) {message : String}
    (hmessage : message.toList.take 2 ≠ ['m', 'i']) :
    (state.report category span message).Tracks table := by
  refine ⟨h.headed, h.opener, h.closed, fun report hreport => ?_⟩
  rw [LexState.report, Log.toList_report] at hreport
  rcases List.mem_append.mp hreport with hold | hnew
  · exact h.silent report hold
  · rw [List.mem_singleton.mp hnew]
    exact not_isMissingCloser hmessage

theorem pushDelimiter (h : state.Tracks table) (id : DelimiterId) (span : Span)
    (value : Option Literal) : (LexInput.pushDelimiter state id span value).Tracks table := by
  unfold LexInput.pushDelimiter
  cases value with
  | none => exact h.pushToken _
  | some literal =>
      have hkept : { state with forest := (state.forest.pushLiteral literal).2 }.Tracks table :=
        ⟨h.headed, h.opener, h.closed, h.silent⟩
      exact hkept.pushToken _

/-- A context that is closed by a delimiter has that as its end. -/
theorem closeContext (h : state.Tracks table) (closer : DelimiterId) (stop : Nat) :
    (state.closeContext (some closer) stop).Tracks table := by
  unfold LexState.closeContext
  cases hstack : state.stack with
  | nil => exact h
  | cons context outer =>
      have hheaded := h.headed
      rw [hstack] at hheaded
      have hindex := (h.opener context (hstack ▸ List.mem_cons_self)).1
      refine pushToken ?_ _
      refine ⟨hheaded.2, fun other hother => ?_, fun id hid hroot hopen => ?_, h.silent⟩
      · have hopener := h.opener other (hstack ▸ List.mem_cons_of_mem _ hother)
        rw [Forest.size_closeNode, Forest.header_closeNode]
        split
        · rename_i hself
          exact ⟨hopener.1, hself.1 ▸ hopener.2⟩
        · exact hopener
      · rw [Forest.size_closeNode] at hid
        rw [Forest.header_closeNode]
        split
        · exact Option.some_ne_none closer
        · rename_i hother
          refine h.closed id hid hroot fun known hknown => ?_
          rcases List.mem_cons.mp (hstack ▸ hknown) with rfl | hknown
          · exact fun heq => hother ⟨heq.symm, heq ▸ hindex⟩
          · exact hopen known hknown

end LexState.Tracks

end Contexts

namespace LexInput

variable {input : LexInput} {state : LexState}

section Delimiters

variable {id : DelimiterId} {span : Span}

/-- A context that is opened starts with its delimiter. -/
theorem tracks_openContext (h : state.Tracks input.table) {rules : RuleSetId}
    (hfind : (input.table.delimiter id).contextName?.bind input.table.find? = some rules)
    (hspan : span = .ofLength span.start (Text.byteSize (input.table.delimiter id).text)) :
    (input.openContext state id span).Tracks input.table := by
  have hne : ∀ context ∈ state.stack, context.node ≠ state.forest.nextId := fun context hcontext =>
    Forest.nextId_ne_of_index_lt (h.opener context hcontext).1
  unfold openContext
  simp only [hfind]
  refine ⟨⟨⟨[], ?_⟩, ?_⟩, ?_, ?_, h.silent⟩
  · simp only [LexState.pushToken]
    rw [extract_size_push]
    exact congrArg (fun s => [(⟨s, .node state.forest.nextId⟩ : Token)]) hspan
  · simp only [LexState.pushToken]
    rw [shrink_size_push]
    exact h.headed
  · intro context hcontext
    simp only [LexState.pushToken]
    rw [Forest.size_openNode, Forest.header_openNode]
    rcases List.mem_cons.mp hcontext with rfl | hcontext
    · exact ⟨Nat.lt_succ_self _, congrArg NodeHeader.opener (if_pos rfl)⟩
    · rw [if_neg (hne context hcontext)]
      exact ⟨(h.opener context hcontext).1.trans (Nat.lt_succ_self _),
        (h.opener context hcontext).2⟩
  · intro other hother hroot hopen
    simp only [LexState.pushToken] at hother ⊢
    obtain ⟨hnew, hopen⟩ := List.forall_mem_cons.mp hopen
    rw [Forest.size_openNode] at hother
    rw [Forest.header_openNode, if_neg fun heq => hnew heq.symm]
    exact h.closed other (Forest.index_lt_of_ne_nextId hother fun heq => hnew heq.symm) hroot hopen

theorem tracks_placeDelimiter (htable : input.table = Grammar.builtin)
    (h : state.Tracks input.table)
    (hspan : (input.table.delimiter id).scan = none →
      span = .ofLength span.start (Text.byteSize (input.table.delimiter id).text))
    (value : Option Literal) : (input.placeDelimiter state id span value).Tracks input.table := by
  rcases placeDelimiter_cases input state id span value with
    ⟨-, -, hclose⟩ | ⟨hopens, hopen⟩ | ⟨-, hreport⟩ | ⟨-, hplain⟩
  · rw [hclose]
    exact (h.pushToken _).closeContext id span.stop
  · rw [hopen]
    rw [htable] at hopens
    obtain ⟨hscan, rules, hfind⟩ := Grammar.exists_rules_of_opens hopens
    rw [← htable] at hscan hfind
    exact tracks_openContext h hfind (hspan hscan)
  · rw [hreport]
    refine LexState.Tracks.pushDelimiter ?_ id span value
    exact h.report _ _ (ContextFault.take_message_unexpectedCloser _)
  · rw [hplain]
    exact h.pushDelimiter id span value

end Delimiters

/-- What a step keeps. -/
theorem tracks_step (htable : input.table = Grammar.builtin) (hreads : input.Reads state)
    (h : state.Tracks input.table) {c : Char} {rest : List Char} (hrest : state.rest = c :: rest) :
    (input.step state).Tracks input.table := by
  rcases step_cases input hreads.unfinished with
    ⟨hnil, -⟩ | ⟨_, _, -, ⟨-, hblank⟩ | ⟨id, hfind, hread⟩ | htext⟩
  · rw [hrest] at hnil
    cases hnil
  · rw [hblank]
    exact h.flushText.advance _ _
  · rw [htable, hrest] at hfind
    obtain ⟨text, behind, htext, rfl⟩ := Grammar.exists_text_of_findIn hfind
    rw [← htable] at htext
    obtain ⟨taken, rest, reported, -, -, hbare, hreported, hplace⟩ :=
      exists_readDelimiter htext ((rest_flushText state).trans hrest)
    have hbefore : reported.Tracks input.table := by
      rcases hreported with rfl | ⟨error, herror, rfl⟩
      · exact h.flushText
      · rw [htable] at herror
        exact h.flushText.report _ _
          ((Grammar.known_delimiter id).isBuiltIn_fault herror).take_message_ne
    rw [hread, hplace]
    refine tracks_placeDelimiter htable (hbefore.advance _ _) (fun hscan => ?_) _
    rw [hbare hscan, htext]
    rfl
  · rw [htext]
    have hstarted : ({ state with textStart := state.textStart <|> some state.cursor } :
        LexState).Tracks input.table := ⟨h.headed, h.opener, h.closed, h.silent⟩
    exact hstarted.advance _ _

section Ending

/-- Each context that is closed at the end has its tokens from its opening delimiter on. -/
theorem tokenList_closeAll {table : RuleSetTable} (state : LexState)
    (h : Headed table state.stack state.pending) {stop : Nat}
    (hdraft : Draft input state.forest (input.frames state) stop) :
    ∀ context ∈ state.stack, ∃ rest,
      (closeAll stop state.stack.length state).forest.tokenList context.node =
        context.marker table :: rest := by
  generalize hcount : state.stack.length = count
  induction count generalizing state with
  | zero =>
      intro context hcontext
      rw [List.length_eq_zero_iff.mp hcount] at hcontext
      cases hcontext
  | succ count ih =>
      obtain ⟨innermost, outer, hstack⟩ : ∃ innermost outer, state.stack = innermost :: outer :=
        List.exists_cons_of_length_eq_add_one hcount
      have houter : (state.closeContext none stop).stack = outer := by
        rw [stack_closeContext, hstack, List.tail_cons]
      have hpending : (state.closeContext none stop).pending =
          (state.pending.shrink innermost.first).push
            ⟨⟨innermost.start, stop⟩, .node innermost.node⟩ := by
        unfold LexState.closeContext
        rw [hstack]
        rfl
      have hforest : (state.closeContext none stop).forest =
          state.forest.closeNode innermost.node (state.pending.extract innermost.first) none
            stop := by
        unfold LexState.closeContext
        rw [hstack]
        rfl
      have hclosed := draft_cutContext hstack h.stacked hdraft
      obtain ⟨hpacked, hindex, -⟩ := context_of_draft hstack hdraft
      rw [hstack] at h
      obtain ⟨⟨rest, hfirst⟩, hheaded⟩ := h
      have hnext : Headed table (state.closeContext none stop).stack
          (state.closeContext none stop).pending := by
        rw [houter, hpending]
        exact hheaded.push _
      have hlength : (state.closeContext none stop).stack.length = count := by
        rw [stack_closeContext, List.length_tail, hcount, Nat.add_sub_cancel]
      intro context hcontext
      rw [hstack] at hcontext
      rcases List.mem_cons.mp hcontext with rfl | hcontext
      · -- what is closed now keeps its tokens
        have hlist : (state.closeContext none stop).forest.tokenList context.node =
            context.marker table :: rest := by
          rw [hforest, Forest.tokenList_closeNode _ hpacked hindex, if_pos rfl, hfirst]
        have hkeeps := (onward_closeAll _ hnext.stacked hclosed).1.keeps
        rw [hlength] at hkeeps
        refine ⟨rest, ?_⟩
        rw [closeAll, (hkeeps.nodes context.node (by simp [hlist])).1, hlist]
      · exact ih _ hnext hclosed hlength context (houter ▸ hcontext)

/-- When a run ends, the list of each open context starts with the delimiter that opened it. -/
theorem Reads.tokenList_stop (h : input.Reads state) (htracks : state.Tracks input.table) :
    ∀ context ∈ state.stack, ∃ rest,
      (input.stop state).forest.tokenList context.node =
        context.marker input.table :: rest := by
  obtain ⟨hstacked, hdraft⟩ := h.draft_reported
  rw [stop_eq h.unfinished]
  have hlists := tokenList_closeAll (input.reported state) htracks.flushText.headed hdraft
  have hclosed := draft_closeAll (input.reported state) hstacked hdraft
  have hframed := Framed.of_draft hclosed
  have hindex := (hframed.header _ (List.mem_singleton_self _)).1
  intro context hcontext
  obtain ⟨rest, hlist⟩ := hlists context ((stack_flushText state).symm ▸ hcontext)
  have hkeeps := Forest.keeps_closeNode _ hframed.packed hindex
    (hclosed.tokenList_eq_nil _ (List.mem_singleton_self _))
    (closeAll state.cursor (input.reported state).stack.length (input.reported state)).pending
    none state.cursor
  exact ⟨rest, (hkeeps.nodes context.node (by simp [hlist])).1.trans hlist⟩

theorem size_closeAll (stop count : Nat) (state : LexState) :
    (closeAll stop count state).forest.nodes.size = state.forest.nodes.size := by
  induction count generalizing state with
  | zero => rfl
  | succ count ih =>
      rw [closeAll, ih]
      unfold LexState.closeContext
      split
      · rfl
      · exact Forest.size_closeNode _ _ _ _ _

/-- The end of a run makes no nodes. -/
theorem size_stop (hopen : state.finished = false) :
    (input.stop state).forest.nodes.size = state.forest.nodes.size := by
  rw [stop_eq hopen, ← forest_flushText state]
  exact (Forest.size_closeNode _ _ _ _ _).trans (size_closeAll _ _ (input.reported state))

/-- The unclosed nodes are those of the contexts that are open when a run ends. -/
theorem Reads.isUnclosed_stop_iff (h : input.Reads state) (htracks : state.Tracks input.table)
    (id : NodeId) :
    (input.stop state).forest.IsUnclosed id ↔
      ∃ context ∈ state.stack, input.needsCloser context = true ∧ context.node = id := by
  have hends := @endsAs_stop input state h.unfinished id
  unfold Forest.IsUnclosed
  rw [size_stop h.unfinished, hends.contextClass]
  constructor
  · rintro ⟨hid, hroot, hcloser, hclass⟩
    by_cases hopen : ∃ context ∈ state.stack, context.node = id
    · obtain ⟨context, hcontext, rfl⟩ := hopen
      obtain ⟨-, -, -, -, hcontextClass⟩ := h.header_of_mem hcontext
      refine ⟨context, hcontext, ?_, rfl⟩
      rw [needsCloser, ← hcontextClass, hclass]
      rfl
    · -- a node that was closed before has kept its closing delimiter
      exfalso
      have hother : ∀ context ∈ state.stack, context.node ≠ id := fun context hcontext heq =>
        hopen ⟨context, hcontext, heq⟩
      have hlist : state.forest.tokenList id ≠ [] := by
        refine (Filled.of_draft h.draft).closed id hid fun frame hframe heq => ?_
        have hmem : frame.node ∈ (input.frames state).map Frame.node := List.mem_map_of_mem hframe
        unfold frames at hmem
        rw [map_node_framesOf, heq] at hmem
        rcases List.mem_append.mp hmem with hmem | hmem
        · obtain ⟨context, hcontext, hnode⟩ := List.mem_map.mp hmem
          exact hother context hcontext hnode
        · exact hroot (List.mem_singleton.mp hmem)
      rw [(h.endsIn_stop.keeps.nodes id hlist).2] at hcloser
      exact htracks.closed id hid hroot hother hcloser
  · rintro ⟨context, hcontext, hneeds, rfl⟩
    obtain ⟨hindex, -, hcloser, -, hclass⟩ := h.header_of_mem hcontext
    refine ⟨hindex, h.nodup_nodes.2 context hcontext, hends.closer hcloser, ?_⟩
    rw [hclass]
    simpa [needsCloser] using hneeds

/-- The open contexts are nested in each other, also when a run has ended. -/
theorem Reads.pairwise_isBelow_stop (h : input.Reads state) :
    state.stack.Pairwise fun inner outer =>
      (input.stop state).forest.IsBelow inner.node outer.node := by
  have hchain : ((input.frames state).map Frame.node).IsChain fun id owner =>
      (state.forest.header id).parent = some owner :=
    List.isChain_map_of_isChain _ (fun _ _ hparent => hparent.1) (Placed.of_draft h.draft).chain
  unfold frames at hchain
  rw [map_node_framesOf] at hchain
  have hbelow : (state.stack.map OpenContext.node).IsChain (input.stop state).forest.IsBelow :=
    hchain.left_of_append.imp fun id _ hparent =>
      .single ((@endsAs_stop input state h.unfinished id).parent.trans hparent)
  exact List.pairwise_map.mp hbelow.pairwise

end Ending

/-- When a run ends, each unclosed context is reported, the outermost one first. -/
theorem Reads.exists_reports_stop (h : input.Reads state) (htracks : state.Tracks input.table)
    (hlines : state.log.lines = (Log.ofSource input.source).lines) :
    ∃ others reports unclosed,
      (input.stop state).log.entries.toList = others ++ reports ∧
        (∀ report ∈ others, ¬report.IsMissingCloser) ∧
        reports.Forall₂
          ((input.stop state).forest.ReportsUnclosed input.table (Log.ofSource input.source))
          unclosed ∧
        (∀ id, id ∈ unclosed ↔ (input.stop state).forest.IsUnclosed id) ∧ unclosed.Nodup ∧
        unclosed.Pairwise fun outer inner => (input.stop state).forest.IsBelow inner outer := by
  let contexts := state.stack.reverse.filter input.needsCloser
  have hmem : ∀ context, context ∈ contexts ↔
      context ∈ state.stack ∧ input.needsCloser context = true := fun context => by
    rw [List.mem_filter, List.mem_reverse]
  refine ⟨state.log.entries.toList, contexts.map (input.missingCloser state.log),
    contexts.map OpenContext.node, ?_, htracks.silent, ?_, fun id => ?_, ?_, ?_⟩
  · rw [log_stop h.unfinished]
    exact (foldl_reportOpen input _ _).2
  · rw [List.forall₂_map_left_iff, List.forall₂_map_right_iff, List.forall₂_same]
    intro context hcontext
    have hopen := ((hmem context).mp hcontext).1
    obtain ⟨rest, hlist⟩ := h.tokenList_stop htracks context hopen
    have hopener := (@endsAs_stop input state h.unfinished context.node).opener
    refine ⟨context.opener, context.marker input.table, rest,
      hopener.trans (htracks.opener context hopen).2, hlist, decide_eq_true rfl, ?_⟩
    exact Log.entry_congr hlines _ _ _
  · rw [h.isUnclosed_stop_iff htracks, List.mem_map]
    refine exists_congr fun context => ?_
    rw [hmem, and_assoc]
  · refine (List.nodup_reverse.mpr h.nodup_nodes.1).sublist ?_
    rw [← List.map_reverse]
    exact List.filter_sublist.map _
  · refine List.pairwise_map.mpr (List.Pairwise.filter _ ?_)
    exact List.pairwise_reverse.mpr h.pairwise_isBelow_stop

theorem tracks_fresh (input : LexInput) : input.fresh.Tracks input.table := by
  refine ⟨trivial, (fun _ h => nomatch h), fun id hid hroot _ => ?_, (fun _ h => nomatch h)⟩
  obtain ⟨i⟩ := id
  obtain rfl : i = 0 := Nat.lt_one_iff.mp hid
  exact absurd rfl hroot

/--
The reports of a lexer say what is wrong with the contexts of the forest that it gives, wherever it
is stopped. Those on the structure are those on the delimiters that are able to close a context but
are tokens, at any depth, one for each and in the order of the text. All reports that a closing
delimiter is missing come last: one for each node but the root that has none and is not a line
comment, at the delimiter that opened it, and those of outer nodes before those of inner ones.
-/
theorem contextReports_finish (source : Source) (rules : RuleSetId) (calls : List LexCall) :
    let output := LexInput.finish ⟨Grammar.builtin, source, rules⟩ calls
    let log := Log.ofSource source
    output.log.ofCategory .structural =
        (Tree.leavesOf output.forest.trees).filterMap (log.strayCloser? Grammar.builtin) ∧
      ∃ others reports unclosed,
        output.log.entries.toList = others ++ reports ∧
          (∀ report ∈ others, ¬report.IsMissingCloser) ∧
          reports.Forall₂ (output.forest.ReportsUnclosed Grammar.builtin log) unclosed ∧
          (∀ id, id ∈ unclosed ↔ output.forest.IsUnclosed id) ∧ unclosed.Nodup ∧
          unclosed.Pairwise fun outer inner => output.forest.IsBelow inner outer := by
  intro output log
  let input : LexInput := ⟨Grammar.builtin, source, rules⟩
  by_cases hsize : source.size < Span.offsetCount
  · obtain ⟨last, hreads, ⟨htracks, hstrays⟩, hfinal⟩ := @exists_final_eq_stop input
      (fun s => s.Tracks Grammar.builtin ∧ s.ReportsStrays Grammar.builtin source s.cursor) hsize
      ⟨tracks_fresh input, reportsStrays_fresh input⟩ (fun _ _ _ hreads hs hrest =>
        ⟨tracks_step rfl hreads hs.1 hrest, reportsStrays_step rfl hreads hs.2 hrest⟩) calls
    have houtput : output = (input.stop last).output := congrArg LexState.output hfinal
    rw [houtput]
    exact ⟨hreads.ofCategory_stop hstrays, hreads.exists_reports_stop htracks hstrays.lines⟩
  · have houtput : output = _ := finish_of_size_le input (Nat.le_of_not_lt hsize) calls
    rw [houtput]
    refine ⟨rfl, [log.entry .lex (.point 0) (tooLargeMessage source.size)], [], [], rfl, ?_, .nil,
      fun id => ?_, List.nodup_nil, List.Pairwise.nil⟩
    · refine List.forall_mem_singleton.mpr (not_isMissingCloser ?_)
      show (tooLargeMessage source.size).toList.take 2 ≠ ['m', 'i']
      unfold tooLargeMessage
      rw [String.toList_append, String.toList_append]
      exact (by decide : ['s', 'o'] ≠ ['m', 'i'])
    · -- there is no node but the root
      refine iff_of_false List.not_mem_nil ?_
      rintro ⟨hid, hroot, -⟩
      obtain ⟨i⟩ := id
      rw [Forest.size_closeNode] at hid
      obtain rfl : i = 0 := Nat.lt_one_iff.mp hid
      exact hroot rfl

/-- A parenthesis that closes nothing, and a run that is stopped within a group. -/
theorem contextReports_finish_stopped :
    let source := Source.ofString ") (a b"
    let log := Log.ofSource source
    let output := LexInput.finish ⟨Grammar.builtin, source, Grammar.builtin.startRules⟩
      [.runSteps 3, .stop]
    (Tree.leavesOf output.forest.trees).filterMap (log.strayCloser? Grammar.builtin) =
        [⟨⟨0, 1⟩, 1, 1, .structural, "unexpected ')' with no open context to close"⟩] ∧
      ∃ id, output.forest.IsUnclosed id ∧ output.forest.ReportsUnclosed Grammar.builtin log
        ⟨⟨2, 3⟩, 1, 3, .lex, "missing closing token after '('"⟩ id := by
  intro source log output
  have hlog : output.log.entries.toList =
      [⟨⟨0, 1⟩, 1, 1, .structural, "unexpected ')' with no open context to close"⟩,
        ⟨⟨2, 3⟩, 1, 3, .lex, "missing closing token after '('"⟩] := by
    decide +kernel
  obtain ⟨hstrays, others, reports, unclosed, hentries, hothers, hreports, hunclosed, -⟩ :=
    contextReports_finish source Grammar.builtin.startRules [.runSteps 3, .stop]
  refine ⟨?_, ?_⟩
  · rw [← hstrays, Log.ofCategory]
    exact (congrArg (List.filter _) hlog).trans rfl
  · have hreport : (⟨⟨2, 3⟩, 1, 3, .lex, "missing closing token after '('"⟩ : Diagnostic) ∈
        others ++ reports := by
      rw [← hentries]
      exact hlog ▸ List.mem_cons_of_mem _ List.mem_cons_self
    rcases List.mem_append.mp hreport with hreport | hreport
    · exact absurd ⟨"(", rfl⟩ (hothers _ hreport)
    · obtain ⟨slot, hslot, heq⟩ := List.mem_iff_getElem.mp hreport
      have hnode := hreports.get hslot (hreports.length_eq ▸ hslot)
      rw [List.get_eq_getElem, heq] at hnode
      exact ⟨_, (hunclosed _).mp (List.get_mem _ _), hnode⟩

end LexInput

end ExprLang
