import ExprLang.Proofs.Forest.Wrapping
import ExprLang.Proofs.Grammar.RuleSets
import ExprLang.Proofs.Lexing.Reports
import ExprLang.Proofs.Lexing.Steps

/-!
# Reading a source in parentheses

The lexer reads a source in parentheses as it reads the source without them: once it is behind
the opening parenthesis it takes the same steps, one offset further on and inside the context
that the parenthesis has opened. Only where it reports something may the two runs part.

Main definitions:
* `LexState.enclosed`: the state of a lexer, as that of a lexer inside parentheses.

Main results:
* `Grammar.findIn_enclosed`: the same delimiters are found;
* `LexInput.step_enclosed`: a step without a report is the same step;
* `LexInput.wrapped_lex`: the forest is the same inside a group.
-/

namespace ExprLang

namespace Grammar

section Search

variable {inner outer : Source} {index : Nat} {rest : List Char} {rules default : RuleSetId}

/-- The same delimiter is found if the same ones are accepted. -/
theorem search_enclosed (h : Enclosed inner outer) (hat : inner.IsAt index rest)
    (hrest : rest ≠ []) {accepts accepts' : DelimiterId → Bool}
    (hsame : ∀ c, ∀ id ∈ builtin.candidates (builtin.ruleSet rules) c,
      (builtin.delimiter id).standsAt inner index rest = true → accepts' id = accepts id) :
    builtin.search accepts' rules outer (index + 1) (rest ++ [')']) =
      builtin.search accepts rules inner index rest := by
  obtain ⟨c, cs, rfl⟩ := List.exists_cons_of_ne_nil hrest
  rw [List.cons_append, search_cons, search_cons, ← List.cons_append]
  refine List.find?_congr fun id hid => ?_
  rw [(known_delimiter id).standsAt_enclosed h hat hrest]
  cases hstands : (builtin.delimiter id).standsAt inner index (c :: cs) with
  | false => rfl
  | true => rw [hsame c id hid hstands]

theorem endsWord_enclosed (h : Enclosed inner outer) (hat : inner.IsAt index rest)
    (hrest : rest ≠ []) :
    builtin.endsWord rules default outer (index + 1) (rest ++ [')']) =
      builtin.endsWord rules default inner index rest := by
  have hbreaks : builtin.breaksAt rules default outer (index + 1) (rest ++ [')']) =
      builtin.breaksAt rules default inner index rest := by
    unfold RuleSetTable.breaksAt
    rw [search_enclosed h hat hrest fun _ _ _ _ => rfl]
  obtain ⟨c, cs, rfl⟩ := List.exists_cons_of_ne_nil hrest
  unfold RuleSetTable.endsWord
  rw [List.cons_append] at hbreaks ⊢
  simp only [hbreaks]

/-- A candidate that stands at a place is accepted there in both sources, or in neither. -/
theorem accepts_enclosed (h : Enclosed inner outer) (hat : inner.IsAt index rest)
    (hrest : rest ≠ []) (started : Bool) {c : Char} {id : DelimiterId}
    (hid : id ∈ builtin.candidates (builtin.ruleSet (builtin.searched rules default)) c)
    (hstands : (builtin.delimiter id).standsAt inner index rest = true) :
    builtin.accepts rules default outer (index + 1) (rest ++ [')']) started id =
      builtin.accepts rules default inner index rest started id := by
  unfold RuleSetTable.accepts
  cases hword : (builtin.delimiter id).isBreaking with
  | true => simp only [hword, Bool.true_or]
  | false =>
      simp only [hword, Bool.false_or]
      obtain ⟨behind, rfl⟩ := Text.startsWith_iff.mp (Bool.and_eq_true_iff.mp hstands).1
      have hdrop : Text.dropHead? (builtin.delimiter id).text
          ((builtin.delimiter id).text ++ behind) = some behind :=
        Text.dropHead?_eq_some_iff.mpr rfl
      rw [Text.dropHead?_concat (known_delimiter id).text_paren hrest, hdrop, Option.map_some,
        Nat.add_right_comm]
      simp only
      congr 1
      by_cases hbehind : behind = []
      · -- at the end of the inner source a word ends, and in front of the parenthesis as well
        subst hbehind
        unfold RuleSetTable.endsWord
        simp only [List.nil_append, breaksAt_paren hid hword, Bool.or_true]
      · exact endsWord_enclosed h hat.behind hbehind

/-- The same delimiters are found in a source and in the same source in parentheses. -/
theorem findIn_enclosed (h : Enclosed inner outer) (hat : inner.IsAt index rest)
    (hrest : rest ≠ []) (started : Bool) :
    builtin.findIn rules default outer (index + 1) (rest ++ [')']) started =
      builtin.findIn rules default inner index rest started :=
  search_enclosed h hat hrest fun _ _ hid hstands => accepts_enclosed h hat hrest started hid hstands

end Search

end Grammar

open Grammar

section States

/-- An open context, one offset and one node further on, behind one more token. -/
def OpenContext.shifted (context : OpenContext) : OpenContext :=
  { context with
    node := context.node.shifted
    first := context.first + 1
    start := context.start + 1 }

/-- A context to open, one offset and one node further on. -/
def OpenedNode.shifted (opened : OpenedNode) : OpenedNode :=
  { opened with parent := opened.parent.shifted, start := opened.start + 1 }

/-- A node, one offset and one node further on. -/
def NodeHeader.shifted (header : NodeHeader) : NodeHeader :=
  { header with parent := header.parent.map NodeId.shifted, span := header.span.shifted }

/-- The group around a source in parentheses, as it is opened. -/
def parensNode : OpenedNode where
  rules := parensRules
  contextClass := (builtin.ruleSet parensRules).contextClass
  opener := some openParen
  parent := Forest.root
  start := 0

/-- The group around a source in parentheses, while it is open. -/
def parensContext : OpenContext where
  node := Forest.root.shifted
  rules := parensRules
  opener := openParen
  first := 0
  start := 0

/-- The token of the opening parenthesis. -/
def parensOpener : Token :=
  ⟨⟨0, 1⟩, .node Forest.root.shifted⟩

/-- A forest that is being built, as it is built inside parentheses. -/
def Forest.enclosed (outer : Source) (forest : Forest) : Forest where
  source := outer
  arena := forest.arena.map Token.shifted
  nodes := (ofSource outer builtin.startRules).nodes ++ forest.nodes.mapIdx fun i header =>
    if i = 0 then ((ofSource outer builtin.startRules).openNode parensNode).2.header root.shifted
    else header.shifted
  literals := forest.literals

/-- A forest in which the group around a source is closed behind the tokens of the source. -/
def Forest.parenthesized (outer : Source) (forest : Forest) (pending : Array Token) (stop : Nat) :
    Forest :=
  (forest.enclosed outer).closeNode root.shifted
    ((#[parensOpener] ++ pending.map Token.shifted).push ⟨⟨stop, stop + 1⟩, .node root.shifted⟩)
    (some closeParen) (stop + 1)

/-- The state of a lexer, as that of a lexer inside parentheses. -/
def LexState.enclosed (outer : Source) (state : LexState) : LexState where
  cursor := state.cursor + 1
  rest := state.rest ++ [')']
  textStart := state.textStart.map (· + 1)
  pending := #[parensOpener] ++ state.pending.map Token.shifted
  stack := state.stack.map OpenContext.shifted ++ [parensContext]
  forest := state.forest.enclosed outer
  log := .ofSource outer
  finished := state.finished

namespace Forest

variable (outer : Source) (forest : Forest)

theorem size_enclosed : (forest.enclosed outer).nodes.size = forest.nodes.size + 1 := by
  simp [enclosed, ofSource, Nat.add_comm]

theorem nextId_enclosed : (forest.enclosed outer).nextId = forest.nextId.shifted := by
  unfold nextId NodeId.shifted
  rw [size_enclosed]

theorem enclosed_ofSource (inner : Source) :
    (ofSource inner builtin.startRules).enclosed outer =
      ((ofSource outer builtin.startRules).openNode parensNode).2 := by
  simp [enclosed, ofSource, openNode, header, root, NodeId.shifted]

theorem enclosed_openNode (opened : OpenedNode) (h : 0 < forest.nodes.size) :
    (forest.openNode opened).2.enclosed outer =
      ((forest.enclosed outer).openNode opened.shifted).2 := by
  have hne : forest.nodes.size ≠ 0 := by omega
  simp only [enclosed, openNode, Array.mapIdx_push, Array.append_push, if_neg hne]
  rfl

theorem enclosed_closeNode {id : NodeId} (hid : id ≠ root) (tokens : Array Token)
    (closer : Option DelimiterId) (stop : Nat) :
    (forest.closeNode id tokens closer stop).enclosed outer =
      (forest.enclosed outer).closeNode id.shifted (tokens.map Token.shifted) closer
        (stop + 1) := by
  have hindex : id.index ≠ 0 := fun h => hid (congrArg NodeId.mk h)
  simp only [enclosed, closeNode, Array.map_append, Array.size_map, mk.injEq, true_and, and_true]
  apply Array.ext_getElem?
  intro i
  have hone : (ofSource outer builtin.startRules).nodes.size = 1 := rfl
  rw [Array.getElem?_append, Array.getElem?_modify, Array.getElem?_append, hone]
  cases i with
  | zero => simp [NodeId.shifted]
  | succ i =>
      simp only [Nat.not_lt.mpr (Nat.le_add_left 1 i), if_false, Nat.add_sub_cancel,
        Array.getElem?_mapIdx, Array.getElem?_modify, NodeId.shifted, Nat.add_right_cancel_iff]
      by_cases hi : id.index = i
      · subst hi
        simp only [if_true, hindex, if_false, Option.map_map]
        rfl
      · simp only [if_neg hi]

section Parenthesized

variable {outer forest}

theorem header_enclosed_root (outer : Source) (forest : Forest) :
    (forest.enclosed outer).header root = (ofSource outer builtin.startRules).header root := by
  simp [header, enclosed, ofSource, root]

theorem header_enclosed_shifted (outer : Source) (forest : Forest) (id : NodeId) :
    (forest.enclosed outer).header id.shifted =
      if id.index < forest.nodes.size then
        if id = root then
          ((ofSource outer builtin.startRules).openNode parensNode).2.header root.shifted
        else (forest.header id).shifted
      else default := by
  have hone : (ofSource outer builtin.startRules).nodes.size = 1 := rfl
  have hroot : id = root ↔ id.index = 0 := ⟨fun h => congrArg NodeId.index h, congrArg NodeId.mk⟩
  simp only [hroot]
  unfold header enclosed
  rw [Array.getD_eq_getD_getElem?, Array.getElem?_append_right
    (by rw [hone]; exact Nat.le_add_left 1 _), hone]
  simp only [NodeId.shifted, Nat.add_sub_cancel, Array.getElem?_mapIdx]
  by_cases hlt : id.index < forest.nodes.size
  · rw [if_pos hlt, Array.getElem?_eq_getElem hlt, Option.map_some, Option.getD_some]
    split
    · rfl
    · simp
  · rw [if_neg hlt, Array.getElem?_eq_none (Nat.le_of_not_lt hlt)]
    rfl

theorem header_enclosed {id : NodeId} (hid : id ≠ root) (hlt : id.index < forest.nodes.size) :
    (forest.enclosed outer).header id.shifted = (forest.header id).shifted := by
  rw [header_enclosed_shifted, if_pos hlt, if_neg hid]

/-- A range is that of the same node, or it is empty. -/
theorem range_enclosed (outer : Source) (forest : Forest) (id : NodeId) :
    ((forest.enclosed outer).header id).range = ⟨0, 0⟩ ∨
      ∃ inner : NodeId, id = inner.shifted ∧
        ((forest.enclosed outer).header id).range = (forest.header inner).range := by
  obtain rfl | ⟨inner, rfl⟩ : id = root ∨ ∃ inner : NodeId, id = inner.shifted := by
    obtain ⟨i⟩ := id
    cases i with
    | zero => exact Or.inl rfl
    | succ i => exact Or.inr ⟨⟨i⟩, rfl⟩
  · left
    rw [header_enclosed_root]
    rfl
  · rw [header_enclosed_shifted]
    split
    · split
      · exact Or.inl rfl
      · exact Or.inr ⟨inner, rfl, rfl⟩
    · exact Or.inl rfl

theorem Packed.enclosed (hp : forest.Packed) (outer : Source) :
    (forest.enclosed outer).Packed := by
  have hsize : (forest.enclosed outer).arena.size = forest.arena.size := Array.size_map
  constructor
  · intro id
    rw [hsize]
    rcases range_enclosed outer forest id with hempty | ⟨inner, -, hrange⟩
    · rw [hempty]
      exact Nat.zero_le _
    · rw [hrange]
      exact hp.inside inner
  · intro a b hab
    rcases range_enclosed outer forest a with hempty | ⟨inner, rfl, hrange⟩
    · left
      rw [hempty]
      exact Nat.zero_le _
    · rcases range_enclosed outer forest b with hempty | ⟨inner', rfl, hrange'⟩
      · right
        rw [hempty]
        exact Nat.zero_le _
      · rw [hrange, hrange']
        exact hp.apart inner inner' fun heq => hab (congrArg NodeId.shifted heq)

theorem tokenList_enclosed (outer : Source) {id : NodeId} (hid : id ≠ root) :
    (forest.enclosed outer).tokenList id.shifted = (forest.tokenList id).map Token.shifted := by
  by_cases hlt : id.index < forest.nodes.size
  · unfold tokenList tokens
    rw [header_enclosed hid hlt]
    simp [enclosed, NodeHeader.shifted]
  · have hle := Nat.le_of_not_lt hlt
    rw [tokenList_of_size_le forest hle, tokenList_of_size_le, List.map_nil]
    rw [size_enclosed]
    exact Nat.succ_le_succ hle

/-- A source whose root is closed, and the same source in parentheses. -/
theorem wrapped_parenthesized (hp : forest.Packed) (hpos : 0 < forest.nodes.size)
    (h : Enclosed forest.source outer) (pending : Array Token) (stop : Nat) (token : Token)
    (htoken : token.kind = .node root.shifted) (stop' : Nat) :
    Wrapped (forest.closeNode root pending none stop)
      ((forest.parenthesized outer pending (stop + 1)).closeNode root #[token] none stop') := by
  have hp' := hp.enclosed outer
  have hroot : root.index < forest.nodes.size := hpos
  have hlt : root.shifted.index < (forest.enclosed outer).nodes.size := by
    rw [size_enclosed]
    exact Nat.succ_lt_succ hpos
  have hlt' : root.index < (forest.parenthesized outer pending (stop + 1)).nodes.size := by
    unfold parenthesized
    rw [size_closeNode]
    exact Nat.zero_lt_of_lt hlt
  have hpClosed : (forest.parenthesized outer pending (stop + 1)).Packed := hp'.closeNode _ _ _ _
  refine ⟨h, ?_, rfl, ?_, ?_, ?_⟩
  · rw [size_closeNode, size_closeNode, parenthesized, size_closeNode, size_enclosed]
  · intro id
    rw [tokenList_closeNode forest hp hroot, tokenList_closeNode _ hpClosed hlt',
      if_neg id.shifted_ne_root, parenthesized, tokenList_closeNode _ hp' hlt]
    by_cases hid : id = root
    · refine ⟨[parensOpener], [⟨⟨stop + 1, stop + 1 + 1⟩, .node root.shifted⟩], ?_, ?_⟩
      · subst hid
        simp [parensOpener]
      · subst hid
        simp
    · rw [if_neg fun heq => hid (NodeId.shifted_inj.mp heq), if_neg hid]
      exact ⟨[], [], by simp, by simp [tokenList_enclosed outer hid]⟩
  · refine ⟨token, ?_, htoken⟩
    rw [tokenList_closeNode _ hpClosed hlt', if_pos rfl]
  · intro id hid hltId
    rw [size_closeNode] at hltId
    rw [header_closeNode, if_neg fun hc => id.shifted_ne_root hc.1, header_closeNode,
      if_neg fun hc => hid hc.1, parenthesized, header_closeNode,
      if_neg fun hc => hid (NodeId.shifted_inj.mp hc.1), header_enclosed hid hltId]
    exact ⟨rfl, rfl, rfl, rfl⟩

end Parenthesized

end Forest

namespace LexState

variable (outer : Source) (state : LexState)

theorem enclosed_pushToken (token : Token) :
    (state.pushToken token).enclosed outer =
      (state.enclosed outer).pushToken token.shifted := by
  simp only [enclosed, pushToken, Array.map_push, Array.append_push]

theorem enclosed_flushText : state.flushText.enclosed outer = (state.enclosed outer).flushText := by
  unfold flushText
  cases htext : state.textStart with
  | none => simp only [enclosed, htext, Option.map_none]
  | some start =>
      rw [enclosed_pushToken]
      simp only [enclosed, htext, Option.map_some]
      rfl

theorem enclosed_advance (size : Nat) (rest : List Char) :
    (state.advance size rest).enclosed outer =
      (state.enclosed outer).advance size (rest ++ [')']) := by
  simp only [enclosed, advance, Nat.add_right_comm]

theorem currentNode_enclosed :
    (state.enclosed outer).currentNode = state.currentNode.shifted := by
  unfold currentNode enclosed
  cases state.stack with
  | nil => rfl
  | cons context contexts => rfl

/-- The parenthesis stands in front of the pending tokens. -/
theorem extract_enclosed {pending : Array Token} {first : Nat} :
    (#[parensOpener] ++ pending.map Token.shifted).extract (first + 1) =
      (pending.extract first).map Token.shifted := by
  simp [Array.extract_append]

theorem shrink_enclosed {pending : Array Token} {first : Nat} :
    (#[parensOpener] ++ pending.map Token.shifted).shrink (first + 1) =
      #[parensOpener] ++ (pending.shrink first).map Token.shifted := by
  simp [Array.shrink_eq_take, Array.extract_append]

theorem enclosed_closeContext {context : OpenContext} {contexts : List OpenContext}
    (hstack : state.stack = context :: contexts) (hnode : context.node ≠ Forest.root)
    (closer : Option DelimiterId) (stop : Nat) :
    (state.closeContext closer stop).enclosed outer =
      (state.enclosed outer).closeContext closer (stop + 1) := by
  have hstack' : (state.enclosed outer).stack =
      context.shifted :: (contexts.map OpenContext.shifted ++ [parensContext]) := by
    simp only [enclosed, hstack, List.map_cons, List.cons_append]
  unfold closeContext
  rw [hstack, hstack']
  simp only
  rw [enclosed_pushToken]
  simp only [enclosed, OpenContext.shifted, Forest.enclosed_closeNode outer _ hnode,
    extract_enclosed, shrink_enclosed]
  rfl

end LexState

end States

/-- A source in the whole language. -/
def Language.ofSource (source : Source) : LexInput :=
  ⟨builtin, source, builtin.startRules⟩

namespace LexInput

open Language (ofSource)

variable {inner outer : Source} {state : LexState}

section Lookups

/-- What is looked at inside parentheses is looked at in the same way outside. -/
theorem findIn_currentRules (h : Enclosed inner outer) (hat : inner.IsAt state.cursor state.rest)
    (hrest : state.rest ≠ []) (started : Bool) :
    builtin.findIn ((ofSource outer).currentRules (state.enclosed outer)) builtin.startRules outer
        (state.cursor + 1) (state.rest ++ [')']) started =
      builtin.findIn ((ofSource inner).currentRules state) builtin.startRules inner state.cursor
        state.rest started := by
  unfold currentRules LexState.enclosed
  cases state.stack with
  | nil => exact (inherits_parens.findIn_eq _ _ _ _ _).trans (findIn_enclosed h hat hrest started)
  | cons context contexts => exact findIn_enclosed h hat hrest started

theorem isWhitespace_currentRules (c : Char) :
    builtin.isWhitespace ((ofSource outer).currentRules (state.enclosed outer)) builtin.startRules
        c =
      builtin.isWhitespace ((ofSource inner).currentRules state) builtin.startRules c := by
  unfold currentRules LexState.enclosed
  cases state.stack with
  | nil => exact inherits_parens.isWhitespace_eq _ _
  | cons context contexts => rfl

/-- A delimiter belongs to the same context, unless it ends the group around the source. -/
theorem belongsToInnermost_enclosed (d : Delimiter)
    (hparens : state.stack = [] → d.contextName? ≠ some parensName) :
    (ofSource outer).belongsToInnermost (state.enclosed outer) d =
      (ofSource inner).belongsToInnermost state d := by
  unfold belongsToInnermost LexState.enclosed
  cases hstack : state.stack with
  | nil =>
      cases hname : d.contextName? with
      | none => rfl
      | some name =>
          have hne : parensName ≠ name := fun heq => hparens hstack (heq ▸ hname)
          exact beq_false_of_ne (ruleSet_parens.1 ▸ hne)
  | cons context contexts =>
      cases d.contextName? with
      | none => rfl
      | some name => rfl

end Lookups

section Placing

variable (id : DelimiterId) (span : Span) (value : Option Literal)

theorem pushDelimiter_enclosed :
    pushDelimiter (state.enclosed outer) id span.shifted value =
      (pushDelimiter state id span value).enclosed outer := by
  unfold pushDelimiter
  cases value with
  | none => exact (LexState.enclosed_pushToken outer state ⟨span, .delimiter id⟩).symm
  | some literal =>
      simp only
      rw [LexState.enclosed_pushToken]
      rfl

/-- A context that is opened without a report is opened inside parentheses as well. -/
theorem openContext_enclosed (hpos : 0 < state.forest.nodes.size)
    (hlog : ((ofSource inner).openContext state id span).log.length ≤ state.log.length) :
    (ofSource outer).openContext (state.enclosed outer) id span.shifted =
      ((ofSource inner).openContext state id span).enclosed outer := by
  unfold openContext at hlog ⊢
  simp only [ofSource] at hlog ⊢
  split
  · rename_i hnone
    simp only [hnone] at hlog
    exact absurd hlog (Nat.not_le.mpr (Nat.lt_of_lt_of_eq (Nat.lt_succ_self _)
      (length_log_report _ _ _ state).symm))
  · rename_i rules hrules
    have hsize : (state.enclosed outer).pending.size = state.pending.size + 1 := by
      simp [LexState.enclosed, Nat.add_comm]
    have hnext : ∀ opened, ((state.enclosed outer).forest.openNode opened).1 =
        state.forest.nextId.shifted := fun _ => Forest.nextId_enclosed outer state.forest
    rw [LexState.enclosed_pushToken]
    simp only [LexState.currentNode_enclosed, hsize, hnext]
    simp only [LexState.enclosed, Forest.enclosed_openNode outer _ _ hpos]
    rfl

/-- Reporting and placing a delimiter takes more of the log than there was. -/
theorem not_length_log_pushDelimiter_report (category : Category) (message : String) :
    ¬(pushDelimiter (state.report category span message) id span value).log.length ≤
      state.log.length := by
  rw [log_pushDelimiter, length_log_report]
  exact Nat.not_succ_le_self _

/-- A delimiter that is placed without a report is placed inside parentheses as well. -/
theorem placeDelimiter_enclosed (hnode : ∀ context ∈ state.stack, context.node ≠ Forest.root)
    (hpos : 0 < state.forest.nodes.size)
    (hlog : ((ofSource inner).placeDelimiter state id span value).log.length ≤ state.log.length) :
    (ofSource outer).placeDelimiter (state.enclosed outer) id span.shifted value =
      ((ofSource inner).placeDelimiter state id span value).enclosed outer := by
  have htable : ∀ source, (ofSource source).table = builtin := fun _ => rfl
  -- a closing parenthesis without an opening one is reported
  have hparens : (builtin.delimiter id).closes = true → state.stack = [] →
      (builtin.delimiter id).contextName? ≠ some parensName := by
    intro hcloses hstack hname
    have hopens := opens_eq_false_of_closes hcloses hname
    have hbelongs : (ofSource inner).belongsToInnermost state (builtin.delimiter id) = false := by
      unfold belongsToInnermost
      rw [hstack]
    unfold placeDelimiter at hlog
    simp only [htable, hcloses, hbelongs, hopens, Bool.true_and, Bool.false_eq_true,
      if_false, if_true] at hlog
    exact not_length_log_pushDelimiter_report id span value _ _ hlog
  have hbelongs : (builtin.delimiter id).closes = true →
      (ofSource outer).belongsToInnermost (state.enclosed outer) (builtin.delimiter id) =
        (ofSource inner).belongsToInnermost state (builtin.delimiter id) :=
    fun hcloses => belongsToInnermost_enclosed _ (hparens hcloses)
  unfold placeDelimiter at hlog ⊢
  simp only [htable] at hlog ⊢
  cases hcloses : (builtin.delimiter id).closes with
  | true =>
      rw [hbelongs hcloses, Bool.true_and]
      simp only [hcloses, Bool.true_and, if_true] at hlog ⊢
      by_cases hown : (ofSource inner).belongsToInnermost state (builtin.delimiter id) = true
      · rw [if_pos hown, if_pos hown]
        cases hstack : state.stack with
        | nil => simp [belongsToInnermost, hstack] at hown
        | cons context contexts =>
            have hcontext := hnode context (hstack ▸ List.mem_cons_self)
            rw [LexState.enclosed_closeContext outer
              (state.pushToken ⟨span, .node state.currentNode⟩) hstack hcontext,
              LexState.enclosed_pushToken, LexState.currentNode_enclosed]
            rfl
      · rw [if_neg hown] at hlog
        rw [if_neg hown, if_neg hown]
        split
        · rename_i hopens
          rw [if_pos hopens] at hlog
          exact openContext_enclosed id span hpos hlog
        · rename_i hopens
          rw [if_neg hopens] at hlog
          exact absurd hlog (not_length_log_pushDelimiter_report id span value _ _)
  | false =>
      simp only [hcloses, Bool.false_and, Bool.false_eq_true, if_false] at hlog ⊢
      split
      · rename_i hopens
        rw [if_pos hopens] at hlog
        exact openContext_enclosed id span hpos hlog
      · exact pushDelimiter_enclosed id span value

end Placing

section Reading

/-- A delimiter that is read without a report is read inside parentheses as well. -/
theorem readDelimiter_enclosed (h : Enclosed inner outer) (hreads : (ofSource inner).Reads state)
    (hnode : ∀ context ∈ state.stack, context.node ≠ Forest.root)
    (hpos : 0 < state.forest.nodes.size) {id : DelimiterId} (hrest : state.rest ≠ [])
    (hstands : (builtin.delimiter id).standsAt inner state.cursor state.rest = true)
    (hlog : ((ofSource inner).readDelimiter state id).log.length ≤ state.log.length) :
    (ofSource outer).readDelimiter (state.enclosed outer) id =
      ((ofSource inner).readDelimiter state id).enclosed outer := by
  have hat : inner.IsAt state.cursor state.rest := hreads.place
  have hscan : ∀ source s, (ofSource source).scanDelimiter s (builtin.delimiter id) =
      (builtin.delimiter id).scanAt source s.cursor := fun _ _ => rfl
  have htable : ∀ source, (ofSource source).table = builtin := fun _ => rfl
  unfold readDelimiter at hlog ⊢
  simp only [htable, hscan] at hlog ⊢
  cases herror : ((builtin.delimiter id).scanAt inner state.cursor).error with
  | some error =>
      -- what the scan rule reports is in the log
      simp only [herror] at hlog
      refine absurd (le_trans (length_log_placeDelimiter _ _ _ _ _) hlog) ?_
      refine Nat.not_le.mpr (Nat.lt_of_lt_of_eq (Nat.lt_succ_self _) ?_)
      exact (length_log_report _ _ _ state).symm
  | none =>
      obtain ⟨hsame, hconsumed⟩ := (known_delimiter id).scanAt_enclosed h hat hstands herror
      have hcursor : (state.enclosed outer).cursor = state.cursor + 1 := rfl
      have hsize : 1 ≤ Text.byteSize state.rest :=
        (List.length_pos_of_ne_nil hrest).trans_le (Text.length_le_byteSize state.rest)
      have hsplit := Text.splitReaching_append (Nat.max_le.mpr ⟨hsize, hconsumed⟩) [')']
      have hspan : ∀ size, Span.ofLength (state.cursor + 1) size =
          (Span.ofLength state.cursor size).shifted := by
        intro size
        simp only [Span.ofLength, Span.shifted, Nat.add_right_comm]
      have hrestOuter : (state.enclosed outer).rest = state.rest ++ [')'] := rfl
      simp only [herror] at hlog
      simp only [hcursor, hsame, herror, hrestOuter, hsplit, hspan]
      rw [← LexState.enclosed_advance]
      exact placeDelimiter_enclosed id _ _ hnode hpos hlog

/-- A step without a report is the same step inside parentheses. -/
theorem step_enclosed (h : Enclosed inner outer) (hreads : (ofSource inner).Reads state)
    (hrest : state.rest ≠ [])
    (hlog : ((ofSource inner).step state).log.length ≤ state.log.length) :
    (ofSource outer).step (state.enclosed outer) = ((ofSource inner).step state).enclosed outer := by
  obtain ⟨hflushed, hnone, hcursor⟩ := hreads.flushText
  obtain ⟨c, rest, hcons⟩ := List.exists_cons_of_ne_nil hrest
  have htable : ∀ source, (ofSource source).table = builtin := fun _ => rfl
  have hrules : ∀ source, (ofSource source).rules = builtin.startRules := fun _ => rfl
  have hsource : ∀ source, (ofSource source).source = source := fun _ => rfl
  have hopen := hreads.unfinished
  have hopen' : (state.enclosed outer).finished = false := hopen
  have hcons' : (state.enclosed outer).rest = c :: (rest ++ [')']) := by
    unfold LexState.enclosed
    rw [hcons, List.cons_append]
  have hstarted : (state.enclosed outer).textStart.isSome = state.textStart.isSome :=
    Option.isSome_map
  have hfind := findIn_currentRules h hreads.place hrest state.textStart.isSome
  rw [hcons, List.cons_append] at hfind
  have hcursor' : (state.enclosed outer).cursor = state.cursor + 1 := rfl
  have hwhitespace : builtin.isWhitespace ((ofSource outer).currentRules (state.enclosed outer))
      builtin.startRules c =
        builtin.isWhitespace ((ofSource inner).currentRules state) builtin.startRules c :=
    isWhitespace_currentRules c
  unfold step at hlog ⊢
  simp only [hopen, hopen', hcons, hcons', htable, hrules, hsource, hstarted, hcursor', hfind,
    hwhitespace, Bool.false_eq_true, if_false] at hlog ⊢
  by_cases hblank : builtin.isWhitespace ((ofSource inner).currentRules state) builtin.startRules
      c = true
  · rw [if_pos hblank, if_pos hblank, ← LexState.enclosed_flushText, ← LexState.enclosed_advance]
  · rw [if_neg hblank] at hlog
    rw [if_neg hblank, if_neg hblank]
    cases hfound : builtin.findIn ((ofSource inner).currentRules state) builtin.startRules inner
        state.cursor (c :: rest) state.textStart.isSome with
    | some id =>
        have hstands := (builtin.of_search_eq_some hfound).1
        have hrestFlushed := rest_flushText state
        rw [← hcons, ← hcursor, ← hrestFlushed] at hstands
        simp only [hfound] at hlog
        rw [← log_flushText state] at hlog
        simp only
        rw [← LexState.enclosed_flushText]
        exact readDelimiter_enclosed h hflushed hflushed.nodup_nodes.2 hflushed.size_pos
          (hrestFlushed ▸ hrest) hstands hlog
    | none =>
        simp only
        rw [LexState.enclosed_advance]
        congr 1
        unfold LexState.enclosed
        cases state.textStart with
        | none => rfl
        | some start => rfl

end Reading

section Runs

/-- A run without a report goes through the same steps inside parentheses, up to its last one. -/
theorem runSteps_enclosed (h : Enclosed inner outer) (count : Nat)
    (hreads : (ofSource inner).Reads state)
    (hdone : ((ofSource inner).runSteps count state).finished = true)
    (hlog : ((ofSource inner).runSteps count state).log.length ≤ state.log.length) :
    ∃ steps last, (ofSource inner).Reads last ∧ last.rest = [] ∧
      ((ofSource inner).stop last).log.length ≤ last.log.length ∧
      (ofSource inner).runSteps count state = (ofSource inner).stop last ∧
      (ofSource outer).runSteps steps (state.enclosed outer) = last.enclosed outer := by
  induction count generalizing state with
  | zero =>
      rw [runSteps, hreads.unfinished] at hdone
      cases hdone
  | succ count ih =>
      rw [runSteps] at hdone hlog ⊢
      have hsteps := length_log_runSteps (ofSource inner) count ((ofSource inner).step state)
      have hgrows := length_log_step (ofSource inner) state
      by_cases hrest : state.rest = []
      · have hstop : (ofSource inner).step state = (ofSource inner).stop state := by
          unfold step
          rw [if_neg (by simp [hreads.unfinished]), hrest]
        rw [hstop] at hsteps
        rw [hstop, runSteps_of_finished finished_stop] at hlog ⊢
        exact ⟨0, state, hreads, hrest, hlog, rfl, rfl⟩
      · have hnext : (ofSource inner).Reads ((ofSource inner).step state) := hreads.next hrest
        obtain ⟨steps, last, hlast, hend, hsilent, hrun, hsame⟩ :=
          ih hnext hdone (by omega)
        refine ⟨steps + 1, last, hlast, hend, hsilent, hrun, ?_⟩
        rw [runSteps, step_enclosed h hreads hrest (by omega)]
        exact hsame

/-- The first step reads the opening parenthesis. -/
theorem step_start (h : Enclosed inner outer) (hsize : outer.size < Span.offsetCount) :
    (ofSource outer).step (ofSource outer).start = (ofSource inner).fresh.enclosed outer := by
  have htable : (ofSource outer).table = builtin := rfl
  obtain ⟨htext, hscan, hopens, hcloses, hname⟩ := delimiter_openParen
  rw [← htable] at htext hscan hopens hcloses
  have hstart : (ofSource outer).start = (ofSource outer).fresh := if_pos hsize
  have hrest : (ofSource outer).fresh.rest = ['('] ++ (inner.chars ++ [')']) := h
  have hbyte : Text.byteSize ['('] = 1 := by decide
  have hrules : (builtin.delimiter openParen).contextName?.bind builtin.find? =
      some parensRules := by
    rw [hname, Option.bind_some, find?_parens]
  have hread : (ofSource outer).step (ofSource outer).fresh =
      (ofSource outer).readDelimiter (ofSource outer).fresh openParen :=
    step_of_delimiter rfl hrest isWhitespace_paren.1 (findIn_paren _ _ _ _).1
  rw [hstart, hread, readDelimiter_of_isNone hscan htext hrest (by simp),
    placeDelimiter_of_opens _ _ hcloses hopens]
  unfold openContext
  simp only [htable, hrules, hbyte]
  have hforest : (ofSource inner).fresh.forest.enclosed outer =
      ((ofSource outer).fresh.forest.openNode parensNode).2 := Forest.enclosed_ofSource outer inner
  have hpending : #[parensOpener] ++ (ofSource inner).fresh.pending.map Token.shifted =
      #[].push parensOpener := by
    simp [fresh]
  unfold LexState.enclosed
  rw [hforest, hpending]
  rfl

/-- Behind the source a step closes the group. -/
theorem step_closeParen (hopen : state.finished = false) (hrest : state.rest = [])
    (hstack : state.stack = []) :
    (ofSource outer).step (state.enclosed outer) =
      { cursor := state.cursor + 2
        rest := []
        textStart := none
        pending := #[⟨⟨0, state.cursor + 2⟩, .node Forest.root.shifted⟩]
        stack := []
        forest := state.flushText.forest.parenthesized outer state.flushText.pending
          (state.cursor + 1)
        log := .ofSource outer
        finished := false } := by
  have htable : (ofSource outer).table = builtin := rfl
  obtain ⟨htext, hscan, hcloses, hname⟩ := delimiter_closeParen
  rw [← htable] at htext hscan hcloses hname
  have hbyte : Text.byteSize [')'] = 1 := by decide
  obtain ⟨hcursor, hopenF, htextF⟩ := samePlace_flushText state
  have hrest' : (state.enclosed outer).rest = [')'] := by
    unfold LexState.enclosed
    rw [hrest]
    rfl
  have hrules : (ofSource outer).currentRules (state.enclosed outer) = parensRules := by
    unfold currentRules LexState.enclosed
    rw [hstack]
    rfl
  have hread : (ofSource outer).step (state.enclosed outer) =
      (ofSource outer).readDelimiter (state.enclosed outer).flushText closeParen := by
    refine step_of_delimiter (show (state.enclosed outer).finished = false from hopen) hrest' ?_ ?_
    · rw [hrules]
      exact (inherits_parens.isWhitespace_eq _ _).trans isWhitespace_paren.2
    · rw [hrules]
      exact (inherits_parens.findIn_eq _ _ _ _ _).trans (findIn_paren _ _ _ _).2
  have hrestF : (state.flushText.enclosed outer).rest = [')'] ++ [] := by
    unfold LexState.enclosed
    rw [rest_flushText, hrest]
    rfl
  have hstack' : ((state.flushText.enclosed outer).advance 1 []).stack = [parensContext] := by
    simp only [LexState.enclosed, LexState.advance, stack_flushText, hstack, List.map_nil,
      List.nil_append]
  have hbelongs : (ofSource outer).belongsToInnermost
      ((state.flushText.enclosed outer).advance 1 []) ((ofSource outer).table.delimiter closeParen)
        = true := by
    unfold belongsToInnermost
    rw [hstack', hname]
    exact beq_iff_eq.mpr ruleSet_parens.1
  have hempty : ∀ tokens : Array Token, tokens.shrink 0 = #[] := by simp [Array.shrink_eq_take]
  rw [hread, ← LexState.enclosed_flushText, readDelimiter_of_isNone hscan htext hrestF (by simp),
    hbyte, placeDelimiter_of_belongs _ _ hcloses hbelongs]
  unfold LexState.closeContext LexState.pushToken LexState.currentNode
  simp only [hstack', parensContext, Array.extract_size, hempty]
  simp only [LexState.enclosed, LexState.advance, hcursor, htextF, hopenF, hopen]
  rfl

/-- Behind the source two steps close the group and end the run. -/
theorem stop_enclosed (outer : Source) (hopen : state.finished = false) (hrest : state.rest = [])
    (hstack : state.stack = []) :
    ((ofSource outer).runSteps 2 (state.enclosed outer)).finished = true ∧
      ((ofSource outer).runSteps 2 (state.enclosed outer)).log = .ofSource outer ∧
      ((ofSource outer).runSteps 2 (state.enclosed outer)).forest =
        (state.flushText.forest.parenthesized outer state.flushText.pending
          (state.cursor + 1)).closeNode Forest.root
            #[⟨⟨0, state.cursor + 2⟩, .node Forest.root.shifted⟩] none (state.cursor + 2) := by
  rw [runSteps, runSteps, runSteps, step_closeParen hopen hrest hstack,
    step_of_rest_eq_nil rfl rfl, stop_of_stack_eq_nil rfl rfl]
  exact ⟨rfl, rfl, rfl⟩

/-- No run goes on behind the end of the source. -/
theorem cursor_final_le (input : LexInput) (calls : List LexCall) :
    (input.final calls).cursor ≤ input.source.size := by
  have hreads : ∀ {state}, input.Reads state → state.cursor ≤ input.source.size := by
    intro state h
    obtain ⟨before, hchars, hcursor⟩ := h.place
    rw [input.source.size_eq, hchars, Text.byteSize_append]
    omega
  have hsound : input.Reads (input.final calls) ∨ (input.final calls).finished = true ∧
      (input.final calls).cursor ≤ input.source.size := by
    refine final_induction
      (P := fun s => input.Reads s ∨ s.finished = true ∧ s.cursor ≤ input.source.size) ?_ ?_ ?_ calls
    · unfold start
      split
      · exact Or.inl (reads_fresh input)
      · exact Or.inr ⟨rfl, Nat.zero_le _⟩
    · rintro s (h | ⟨hdone, hle⟩)
      · rcases h.step with hnext | hstop
        · exact Or.inl hnext
        · right
          rw [hstop, cursor_stop]
          exact ⟨finished_stop, hreads h⟩
      · right
        rw [step_of_finished input s hdone]
        exact ⟨hdone, hle⟩
    · rintro s (h | ⟨hdone, hle⟩)
      · right
        rw [cursor_stop]
        exact ⟨finished_stop, hreads h⟩
      · right
        rw [stop_of_finished input s hdone]
        exact ⟨hdone, hle⟩
  exact hsound.elim hreads And.right

/--
A source that is read without a report, and without a line comment that is open in the end, is
read in the same way inside parentheses.
-/
theorem wrapped_lex (h : Enclosed inner outer) (hsize : outer.size < Span.offsetCount)
    (hlog : (ofSource inner).lex.log.length = 0)
    (hclosed : ∀ id, ¬((ofSource inner).lex.forest.header id).IsOpenLineComment) :
    Forest.Wrapped (ofSource inner).lex.forest (ofSource outer).lex.forest ∧
      (ofSource outer).lex.log = .ofSource outer ∧
      ((ofSource outer).lex.forest.header Forest.root.shifted).rules = parensRules ∧
      ((ofSource outer).lex.forest.header Forest.root.shifted).contextClass =
        .ofFlags [.enclosure] := by
  have hinner : (ofSource inner).start = (ofSource inner).fresh := by
    refine if_pos (show inner.size < Span.offsetCount from ?_)
    have hsizes := h.size_eq
    omega
  have hreads := reads_fresh (ofSource inner)
  unfold lex run LexState.output at hlog hclosed ⊢
  rw [hinner] at hlog hclosed ⊢
  obtain ⟨steps, last, hlast, hend, hsilent, hrun, hsame⟩ := runSteps_enclosed h _ hreads
    (finished_runSteps _ (Nat.lt_succ_self _)) (hlog.trans_le (Nat.zero_le _))
  rw [hrun] at hclosed ⊢
  have hstack := hlast.stack_eq_nil hsilent hclosed
  obtain ⟨hdone, hlogOuter, hforest⟩ := stop_enclosed outer hlast.unfinished hend hstack
  have hrunOuter : (ofSource outer).runSteps (steps + 1) (ofSource outer).start =
      last.enclosed outer := by
    rw [runSteps, step_start h hsize]
    exact hsame
  have hallOuter : (ofSource outer).run (ofSource outer).start =
      (ofSource outer).runSteps 2 (last.enclosed outer) := by
    rw [← hrunOuter, ← runSteps_add]
    refine run_eq_of_finished ?_
    rw [runSteps_add, hrunOuter]
    exact hdone
  unfold run at hallOuter
  rw [hallOuter]
  simp only
  obtain ⟨hflushed, -, -⟩ := hlast.flushText
  have hpacked := (Framed.of_draft hflushed.draft).packed
  have hpos := hflushed.size_pos
  have hsource : last.flushText.forest.source = inner := hflushed.draft.source_eq
  have hwrapped := Forest.wrapped_parenthesized hpacked hpos
    (show Enclosed last.flushText.forest.source outer from hsource.symm ▸ h)
    last.flushText.pending last.cursor ⟨⟨0, last.cursor + 2⟩, .node Forest.root.shifted⟩ rfl
    (last.cursor + 2)
  have hroot : Forest.root.index < last.flushText.forest.nodes.size := hpos
  have hlt : Forest.root.shifted.index < (last.flushText.forest.enclosed outer).nodes.size := by
    rw [Forest.size_enclosed]
    exact Nat.succ_lt_succ hpos
  rw [stop_of_stack_eq_nil hlast.unfinished hstack, hforest]
  refine ⟨hwrapped, hlogOuter, ?_, ?_⟩
  all_goals
    rw [Forest.header_closeNode, if_neg fun hc => Forest.root.shifted_ne_root hc.1,
      Forest.parenthesized, Forest.header_closeNode, if_pos ⟨rfl, hlt⟩]
    simp only
    rw [Forest.header_enclosed_shifted, if_pos hroot, if_pos rfl]
  · rfl
  · exact contextClass_parens

end Runs

end LexInput
end ExprLang
