import ExprLang.Proofs.Forest.Data
import ExprLang.Proofs.Grammar.TextBodies
import ExprLang.Proofs.Lexing.Reports
import ExprLang.Proofs.Lexing.Steps

/-!
# The lists of text literals

With the built-in grammars nothing is opened inside a text literal, so that only the innermost list
that is being read may be one of a text literal. What is added to such a list is plain text, a text
that was read from an escape, the delimiter of a faulty escape, or a marker of its own.

Main definitions:
* `Forest.IsPiece`: a token that may be in the list of a text literal;
* `Forest.HoldsPieces`: text literals are contexts with such tokens only;
* `LexInput.KeepsPieces`: the same while the text is being read.

Main results:
* `LexInput.keepsPieces_step`, `LexInput.holdsPieces_stop`: steps and the end of a run;
* `LexInput.holdsPieces_finish`: the forest of a text.
-/

namespace ExprLang

open Grammar

section Scans

/-- What a scan gives is a text, if it gives a value. -/
def Scan.GivesText (scan : Scan) : Prop :=
  ∀ literal, scan.value = some literal → ∃ text, literal = .str text

theorem Scan.givesText_of_none {scan : Scan} (h : scan.value = none) : scan.GivesText := by
  intro literal hvalue
  rw [h] at hvalue
  cases hvalue

theorem Scan.givesText_ofValue (consumed : Nat) (text : String) :
    (Scan.ofValue consumed (.str text)).GivesText := by
  rintro _ ⟨⟩
  exact ⟨text, rfl⟩

namespace ScanRules

open Scan (givesText_of_none givesText_ofValue)

theorem givesText_codePoint (value size : Nat) : (codePoint value size).GivesText := by
  by_cases hvalid : value.isValidChar
  · rw [codePoint, dif_pos hvalid]
    exact givesText_ofValue _ _
  · rw [codePoint, dif_neg hvalid]
    exact givesText_of_none rfl

theorem givesText_hexEscape (rest : List Char) (least most : Nat) :
    (hexEscape rest least most).GivesText := by
  unfold hexEscape
  simp only
  split
  · exact givesText_of_none rfl
  · exact givesText_codePoint _ _

/-- An escape stands for a text. -/
theorem givesText_escape (source : Source) (index : Nat) : (escape source index).GivesText := by
  unfold escape escapeBody
  split
  · exact givesText_of_none rfl
  · split
    · exact givesText_ofValue _ _
    · split_ifs
      · exact givesText_ofValue _ _
      · exact givesText_ofValue _ _
      · exact givesText_hexEscape _ _ _
      · exact givesText_hexEscape _ _ _
      · exact givesText_hexEscape _ _ _
      · exact givesText_codePoint _ _
      · rintro _ ⟨⟩
        exact ⟨_, rfl⟩

end ScanRules

end Scans

namespace Forest

/-- A token of a text literal: plain text, a marker, a delimiter that is no operator, or a text. -/
structure IsPiece (forest : Forest) (owner : NodeId) (token : Token) : Prop where
  marker : ∀ id, token.kind = .node id → id = owner
  delimiter : ∀ id, token.kind = .delimiter id → (builtin.delimiter id).isOperator = false
  literal : ∀ id, token.kind = .literal id → ∃ text, forest.literals[id.index]? = some (.str text)

/-- The nodes of text literals are contexts of their kind. -/
def MarksTexts (forest : Forest) : Prop :=
  ∀ id, IsTextBody (forest.header id).rules →
    (forest.header id).contextClass = .ofFlags [.textLiteral] ∧
      (forest.header id).operator = none

/-- The nodes of text literals are contexts of their kind, with pieces of a text for tokens. -/
structure HoldsPieces (forest : Forest) : Prop where
  contexts : forest.MarksTexts
  pieces : ∀ id, IsTextBody (forest.header id).rules →
    ∀ token ∈ forest.tokenList id, forest.IsPiece id token

variable {forest forest' : Forest} {owner : NodeId} {token : Token}

/-- Whether a token is a piece depends on the texts that it may refer to. -/
theorem IsPiece.mono (h : forest.IsPiece owner token)
    (hliterals : ∀ (index : Nat) (literal : Literal), forest.literals[index]? = some literal →
      forest'.literals[index]? = some literal) : forest'.IsPiece owner token where
  marker := h.marker
  delimiter := h.delimiter
  literal := by
    intro id hkind
    obtain ⟨text, htext⟩ := h.literal id hkind
    exact ⟨text, hliterals _ _ htext⟩

theorem isPiece_text (forest : Forest) (owner : NodeId) (span : Span) :
    forest.IsPiece owner ⟨span, .text⟩ :=
  ⟨nofun, nofun, nofun⟩

theorem isPiece_marker (forest : Forest) (owner : NodeId) (span : Span) :
    forest.IsPiece owner ⟨span, .node owner⟩ :=
  ⟨fun _ hkind => (TokenKind.node.inj hkind).symm, nofun, nofun⟩

end Forest

/-- While lists are being read, only the innermost one may be that of a text literal. -/
structure ReadsPieces (forest : Forest) (frames : List Frame) : Prop where
  framed : Framed forest frames
  contexts : forest.MarksTexts
  outer : ∀ frame ∈ frames.tail, ¬IsTextBody frame.rules
  pieces : ∀ id, IsTextBody (forest.header id).rules →
    ∀ token ∈ listIn forest frames id, forest.IsPiece id token

namespace ReadsPieces

variable {forest : Forest} {frame next : Frame} {outer frames : List Frame}

/-- A piece may be added to the list of a text literal, and any token to another list. -/
theorem push (h : ReadsPieces forest (frame :: outer)) {token : Token}
    (hpiece : IsTextBody frame.rules → forest.IsPiece frame.node token) :
    ReadsPieces forest (frame.push token :: outer) := by
  refine ⟨h.framed.push token, h.contexts, h.outer, fun id hid t ht => ?_⟩
  rw [listIn_push] at ht
  split at ht
  · rename_i hself
    subst hself
    rcases List.mem_append.mp ht with hold | hnew
    · exact h.pieces _ hid t hold
    · rw [List.mem_singleton.mp hnew]
      rw [(h.framed.header frame List.mem_cons_self).2.1] at hid
      exact hpiece hid
  · exact h.pieces id hid t ht

/-- A literal is kept. -/
theorem pushLiteral (h : ReadsPieces forest frames) (literal : Literal) :
    ReadsPieces (forest.pushLiteral literal).2 frames where
  framed := ⟨⟨h.framed.packed.inside, h.framed.packed.apart⟩, h.framed.distinct, h.framed.header,
    h.framed.root⟩
  contexts := h.contexts
  outer := h.outer
  pieces := by
    intro id hid t ht
    have hold : t ∈ listIn forest frames id := ht
    exact (h.pieces id hid t hold).mono (forest.keeps_pushLiteral literal).literals

/-- A context may be opened outside of text literals. -/
theorem opened (h : ReadsPieces forest (frame :: outer)) (hframe : ¬IsTextBody frame.rules)
    (node : OpenedNode) (hclass : node.contextClass = (builtin.ruleSet node.rules).contextClass)
    (span : Span) :
    ReadsPieces (forest.openNode node).2
      (⟨forest.nextId, node.rules, node.start, #[⟨span, .node forest.nextId⟩]⟩ ::
        frame :: outer) := by
  refine ⟨h.framed.opened _ _, ?_, ?_, ?_⟩
  · intro id hid
    rw [Forest.header_openNode] at hid ⊢
    split at hid
    · rename_i hnew
      rw [if_pos hnew]
      exact ⟨hclass.trans (IsTextBody.contextClass_eq hid), rfl⟩
    · rename_i hold
      rw [if_neg hold]
      exact h.contexts id hid
  · intro f hf
    rcases List.mem_cons.mp hf with rfl | hf
    · exact hframe
    · exact h.outer f hf
  · intro id hid t ht
    rw [Forest.header_openNode] at hid
    rw [listIn_openNode] at ht
    split at hid
    · rename_i hnew
      rw [if_pos hnew] at ht
      rw [List.mem_singleton.mp ht, hnew]
      exact Forest.isPiece_marker _ _ _
    · rename_i hold
      rw [if_neg hold] at ht
      have hpiece := h.pieces id hid t ht
      exact ⟨hpiece.marker, hpiece.delimiter, hpiece.literal⟩

/-- The end of a node changes neither its rules nor what it is. -/
theorem marksTexts_closeNode (h : forest.MarksTexts) (id : NodeId) (tokens : Array Token)
    (closer : Option DelimiterId) (stop : Nat) :
    (forest.closeNode id tokens closer stop).MarksTexts ∧
      ∀ other, ((forest.closeNode id tokens closer stop).header other).rules =
        (forest.header other).rules := by
  have hsame : ∀ other,
      ((forest.closeNode id tokens closer stop).header other).rules =
          (forest.header other).rules ∧
        ((forest.closeNode id tokens closer stop).header other).contextClass =
          (forest.header other).contextClass ∧
        ((forest.closeNode id tokens closer stop).header other).operator =
          (forest.header other).operator := by
    intro other
    rw [Forest.header_closeNode]
    split
    · rename_i hself
      rw [hself.1]
      exact ⟨rfl, rfl, rfl⟩
    · exact ⟨rfl, rfl, rfl⟩
  refine ⟨fun other hother => ?_, fun other => (hsame other).1⟩
  obtain ⟨hrules, hclass, hoperator⟩ := hsame other
  rw [hrules] at hother
  rw [hclass, hoperator]
  exact h other hother

/-- The innermost context is closed, and the list below gets a token for it. -/
theorem closed (h : ReadsPieces forest (frame :: next :: outer)) (closer : Option DelimiterId)
    (stop : Nat) :
    ReadsPieces (forest.closeNode frame.node frame.tokens closer stop)
      (next.push ⟨⟨frame.start, stop⟩, .node frame.node⟩ :: outer) := by
  obtain ⟨hcontexts, hrules⟩ :=
    marksTexts_closeNode h.contexts frame.node frame.tokens closer stop
  have hlists : ∀ id, listIn (forest.closeNode frame.node frame.tokens closer stop)
      (next :: outer) id = listIn forest (frame :: next :: outer) id := by
    intro id
    rw [listIn_closeNode h.framed]
    split
    · rename_i hid
      rw [hid, listIn_cons_self]
    · rfl
  have hbelow : ReadsPieces (forest.closeNode frame.node frame.tokens closer stop)
      (next :: outer) := by
    refine ⟨h.framed.closed _ _ _, hcontexts,
      fun f hf => h.outer f (List.mem_cons_of_mem _ hf), fun id hid t ht => ?_⟩
    rw [hrules] at hid
    rw [hlists] at ht
    have hpiece := h.pieces id hid t ht
    exact ⟨hpiece.marker, hpiece.delimiter, hpiece.literal⟩
  exact hbelow.push fun hnext => absurd hnext (h.outer next List.mem_cons_self)

/-- When the root is closed all lists are complete. -/
theorem holdsPieces (h : ReadsPieces forest [frame]) (closer : Option DelimiterId) (stop : Nat) :
    (forest.closeNode frame.node frame.tokens closer stop).HoldsPieces := by
  obtain ⟨hcontexts, hrules⟩ :=
    marksTexts_closeNode h.contexts frame.node frame.tokens closer stop
  refine ⟨hcontexts, fun id hid t ht => ?_⟩
  rw [hrules] at hid
  rw [tokenList_closeNode_last h.framed] at ht
  have hpiece := h.pieces id hid t ht
  exact ⟨hpiece.marker, hpiece.delimiter, hpiece.literal⟩

end ReadsPieces

namespace LexInput

/-- A lexer that reads only pieces into text literals. -/
structure KeepsPieces (input : LexInput) (state : LexState) : Prop where
  stacked : Stacked state.stack state.pending.size
  lists : ReadsPieces state.forest (input.frames state)

variable {input : LexInput} {state : LexState}

/-- At the start there is no text literal. -/
theorem keepsPieces_fresh (hrules : IsTopLevel input.rules) : input.KeepsPieces input.fresh := by
  have hnone : ∀ id, ¬IsTextBody ((Forest.ofSource input.source input.rules).header id).rules := by
    rintro ⟨index⟩
    cases index with
    | zero => exact hrules.not_isTextBody
    | succ index => exact isTopLevel_default.not_isTextBody
  refine ⟨trivial, Framed.of_draft Draft.start, ?_, ?_, ?_⟩
  · exact fun id hid => absurd hid (hnone id)
  · exact fun _ hframe => nomatch hframe
  · exact fun id hid => absurd hid (hnone id)

namespace KeepsPieces

theorem pushToken (h : input.KeepsPieces state) {token : Token}
    (hpiece : IsTextBody (input.currentRules state) →
      state.forest.IsPiece state.currentNode token) :
    input.KeepsPieces (state.pushToken token) := by
  obtain ⟨frame, outer, hframes, hnode, hrules, hpush⟩ := exists_frames input h.stacked
  refine ⟨stacked_pushToken state h.stacked token, ?_⟩
  have hlists := h.lists
  rw [hframes] at hlists
  rw [hpush]
  rw [← hnode, ← hrules] at hpiece
  exact hlists.push hpiece

theorem report (h : input.KeepsPieces state) (category : Category) (span : Span)
    (message : String) : input.KeepsPieces (state.report category span message) :=
  ⟨h.stacked, h.lists⟩

theorem advance (h : input.KeepsPieces state) (size : Nat) (rest : List Char) :
    input.KeepsPieces (state.advance size rest) :=
  ⟨h.stacked, h.lists⟩

theorem flushText (h : input.KeepsPieces state) : input.KeepsPieces state.flushText := by
  unfold LexState.flushText
  split
  · exact h
  · rename_i start _
    have hended : input.KeepsPieces { state with textStart := none } := ⟨h.stacked, h.lists⟩
    exact hended.pushToken fun _ => Forest.isPiece_text _ _ _

/-- The innermost context may be closed. -/
theorem closeContext (h : input.KeepsPieces state) (closer : Option DelimiterId) (stop : Nat) :
    input.KeepsPieces (state.closeContext closer stop) := by
  refine ⟨stacked_closeContext h.stacked closer stop, ?_⟩
  unfold LexState.closeContext
  cases hstack : state.stack with
  | nil => exact h.lists
  | cons context outer =>
      have hstacked := h.stacked
      have hlists := h.lists
      unfold frames at hlists
      rw [hstack] at hstacked hlists
      have hsize : Stacked outer (state.pending.shrink context.first).size := by
        rw [Array.size_shrink, Nat.min_eq_left hstacked.1]
        exact hstacked.2
      obtain ⟨next, rest, hframes, hpush⟩ := framesOf_push input.rules outer
        (state.pending.shrink context.first) hsize
      rw [framesOf, hframes] at hlists
      unfold frames LexState.pushToken
      simp only
      rw [hpush]
      exact hlists.closed closer stop

/-- A delimiter or the value that is read in its place. -/
theorem pushDelimiter (h : input.KeepsPieces state) (id : DelimiterId) (span : Span)
    {value : Option Literal}
    (hpiece : IsTextBody (input.currentRules state) →
      (builtin.delimiter id).isOperator = false ∧
        ∀ literal, value = some literal → ∃ text, literal = .str text) :
    input.KeepsPieces (LexInput.pushDelimiter state id span value) := by
  unfold LexInput.pushDelimiter
  cases value with
  | none =>
      refine h.pushToken fun hbody => ⟨nofun, fun other hkind => ?_, nofun⟩
      rw [← TokenKind.delimiter.inj hkind]
      exact (hpiece hbody).1
  | some literal =>
      have hkept : input.KeepsPieces
          { state with forest := (state.forest.pushLiteral literal).2 } :=
        ⟨h.stacked, h.lists.pushLiteral literal⟩
      refine hkept.pushToken fun hbody => ⟨nofun, nofun, fun other hkind => ?_⟩
      obtain ⟨text, rfl⟩ := (hpiece hbody).2 literal rfl
      rw [← TokenKind.literal.inj hkind]
      exact ⟨text, Array.getElem?_push_size⟩

variable (htable : input.table = builtin)

include htable

/-- A context may be opened outside of text literals. -/
theorem openContext (h : input.KeepsPieces state)
    (hbody : ¬IsTextBody (input.currentRules state)) (id : DelimiterId) (span : Span) :
    input.KeepsPieces (input.openContext state id span) := by
  unfold LexInput.openContext
  simp only
  split
  · exact (h.report _ span _).pushToken fun hinside => absurd hinside hbody
  · rename_i rules hfind
    obtain ⟨frame, outer, hframes, -, hrules, -⟩ := exists_frames input h.stacked
    have hlists := h.lists
    rw [hframes] at hlists
    rw [← hrules] at hbody
    refine ⟨stacked_pushToken { state with stack := _ :: state.stack } ⟨le_rfl, h.stacked⟩ _, ?_⟩
    unfold frames LexState.pushToken
    simp only
    rw [framesOf, extract_size_push, shrink_size_push]
    unfold frames at hframes
    rw [hframes]
    exact hlists.opened hbody _ (by rw [htable]) span

/-- What is found is placed: in a text literal it closes the literal, or it is one token. -/
theorem placeDelimiter (h : input.KeepsPieces state) {id : DelimiterId} {span : Span}
    {value : Option Literal}
    (hfound : IsTextBody (input.currentRules state) →
      (builtin.delimiter id).isOperator = false ∧
        ((builtin.delimiter id).closes = true ∧ (builtin.delimiter id).contextName? =
            some (builtin.ruleSet (input.currentRules state)).name ∨
          (builtin.delimiter id).closes = false ∧ (builtin.delimiter id).opens = false ∧
            ∀ literal, value = some literal → ∃ text, literal = .str text))
    (hrules : IsTopLevel input.rules) :
    input.KeepsPieces (input.placeDelimiter state id span value) := by
  have hclosed : input.KeepsPieces
      ((state.pushToken ⟨span, .node state.currentNode⟩).closeContext (some id) span.stop) :=
    (h.pushToken fun _ => Forest.isPiece_marker _ _ _).closeContext _ _
  by_cases hbody : IsTextBody (input.currentRules state)
  · obtain ⟨hoperator, ⟨hcloses, hname⟩ | ⟨hcloses, hopens, hvalue⟩⟩ := hfound hbody
    · rw [placeDelimiter_of_belongs span value (htable ▸ hcloses) ?_]
      · exact hclosed
      · unfold belongsToInnermost
        unfold currentRules at hbody hname
        cases hstack : state.stack with
        | nil =>
            rw [hstack] at hbody
            exact absurd hbody hrules.not_isTextBody
        | cons context outer =>
            rw [hstack] at hname
            rw [htable, hname]
            exact beq_self_eq_true _
    · rw [placeDelimiter_of_token span value (htable ▸ hcloses) (htable ▸ hopens)]
      exact h.pushDelimiter id span fun _ => ⟨hoperator, hvalue⟩
  · rcases placeDelimiter_cases input state id span value with
      ⟨-, -, hclose⟩ | ⟨-, hopen⟩ | ⟨-, hreport⟩ | ⟨-, hplain⟩
    · rw [hclose]
      exact hclosed
    · rw [hopen]
      exact h.openContext htable hbody id span
    · rw [hreport]
      exact (h.report _ span _).pushDelimiter id span fun hinside => absurd hinside hbody
    · rw [hplain]
      exact h.pushDelimiter id span fun hinside => absurd hinside hbody

end KeepsPieces

section Runs

variable (htable : input.table = builtin) (hrules : IsTopLevel input.rules)

include htable hrules

/-- Steps read only pieces into text literals. -/
theorem keepsPieces_step (hopen : state.finished = false) (h : input.KeepsPieces state) {c : Char}
    {rest : List Char} (hrest : state.rest = c :: rest) : input.KeepsPieces (input.step state) := by
  rcases step_cases input hopen with
    ⟨hnil, -⟩ | ⟨_, _, -, ⟨-, hblank⟩ | ⟨id, hfind, hread⟩ | htext⟩
  · rw [hrest] at hnil
    cases hnil
  · rw [hblank]
    exact h.flushText.advance _ _
  · rw [hread]
    rw [htable, hrest] at hfind
    obtain ⟨text, behind, htext, rfl⟩ := exists_text_of_findIn hfind
    rw [← htable] at htext
    obtain ⟨taken, left, reported, -, -, -, hreported, hplace⟩ :=
      exists_readDelimiter htext ((rest_flushText state).trans hrest)
    have hcurrent : input.currentRules state.flushText = input.currentRules state := by
      unfold currentRules
      rw [stack_flushText]
    have hkept : input.KeepsPieces reported ∧
        input.currentRules reported = input.currentRules state := by
      rcases hreported with rfl | ⟨error, -, rfl⟩
      · exact ⟨h.flushText, hcurrent⟩
      · exact ⟨h.flushText.report _ _ _, hcurrent⟩
    have hsame : input.currentRules (reported.advance (Text.byteSize taken) left) =
        input.currentRules state := hkept.2
    rw [hplace]
    refine (hkept.1.advance _ _).placeDelimiter htable (fun hbody => ?_) hrules
    rw [hsame] at hbody ⊢
    obtain ⟨hoperator, hcloses | ⟨hcloses, hopens, hscan⟩⟩ := hbody.delimiter_of_findIn hfind
    · exact ⟨hoperator, Or.inl hcloses⟩
    · refine ⟨hoperator, Or.inr ⟨hcloses, hopens, ?_⟩⟩
      unfold Delimiter.scanAt
      rw [htable, hscan]
      exact ScanRules.givesText_escape _ _
  · rw [htext]
    exact ⟨h.stacked, h.lists⟩

end Runs

theorem keepsPieces_closeAll (h : input.KeepsPieces state) (stop count : Nat) :
    input.KeepsPieces (closeAll stop count state) := by
  induction count generalizing state with
  | zero => exact h
  | succ count ih => exact ih (h.closeContext none stop)

/-- When a run ends, the forest holds only pieces in its text literals. -/
theorem holdsPieces_stop (hopen : state.finished = false) (h : input.KeepsPieces state) :
    (input.stop state).forest.HoldsPieces := by
  have hreported : input.KeepsPieces (input.reported state) :=
    ⟨h.flushText.stacked, h.flushText.lists⟩
  have hclosed := keepsPieces_closeAll hreported state.cursor (input.reported state).stack.length
  have hlists := hclosed.lists
  unfold frames at hlists
  rw [stack_closeAll, List.drop_length, framesOf] at hlists
  rw [stop_eq hopen, LexState.forest_closeRoot]
  exact hlists.holdsPieces none state.cursor

/-- The forest of a text holds only pieces in its text literals, whatever calls a lexer gets. -/
theorem holdsPieces_finish (htable : input.table = builtin) (hrules : IsTopLevel input.rules)
    (calls : List LexCall) : (input.finish calls).forest.HoldsPieces := by
  rcases Nat.lt_or_ge input.source.size Span.offsetCount with hsize | hsize
  · obtain ⟨last, hreads, hlast, hfinal⟩ := exists_final_eq_stop hsize (keepsPieces_fresh hrules)
      (fun _ _ _ hreads hs hrest => keepsPieces_step htable hrules hreads.unfinished hs hrest) calls
    unfold finish
    rw [hfinal]
    exact holdsPieces_stop hreads.unfinished hlast
  · rw [finish_of_size_le input hsize]
    exact (keepsPieces_fresh hrules).lists.holdsPieces none 0

end LexInput
end ExprLang
