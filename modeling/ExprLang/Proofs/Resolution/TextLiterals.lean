import ExprLang.Proofs.Grouping.Enclosure
import ExprLang.Proofs.Lexing.TextPieces
import ExprLang.Proofs.Resolution.Equations
import ExprLang.Proofs.Resolution.NodeTerms
import ExprLang.Command

/-!
# The values of text literals

A text literal is read twice: its content is put together from the texts of its tokens, and the
resolution joins the values of its pieces. Grouping takes no token out of a text literal, since
there is no operator in it, and each token adds the same to both.

Main results:
* `Forest.HoldsPieces.collapse`, `LexInput.holdsPieces_parse`: grouping leaves text literals alone;
* `Resolution.value_textLiteral`: the value of a text literal is its content;
* `LexInput.readings_textLiteral`: and the content of a string is what its pieces stand for.
-/

namespace ExprLang

open Grammar

section Grouping

variable {forest : Forest} {owner : NodeId} {first count : Nat}
  {application : OperatorApplication} {before left right after : List Token} {mark : Token}

/-- An operator that takes its run is in no text literal, and its node is none. -/
theorem Forest.HoldsPieces.collapse (h : forest.HoldsPieces) (hp : forest.Packed)
    (hs : forest.Splits owner first count application.marker before left mark right after)
    (hop : Grouping.isRawOperator builtin mark = true) (hrules : ¬IsTextBody application.rules) :
    (forest.collapse owner first count application).HoldsPieces := by
  have hold : ∀ id, IsTextBody ((forest.collapse owner first count application).header id).rules →
      id ≠ forest.nextId := by
    rintro _ hid rfl
    rw [Forest.header_collapse_nextId forest hs.owner_lt] at hid
    exact hrules hid
  constructor
  · intro id hid
    have hnew := hold id hid
    rw [Forest.header_collapse forest hnew hs.owner_lt] at hid ⊢
    exact h.contexts id hid
  · intro id hid token htoken
    have hnew := hold id hid
    rw [Forest.header_collapse forest hnew hs.owner_lt] at hid
    rw [Forest.tokenList_collapse_of_ne hp (hs.hasRun hp) hnew ?_] at htoken
    · have hpiece := h.pieces id hid token htoken
      exact ⟨hpiece.marker, hpiece.delimiter, hpiece.literal⟩
    · rintro rfl
      obtain ⟨delimiter, hkind⟩ := Grouping.isDelimiter_of_isRawOperator hop
      have hoperator := (h.pieces id hid mark hs.mem_mark).delimiter delimiter hkind
      unfold Grouping.isRawOperator at hop
      simp only [hkind, hoperator, Bool.false_eq_true] at hop

namespace Grouping

/-- Grouping one operator leaves text literals alone. -/
theorem holdsPieces_groupOperator {grouping : Grouping} {slot : Nat} {token : Token}
    {id : DelimiterId} (path : OperatorPath) (hs : grouping.Sound)
    (h : grouping.forest.HoldsPieces) (htoken : grouping.forest.token? owner slot = some token)
    (hkind : token.kind = .delimiter id) (hraw : isRawOperator builtin token = true) :
    (grouping.groupOperator builtin owner slot path).forest.HoldsPieces := by
  rcases groupOperator_extent_cases builtin path hs.arranged.packed htoken ⟨id, hkind⟩ with
    ⟨fault, heq⟩ | ⟨_, extent, -, before, left, right, after, hextent, hfault, hc, -, -⟩
  · rw [heq]
    exact h
  · obtain ⟨rules, hrules⟩ := exists_find?_contextName path.operator
    -- whether there is a fault does not depend on how the operator is written
    have hfaultless : ∀ symbol, extentFault? builtin grouping.forest owner symbol extent = none :=
      fun symbol => extentFault?_eq_none.mpr (extentFault?_eq_none.mp hfault)
    rw [groupOperator_of_extent hextent hfaultless hrules
      (hc.toSplits.hasRun hs.arranged.packed)]
    exact h.collapse hs.arranged.packed hc.toSplits hraw (not_isTextBody_of_operator hrules)

/-- Grouping leaves text literals alone. -/
theorem holdsPieces_run {grouping : Grouping} (hs : grouping.Sound)
    (h : grouping.forest.HoldsPieces) : (run builtin grouping).forest.HoldsPieces := by
  suffices hboth : (run builtin grouping).Sound ∧ (run builtin grouping).forest.HoldsPieces from
    hboth.2
  refine run_induction (P := fun g => g.Sound ∧ g.forest.HoldsPieces) (fun _ hg => hg.1) ?_ ⟨hs, h⟩
  rintro g owner slot token depth path paths ⟨hsound, hholds⟩ - htoken hpath
  obtain ⟨id, op, precedence, hkind, -, hop, rfl⟩ := OperatorPath.ofToken?_eq_some.mp hpath
  exact ⟨sound_groupOperator builtin _ hsound htoken ⟨id, hkind⟩,
    holdsPieces_groupOperator _ hsound hholds htoken hkind
      (isRawOperator_of_isOperator ⟨id, precedence, hkind, hop⟩)⟩

end Grouping

/-- The forest of a parsed text holds only pieces in its text literals. -/
theorem LexInput.holdsPieces_parse {input : LexInput} (htable : input.table = builtin)
    (hrules : IsTopLevel input.rules) : input.parse.forest.HoldsPieces := by
  unfold parse LexOutput.group
  rw [htable]
  exact Grouping.holdsPieces_run (Grouping.sound_ofLexed input [])
    (holdsPieces_finish htable hrules [])

end Grouping

namespace Resolution

variable {σ : Type} {resolution : Resolution σ} {owner : NodeId}

/-- A piece that is no marker has the text as its value that it adds to the content. -/
theorem piece_of_isPiece {token : Token} (h : resolution.forest.IsPiece owner token) :
    resolution.forest.tokenTerm? owner token = none ∧
        resolution.forest.tokenContent owner token = [] ∨
      ∃ term, resolution.forest.tokenTerm? owner token = some term ∧
        resolution.piece term =
          pure (.str (String.ofList (resolution.forest.tokenContent owner token))) := by
  unfold Forest.tokenTerm? Term.ofToken? Forest.tokenContent
  cases hkind : token.kind with
  | text =>
      exact Or.inr ⟨_, rfl, rfl⟩
  | delimiter id =>
      exact Or.inr ⟨_, rfl, rfl⟩
  | node id =>
      rw [h.marker id hkind]
      exact Or.inl ⟨if_pos rfl, if_pos rfl⟩
  | literal id =>
      obtain ⟨text, htext⟩ := h.literal id hkind
      have hliteral := Forest.literal_of_getElem? htext
      refine Or.inr ⟨_, rfl, ?_⟩
      simp only [piece, value, hliteral, Literal.display, String.ofList_toList]
      rfl

/-- The values of pieces are joined to what they add to the content. -/
theorem exists_pieces_eq {tokens : List Token}
    (h : ∀ token ∈ tokens, resolution.forest.IsPiece owner token) :
    ∃ values, resolution.pieces (tokens.filterMap (resolution.forest.tokenTerm? owner)) =
        pure values ∧
      ∀ out : String, values.foldl (fun out value => out ++ value.display) out =
        out ++ String.ofList (tokens.flatMap (resolution.forest.tokenContent owner)) := by
  induction tokens with
  | nil =>
      refine ⟨[], ?_, fun out => ?_⟩
      · rw [List.filterMap_nil, pieces]
      · simp
  | cons token tokens ih =>
      obtain ⟨htoken, htokens⟩ := List.forall_mem_cons.mp h
      obtain ⟨values, hvalues, hjoined⟩ := ih htokens
      rw [List.flatMap_cons]
      rcases piece_of_isPiece htoken with ⟨hnone, hnothing⟩ | ⟨term, hterm, hpiece⟩
      · rw [List.filterMap_cons_none hnone, hnothing]
        exact ⟨values, hvalues, hjoined⟩
      · rw [List.filterMap_cons_some hterm, pieces_cons, hpiece, pure_bind, hvalues, pure_bind]
        refine ⟨_, rfl, fun out => ?_⟩
        rw [List.foldl_cons, hjoined, Value.display, String.append_assoc, String.ofList_append]

/-- The value of a text literal is its content, and nothing is asked or reported for it. -/
theorem value_textLiteral (htable : resolution.table = builtin)
    (harranged : resolution.forest.Arranged) (hholds : resolution.forest.HoldsPieces) {id : NodeId}
    (hid : IsTextBody (resolution.forest.header id).rules) (callFollows : Bool) :
    resolution.value callFollows (resolution.forest.nodeTerm id) =
      pure (.str (String.ofList (resolution.forest.content id))) := by
  have hindex : id.index < resolution.forest.nodes.size := by
    by_contra hlt
    rw [Forest.header_of_size_le _ (Nat.le_of_not_lt hlt)] at hid
    exact isTopLevel_default.not_isTextBody hid
  obtain ⟨hclass, hoperator⟩ := hholds.contexts id hid
  obtain ⟨values, hvalues, hjoined⟩ := exists_pieces_eq (hholds.pieces id hid)
  have hinner : resolution.innerValues (.ofFlags [.textLiteral])
      (Term.itemsOf (.ofFlags [.textLiteral]) (resolution.forest.itemTerms id)) = pure values := by
    rw [← hvalues, ← Forest.itemTerms_eq harranged hindex]
    rfl
  have hsimplify : resolution.simplify (resolution.forest.header id).rules values =
      .str (String.ofList (resolution.forest.content id)) := by
    unfold simplify
    rw [htable, hid.simplify_eq]
    simp only
    rw [hjoined, String.empty_append]
    rfl
  rw [Forest.nodeTerm_of_context hoperator, value_group, hclass, hinner, pure_bind, hsimplify]
  rfl

end Resolution

namespace LexInput

/--
Both readings of a text literal agree: its value is its content, however it ends and whatever the
escapes in it are. And the content of a string is what its pieces stand for: it is read without a
report, as the only token of the text, unless the text is too large to be read.
-/
theorem readings_textLiteral {rules : RuleSetId} (hrules : IsTopLevel rules) :
    (∀ {σ : Type} (source : Source) (host : Host σ) (scope : ObjectRef) (id : NodeId)
      (callFollows : Bool),
      let input : LexInput := ⟨builtin, source, rules⟩
      IsTextBody (input.parse.forest.header id).rules →
        (input.resolution host scope .full).value callFollows (input.parse.forest.nodeTerm id) =
          pure (.str (String.ofList (input.parse.forest.content id)))) ∧
    ∀ pieces : List TextPiece,
      let source := Source.ofChars ('"' :: (pieces.flatMap TextPiece.written ++ ['"']))
      let output := lex ⟨builtin, source, rules⟩
      if source.size < Span.offsetCount then
        output.log = .ofSource source ∧
          ∃ id, output.forest.tokenList Forest.root = [⟨⟨0, source.size⟩, .node id⟩] ∧
            builtin.find? stringName = some (output.forest.header id).rules ∧
            output.forest.content id = pieces.flatMap TextPiece.denoted
      else
        output.log = (Log.ofSource source).report .lex (.point 0) (tooLargeMessage source.size) := by
  constructor
  · intro σ source host scope id callFollows input hid
    have htable : input.table = builtin := rfl
    exact @Resolution.value_textLiteral σ (input.resolution host scope .full) htable
      input.arranged_parse (holdsPieces_parse htable hrules) id hid callFollows
  · intro pieces source output
    split
    · rename_i hsize
      obtain ⟨id, hlog, hlist, hkind, hcontent⟩ :=
        @exists_lex_of_pieces ⟨builtin, source, rules⟩ rfl hrules pieces rfl hsize
      exact ⟨hlog, id, hlist, hkind ▸ find?_string, hcontent⟩
    · rename_i hsize
      exact congrArg LexOutput.log (finish_of_size_le _ (Nat.not_lt.mp hsize) [])

/-- An unclosed character literal, with an unknown escape and a code point in front of a digit; and
a string with escapes next to plain text, and with an escaped line break. -/
theorem readings_textLiteral_escapes :
    let input := Language.input "\x27\\q\\u00412"
    let output := (Language.input "\"\\té\\u0041B\\\r\n\"").lex
    IsTopLevel builtin.startRules ∧ IsTextBody (input.parse.forest.header ⟨1⟩).rules ∧
      (input.resolution Store.host Command.scope .full).value false
          (input.parse.forest.nodeTerm ⟨1⟩) =
        pure (.str "qA2") ∧
      output.log.isEmpty = true ∧
        ∃ id, output.forest.tokenList Forest.root = [⟨⟨0, 16⟩, .node id⟩] ∧
          output.forest.content id = ['\t', 'é', 'A', 'B'] := by
  intro input output
  have hbody : IsTextBody (input.parse.forest.header ⟨1⟩).rules := Or.inr (by decide +kernel)
  obtain ⟨hvalues, hpieces⟩ := readings_textLiteral isTopLevel_startRules
  have hvalue := hvalues (.ofString "\x27\\q\\u00412") Store.host Command.scope ⟨1⟩ false hbody
  have hcontent : String.ofList (input.parse.forest.content ⟨1⟩) = "qA2" := by decide +kernel
  have hread := fun pieces hsize => (if_pos hsize).mp (hpieces pieces)
  obtain ⟨hlog, id, hlist, -, htext⟩ := hread [.letter 't' '\t' (by decide),
    .plain 'é' (by decide),
    .code 'u' "0041".toList ⟨by decide, List.forall_iff_forall_mem.mp (by decide), by decide⟩,
    .plain 'B' (by decide), .lineBreak ['\r', '\n'] (by decide)] (by decide)
  refine ⟨isTopLevel_startRules, hbody, ?_, ?_, id, hlist, htext⟩
  · rw [← hcontent]
    exact hvalue
  · exact (congrArg Log.isEmpty hlog).trans rfl

end LexInput
end ExprLang
