import ExprLang.Proofs.Grouping.Enclosure
import ExprLang.Proofs.Resolution.Equations

/-!
# The forest that is evaluated

A text is parsed before it is evaluated: its operators are grouped, which leaves the root as it was
read. A text without operators is left as it is, and one that is too large has nothing in it.

Main results:
* `LexInput.group_finish_eq`, `LexInput.parse_eq_lex`: a text without operators is parsed as it is
  read;
* `LexInput.root_parse`: the root of a parsed text;
* `LexInput.parse_of_size_le`, `LexInput.evaluate_of_size_le`: a text that is too large.
-/

namespace ExprLang

theorem Forest.mem_arena_of_token? {forest : Forest} {owner : NodeId} {slot : Nat} {token : Token}
    (h : forest.token? owner slot = some token) : token ∈ forest.arena.toList := by
  simp only [token?] at h
  split at h
  · exact Array.mem_toList_iff.mpr (Array.mem_of_getElem? h)
  · cases h

namespace LexInput

/-- Where no operator is among the tokens nothing is grouped. -/
theorem group_finish_eq {input : LexInput} {calls : List LexCall}
    (h : ∀ token ∈ (input.finish calls).forest.arena.toList,
      Grouping.isRawOperator input.table token = false) :
    (input.finish calls).group input.table = input.finish calls := by
  have hnone : OperatorPath.findAll input.table [] (input.finish calls).forest = [] := by
    refine List.eq_nil_iff_forall_not_mem.mpr fun path hpath => ?_
    obtain ⟨owner, above, slot, token, -, htoken, hop⟩ :=
      (OperatorPath.mem_findAll_iff (input.lexed_final calls).arranged.wellNested).mp hpath
    have hraw := Grouping.isRawOperator_of_ofToken? hop
    rw [h token (Forest.mem_arena_of_token? htoken)] at hraw
    cases hraw
  unfold LexOutput.group Grouping.run
  simp only [hnone, List.length_nil, Grouping.runRounds]

theorem parse_eq_lex {input : LexInput}
    (h : ∀ token ∈ input.lex.forest.arena.toList,
      Grouping.isRawOperator input.table token = false) : input.parse = input.lex :=
  @group_finish_eq input [] h

/-- The root of a parsed text is the one that was read: no other context, and the whole source. -/
theorem root_parse (input : LexInput) :
    (input.parse.forest.header Forest.root).contextClass = .ofFlags [.root] ∧
      (input.parse.forest.header Forest.root).span.stop ≤ input.source.size ∧
      input.parse.forest.source = input.source := by
  have harranged := (Grouping.sound_ofLexed input []).arranged
  obtain ⟨-, hclass, -, hspan, hsource⟩ :=
    Grouping.header_run input.table harranged harranged.size_pos
  have hlexed := input.lexed_final []
  refine ⟨hclass.trans hlexed.header_root.1, ?_, hsource.trans hlexed.source_eq⟩
  exact (congrArg Span.stop (hspan.trans hlexed.span_root)).trans_le (input.cursor_final_le [])

/-- A text that is too large is parsed to a root with nothing in it, and a report. -/
theorem parse_of_size_le (input : LexInput) (h : Span.offsetCount ≤ input.source.size) :
    input.parse = ⟨input.fresh.forest.closeNode Forest.root #[] none 0,
      (Log.ofSource input.source).report .lex (.point 0) (tooLargeMessage input.source.size)⟩ := by
  have hlex := input.finish_of_size_le h []
  rw [finish_nil] at hlex
  rw [← hlex]
  refine parse_eq_lex fun token htoken => ?_
  rw [hlex] at htoken
  exact (List.not_mem_nil htoken).elim

section Evaluated

variable {σ : Type} (host : Host σ) (scope : ObjectRef) (mode : ResolutionMode σ) (state : σ)

/-- A text that is too large has no terms, and no other report than that it is. -/
theorem evaluate_of_size_le (input : LexInput) (h : Span.offsetCount ≤ input.source.size) :
    input.evaluate host scope mode state =
      (⟨.null, (Log.ofSource input.source).report .lex (.point 0)
        (tooLargeMessage input.source.size)⟩, state) := by
  have hparse := input.parse_of_size_le h
  have hterms : input.parse.forest.terms = [] := by
    rw [hparse]
    rfl
  have htotal : (input.resolution host scope mode).total =
      (do return .collapse (← (pure [] : Resolve σ (List Value)))) := by
    rw [Resolution.total_eq, show (input.resolution host scope mode).forest.terms = [] from hterms,
      Resolution.itemValues_nil]
  rw [input.evaluate_of_total host scope mode state htotal, hparse]
  rfl

end Evaluated

end LexInput
end ExprLang
