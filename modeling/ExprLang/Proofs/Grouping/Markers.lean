import ExprLang.Proofs.Grouping.Layout
import ExprLang.Proofs.Grouping.OperatorNodes

/-!
# Every node has a marker

A context has its opening delimiter in its list, and the node of an operator has the operator. Such
a marker is never taken out of the list: what an operator takes are operands.

Main definitions:
* `Forest.Marked`: every node but the root has a marker in its list;
* `Forest.Formed`: what holds of every forest that is read and grouped.

Main results:
* `Forest.Marked.collapse`: one step of the grouping;
* `LexInput.formed_group`: the lexed forest and the grouped one.
-/

namespace ExprLang

namespace Forest

/-- A forest in which every node but the root has a marker in its list. -/
def Marked (forest : Forest) : Prop :=
  ∀ id, id.index < forest.nodes.size → id ≠ root →
    ∃ marker ∈ forest.tokenList id, marker.kind = .node id

/-- Every node has its place and a marker, and the tokens of all lists are in order. -/
structure Formed (forest : Forest) : Prop where
  arranged : forest.Arranged
  laid : forest.Laid
  marked : forest.Marked

variable {forest : Forest} {owner : NodeId} {first count : Nat}
  {application : OperatorApplication} {before left right after : List Token} {mark : Token}

/-- The new node has the operator for a marker, and the other nodes keep theirs. -/
theorem Marked.collapse (hm : forest.Marked) (hp : forest.Packed)
    (hc : forest.Collapsible owner first count application.marker before left mark right after) :
    (forest.collapse owner first count application).Marked := by
  have hs := hc.toSplits
  intro id hid hroot
  rw [size_collapse] at hid
  by_cases hnew : id = forest.nextId
  · subst hnew
    rw [tokenList_collapse_nextId hp hs]
    exact ⟨{ mark with kind := .node forest.nextId }, by simp, rfl⟩
  · obtain ⟨marker, hmem, hkind⟩ := hm id (index_lt_of_ne_nextId hid hnew) hroot
    by_cases hid' : id = owner
    · -- the run has no marker of the owner
      subst hid'
      rw [tokenList_collapse_owner hp hs]
      rcases hs.mem_cases hmem with hrest | hrun | rfl
      · refine ⟨marker, ?_, hkind⟩
        simp only [List.mem_append, List.mem_cons] at hrest ⊢
        tauto
      · exact absurd hkind (hc.unmarked marker hrun)
      · exact absurd hc.mark_delimiter (not_isDelimiter_of_node hkind)
    · rw [tokenList_collapse_of_ne hp (hs.hasRun hp) hnew hid']
      exact ⟨marker, hmem, hkind⟩

theorem Formed.collapse (h : forest.Formed)
    (hc : forest.Collapsible owner first count application.marker before left mark right after) :
    (forest.collapse owner first count application).Formed where
  arranged := h.arranged.collapse hc
  laid := h.laid.collapse h.arranged.packed hc
  marked := h.marked.collapse h.arranged.packed hc

end Forest

/-- In a lexed forest every node is a context with an opening delimiter. -/
theorem Lexed.formed {input : LexInput} {forest : Forest} {stop : Nat}
    (h : Lexed input forest stop) : forest.Formed where
  arranged := h.arranged
  laid := h.laid
  marked := by
    intro id hid hroot
    obtain ⟨marker, rest, hlist, hkind⟩ := h.laid.opened id hid hroot (h.operator_eq_none id)
    exact ⟨marker, by rw [hlist]; exact List.mem_cons_self, hkind⟩

/-- A run leaves a forest as it should be. -/
theorem Grouping.formed_run (table : RuleSetTable) (grouping : Grouping)
    (h : grouping.forest.Formed) : (run table grouping).forest.Formed :=
  run_preserves_forest (fun _ hf => hf.arranged.packed) (fun hf hc => hf.collapse hc) h

/-- Both the lexed forest and the grouped one are as they should be. -/
theorem LexInput.formed_group (input : LexInput) (calls : List LexCall) (table : RuleSetTable) :
    (input.finish calls).forest.Formed ∧ ((input.finish calls).group table).forest.Formed := by
  have hformed : (input.finish calls).forest.Formed := (input.lexed_final calls).formed
  have hgrouped := Grouping.formed_run table
    ⟨(input.finish calls).forest, (input.finish calls).log, []⟩ hformed
  exact ⟨hformed, hgrouped⟩

end ExprLang
