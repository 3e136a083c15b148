import ExprLang.Proofs.Lexing.Frames
import ExprLang.Proofs.Lexing.Reading

/-!
# The lexed forest covers the text

The tokens of every list stand in order, without overlap, and between them there is
nothing but what is blank for the rule set of the list. This holds for every list that
is still being read, up to where it is read, and a list that is closed keeps it.

Main results:
* `Covers.push`, `Covers.skip`: what adding a token or passing a blank does;
* `Covered.of_draft`: the invariant of a run;
* `covers_final`: the lists of all nodes, wherever the run ends.
-/

namespace ExprLang

/-- The character that a byte of the source belongs to is blank under a rule set. -/
def LexInput.IsBlankAt (input : LexInput) (rules : RuleSetId) (offset : Nat) : Prop :=
  ∃ before c behind, input.source.chars = before ++ c :: behind ∧
    Text.byteSize before ≤ offset ∧ offset < Text.byteSize before + c.utf8Size ∧
    input.table.isWhitespace rules input.rules c = true

/-- Tokens that cover a span, apart from what is blank under a rule set. -/
structure Covers (input : LexInput) (rules : RuleSetId) (span : Span) (tokens : List Token) :
    Prop where
  start_le : span.start ≤ span.stop
  nonempty : ∀ t ∈ tokens, t.span.start < t.span.stop
  ordered : tokens.Pairwise fun s t => s.span.stop ≤ t.span.start
  inside : ∀ t ∈ tokens, span.start ≤ t.span.start ∧ t.span.stop ≤ span.stop
  gaps : ∀ offset, span.start ≤ offset → offset < span.stop →
    (∀ t ∈ tokens, t.span.contains offset = false) → input.IsBlankAt rules offset

namespace Covers

variable {input : LexInput} {rules : RuleSetId} {start reach : Nat} {tokens : List Token}

theorem nil (input : LexInput) (rules : RuleSetId) (start : Nat) :
    Covers input rules ⟨start, start⟩ [] where
  start_le := le_rfl
  nonempty := by simp
  ordered := List.Pairwise.nil
  inside := by simp
  gaps := by
    intro offset hlow hhigh
    simp only at hlow hhigh
    omega

/-- A token that follows at once covers the span up to its end. -/
theorem push (h : Covers input rules ⟨start, reach⟩ tokens) {stop : Nat} (hpos : reach < stop)
    (kind : TokenKind) :
    Covers input rules ⟨start, stop⟩ (tokens ++ [⟨⟨reach, stop⟩, kind⟩]) := by
  have hstart : start ≤ reach := h.start_le
  refine ⟨by simp only; omega, ?_, ?_, ?_, ?_⟩
  · intro t ht
    rcases List.mem_append.mp ht with hold | hnew
    · exact h.nonempty t hold
    · rw [List.mem_singleton.mp hnew]
      exact hpos
  · rw [List.pairwise_append]
    refine ⟨h.ordered, List.pairwise_singleton _ _, ?_⟩
    intro s hs t ht
    rw [List.mem_singleton.mp ht]
    exact (h.inside s hs).2
  · intro t ht
    rcases List.mem_append.mp ht with hold | hnew
    · exact ⟨(h.inside t hold).1, le_trans (h.inside t hold).2 (Nat.le_of_lt hpos)⟩
    · rw [List.mem_singleton.mp hnew]
      exact ⟨hstart, le_rfl⟩
  · intro offset hlow hhigh huncovered
    have hnot := huncovered ⟨⟨reach, stop⟩, kind⟩ (by simp)
    simp only [Span.contains] at hhigh hnot
    have hbefore : offset < reach := by
      by_contra hge
      simp [hhigh] at hnot
      omega
    exact h.gaps offset hlow hbefore fun t ht => huncovered t (List.mem_append_left _ ht)

/-- A blank character behind the tokens belongs to the span. -/
theorem skip {before behind : List Char} {c : Char}
    (h : Covers input rules ⟨start, Text.byteSize before⟩ tokens)
    (hchars : input.source.chars = before ++ c :: behind)
    (hblank : input.table.isWhitespace rules input.rules c = true) :
    Covers input rules ⟨start, Text.byteSize before + c.utf8Size⟩ tokens := by
  have hstart : start ≤ Text.byteSize before := h.start_le
  refine ⟨by simp only; omega, h.nonempty, h.ordered, ?_, ?_⟩
  · intro t ht
    exact ⟨(h.inside t ht).1, Nat.le_add_right_of_le (h.inside t ht).2⟩
  · intro offset hlow hhigh huncovered
    by_cases hold : offset < Text.byteSize before
    · exact h.gaps offset hlow hold huncovered
    · exact ⟨before, c, behind, hchars, by omega, hhigh, hblank⟩

/-- A list that ends covers its span up to its end. -/
theorem ends {frame : Frame} {closer : Option DelimiterId} {list : Array Token} {stop : Nat}
    (h : Covers input rules ⟨start, reach⟩ frame.tokens.toList)
    (hends : frame.Ends reach closer list stop) :
    Covers input rules ⟨start, stop⟩ list.toList := by
  cases hends with
  | closed id stop hpos =>
      rw [Array.toList_push]
      exact h.push hpos _
  | cut => exact h

end Covers

/-- The lists that are being read cover the text, each up to where the next one starts. -/
def CoveredFrames (input : LexInput) : (reach : Nat) → List Frame → Prop
  | _, [] => True
  | reach, [frame] => Covers input frame.rules ⟨frame.start, reach⟩ frame.tokens.toList
  | reach, frame :: next :: outer =>
      Covers input frame.rules ⟨frame.start, reach⟩ frame.tokens.toList ∧ frame.start < reach ∧
        CoveredFrames input frame.start (next :: outer)

/-- All lists of a draft cover their spans. -/
structure Covered (input : LexInput) (forest : Forest) (frames : List Frame) (reach : Nat) :
    Prop where
  reading : CoveredFrames input reach frames
  closed : ∀ id, id.index < forest.nodes.size → (∀ frame ∈ frames, frame.node ≠ id) →
    Covers input (forest.header id).rules (forest.header id).span (forest.tokenList id)

namespace CoveredFrames

variable {input : LexInput} {frame : Frame} {outer : List Frame} {reach : Nat}

theorem covers (h : CoveredFrames input reach (frame :: outer)) :
    Covers input frame.rules ⟨frame.start, reach⟩ frame.tokens.toList := by
  cases outer with
  | nil => exact h
  | cons next outer => exact h.1

/-- The innermost list may be replaced by one that reaches further. -/
theorem replace (h : CoveredFrames input reach (frame :: outer)) {frame' : Frame} {stop : Nat}
    (hle : reach ≤ stop) (hstart : frame'.start = frame.start)
    (hcovers : Covers input frame'.rules ⟨frame'.start, stop⟩ frame'.tokens.toList) :
    CoveredFrames input stop (frame' :: outer) := by
  cases outer with
  | nil => exact hcovers
  | cons next outer =>
      obtain ⟨-, hpos, houter⟩ := h
      refine ⟨hcovers, ?_, ?_⟩
      · omega
      · rw [hstart]
        exact houter

/-- A token that follows at once may be added to the innermost list. -/
theorem push (h : CoveredFrames input reach (frame :: outer)) {stop : Nat} (hpos : reach < stop)
    (kind : TokenKind) :
    CoveredFrames input stop (frame.push ⟨⟨reach, stop⟩, kind⟩ :: outer) := by
  refine h.replace (Nat.le_of_lt hpos) rfl ?_
  have hcovers := h.covers.push hpos kind
  rw [← Array.toList_push] at hcovers
  exact hcovers

end CoveredFrames

namespace Covered

variable {input : LexInput} {forest : Forest} {frames : List Frame} {reach : Nat}

/-- A closed list covers the span of its node. -/
theorem closeNode {frame : Frame} {outer : List Frame}
    (hframed : Framed forest (frame :: outer)) (h : Covered input forest (frame :: outer) reach)
    {closer : Option DelimiterId} {tokens : Array Token} {stop : Nat}
    (hends : frame.Ends reach closer tokens stop) (id : NodeId)
    (hid : id.index < (forest.closeNode frame.node tokens closer stop).nodes.size)
    (hopen : ∀ f ∈ outer, f.node ≠ id) :
    Covers input ((forest.closeNode frame.node tokens closer stop).header id).rules
      ((forest.closeNode frame.node tokens closer stop).header id).span
      ((forest.closeNode frame.node tokens closer stop).tokenList id) := by
  obtain ⟨hindex, hrules, hstart⟩ := hframed.header frame (by simp)
  rw [Forest.tokenList_closeNode forest hframed.packed hindex, Forest.header_closeNode]
  by_cases heq : id = frame.node
  · rw [if_pos ⟨heq, hindex⟩, if_pos heq]
    simp only [hrules, hstart]
    exact h.reading.covers.ends hends
  · rw [if_neg (fun hc => heq hc.1), if_neg heq]
    rw [Forest.size_closeNode] at hid
    apply h.closed id hid
    intro f hf
    rcases List.mem_cons.mp hf with rfl | hf
    · exact fun hc => heq hc.symm
    · exact hopen f hf

theorem of_draft (draft : Draft input forest frames reach) :
    Covered input forest frames reach := by
  induction draft with
  | start =>
      refine ⟨Covers.nil input input.rules 0, ?_⟩
      intro id hid hopen
      have hroot : id = Forest.root := by
        obtain ⟨i⟩ := id
        have hi : i < 1 := hid
        obtain rfl : i = 0 := by omega
        rfl
      exact absurd hroot.symm (hopen _ List.mem_cons_self)
  | skip _ hchars hblank ih =>
      refine ⟨?_, ih.closed⟩
      exact ih.reading.replace (Nat.le_add_right _ _) rfl (ih.reading.covers.skip hchars hblank)
  | leaf _ stop hpos kind _ ih =>
      refine ⟨ih.reading.push hpos kind, ?_⟩
      intro id hid hopen
      exact ih.closed id hid (forall_node_ne_push.mp hopen)
  | value _ _ ih => exact ⟨ih.reading, ih.closed⟩
  | @opened forest frame outer reach draft stop hpos rules opener ih =>
      refine ⟨⟨?_, hpos, ih.reading⟩, ?_⟩
      · exact (Covers.nil input rules reach).push hpos _
      · intro id hid hopen
        have hne : id ≠ forest.nextId := fun heq => hopen _ List.mem_cons_self heq.symm
        rw [Forest.header_openNode, if_neg hne, Forest.tokenList_openNode]
        rw [Forest.size_openNode] at hid
        exact ih.closed id (Forest.index_lt_of_ne_nextId hid hne)
          fun f hf => hopen f (List.mem_cons_of_mem _ hf)
  | @closed forest frame next outer reach stop closer tokens draft hends ih =>
      obtain ⟨-, hpos, houter⟩ := ih.reading
      have hstop : frame.start < stop := lt_of_lt_of_le hpos hends.reach_le
      refine ⟨houter.push hstop _, ?_⟩
      intro id hid hopen
      exact Covered.closeNode (Framed.of_draft draft) ih hends id hid
        (forall_node_ne_push.mp hopen)

end Covered

namespace Lexed

variable {input : LexInput} {forest : Forest} {stop : Nat}

/-- The list of every node of a lexed forest covers the node's span. -/
theorem covers (h : Lexed input forest stop) {id : NodeId}
    (hid : id.index < forest.nodes.size) :
    Covers input (forest.header id).rules (forest.header id).span (forest.tokenList id) := by
  cases h with
  | @intro draft frame _ hdraft =>
      have hframed := Framed.of_draft hdraft
      obtain ⟨hroot, -⟩ := hframed.node_eq_root
      rw [← hroot] at hid ⊢
      exact Covered.closeNode hframed (Covered.of_draft hdraft) Frame.Ends.cut id hid (by simp)

/-- The root's span is the text that was scanned. -/
theorem span_root (h : Lexed input forest stop) :
    (forest.header Forest.root).span = ⟨0, stop⟩ := by
  cases h with
  | @intro draft frame _ hdraft =>
      have hframed := Framed.of_draft hdraft
      obtain ⟨hroot, hstart⟩ := hframed.node_eq_root
      obtain ⟨hindex, -, hspan⟩ := hframed.header frame (by simp)
      rw [← hroot, Forest.header_closeNode, if_pos ⟨rfl, hindex⟩]
      simp only [hspan, hstart]

end Lexed

namespace LexInput

variable (input : LexInput)

/--
Wherever a run ends, the tokens of every node cover its span: they are not empty, stand
in order and apart from each other, and every other byte of the span is part of a
character that is blank for the node. The root's span is the text that was scanned.
-/
theorem covers_final (calls : List LexCall) :
    (∀ id, id.index < (input.final calls).forest.nodes.size →
      Covers input ((input.final calls).forest.node id).rules
        ((input.final calls).forest.node id).span
        ((input.final calls).forest.node id).tokens.toList) ∧
      ((input.final calls).forest.node Forest.root).span = ⟨0, (input.final calls).cursor⟩ := by
  have hlexed := lexed_final input calls
  exact ⟨fun id hid => hlexed.covers hid, hlexed.span_root⟩

end LexInput
end ExprLang
