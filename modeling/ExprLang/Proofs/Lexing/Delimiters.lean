import ExprLang.Proofs.Forest.Regrouping
import ExprLang.Proofs.Lexing.Frames

/-!
# Delimiters and markers in the lexed lists

A delimiter that is left in a list starts where the text was read to, and no list
contains another one from there. The markers of a context stand around what it
contains: first its opening delimiter, last its closing one, if it has one.

Main results:
* `Lexed.separate`: no two delimiters of a lexed forest start at the same offset;
* `Lexed.bracketed`: the markers of a list stand at its ends.
-/

namespace ExprLang

/-- What the delimiters of a draft, in whichever lists, tell about where they start. -/
structure Spread (forest : Forest) (frames : List Frame) (reach : Nat) : Prop where
  below : ∀ id t, t ∈ listIn forest frames id → t.IsDelimiter → t.span.start < reach
  across : ∀ a b s t, s ∈ listIn forest frames a → t ∈ listIn forest frames b →
    s.IsDelimiter → t.IsDelimiter → s.span.start = t.span.start → a = b
  within : ∀ a, (listIn forest frames a).Pairwise fun s t =>
    s.IsDelimiter → t.IsDelimiter → s.span.start ≠ t.span.start

namespace Spread

variable {input : LexInput} {forest : Forest} {frame next : Frame} {outer : List Frame}
  {reach : Nat}

/-- Lists that only get tokens other than delimiters keep their delimiters apart. -/
theorem extend {frames frames' : List Frame} {forest' : Forest} {stop : Nat}
    (h : Spread forest frames reach) (hle : reach ≤ stop)
    (hlists : ∀ id, ∃ added, listIn forest' frames' id = listIn forest frames id ++ added ∧
      ∀ t ∈ added, ¬t.IsDelimiter) : Spread forest' frames' stop := by
  have hold : ∀ id t, t ∈ listIn forest' frames' id → t.IsDelimiter →
      t ∈ listIn forest frames id := by
    intro id t hmem hdelimiter
    obtain ⟨added, hlist, hadded⟩ := hlists id
    rw [hlist] at hmem
    rcases List.mem_append.mp hmem with hmem | hmem
    · exact hmem
    · exact absurd hdelimiter (hadded t hmem)
  refine ⟨?_, ?_, ?_⟩
  · intro id t hmem hdelimiter
    exact Nat.lt_of_lt_of_le (h.below id t (hold id t hmem hdelimiter) hdelimiter) hle
  · intro a b s t hs ht hsd htd
    exact h.across a b s t (hold a s hs hsd) (hold b t ht htd) hsd htd
  · intro a
    obtain ⟨added, hlist, hadded⟩ := hlists a
    rw [hlist]
    refine List.pairwise_append.mpr ⟨h.within a, ?_, ?_⟩
    · refine List.Pairwise.imp_of_mem ?_ (List.pairwise_of_forall fun _ _ => trivial)
      intro s t hs _ _ hsd
      exact absurd hsd (hadded s hs)
    · intro s _ t ht _ htd
      exact absurd htd (hadded t ht)

/-- A token that starts where the text was read to is apart from all others. -/
theorem push (h : Spread forest (frame :: outer) reach) {stop : Nat} (hpos : reach < stop)
    (kind : TokenKind) :
    Spread forest (frame.push ⟨⟨reach, stop⟩, kind⟩ :: outer) stop := by
  have hold : ∀ id t, t ∈ listIn forest (frame.push ⟨⟨reach, stop⟩, kind⟩ :: outer) id →
      t ∈ listIn forest (frame :: outer) id ∨ (id = frame.node ∧ t.span.start = reach) := by
    intro id t hmem
    rw [listIn_push] at hmem
    split at hmem
    · rename_i hid
      rcases List.mem_append.mp hmem with hmem | hmem
      · exact Or.inl hmem
      · rw [List.mem_singleton.mp hmem]
        exact Or.inr ⟨hid, rfl⟩
    · exact Or.inl hmem
  refine ⟨?_, ?_, ?_⟩
  · intro id t hmem hdelimiter
    rcases hold id t hmem with hmem | ⟨-, hstart⟩
    · exact Nat.lt_trans (h.below id t hmem hdelimiter) hpos
    · omega
  · intro a b s t hs ht hsd htd heq
    rcases hold a s hs with hs | ⟨ha, hstart⟩
    · rcases hold b t ht with ht | ⟨-, hstart'⟩
      · exact h.across a b s t hs ht hsd htd heq
      · have hlt := h.below a s hs hsd
        omega
    · rcases hold b t ht with ht | ⟨hb, -⟩
      · have hlt := h.below b t ht htd
        omega
      · exact ha.trans hb.symm
  · intro a
    rw [listIn_push]
    split
    · refine List.pairwise_append.mpr ⟨h.within a, List.pairwise_singleton _ _, ?_⟩
      intro s hs t ht hsd _
      rw [List.mem_singleton.mp ht]
      exact Nat.ne_of_lt (h.below a s hs hsd)
    · exact h.within a

theorem of_draft {frames : List Frame} (draft : Draft input forest frames reach) :
    Spread forest frames reach := by
  induction draft with
  | start =>
      refine ⟨?_, ?_, ?_⟩
      · intro id t hmem
        rw [listIn_ofSource] at hmem
        cases hmem
      · intro a b s t hmem
        rw [listIn_ofSource] at hmem
        cases hmem
      · intro a
        rw [listIn_ofSource]
        exact List.Pairwise.nil
  | skip _ _ _ ih =>
      exact ih.extend (Nat.le_add_right _ _) fun _ => ⟨[], by simp, by simp⟩
  | leaf _ stop hpos kind _ ih => exact ih.push hpos kind
  | value _ _ ih => exact ⟨ih.below, ih.across, ih.within⟩
  | @opened forest frame outer reach draft stop hpos rules opener ih =>
      refine ih.extend (Nat.le_of_lt hpos) ?_
      intro id
      obtain ⟨added, -, hlist, hadded⟩ := exists_listIn_opened (Framed.of_draft draft) _ _ id
      refine ⟨added, hlist, ?_⟩
      intro t ht
      exact Forest.not_isDelimiter_of_node (hadded t ht).1
  | closed draft hends ih =>
      refine ih.extend hends.reach_le ?_
      intro id
      obtain ⟨added, -, hlist, hadded⟩ := exists_listIn_closed (Framed.of_draft draft) hends id
      refine ⟨added, hlist, ?_⟩
      intro t ht
      rcases hadded t ht with ⟨-, hmark⟩ | ⟨-, rfl⟩
      · exact Forest.not_isDelimiter_of_node hmark
      · exact Forest.not_isDelimiter_of_node rfl

end Spread

/-- The markers of a list stand at its ends. -/
def Bracketed (id : NodeId) (tokens : List Token) : Prop :=
  ∃ front middle back, tokens = front ++ middle ++ back ∧
    (∀ t ∈ front, t.kind = .node id) ∧ (∀ t ∈ back, t.kind = .node id) ∧
      ∀ t ∈ middle, t.kind ≠ .node id

/-- Without its markers such a list is what stands between them. -/
theorem Bracketed.eq_append_filter {id : NodeId} {tokens : List Token} (h : Bracketed id tokens) :
    ∃ front back,
      tokens = front ++ tokens.filter (fun token => !token.isMarkerOf id) ++ back ∧
        ∀ t ∈ front ++ back, t.kind = .node id := by
  obtain ⟨front, middle, back, rfl, hfront, hback, hmiddle⟩ := h
  have hdrop : ∀ tokens : List Token, (∀ t ∈ tokens, t.kind = .node id) →
      tokens.filter (fun token => !token.isMarkerOf id) = [] := by
    intro tokens h
    rw [List.filter_eq_nil_iff]
    intro t ht
    simp [Token.isMarkerOf, h t ht]
  have hkeep : middle.filter (fun token => !token.isMarkerOf id) = middle := by
    rw [List.filter_eq_self]
    intro t ht
    simp [Token.isMarkerOf, hmiddle t ht]
  refine ⟨front, back, ?_, ?_⟩
  · simp only [List.filter_append, hdrop front hfront, hdrop back hback, hkeep, List.nil_append,
      List.append_nil]
  · intro t ht
    rcases List.mem_append.mp ht with ht | ht
    · exact hfront t ht
    · exact hback t ht

/-- The markers of a list that is being read stand at its start. -/
def Opened (id : NodeId) (tokens : List Token) : Prop :=
  ∃ front middle, tokens = front ++ middle ∧ (∀ t ∈ front, t.kind = .node id) ∧
    ∀ t ∈ middle, t.kind ≠ .node id

/-- The markers in all lists of a draft. -/
structure Marked (forest : Forest) (frames : List Frame) : Prop where
  opened : ∀ frame ∈ frames, Opened frame.node frame.tokens.toList
  closed : ∀ id, (∀ frame ∈ frames, frame.node ≠ id) → Bracketed id (forest.tokenList id)

theorem Opened.push {id : NodeId} {tokens : List Token} (h : Opened id tokens) {token : Token}
    (hkind : token.kind ≠ .node id) : Opened id (tokens ++ [token]) := by
  obtain ⟨front, middle, rfl, hfront, hmiddle⟩ := h
  refine ⟨front, middle ++ [token], by simp, hfront, ?_⟩
  intro t ht
  rcases List.mem_append.mp ht with ht | ht
  · exact hmiddle t ht
  · rw [List.mem_singleton.mp ht]
    exact hkind

/-- A list that ends may get a last marker. -/
theorem Opened.ends {frame : Frame} {reach : Nat} {closer : Option DelimiterId}
    {tokens : Array Token} {stop : Nat} (h : Opened frame.node frame.tokens.toList)
    (hends : frame.Ends reach closer tokens stop) : Bracketed frame.node tokens.toList := by
  obtain ⟨front, middle, hlist, hfront, hmiddle⟩ := h
  cases hends with
  | closed id stop hpos =>
      refine ⟨front, middle, [⟨⟨reach, stop⟩, .node frame.node⟩], ?_, hfront, ?_, hmiddle⟩
      · rw [Array.toList_push, hlist]
      · intro t ht
        rw [List.mem_singleton.mp ht]
  | cut => exact ⟨front, middle, [], by simp [hlist], hfront, by simp, hmiddle⟩

namespace Marked

variable {input : LexInput} {forest : Forest} {frame : Frame} {outer : List Frame} {reach : Nat}

theorem push (h : Marked forest (frame :: outer)) {token : Token}
    (hkind : token.kind ≠ .node frame.node) : Marked forest (frame.push token :: outer) := by
  constructor
  · intro f hf
    rcases List.mem_cons.mp hf with rfl | hf
    · have hopened := (h.opened frame (by simp)).push hkind
      rw [← Array.toList_push] at hopened
      exact hopened
    · exact h.opened f (List.mem_cons_of_mem _ hf)
  · intro id hopen
    exact h.closed id (forall_node_ne_push.mp hopen)

/-- The list of a closed context has its markers at its ends. -/
theorem closeNode (hframed : Framed forest (frame :: outer)) (h : Marked forest (frame :: outer))
    {closer : Option DelimiterId} {tokens : Array Token} {stop : Nat}
    (hends : frame.Ends reach closer tokens stop) :
    Marked (forest.closeNode frame.node tokens closer stop) outer := by
  have hindex := (hframed.header frame (by simp)).1
  constructor
  · intro f hf
    exact h.opened f (List.mem_cons_of_mem _ hf)
  · intro id hopen
    rw [Forest.tokenList_closeNode forest hframed.packed hindex]
    split
    · rename_i hid
      rw [hid]
      exact (h.opened frame (by simp)).ends hends
    · rename_i hid
      refine h.closed id fun f hf => ?_
      rcases List.mem_cons.mp hf with rfl | hf
      · exact fun heq => hid heq.symm
      · exact hopen f hf

theorem of_draft {frames : List Frame} (draft : Draft input forest frames reach) :
    Marked forest frames := by
  induction draft with
  | start =>
      constructor
      · intro f hf
        rw [List.mem_singleton.mp hf]
        exact ⟨[], [], rfl, by simp, by simp⟩
      · intro id hopen
        rw [← listIn_of_forall_ne hopen, listIn_ofSource]
        exact ⟨[], [], [], rfl, by simp, by simp, by simp⟩
  | skip _ _ _ ih => exact ih
  | leaf _ stop _ kind hkind ih => exact ih.push (hkind _)
  | value _ _ ih => exact ⟨ih.opened, ih.closed⟩
  | opened draft stop _ rules opener ih =>
      constructor
      · intro f hf
        rcases List.mem_cons.mp hf with rfl | hf
        · refine ⟨_, [], (List.append_nil _).symm, ?_, by simp⟩
          intro t ht
          rw [List.mem_singleton.mp ht]
        · exact ih.opened f hf
      · intro id hopen
        rw [Forest.tokenList_openNode]
        exact ih.closed id fun f hf => hopen f (List.mem_cons_of_mem _ hf)
  | @closed forest frame next outer reach stop closer tokens draft hends ih =>
      have hframed := Framed.of_draft draft
      refine (closeNode hframed ih hends).push ?_
      intro hkind
      have hnext : frame.node = next.node := TokenKind.node.inj hkind
      exact (List.nodup_cons.mp hframed.distinct).1 (by simp [hnext])

end Marked

namespace Lexed

variable {input : LexInput} {forest : Forest} {stop : Nat}

/-- No two delimiters of a lexed forest start at the same offset. -/
theorem separate (h : Lexed input forest stop) : forest.Separate := by
  cases h with
  | @intro draft frame _ hdraft =>
      have hframed := Framed.of_draft hdraft
      have hspread := Spread.of_draft hdraft
      obtain ⟨hroot, -⟩ := hframed.node_eq_root
      have hindex := (hframed.header frame (by simp)).1
      rw [← hroot]
      have hlist : ∀ id, (draft.closeNode frame.node frame.tokens none stop).tokenList id =
          listIn draft [frame] id := tokenList_closeNode_last hframed none stop
      constructor
      · intro a b s t hs ht
        rw [hlist] at hs ht
        exact hspread.across a b s t hs ht
      · intro a
        rw [hlist]
        exact hspread.within a

/-- The markers of a list stand at its ends. -/
theorem bracketed (h : Lexed input forest stop) (id : NodeId) :
    Bracketed id (forest.tokenList id) := by
  cases h with
  | @intro draft frame _ hdraft =>
      have hframed := Framed.of_draft hdraft
      obtain ⟨hroot, -⟩ := hframed.node_eq_root
      rw [← hroot]
      exact (Marked.closeNode hframed (Marked.of_draft hdraft) Frame.Ends.cut).closed id (by simp)

end Lexed

end ExprLang
