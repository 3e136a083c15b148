import ExprLang.Proofs.Lexing.Reports

/-!
# What the list of a context begins and ends with

A context starts with the delimiter that opens it, which is the first token of its list. The
delimiter that closes it is the last one, and the context ends with it. Between them there are no
markers. A context that is not closed by a delimiter has no second marker.

Main definitions:
* `IsDelimited`: a list between the delimiters of its node.

Main results:
* `Draft.isDelimited`: the lists that are being read, and those that are closed;
* `Lexed.isDelimited`: the lists of a lexed forest.
-/

namespace ExprLang

/-- The tokens of a list: those around it are the delimiters of its node. -/
structure Delimits (header : NodeHeader) (id : NodeId) (first : Token) (inner : List Token)
    (last? : Option Token) : Prop where
  first_marker : first.kind = .node id
  inner_unmarked : ∀ token ∈ inner, token.kind ≠ .node id
  last_marker : ∀ last ∈ last?, last.kind = .node id
  closer_iff : last?.isSome = header.closer.isSome
  start_eq : header.span.start = first.span.start
  stop_eq : ∀ last ∈ last?, header.span.stop = last.span.stop

/-- A list begins with the opening delimiter of its node, and ends with the closing one, if any. -/
def IsDelimited (header : NodeHeader) (id : NodeId) (tokens : List Token) : Prop :=
  ∃ first inner last?, tokens = first :: (inner ++ last?.toList) ∧
    Delimits header id first inner last?

namespace IsDelimited

variable {header header' : NodeHeader} {id : NodeId} {tokens : List Token}

/-- Only the span and the closing delimiter of the node matter. -/
theorem congr (h : IsDelimited header id tokens) (hspan : header'.span = header.span)
    (hcloser : header'.closer = header.closer) : IsDelimited header' id tokens := by
  obtain ⟨first, inner, last?, htokens, hd⟩ := h
  refine ⟨first, inner, last?, htokens, hd.first_marker, hd.inner_unmarked, hd.last_marker, ?_, ?_,
    ?_⟩
  · rw [hcloser]
    exact hd.closer_iff
  · rw [hspan]
    exact hd.start_eq
  · rw [hspan]
    exact hd.stop_eq

/-- Without a closing delimiter there is nothing behind the opening one that is a marker. -/
theorem exists_cons (h : IsDelimited header id tokens) (hcloser : header.closer = none) :
    ∃ first inner, tokens = first :: inner ∧ Delimits header id first inner none := by
  obtain ⟨first, inner, last?, htokens, hd⟩ := h
  have hlast : last? = none := by
    rw [← Option.isNone_iff_eq_none, ← Option.not_isSome, hd.closer_iff, hcloser]
    rfl
  subst hlast
  exact ⟨first, inner, by simpa using htokens, hd⟩

/-- A context with one token only has no closing delimiter, and starts with it. -/
theorem singleton {token : Token} (h : IsDelimited header id [token]) :
    header.closer = none ∧ header.span.start = token.span.start := by
  obtain ⟨first, inner, last?, htokens, hd⟩ := h
  obtain ⟨rfl, hrest⟩ := List.cons.inj htokens
  have hlast : last? = none := by
    simpa using (List.append_eq_nil_iff.mp hrest.symm).2
  subst hlast
  have hcloser := hd.closer_iff
  exact ⟨by simpa using hcloser.symm, hd.start_eq⟩

/-- Tokens that are no markers are added to what is open. -/
theorem concat (h : IsDelimited header id tokens) (hcloser : header.closer = none) {token : Token}
    (hkind : token.kind ≠ .node id) : IsDelimited header id (tokens ++ [token]) := by
  obtain ⟨first, inner, rfl, hd⟩ := h.exists_cons hcloser
  refine ⟨first, inner ++ [token], none, by simp, hd.first_marker, ?_, hd.last_marker,
    hd.closer_iff, hd.start_eq, hd.stop_eq⟩
  exact List.forall_mem_append.mpr ⟨hd.inner_unmarked, List.forall_mem_singleton.mpr hkind⟩

/-- A list ends with its closing delimiter, if there is one. -/
theorem ends {frame : Frame} {reach stop : Nat} {closer : Option DelimiterId}
    {list : Array Token} (h : IsDelimited header frame.node frame.tokens.toList)
    (hcloser : header.closer = none) (hends : frame.Ends reach closer list stop)
    (hcloser' : header'.closer = closer) (hspan : header'.span = ⟨header.span.start, stop⟩) :
    IsDelimited header' frame.node list.toList := by
  obtain ⟨first, inner, htokens, hd⟩ := h.exists_cons hcloser
  have hstart : header'.span.start = first.span.start := by
    rw [hspan]
    exact hd.start_eq
  cases hends with
  | closed id stop hpos =>
      refine ⟨first, inner, some ⟨⟨reach, stop⟩, .node frame.node⟩, ?_, hd.first_marker,
        hd.inner_unmarked, ?_, ?_, hstart, ?_⟩
      · rw [Array.toList_push, htokens]
        rfl
      · rintro last ⟨⟩
        rfl
      · rw [hcloser']
        rfl
      · rintro last ⟨⟩
        rw [hspan]
  | cut =>
      refine ⟨first, inner, none, by simpa using htokens, hd.first_marker, hd.inner_unmarked,
        hd.last_marker, ?_, hstart, fun _ hnone => nomatch hnone⟩
      rw [hcloser']
      rfl

/-- Tokens between the delimiters may be replaced by another one. -/
theorem replace {before run after : List Token}
    (h : IsDelimited header id (before ++ run ++ after)) (hne : run ≠ [])
    (hrun : ∀ token ∈ run, token.kind ≠ .node id) {token : Token} (hkind : token.kind ≠ .node id) :
    IsDelimited header id (before ++ token :: after) := by
  obtain ⟨first, inner, last?, htokens, hd⟩ := h
  -- the run starts behind the first token
  obtain ⟨between, rfl⟩ : ∃ between, before = first :: between := by
    cases before with
    | nil =>
        obtain ⟨head, more, rfl⟩ := List.exists_cons_of_ne_nil hne
        obtain ⟨rfl, -⟩ := List.cons.inj htokens
        exact absurd hd.first_marker (hrun _ List.mem_cons_self)
    | cons head between =>
        obtain ⟨rfl, -⟩ := List.cons.inj htokens
        exact ⟨between, rfl⟩
  have hinner : between ++ run ++ after = inner ++ last?.toList := (List.cons.inj htokens).2
  -- it ends in front of the closing delimiter
  obtain ⟨behind, rfl⟩ : ∃ behind, after = behind ++ last?.toList := by
    cases last? with
    | none => exact ⟨after, by simp⟩
    | some last =>
        rcases List.eq_nil_or_concat after with rfl | ⟨behind, other, rfl⟩
        · have hlast := congrArg List.getLast? hinner
          rw [List.append_nil, List.getLast?_append_of_ne_nil _ hne] at hlast
          have hmem := List.mem_of_getLast? (hlast.trans List.getLast?_concat)
          exact absurd (hd.last_marker last rfl) (hrun last hmem)
        · rw [List.concat_eq_append, ← List.append_assoc] at hinner
          obtain ⟨-, hother⟩ := List.append_inj' hinner rfl
          exact ⟨behind, by rw [List.concat_eq_append, hother]⟩
  rw [← List.append_assoc] at hinner
  obtain rfl := List.append_cancel_right hinner
  have hunmarked := hd.inner_unmarked
  refine ⟨first, between ++ token :: behind, last?, by simp, hd.first_marker, fun other hmem => ?_,
    hd.last_marker, hd.closer_iff, hd.start_eq, hd.stop_eq⟩
  rcases List.mem_append.mp hmem with hmem | hmem
  · exact hunmarked other (by simp [hmem])
  · rcases List.mem_cons.mp hmem with rfl | hmem
    · exact hkind
    · exact hunmarked other (by simp [hmem])

end IsDelimited

variable {input : LexInput} {forest : Forest} {frames : List Frame} {reach stop : Nat}

/-- The lists of a draft are those of contexts that are open, or have ended. -/
theorem Draft.isDelimited (draft : Draft input forest frames reach) {id : NodeId}
    (hid : id.index < forest.nodes.size) (hroot : id ≠ Forest.root) :
    IsDelimited (forest.header id) id (listIn forest frames id) := by
  induction draft with
  | start =>
      obtain ⟨i⟩ := id
      obtain rfl : i = 0 := Nat.lt_one_iff.mp hid
      exact absurd rfl hroot
  | skip _ _ _ ih => exact ih hid
  | leaf draft stop _ kind hkind ih =>
      rw [listIn_push]
      split
      · rename_i hframe
        subst hframe
        exact (ih hid).concat (draft.closer_eq_none _ List.mem_cons_self) (hkind _)
      · exact ih hid
  | value _ _ ih => exact ih hid
  | @opened forest _ _ reach _ stop _ rules opener ih =>
      rw [listIn_openNode, Forest.header_openNode]
      split
      · rename_i hnew
        subst hnew
        exact ⟨_, [], none, rfl, rfl, (fun _ h => nomatch h), (fun _ h => nomatch h), rfl, rfl,
          (fun _ h => nomatch h)⟩
      · rename_i hnew
        rw [Forest.size_openNode] at hid
        exact ih (Forest.index_lt_of_ne_nextId hid hnew)
  | @closed forest frame next outer reach stop closer tokens draft hends ih =>
      rw [Forest.size_closeNode] at hid
      have hframed := Framed.of_draft draft
      have hindex := (hframed.header frame List.mem_cons_self).1
      have hne : frame.node ≠ next.node := fun heq =>
        (List.nodup_cons.mp hframed.distinct).1 (heq ▸ List.mem_cons_self)
      rw [listIn_push, listIn_closeNode hframed, Forest.header_closeNode]
      by_cases hself : id = frame.node
      · subst hself
        have hlist := ih hid
        rw [listIn_cons_self] at hlist
        rw [if_neg hne, if_pos rfl, if_pos ⟨rfl, hindex⟩]
        exact hlist.ends (draft.closer_eq_none frame List.mem_cons_self) hends rfl rfl
      · rw [if_neg hself, if_neg fun hc => hself hc.1]
        split
        · rename_i hnext
          subst hnext
          refine (ih hid).concat (draft.closer_eq_none next ?_) fun heq => ?_
          · exact List.mem_cons_of_mem _ List.mem_cons_self
          · exact hne (TokenKind.node.inj heq)
        · exact ih hid

/-- The list of every context of a lexed forest is between its delimiters. -/
theorem Lexed.isDelimited (h : Lexed input forest stop) {id : NodeId}
    (hid : id.index < forest.nodes.size) (hroot : id ≠ Forest.root) :
    IsDelimited (forest.header id) id (forest.tokenList id) := by
  cases h with
  | @intro draft frame _ hdraft =>
      have hframed := Framed.of_draft hdraft
      rw [Forest.size_closeNode] at hid
      rw [Forest.header_closeNode, if_neg fun hc => hroot hc.1, ← hframed.node_eq_root.1,
        tokenList_closeNode_last hframed]
      exact hdraft.isDelimited hid hroot

end ExprLang
