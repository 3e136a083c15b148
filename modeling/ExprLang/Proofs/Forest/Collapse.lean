import ExprLang.Proofs.Forest.Arena

/-!
# The lists after a collapse

A collapse copies a run behind all other tokens and writes the tokens that followed
it over its place. Read as lists, this takes a run out of the list of its owner,
puts one token there, and gives the run to the new node; every other list stays as
it is.

Main results:
* `getElem?_copyDown`: what an overlapping copy leaves in every slot;
* `tokenList_collapse_nextId`, `tokenList_collapse_owner`, `tokenList_collapse_of_ne`: the
  lists after a collapse; `header_collapse`: the nodes;
* `Packed.collapse`: the ranges stay apart.
-/

namespace ExprLang
namespace Forest

section Copying

variable {α : Type}

@[simp]
theorem size_copyDown (source target count : Nat) (elements : Array α) :
    (copyDown source target count elements).size = elements.size := by
  induction count generalizing source target elements with
  | zero => rfl
  | succ count ih =>
      rw [copyDown, ih]
      split
      · rfl
      · simp

/--
Copying down reads every element before it is overwritten: behind `target` stand
the elements that stood behind `source`.
-/
theorem getElem?_copyDown (source target count : Nat) (elements : Array α)
    (hdown : target ≤ source) (hin : source + count ≤ elements.size) (slot : Nat) :
    (copyDown source target count elements)[slot]? =
      if target ≤ slot ∧ slot < target + count then elements[source + (slot - target)]?
      else elements[slot]? := by
  induction count generalizing source target elements with
  | zero =>
      rw [copyDown, if_neg (by omega)]
  | succ count ih =>
      have hsource : source < elements.size := by omega
      have hread : elements[source]? = some elements[source] := Array.getElem?_eq_getElem hsource
      rw [copyDown, hread]
      rw [ih (source + 1) (target + 1) _ (by omega) (by simp; omega)]
      by_cases hslot : slot = target
      · subst hslot
        rw [if_neg (by omega), if_pos (by omega)]
        simp [show slot < elements.size by omega]
      · by_cases hmoved : target + 1 ≤ slot ∧ slot < target + 1 + count
        · rw [if_pos hmoved, if_pos (by omega)]
          have hne : target ≠ source + 1 + (slot - (target + 1)) := by omega
          rw [Array.getElem?_setIfInBounds_ne hne]
          congr 1
          omega
        · rw [if_neg hmoved, if_neg (by omega)]
          rw [Array.getElem?_setIfInBounds_ne (fun h => hslot h.symm)]

end Copying

section Parents

variable (forest : Forest)

theorem getD_foldl_reparent (id : NodeId) (children : List NodeId) (nodes : Array NodeHeader)
    (j : Nat) :
    (children.foldl (reparent id) nodes).getD j default =
      if ⟨j⟩ ∈ children ∧ j < nodes.size then
        { nodes.getD j default with parent := some id }
      else nodes.getD j default := by
  induction children generalizing nodes with
  | nil => simp
  | cons child children ih =>
      have hsize : (reparent id nodes child).size = nodes.size := by simp [reparent]
      have hfirst : (reparent id nodes child).getD j default =
          if child.index = j ∧ j < nodes.size then
            { nodes.getD j default with parent := some id }
          else nodes.getD j default := by
        rw [reparent, getD_modify]
      have hchild : ((⟨j⟩ : NodeId) = child) ↔ child.index = j := by
        constructor
        · intro h
          rw [← h]
        · intro h
          rw [← h]
      rw [List.foldl_cons, ih, hsize, hfirst]
      simp only [List.mem_cons, hchild]
      by_cases hj : j < nodes.size
      · by_cases hc : child.index = j
        · by_cases hm : (⟨j⟩ : NodeId) ∈ children
          · simp [hj, hc, hm]
          · simp [hj, hc, hm]
        · by_cases hm : (⟨j⟩ : NodeId) ∈ children
          · simp [hj, hc, hm]
          · simp [hj, hc, hm]
      · simp [hj]

theorem size_foldl_reparent (id : NodeId) (children : List NodeId) (nodes : Array NodeHeader) :
    (children.foldl (reparent id) nodes).size = nodes.size := by
  induction children generalizing nodes with
  | nil => rfl
  | cons child children ih =>
      rw [List.foldl_cons, ih]
      simp [reparent]

@[simp]
theorem size_collapse (owner : NodeId) (first count : Nat) (application : OperatorApplication) :
    (forest.collapse owner first count application).nodes.size = forest.nodes.size + 1 := by
  simp [collapse, size_foldl_reparent]

/-- The node that a collapse adds. -/
theorem header_collapse_nextId {owner : NodeId} (howner : owner.index < forest.nodes.size)
    (first count : Nat) (application : OperatorApplication) :
    (forest.collapse owner first count application).header forest.nextId =
      { rules := application.rules
        contextClass := .ofFlags [.operator]
        operator := some application.operator
        opener := none
        closer := none
        parent := some owner
        source := some application.delimiter
        span := runSpan (forest.markedRun owner first count application.marker)
        range := ⟨forest.arena.size, count⟩ } := by
  unfold header collapse
  simp only [getD_modify, getD_push, nextId, size_foldl_reparent]
  rw [if_neg (by omega), if_pos trivial]

/-- A collapse changes the parents of the nodes in its run and the range of its owner. -/
theorem header_collapse {id : NodeId} (hid : id ≠ forest.nextId)
    {owner : NodeId} (howner : owner.index < forest.nodes.size)
    (first count : Nat) (application : OperatorApplication) :
    (forest.collapse owner first count application).header id =
      { forest.header id with
        parent :=
          if id ∈ childrenIn forest.nextId
                (forest.markedRun owner first count application.marker) ∧
              id.index < forest.nodes.size then
            some forest.nextId
          else (forest.header id).parent
        range :=
          if id = owner then
            ⟨(forest.header id).range.start, (forest.header id).range.length - (count - 1)⟩
          else (forest.header id).range } := by
  obtain ⟨i⟩ := id
  obtain ⟨o⟩ := owner
  have hi : i ≠ forest.nodes.size := fun h => hid (by rw [h, nextId])
  unfold header collapse
  simp only [getD_modify, NodeId.mk.injEq, Array.size_push, size_foldl_reparent]
  rw [getD_push, size_foldl_reparent, if_neg hi, getD_foldl_reparent]
  by_cases hoi : o = i
  · subst hoi
    have hsmall : o < forest.nodes.size := howner
    rw [if_pos ⟨rfl, by omega⟩]
    split
    · simp_all
    · simp_all
  · have hio : i ≠ o := fun h => hoi h.symm
    rw [if_neg (fun h => hoi h.1)]
    split
    · simp_all
    · simp_all

end Parents

/--
A run of `count` tokens in the list of `owner`: the tokens before it, those left of
its marker, the marker, those right of it, and the tokens behind the run.
-/
structure Splits (forest : Forest) (owner : NodeId) (first count marker : Nat)
    (before left : List Token) (mark : Token) (right after : List Token) : Prop where
  list_eq : forest.tokenList owner = before ++ (left ++ mark :: right) ++ after
  first_eq : first = before.length
  count_eq : count = left.length + right.length + 1
  marker_eq : marker = left.length

section Runs

variable {forest : Forest} {owner : NodeId} {first count marker : Nat}

theorem hasRun_iff :
    forest.hasRun owner first count marker = true ↔
      owner.index < forest.nodes.size ∧ 0 < count ∧ marker < count ∧
        first + count ≤ (forest.header owner).range.length := by
  unfold hasRun header
  by_cases ho : owner.index < forest.nodes.size
  · simp [ho, Array.getD_eq_getD_getElem?, and_assoc]
  · simp [ho]

/-- The list of a node that has a run can be split there. -/
theorem exists_splits (hp : forest.Packed)
    (hrun : forest.hasRun owner first count marker = true) :
    ∃ before left mark right after,
      forest.Splits owner first count marker before left mark right after := by
  obtain ⟨-, -, hmarker, hfit⟩ := hasRun_iff.1 hrun
  rw [← length_tokenList forest hp] at hfit
  have hmark : first + marker < (forest.tokenList owner).length := by omega
  refine ⟨(forest.tokenList owner).take first,
    ((forest.tokenList owner).drop first).take marker,
    (forest.tokenList owner)[first + marker],
    ((forest.tokenList owner).drop (first + marker + 1)).take (count - marker - 1),
    (forest.tokenList owner).drop (first + count), ?_, ?_, ?_, ?_⟩
  · have htail : (forest.tokenList owner).drop (first + marker + 1) =
        ((forest.tokenList owner).drop (first + marker + 1)).take (count - marker - 1) ++
          (forest.tokenList owner).drop (first + count) := by
      conv_lhs => rw [← List.take_append_drop (count - marker - 1)
        ((forest.tokenList owner).drop (first + marker + 1))]
      rw [List.drop_drop, show first + marker + 1 + (count - marker - 1) = first + count by omega]
    have hmiddle : (forest.tokenList owner).drop first =
        ((forest.tokenList owner).drop first).take marker ++
          (forest.tokenList owner).drop (first + marker) := by
      conv_lhs => rw [← List.take_append_drop marker ((forest.tokenList owner).drop first)]
      rw [List.drop_drop]
    conv_lhs => rw [← List.take_append_drop first (forest.tokenList owner), hmiddle,
      List.drop_eq_getElem_cons hmark, htail]
    simp
  · rw [List.length_take]
    omega
  · simp only [List.length_take, List.length_drop]
    omega
  · simp only [List.length_take, List.length_drop]
    omega

variable {before left right after : List Token} {mark : Token}

theorem Splits.hasRun (hp : forest.Packed)
    (hs : forest.Splits owner first count marker before left mark right after) :
    forest.hasRun owner first count marker = true := by
  have hlen := length_tokenList forest hp owner
  have hmem : mark ∈ forest.tokenList owner := by
    rw [hs.list_eq]
    simp
  have hfirst := hs.first_eq
  have hcount := hs.count_eq
  have hmarker := hs.marker_eq
  rw [hs.list_eq] at hlen
  simp only [List.length_append, List.length_cons] at hlen
  rw [hasRun_iff]
  refine ⟨forest.index_lt_of_mem_tokenList hmem, ?_, ?_, ?_⟩
  · omega
  · omega
  · omega

/-- The run with the token in the marker's place turned into a marker of the next node. -/
theorem toList_markedRun (hp : forest.Packed)
    (hs : forest.Splits owner first count marker before left mark right after) :
    (forest.markedRun owner first count marker).toList =
      left ++ { mark with kind := .node forest.nextId } :: right := by
  obtain ⟨-, -, -, hfit⟩ := hasRun_iff.1 (hs.hasRun hp)
  have hin := hp.inside owner
  simp only [TokenRange.stop] at hin
  have hrun : (forest.arena.extract (forest.arenaSlot owner first)
      (forest.arenaSlot owner first + count)).toList = left ++ mark :: right := by
    have hextract : ((forest.tokenList owner).drop first).take count = left ++ mark :: right := by
      rw [hs.list_eq, hs.first_eq, List.append_assoc, List.drop_left,
        List.take_left' (by simp [hs.count_eq]; omega)]
    rw [← hextract]
    apply List.ext_getElem?
    intro slot
    simp only [Array.getElem?_toList, Array.getElem?_extract, List.getElem?_take,
      List.getElem?_drop, getElem?_tokenList, token?, arenaSlot]
    by_cases hslot : slot < count
    · rw [if_pos hslot, if_pos (by omega), if_pos (by omega)]
      congr 1
      omega
    · rw [if_neg hslot, if_neg (by omega)]
  unfold markedRun
  simp only [Array.toList_modify, hrun, hs.marker_eq]
  rw [List.modify_eq_take_cons_drop (by simp)]
  simp

/-- Where every slot of the arena gets its token from in a collapse. -/
theorem getElem?_arena_collapse (hp : forest.Packed) (application : OperatorApplication)
    (hrun : forest.hasRun owner first count application.marker = true) (slot : Nat) :
    (forest.collapse owner first count application).arena[slot]? =
      if slot = forest.arenaSlot owner first then
        some ⟨runSpan (forest.markedRun owner first count application.marker),
          .node forest.nextId⟩
      else if forest.arenaSlot owner first < slot ∧
          slot + count ≤ (forest.header owner).range.stop then
        forest.arena[slot + (count - 1)]?
      else (forest.arena ++ forest.markedRun owner first count application.marker)[slot]? := by
  obtain ⟨-, hpos, -, hfit⟩ := hasRun_iff.1 hrun
  have hin := hp.inside owner
  have hbase : forest.arenaSlot owner first = (forest.header owner).range.start + first := rfl
  have hstop : (forest.header owner).range.stop =
      (forest.header owner).range.start + (forest.header owner).range.length := rfl
  unfold collapse
  simp only [replaceRun]
  rw [getElem?_copyDown _ _ _ _ (by omega) (by simp; omega)]
  by_cases hslot : slot = forest.arenaSlot owner first
  · rw [if_pos hslot, if_neg (by omega), hslot, Array.getElem?_setIfInBounds_self_of_lt]
    rw [Array.size_append]
    omega
  · rw [if_neg hslot]
    by_cases hmoved : forest.arenaSlot owner first < slot ∧
        slot + count ≤ (forest.header owner).range.stop
    · rw [if_pos hmoved, if_pos (by omega), Array.getElem?_setIfInBounds_ne (by omega),
        Array.getElem?_append_left (by omega)]
      congr 1
      omega
    · rw [if_neg hmoved, if_neg (by omega), Array.getElem?_setIfInBounds_ne (by omega)]

/-- The range that a collapse gives to the new node: the end of the arena. -/
theorem range_collapse_nextId (application : OperatorApplication)
    (hrun : forest.hasRun owner first count marker = true) :
    ((forest.collapse owner first count application).header forest.nextId).range =
      ⟨forest.arena.size, count⟩ := by
  rw [header_collapse_nextId forest (hasRun_iff.1 hrun).1]

/-- The other ranges stay where they are, and that of the owner gets shorter. -/
theorem range_collapse (application : OperatorApplication)
    (hrun : forest.hasRun owner first count marker = true) {id : NodeId}
    (hid : id ≠ forest.nextId) :
    ((forest.collapse owner first count application).header id).range =
      ⟨(forest.header id).range.start,
        if id = owner then (forest.header id).range.length - (count - 1)
        else (forest.header id).range.length⟩ := by
  rw [header_collapse forest hid (hasRun_iff.1 hrun).1]
  by_cases ho : id = owner
  · simp only [if_pos ho]
  · simp only [if_neg ho]

section Lists

variable {application : OperatorApplication}

/-- The new node owns the run. -/
theorem tokenList_collapse_nextId (hp : forest.Packed)
    (hs : forest.Splits owner first count application.marker before left mark right after) :
    (forest.collapse owner first count application).tokenList forest.nextId =
      left ++ { mark with kind := .node forest.nextId } :: right := by
  have hrun := hs.hasRun hp
  have hmarked := toList_markedRun hp hs
  have hin := hp.inside owner
  have hbase : forest.arenaSlot owner first = (forest.header owner).range.start + first := rfl
  have hstop : (forest.header owner).range.stop =
      (forest.header owner).range.start + (forest.header owner).range.length := rfl
  obtain ⟨-, hpos, -, hfit⟩ := hasRun_iff.1 hrun
  have hsize : (forest.markedRun owner first count application.marker).size = count := by
    rw [← Array.length_toList, hmarked, hs.count_eq]
    simp
    omega
  apply List.ext_getElem?
  intro slot
  rw [getElem?_tokenList, token?, range_collapse_nextId application hrun, ← hmarked]
  simp only
  by_cases hslot : slot < count
  · rw [if_pos hslot, getElem?_arena_collapse hp application hrun, if_neg (by omega),
      if_neg (by omega), Array.getElem?_append_right (by omega), Nat.add_sub_cancel_left,
      Array.getElem?_toList]
  · simp [hslot, hsize]

/-- In the list of the owner one token stands in the place of the run. -/
theorem tokenList_collapse_owner (hp : forest.Packed)
    (hs : forest.Splits owner first count application.marker before left mark right after) :
    (forest.collapse owner first count application).tokenList owner =
      before ++
        ⟨runSpan (forest.markedRun owner first count application.marker),
          .node forest.nextId⟩ :: after := by
  have hrun := hs.hasRun hp
  have hin := hp.inside owner
  have hbase : forest.arenaSlot owner first = (forest.header owner).range.start + first := rfl
  have hstop : (forest.header owner).range.stop =
      (forest.header owner).range.start + (forest.header owner).range.length := rfl
  obtain ⟨howner, hpos, -, hfit⟩ := hasRun_iff.1 hrun
  have hne : owner ≠ forest.nextId := by
    rintro rfl
    exact Nat.lt_irrefl _ howner
  have hlist : ∀ i, i < (forest.header owner).range.length →
      forest.arena[(forest.header owner).range.start + i]? =
        (before ++ (left ++ mark :: right) ++ after)[i]? := by
    intro i hi
    rw [← hs.list_eq, getElem?_tokenList, token?, if_pos hi]
  have hfirst := hs.first_eq
  have hcount := hs.count_eq
  have hlen := length_tokenList forest hp owner
  rw [hs.list_eq] at hlen
  simp only [List.length_append, List.length_cons] at hlen
  apply List.ext_getElem?
  intro slot
  rw [getElem?_tokenList, token?, range_collapse application hrun hne, if_pos rfl]
  simp only
  by_cases hslot : slot < (forest.header owner).range.length - (count - 1)
  · rw [if_pos hslot, getElem?_arena_collapse hp application hrun]
    -- in front of the run, at its place, or behind it
    rcases Nat.lt_trichotomy slot first with hlt | heq | hgt
    · rw [if_neg (by omega), if_neg (by omega), Array.getElem?_append_left (by omega),
        List.getElem?_append_left (by omega), hlist slot (by omega), List.append_assoc,
        List.getElem?_append_left (by omega)]
    · rw [heq, if_pos (by omega), List.getElem?_append_right (by omega)]
      simp [hfirst]
    · have hshift : (forest.header owner).range.start + slot + (count - 1) =
          (forest.header owner).range.start + (slot + (count - 1)) := by omega
      obtain ⟨k, hk⟩ : ∃ k, slot - before.length = k + 1 :=
        ⟨slot - before.length - 1, by omega⟩
      rw [if_neg (by omega), if_pos (by omega), hshift, hlist _ (by omega),
        List.getElem?_append_right (by simp; omega), List.getElem?_append_right (by omega), hk,
        List.getElem?_cons_succ]
      congr 1
      simp only [List.length_append, List.length_cons]
      omega
  · rw [if_neg hslot, List.getElem?_eq_none]
    simp only [List.length_append, List.length_cons]
    omega

/-- The other lists stay as they are. -/
theorem tokenList_collapse_of_ne (hp : forest.Packed)
    (hrun : forest.hasRun owner first count application.marker = true) {id : NodeId}
    (hnew : id ≠ forest.nextId) (hid : id ≠ owner) :
    (forest.collapse owner first count application).tokenList id = forest.tokenList id := by
  have hbase : forest.arenaSlot owner first = (forest.header owner).range.start + first := rfl
  have hin := hp.inside id
  have hapart := hp.apart id owner hid
  obtain ⟨-, hpos, -, hfit⟩ := hasRun_iff.1 hrun
  have hrange := range_collapse application hrun hnew
  rw [if_neg hid] at hrange
  simp only [TokenRange.stop] at hin hapart
  apply tokenList_eq_of_range
  · rw [hrange]
  · intro slot hslot
    rw [hrange] at hslot ⊢
    simp only at hslot ⊢
    rw [getElem?_arena_collapse hp application hrun, if_neg (by omega),
      if_neg (by simp only [TokenRange.stop]; omega), Array.getElem?_append_left (by omega)]

end Lists

/-- The ranges after a collapse: a new one behind all others, and a shorter one. -/
theorem Packed.collapse (hp : forest.Packed) {application : OperatorApplication}
    (hrun : forest.hasRun owner first count application.marker = true) :
    (forest.collapse owner first count application).Packed := by
  obtain ⟨before, left, mark, right, after, hs⟩ := exists_splits hp hrun
  have hsize : (forest.collapse owner first count application).arena.size =
      forest.arena.size + count := by
    have hmarked : (forest.markedRun owner first count application.marker).size = count := by
      rw [← Array.length_toList, toList_markedRun hp hs, hs.count_eq]
      simp
      omega
    unfold Forest.collapse
    simp only [replaceRun, size_copyDown, Array.size_setIfInBounds, Array.size_append, hmarked]
  have hshrunk : ∀ id, id ≠ forest.nextId →
      ((forest.collapse owner first count application).header id).range.start =
          (forest.header id).range.start ∧
        ((forest.collapse owner first count application).header id).range.stop ≤
          (forest.header id).range.stop := by
    intro id hid
    rw [range_collapse application hrun hid]
    refine ⟨rfl, ?_⟩
    simp only [TokenRange.stop]
    split
    · omega
    · exact le_rfl
  have hnew := range_collapse_nextId application hrun
  constructor
  · intro id
    rw [hsize]
    by_cases hid : id = forest.nextId
    · rw [hid, hnew]
      simp [TokenRange.stop]
    · exact Nat.le_add_right_of_le (le_trans (hshrunk id hid).2 (hp.inside id))
  · intro a b hab
    by_cases ha : a = forest.nextId
    · have hb : b ≠ forest.nextId := fun h => hab (ha.trans h.symm)
      right
      rw [ha, hnew]
      exact le_trans (hshrunk b hb).2 (hp.inside b)
    · by_cases hb : b = forest.nextId
      · left
        rw [hb, hnew]
        exact le_trans (hshrunk a ha).2 (hp.inside a)
      · obtain ⟨hstartA, hstopA⟩ := hshrunk a ha
        obtain ⟨hstartB, hstopB⟩ := hshrunk b hb
        have hapart := hp.apart a b hab
        omega

end Runs

end Forest
end ExprLang
