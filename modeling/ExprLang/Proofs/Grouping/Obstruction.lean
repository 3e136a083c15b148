import ExprLang.Proofs.Grouping.Order

/-!
# What stands in the way of an operator

An operator is grouped when all its operands are there. If one is missing, then the list ends in its
place, or a token stands there that is no operand: a marker of the list's owner, a separator, or
another operator that is left. As long as the operator and that token are left, nothing between
them or beside them is grouped, for a run has no such token in it. So the operator stays without
its operand.

Main definitions:
* `Grouping.Complete`: an operator has all its operands;
* `Grouping.Obstructed`: what stands in the way of an operator, if anything does;
* `Grouping.Blocks`: another operator stands in the place of its first missing operand.

Main results:
* `Grouping.exists_obstructed`, `Grouping.Obstructed.not_complete`: an operator is not complete if
  and only if it is obstructed;
* `Grouping.Obstructed.collapse`: it stays so as long as it and its obstacle are left;
* `Grouping.groupOperator_of_not_complete`, `Grouping.groupOperator_of_complete`: an operator is
  grouped if and only if it is complete.
-/

namespace ExprLang

section Lists

variable {α : Type} {front behind before block after left right rest : List α} {mark : α}

/-- A list goes on with what follows the part of it that has no element of the first one there. -/
theorem exists_append_of_head?_not_mem (h : left ++ behind = before ++ rest)
    (hhead : ∀ a ∈ rest.head?, a ∉ left) :
    ∃ between, before = left ++ between ∧ behind = between ++ rest := by
  rcases List.append_eq_append_iff.mp h with hlater | ⟨more, rfl, hrest⟩
  · exact hlater
  · cases more with
    | nil => exact ⟨[], by simp, hrest.symm⟩
    | cons a more =>
        rw [hrest] at hhead
        exact absurd (List.mem_append_right before List.mem_cons_self) (hhead a rfl)

/-- The same, from the end. -/
theorem exists_append_of_getLast?_not_mem (h : front ++ right = rest ++ after)
    (hlast : ∀ a ∈ rest.getLast?, a ∉ right) :
    ∃ between, after = between ++ right ∧ front = rest ++ between := by
  have hreverse := congrArg List.reverse h
  rw [List.reverse_append, List.reverse_append] at hreverse
  obtain ⟨between, hafter, hfront⟩ := exists_append_of_head?_not_mem hreverse
    (by simpa using hlast)
  refine ⟨between.reverse, ?_, ?_⟩
  · simpa using congrArg List.reverse hafter
  · simpa using congrArg List.reverse hfront

/-- An element that is not in a part of a list stands in front of that part or behind it. -/
theorem exists_append_of_not_mem (h : front ++ mark :: behind = before ++ block ++ after)
    (hmark : mark ∉ block) :
    (∃ between, before = front ++ mark :: between ∧ behind = between ++ (block ++ after)) ∨
      ∃ between, after = between ++ mark :: behind ∧ front = before ++ block ++ between := by
  rw [List.append_assoc] at h
  rcases List.append_eq_append_iff.mp h with ⟨more, rfl, hmore⟩ | ⟨more, rfl, hmore⟩
  · cases more with
    | nil =>
        cases block with
        | nil => exact Or.inr ⟨[], hmore.symm, by simp⟩
        | cons a block =>
            obtain ⟨rfl, -⟩ := List.cons.inj hmore
            exact absurd List.mem_cons_self hmark
    | cons a more =>
        obtain ⟨rfl, hbehind⟩ := List.cons.inj hmore
        exact Or.inl ⟨more, rfl, hbehind⟩
  · rcases List.append_eq_append_iff.mp hmore with ⟨between, rfl, hafter⟩ | ⟨between, rfl, hafter⟩
    · exact Or.inr ⟨between, hafter, (List.append_assoc _ _ _).symm⟩
    · cases between with
      | nil => exact Or.inr ⟨[], hafter.symm, by simp⟩
      | cons a between =>
          obtain ⟨rfl, -⟩ := List.cons.inj hafter
          exact absurd (List.mem_append_right more List.mem_cons_self) hmark

/--
A part of a list stays as it is when a run around another element is replaced, if the part starts
with no element of the run and ends with none or with the list.
-/
theorem exists_append_of_replace {P : α → Prop}
    (h : (front ++ left) ++ mark :: (right ++ behind) = before ++ block ++ after)
    (hmark : mark ∉ block) (hne : block ≠ []) (hrun : ∀ a ∈ left ++ right, P a)
    (hhead : ∀ a ∈ block.head?, ¬P a) (hlast : after ≠ [] → ∀ a ∈ block.getLast?, ¬P a) (new : α) :
    ∃ before' after', front ++ new :: behind = before' ++ block ++ after' ∧
      (before = [] → before' = []) ∧ (after = [] → after' = []) := by
  rcases exists_append_of_not_mem h hmark with
    ⟨between, hbefore, hright⟩ | ⟨between, hafter, hleft⟩
  · obtain ⟨rest, -, hbehind⟩ := exists_append_of_head?_not_mem hright (by
      intro a ha hmem
      rw [List.head?_append_of_ne_nil _ hne] at ha
      exact hhead a ha (hrun a (List.mem_append_right _ hmem)))
    refine ⟨front ++ new :: rest, after, ?_, fun hnil => ?_, fun hnil => hnil⟩
    · rw [hbehind]
      simp
    · rw [hnil] at hbefore
      simp at hbefore
  · obtain ⟨rest, -, hfront⟩ := exists_append_of_getLast?_not_mem hleft (by
      intro a ha hmem
      rw [List.getLast?_append_of_ne_nil _ hne] at ha
      refine hlast ?_ a ha (hrun a (List.mem_append_left _ hmem))
      rw [hafter]
      simp)
    refine ⟨before, rest ++ new :: behind, ?_, fun hnil => hnil, fun hnil => ?_⟩
    · rw [hfront]
      simp
    · rw [hnil] at hafter
      simp at hafter

/-- A list from a place on: the element there, if there is one, and what is behind it. -/
theorem drop_eq_toList_append (list : List α) (n : Nat) :
    list.drop n = list[n]?.toList ++ list.drop (n + 1) := by
  by_cases hn : n < list.length
  · rw [List.drop_eq_getElem_cons hn, List.getElem?_eq_getElem hn]
    rfl
  · rw [List.drop_eq_nil_of_le (by omega), List.drop_eq_nil_of_le (by omega),
      List.getElem?_eq_none (by omega)]
    rfl

end Lists

namespace Grouping

section Definitions

variable (table : RuleSetTable) (forest : Forest) (owner : NodeId)

/-- An operator in a slot has all its operands. -/
def Complete (slot : Nat) (op : Operator) : Prop :=
  ∃ extent, extent? forest owner slot op = some extent ∧
    ∀ place role, (place, role) ∈ extent.operands →
      ∃ token, forest.token? owner (extent.first + place) = some token ∧
        token.IsOperand table owner

/--
In the place of the first operand that is missing for an operator in a slot another operator stands
that is left.
-/
def Blocks (slot : Nat) (op : Operator) (obstacle : Token) : Prop :=
  ∃ extent before place role after, extent? forest owner slot op = some extent ∧
    extent.operands = before ++ (place, role) :: after ∧
    (∀ operand ∈ before, ∃ token, forest.token? owner (extent.first + operand.1) = some token ∧
      token.IsOperand table owner) ∧
    forest.token? owner (extent.first + place) = some obstacle ∧
      isRawOperator table obstacle = true

/-- What an operator may have behind it when an operand is missing behind that. -/
inductive Present : OperatorShape → List Token → Prop
  | nothing (shape : OperatorShape) : Present shape []
  | condition (condition : Token) (hcondition : isRawOperator table condition = false) :
      Present .conditional [condition]
  | cases (condition trueCase other : Token) (hcondition : isRawOperator table condition = false)
      (htrue : isRawOperator table trueCase = false) (hother : isElse forest other = true) :
      Present .conditional [condition, trueCase, other]

/--
The obstacle of an operator in the list of a node: a token that is no operand in the place of one,
in front of a binary operator or behind any operator; none if the list ends there.
-/
inductive Obstructed (token : Token) (shape : OperatorShape) (obstacle? : Option Token) : Prop
  | front {before after : List Token} (hshape : shape = .binary)
      (hlist : forest.tokenList owner = before ++ (obstacle?.toList ++ [token]) ++ after)
      (hstart : obstacle? = none → before = [])
      (hobstacle : ∀ t ∈ obstacle?, ¬t.IsOperand table owner)
  | behind {before present after : List Token} (hpresent : Present table forest shape present)
      (hlist : forest.tokenList owner =
        before ++ (token :: (present ++ obstacle?.toList)) ++ after)
      (hend : obstacle? = none → after = [])
      (hobstacle : ∀ t ∈ obstacle?, ¬t.IsOperand table owner)

end Definitions

variable {table : RuleSetTable} {forest : Forest} {owner : NodeId} {slot : Nat} {op : Operator}
  {token : Token} {obstacle? : Option Token}

/-- The operands of a conditional, with a false case or without one. -/
theorem extent?_conditional (forest : Forest) (owner : NodeId) (slot : Nat)
    (hshape : op.shape = .conditional) :
    ∃ more, extent? forest owner slot op =
        some ⟨slot, 2 * more.length + 3, 0, (1, .condition) :: (2, .trueCase) :: more⟩ ∧
      ((more = [] ∧
          ∀ other, forest.token? owner (slot + 3) = some other → isElse forest other = false) ∨
        more = [(4, .falseCase)] ∧
          ∃ other, forest.token? owner (slot + 3) = some other ∧ isElse forest other = true) := by
  unfold extent?
  simp only [hshape]
  cases hother : (forest.token? owner (slot + 3)).any (isElse forest) with
  | true => exact ⟨_, rfl, Or.inr ⟨rfl, (Option.any_eq_true _ _).mp hother⟩⟩
  | false =>
      refine ⟨[], rfl, Or.inl ⟨rfl, fun other hat => ?_⟩⟩
      rw [hat] at hother
      exact hother

theorem extent?_binary (forest : Forest) (owner : NodeId) (slot : Nat)
    (hshape : op.shape = .binary) :
    extent? forest owner 0 op = none ∧
      extent? forest owner (slot + 1) op = some ⟨slot, 3, 1, [(0, .left), (2, .right)]⟩ := by
  unfold extent?
  simp [hshape]

theorem extent?_prefixed (forest : Forest) (owner : NodeId) (slot : Nat)
    (hshape : op.shape = .prefixed) :
    extent? forest owner slot op = some ⟨slot, 2, 0, [(1, .only)]⟩ := by
  unfold extent?
  simp [hshape]

/-- The place behind what is present is that of an operand. -/
theorem Present.exists_place {present : List Token} {extent : Extent}
    (h : Present table forest op.shape present)
    (hextent : extent? forest owner slot op = some extent)
    (hat : ∀ i < present.length, forest.token? owner (slot + 1 + i) = present[i]?) :
    ∃ place role, (place, role) ∈ extent.operands ∧
      extent.first + place = slot + 1 + present.length := by
  cases hshape : op.shape with
  | binary =>
      rw [hshape] at h
      cases h
      cases slot with
      | zero => exact nomatch (extent?_binary forest owner 0 hshape).1.symm.trans hextent
      | succ slot =>
          obtain rfl := Option.some.inj
            ((extent?_binary forest owner slot hshape).2.symm.trans hextent)
          exact ⟨2, .right, by simp, rfl⟩
  | prefixed =>
      rw [hshape] at h
      cases h
      obtain rfl := Option.some.inj ((extent?_prefixed forest owner slot hshape).symm.trans hextent)
      exact ⟨1, .only, by simp, rfl⟩
  | conditional =>
      rw [hshape] at h
      obtain ⟨more, heq, hmore⟩ := extent?_conditional forest owner slot hshape
      obtain rfl := Option.some.inj (heq.symm.trans hextent)
      cases h with
      | nothing => exact ⟨1, .condition, by simp, rfl⟩
      | condition => exact ⟨2, .trueCase, by simp, rfl⟩
      | cases _ _ other _ _ hother =>
          rcases hmore with ⟨-, hnone⟩ | ⟨rfl, -⟩
          · exact nomatch (hnone other (hat 2 (by simp))).symm.trans hother
          · exact ⟨4, .falseCase, by simp, rfl⟩

/-- An operator is not complete as long as something stands in its way. -/
theorem Obstructed.not_complete (h : Obstructed table forest owner token op.shape obstacle?)
    (hd : forest.Separate) (htoken : forest.token? owner slot = some token)
    (hdelimiter : token.IsDelimiter) : ¬Complete table forest owner slot op := by
  rintro ⟨extent, hextent, hoperands⟩
  cases h with
  | @front before after hshape hlist hstart hobstacle =>
      have hat : forest.token? owner (before.length + obstacle?.toList.length) = some token := by
        rw [← Forest.getElem?_tokenList, hlist]
        simp
      obtain ⟨-, rfl⟩ := hd.place_eq htoken hat hdelimiter hdelimiter rfl
      cases obstacle? with
      | none =>
          rw [hstart rfl] at hextent
          exact nomatch (extent?_binary forest owner 0 hshape).1.symm.trans hextent
      | some obstacle =>
          obtain rfl := Option.some.inj
            ((extent?_binary forest owner before.length hshape).2.symm.trans hextent)
          obtain ⟨left, hleft, hoperand⟩ := hoperands 0 .left (by simp)
          have hfront : forest.token? owner before.length = some obstacle := by
            rw [← Forest.getElem?_tokenList, hlist]
            simp
          obtain rfl := Option.some.inj (hfront.symm.trans hleft)
          exact hobstacle obstacle rfl hoperand
  | @behind before present after hpresent hlist hend hobstacle =>
      have hat : forest.token? owner before.length = some token := by
        rw [← Forest.getElem?_tokenList, hlist]
        simp
      obtain ⟨-, rfl⟩ := hd.place_eq htoken hat hdelimiter hdelimiter rfl
      have hbehind : ∀ i, forest.token? owner (before.length + 1 + i) =
          (present ++ (obstacle?.toList ++ after))[i]? := by
        intro i
        rw [← Forest.getElem?_tokenList, hlist, List.append_assoc,
          List.getElem?_append_right (by omega),
          show before.length + 1 + i - before.length = i + 1 by omega, List.cons_append,
          List.getElem?_cons_succ, List.append_assoc]
      obtain ⟨place, role, hmem, hplace⟩ := hpresent.exists_place hextent fun i hi => by
        rw [hbehind, List.getElem?_append_left hi]
      obtain ⟨operand, hoperand, hthere⟩ := hoperands place role hmem
      rw [hplace, hbehind, List.getElem?_append_right le_rfl, Nat.sub_self] at hoperand
      cases obstacle? with
      | none =>
          rw [hend rfl] at hoperand
          cases hoperand
      | some obstacle =>
          obtain rfl := Option.some.inj hoperand
          exact hobstacle _ rfl hthere

/-- In a place there is an operand or not. -/
theorem operand_or (table : RuleSetTable) (forest : Forest) (owner : NodeId) (slot : Nat) :
    (∃ t, forest.token? owner slot = some t ∧ t.IsOperand table owner) ∨
      ∀ t ∈ forest.token? owner slot, ¬t.IsOperand table owner := by
  by_cases h : ∃ t, forest.token? owner slot = some t ∧ t.IsOperand table owner
  · exact Or.inl h
  · exact Or.inr fun t ht hoperand => h ⟨t, ht, hoperand⟩

/-- What is no operand behind an operator, and behind what is present there, is its obstacle. -/
theorem Obstructed.of_behind {shape : OperatorShape} {present : List Token}
    (htoken : forest.token? owner slot = some token)
    (hpresent : Present table forest shape present)
    (hat : ∀ i < present.length, forest.token? owner (slot + 1 + i) = present[i]?)
    (hnot : ∀ t ∈ forest.token? owner (slot + 1 + present.length), ¬t.IsOperand table owner) :
    Obstructed table forest owner token shape
      (forest.token? owner (slot + 1 + present.length)) := by
  rw [← Forest.getElem?_tokenList] at htoken
  have htake : ((forest.tokenList owner).drop (slot + 1)).take present.length = present := by
    refine List.ext_getElem? fun i => ?_
    by_cases hi : i < present.length
    · rw [List.getElem?_take_of_lt hi, List.getElem?_drop, Forest.getElem?_tokenList, hat i hi]
    · rw [List.getElem?_eq_none (by simp; omega), List.getElem?_eq_none (by omega)]
  have hlist : forest.tokenList owner = (forest.tokenList owner).take slot ++
      (token :: (present ++ (forest.token? owner (slot + 1 + present.length)).toList)) ++
        (forest.tokenList owner).drop (slot + 1 + present.length + 1) := by
    conv_lhs => rw [← List.take_append_drop slot (forest.tokenList owner), drop_eq_toList_append,
      htoken, ← List.take_append_drop present.length ((forest.tokenList owner).drop (slot + 1)),
      htake, List.drop_drop, drop_eq_toList_append, Forest.getElem?_tokenList]
    simp
  refine .behind hpresent hlist (fun hnone => ?_) hnot
  rw [← Forest.getElem?_tokenList, List.getElem?_eq_none_iff] at hnone
  exact List.drop_eq_nil_of_le (by omega)

/-- What is no operand in front of a binary operator is its obstacle. -/
theorem Obstructed.of_front (htoken : forest.token? owner (slot + 1) = some token)
    (hnot : ∀ t ∈ forest.token? owner slot, ¬t.IsOperand table owner) :
    Obstructed table forest owner token .binary (forest.token? owner slot) := by
  rw [← Forest.getElem?_tokenList] at htoken
  have hlist : forest.tokenList owner = (forest.tokenList owner).take slot ++
      ((forest.token? owner slot).toList ++ [token]) ++
        (forest.tokenList owner).drop (slot + 1 + 1) := by
    conv_lhs => rw [← List.take_append_drop slot (forest.tokenList owner), drop_eq_toList_append,
      drop_eq_toList_append, htoken, Forest.getElem?_tokenList]
    simp
  refine .front rfl hlist (fun hnone => ?_) hnot
  rw [← Forest.getElem?_tokenList, List.getElem?_eq_none_iff] at hnone
  obtain ⟨hin, -⟩ := List.getElem?_eq_some_iff.mp htoken
  omega

/-- A binary operator that stands first in its list has no operand in front of it. -/
theorem Obstructed.of_first (htoken : forest.token? owner 0 = some token) :
    Obstructed table forest owner token .binary none := by
  rw [← Forest.getElem?_tokenList] at htoken
  have hlist : forest.tokenList owner =
      [] ++ ((none : Option Token).toList ++ [token]) ++ (forest.tokenList owner).drop 1 := by
    have hall := drop_eq_toList_append (forest.tokenList owner) 0
    rwa [List.drop_zero, htoken] at hall
  exact .front rfl hlist (fun _ => rfl) nofun

section Completeness

variable (htoken : forest.token? owner slot = some token)
  (hnot : ¬Complete table forest owner slot op)

include htoken hnot

theorem exists_obstructed_binary (hshape : op.shape = .binary) :
    ∃ obstacle?, Obstructed table forest owner token .binary obstacle? ∧
      ∀ t ∈ obstacle?, isRawOperator table t = true → Blocks table forest owner slot op t := by
  cases slot with
  | zero => exact ⟨none, .of_first htoken, nofun⟩
  | succ slot =>
      have hextent := (extent?_binary forest owner slot hshape).2
      rcases operand_or table forest owner slot with hleft | hleft
      · rcases operand_or table forest owner (slot + 2) with hright | hright
        · refine absurd ⟨_, hextent, fun place role hmem => ?_⟩ hnot
          simp only [List.mem_cons, Prod.mk.injEq, List.not_mem_nil, or_false] at hmem
          rcases hmem with ⟨rfl, -⟩ | ⟨rfl, -⟩
          · exact hleft
          · exact hright
        · refine ⟨_, .of_behind htoken (.nothing .binary) nofun hright, fun t ht hraw => ?_⟩
          exact ⟨_, [(0, .left)], 2, .right, [], hextent, rfl,
            List.forall_mem_singleton.mpr hleft, ht, hraw⟩
      · refine ⟨_, .of_front htoken hleft, fun t ht hraw => ?_⟩
        exact ⟨_, [], 0, .left, [(2, .right)], hextent, rfl, nofun, ht, hraw⟩

theorem exists_obstructed_prefixed (hshape : op.shape = .prefixed) :
    ∃ obstacle?, Obstructed table forest owner token .prefixed obstacle? ∧
      ∀ t ∈ obstacle?, isRawOperator table t = true → Blocks table forest owner slot op t := by
  have hextent := extent?_prefixed forest owner slot hshape
  rcases operand_or table forest owner (slot + 1) with honly | honly
  · refine absurd ⟨_, hextent, fun place role hmem => ?_⟩ hnot
    simp only [List.mem_cons, Prod.mk.injEq, List.not_mem_nil, or_false] at hmem
    obtain ⟨rfl, -⟩ := hmem
    exact honly
  · refine ⟨_, .of_behind htoken (.nothing .prefixed) nofun honly, fun t ht hraw => ?_⟩
    exact ⟨_, [], 1, .only, [], hextent, rfl, nofun, ht, hraw⟩

theorem exists_obstructed_conditional (hshape : op.shape = .conditional) :
    ∃ obstacle?, Obstructed table forest owner token .conditional obstacle? ∧
      ∀ t ∈ obstacle?, isRawOperator table t = true → Blocks table forest owner slot op t := by
  obtain ⟨more, hextent, hmore⟩ := extent?_conditional forest owner slot hshape
  rcases operand_or table forest owner (slot + 1) with ⟨c, hc, hcondition⟩ | hcondition
  · rcases operand_or table forest owner (slot + 2) with ⟨t, ht, htrue⟩ | htrue
    · -- both are there, so that it is the false case that is missing
      have hfirst : ∀ operand ∈ [(1, OperandRole.condition), (2, .trueCase)],
          ∃ token, forest.token? owner (slot + operand.1) = some token ∧
            token.IsOperand table owner :=
        List.forall_mem_cons.mpr ⟨⟨c, hc, hcondition⟩,
          List.forall_mem_singleton.mpr ⟨t, ht, htrue⟩⟩
      rcases hmore with ⟨rfl, -⟩ | ⟨rfl, e, he, hother⟩
      · exact absurd ⟨_, hextent, fun place role hmem => hfirst (place, role) hmem⟩ hnot
      · rcases operand_or table forest owner (slot + 4) with hfalse | hfalse
        · refine absurd ⟨_, hextent, fun place role hmem => ?_⟩ hnot
          rcases List.mem_append.mp (show (place, role) ∈
            [(1, OperandRole.condition), (2, .trueCase)] ++ [(4, .falseCase)] from hmem) with
            hmem | hmem
          · exact hfirst _ hmem
          · obtain ⟨rfl, -⟩ := Prod.mk.inj (List.mem_singleton.mp hmem)
            exact hfalse
        · refine ⟨_, .of_behind htoken (.cases c t e hcondition.grouped htrue.grouped hother) ?_
            hfalse, fun t ht hraw => ?_⟩
          · intro i hi
            obtain rfl | rfl | rfl : i = 0 ∨ i = 1 ∨ i = 2 := by
              simp only [List.length_cons, List.length_nil] at hi
              omega
            · exact hc
            · exact ht
            · exact he
          · exact ⟨_, [(1, .condition), (2, .trueCase)], 4, .falseCase, [], hextent, rfl, hfirst,
              ht, hraw⟩
    · refine ⟨_, .of_behind htoken (.condition c hcondition.grouped) ?_ htrue,
        fun t ht hraw => ?_⟩
      · intro i hi
        obtain rfl : i = 0 := Nat.lt_one_iff.mp hi
        exact hc
      · exact ⟨_, [(1, .condition)], 2, .trueCase, more, hextent, rfl,
          List.forall_mem_singleton.mpr ⟨c, hc, hcondition⟩, ht, hraw⟩
  · refine ⟨_, .of_behind htoken (.nothing .conditional) nofun hcondition, fun t ht hraw => ?_⟩
    exact ⟨_, [], 1, .condition, _, hextent, rfl, nofun, ht, hraw⟩

/-- Something stands in the way of an operator that is not complete. -/
theorem exists_obstructed :
    ∃ obstacle?, Obstructed table forest owner token op.shape obstacle? ∧
      ∀ t ∈ obstacle?, isRawOperator table t = true → Blocks table forest owner slot op t := by
  cases hshape : op.shape with
  | binary => exact exists_obstructed_binary htoken hnot hshape
  | prefixed => exact exists_obstructed_prefixed htoken hnot hshape
  | conditional => exact exists_obstructed_conditional htoken hnot hshape

end Completeness

section Collapse

variable {id : NodeId} {first count : Nat} {application : OperatorApplication}
  {front left right behind : List Token} {mark : Token}

/--
A part of a list stays as it is when an operator beside it takes a run, if it starts with no operand
and ends with none or with the list.
-/
theorem exists_tokenList_collapse (hp : forest.Packed)
    (hc : forest.Collapsible owner first count application.marker front left mark right behind)
    (hrun : ∀ t ∈ left ++ right, t.IsOperand table owner) {before block after : List Token}
    (hlist : forest.tokenList id = before ++ block ++ after) (hmark : mark ∉ block)
    (hne : block ≠ []) (hhead : ∀ t ∈ block.head?, ¬t.IsOperand table id)
    (hlast : after ≠ [] → ∀ t ∈ block.getLast?, ¬t.IsOperand table id) :
    ∃ before' after', (forest.collapse owner first count application).tokenList id =
        before' ++ block ++ after' ∧ (before = [] → before' = []) ∧ (after = [] → after' = []) := by
  have hs := hc.toSplits
  by_cases hid : id = owner
  · subst hid
    rw [Forest.tokenList_collapse_owner hp hs]
    refine exists_append_of_replace ?_ hmark hne hrun hhead hlast _
    rw [← hlist, hs.list_eq]
    simp
  · obtain ⟨t, ht⟩ := List.exists_mem_of_ne_nil block hne
    have hmem : t ∈ forest.tokenList id := by
      rw [hlist]
      simp [ht]
    rw [Forest.tokenList_collapse_of_ne hp (hs.hasRun hp)
      (Forest.nextId_ne_of_index_lt (forest.index_lt_of_mem_tokenList hmem)) hid]
    exact ⟨before, after, hlist, fun h => h, fun h => h⟩

/-- No token that is present is an operator that is left. -/
theorem Present.isRawOperator {shape : OperatorShape} {present : List Token}
    (h : Present table forest shape present) :
    ∀ t ∈ present, Grouping.isRawOperator table t = false := by
  cases h with
  | nothing => exact nofun
  | condition c hcondition => exact List.forall_mem_singleton.mpr hcondition
  | cases c t other hcondition htrue hother =>
      refine List.forall_mem_cons.mpr ⟨hcondition, List.forall_mem_cons.mpr ⟨htrue,
        List.forall_mem_singleton.mpr ?_⟩⟩
      unfold Grouping.isRawOperator
      rw [kind_of_isElse hother]

/-- What is present stays so, for the text of a token stays the same. -/
theorem Present.collapse {shape : OperatorShape} {present : List Token}
    (h : Present table forest shape present) :
    Present table (forest.collapse owner first count application) shape present := by
  cases h with
  | nothing => exact .nothing shape
  | condition c hcondition => exact .condition c hcondition
  | cases c t other hcondition htrue hother => exact .cases c t other hcondition htrue hother

/-- An operator stays without its operand as long as it and its obstacle are left. -/
theorem Obstructed.collapse {shape : OperatorShape}
    (h : Obstructed table forest id token shape obstacle?) (hp : forest.Packed)
    (hc : forest.Collapsible owner first count application.marker front left mark right behind)
    (hrun : ∀ t ∈ left ++ right, t.IsOperand table owner)
    (hmark : Grouping.isRawOperator table mark = true)
    (htoken : Grouping.isRawOperator table token = true) (hne : mark ≠ token)
    (hobstacle : ∀ t ∈ obstacle?, mark ≠ t) :
    Obstructed table (forest.collapse owner first count application) id token shape obstacle? := by
  have hlone : ¬token.IsOperand table id := fun h => nomatch h.grouped.symm.trans htoken
  cases h with
  | front hshape hlist hstart hnone =>
      have hout : mark ∉ obstacle?.toList ++ [token] := by
        rw [List.mem_append, Option.mem_toList, List.mem_singleton]
        exact fun hmem => hmem.elim (fun h => hobstacle mark h rfl) hne
      obtain ⟨before', after', hlist', hfirst, -⟩ :=
        exists_tokenList_collapse hp hc hrun hlist hout (by simp) (by
          cases obstacle? with
          | none =>
              rintro t ⟨⟩
              exact hlone
          | some obstacle =>
              rintro t ⟨⟩
              exact hnone obstacle rfl) (by
          intro _ t ht
          rw [List.getLast?_append_cons] at ht
          obtain rfl : token = t := Option.some.inj ht
          exact hlone)
      exact .front hshape hlist' (fun h => hfirst (hstart h)) hnone
  | @behind before present after hpresent hlist hend hnone =>
      have hout : mark ∉ token :: (present ++ obstacle?.toList) := by
        rw [List.mem_cons, List.mem_append, Option.mem_toList]
        rintro (h | h | h)
        · exact hne h
        · exact nomatch (hpresent.isRawOperator mark h).symm.trans hmark
        · exact hobstacle mark h rfl
      obtain ⟨before', after', hlist', -, hlast⟩ :=
        exists_tokenList_collapse hp hc hrun hlist hout (List.cons_ne_nil _ _) (by
          rintro t ⟨⟩
          exact hlone) (by
          intro hafter t ht
          cases obstacle? with
          | none => exact absurd (hend rfl) hafter
          | some obstacle =>
              rw [Option.toList_some, ← List.cons_append, List.getLast?_append_cons] at ht
              obtain rfl : obstacle = t := Option.some.inj ht
              exact hnone obstacle rfl)
      exact .behind hpresent.collapse hlist' (fun h => hlast (hend h)) hnone

end Collapse

section Step

variable {grouping : Grouping} {path : OperatorPath}

/-- An operator without an operand is rejected, which leaves the forest as it is. -/
theorem groupOperator_of_not_complete (hp : grouping.forest.Packed)
    (htoken : grouping.forest.token? owner slot = some token) (hdelimiter : token.IsDelimiter)
    (hnot : ¬Complete table grouping.forest owner slot path.operator) :
    ∃ log, grouping.groupOperator table owner slot path =
      { grouping with log := log, finished := path.offset :: grouping.finished } := by
  rcases groupOperator_extent_cases table path hp htoken hdelimiter with
    ⟨fault, heq⟩ | ⟨symbol, extent, _, _, _, _, _, hextent, hfault, -⟩
  · exact ⟨_, heq⟩
  · exact absurd ⟨extent, hextent, extentFault?_eq_none.mp hfault⟩ hnot

/-- An operator with all its operands takes its run, in which there are only operands beside it. -/
theorem groupOperator_of_complete (hp : grouping.forest.Packed)
    (htoken : grouping.forest.token? owner slot = some token) (hdelimiter : token.IsDelimiter)
    (h : Complete table grouping.forest owner slot path.operator) :
    ∃ first count application before left right after,
      grouping.forest.Collapsible owner first count application.marker before left token right
          after ∧
        (∀ t ∈ left ++ right, t.IsOperand table owner) ∧
        grouping.groupOperator table owner slot path =
          { grouping with
            forest := grouping.forest.collapse owner first count application
            finished := path.offset :: grouping.finished } := by
  obtain ⟨extent, hextent, hoperands⟩ := h
  have hfault : ∀ symbol, extentFault? table grouping.forest owner symbol extent = none :=
    fun _ => extentFault?_eq_none.mpr hoperands
  obtain ⟨before, left, right, after, hc, -⟩ :=
    collapsible_of_extent hp htoken hdelimiter hextent (hfault "")
  obtain ⟨rules, happly⟩ := exists_apply_eq table path extent (hc.toSplits.hasRun hp)
  refine ⟨extent.first, extent.count, ⟨rules, path.operator, path.delimiter, extent.marker⟩,
    before, left, right, after, hc, fun t ht => ?_, ?_⟩
  · obtain ⟨place, hplace, hne, hat⟩ := hc.toSplits.token?_run ht
    rcases (extent?_places hextent).2.2 place hplace hne with ⟨role, hrole⟩ | ⟨other, hother, helse⟩
    · obtain ⟨t', ht', hoperand⟩ := hoperands place role hrole
      obtain rfl : t = t' := Option.some.inj (hat.symm.trans ht')
      exact hoperand
    · -- the text between the cases of a conditional is plain text
      obtain rfl : t = other := Option.some.inj (hat.symm.trans hother)
      have hkind := kind_of_isElse helse
      exact ⟨by simp [hkind], by simp [isRawOperator, hkind], by simp [separatorText?, hkind]⟩
  · unfold groupOperator
    simp only [hextent, hfault]
    exact happly

end Step

end Grouping
end ExprLang
