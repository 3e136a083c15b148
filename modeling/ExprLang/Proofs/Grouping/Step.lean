import ExprLang.Grouping.Run
import ExprLang.Proofs.Forest.Regrouping

/-!
# What grouping one operator does

An operator whose operands are all there takes its run, which then is in the list and
contains no marker of the owner and no other operator. Otherwise the operator is
rejected, and the forest stays as it is.

Main results:
* `collapsible_of_extent`: the run of an operator without a fault can be collapsed;
* `groupOperator_extent_cases`, `groupOperator_cases`: what one step can do;
* `groupOperator_of_binary`: a binary operator between two operands takes them;
* `run_preserves`, `run_preserves_forest`: what every step keeps is kept by the whole run.
-/

namespace ExprLang

open Grouping

/-- The token may stand in the place of an operand. -/
structure Token.IsOperand (table : RuleSetTable) (owner : NodeId) (token : Token) : Prop where
  unmarked : token.kind ≠ .node owner
  grouped : isRawOperator table token = false
  unseparated : separatorText? table token = none

namespace Forest.Splits

variable {forest : Forest} {owner : NodeId} {first count marker : Nat}
  {before left right after : List Token} {mark : Token}

theorem token?_mark (hs : forest.Splits owner first count marker before left mark right after) :
    forest.token? owner (first + marker) = some mark := by
  rw [← getElem?_tokenList, hs.list_eq, hs.first_eq, hs.marker_eq]
  simp

/-- The tokens in front of the marker stand in the first places of the run. -/
theorem token?_left (hs : forest.Splits owner first count marker before left mark right after)
    {i : Nat} {t : Token} (ht : left[i]? = some t) : forest.token? owner (first + i) = some t := by
  obtain ⟨hi, -⟩ := List.getElem?_eq_some_iff.mp ht
  rw [← getElem?_tokenList, hs.list_eq, hs.first_eq, List.append_assoc,
    List.getElem?_append_right (by omega), Nat.add_sub_cancel_left,
    List.getElem?_append_left (by simp; omega), List.getElem?_append_left hi]
  exact ht

/-- The tokens behind the marker stand in the places behind its own. -/
theorem token?_right (hs : forest.Splits owner first count marker before left mark right after)
    {i : Nat} {t : Token} (ht : right[i]? = some t) :
    forest.token? owner (first + (marker + 1 + i)) = some t := by
  obtain ⟨hi, -⟩ := List.getElem?_eq_some_iff.mp ht
  rw [← getElem?_tokenList, hs.list_eq, hs.first_eq, hs.marker_eq, List.append_assoc,
    List.getElem?_append_right (by omega), Nat.add_sub_cancel_left,
    List.getElem?_append_left (by simp; omega), List.getElem?_append_right (by omega),
    show left.length + 1 + i - left.length = i + 1 by omega, List.getElem?_cons_succ]
  exact ht

/-- The tokens of a run other than its marker stand in the other places of it. -/
theorem token?_run (hs : forest.Splits owner first count marker before left mark right after)
    {t : Token} (ht : t ∈ left ++ right) :
    ∃ place < count, place ≠ marker ∧ forest.token? owner (first + place) = some t := by
  have hcount := hs.count_eq
  have hmarker := hs.marker_eq
  rcases List.mem_append.mp ht with ht | ht
  · obtain ⟨i, hi⟩ := List.mem_iff_getElem?.mp ht
    obtain ⟨hlt, -⟩ := List.getElem?_eq_some_iff.mp hi
    exact ⟨i, by omega, by omega, hs.token?_left hi⟩
  · obtain ⟨i, hi⟩ := List.mem_iff_getElem?.mp ht
    obtain ⟨hlt, -⟩ := List.getElem?_eq_some_iff.mp hi
    exact ⟨marker + 1 + i, by omega, by omega, hs.token?_right hi⟩

end Forest.Splits

namespace Grouping

variable {table : RuleSetTable} {forest : Forest} {owner : NodeId} {slot : Nat}

section Faults

variable {symbol : String} {extent : Extent}

theorem operandFault?_eq_none {role : OperandRole} {token? : Option Token} :
    operandFault? table owner symbol role token? = none ↔
      ∃ token, token? = some token ∧ token.IsOperand table owner := by
  cases token? with
  | none => simp [operandFault?]
  | some token =>
      simp only [operandFault?]
      constructor
      · intro h
        split at h
        · cases h
        · rename_i hmarker
          simp only [Bool.or_eq_true, not_or, Bool.not_eq_true, Token.isMarkerOf,
            decide_eq_false_iff_not] at hmarker
          exact ⟨token, rfl, hmarker.1, hmarker.2, Option.map_eq_none_iff.mp h⟩
      · rintro ⟨_, ⟨⟩, hoperand⟩
        rw [if_neg, hoperand.unseparated]
        · rfl
        · simp [Token.isMarkerOf, hoperand.unmarked, hoperand.grouped]

/-- A run without a fault has all its operands. -/
theorem extentFault?_eq_none :
    extentFault? table forest owner symbol extent = none ↔
      ∀ place role, (place, role) ∈ extent.operands →
        ∃ token, forest.token? owner (extent.first + place) = some token ∧
          token.IsOperand table owner := by
  unfold extentFault?
  rw [List.findSome?_eq_none_iff]
  constructor
  · intro h place role hmem
    exact operandFault?_eq_none.mp (h (place, role) hmem)
  · rintro h ⟨place, role⟩ hmem
    exact operandFault?_eq_none.mpr (h place role hmem)

/-- In a run every place but the operator's is that of an operand or of `else`. -/
theorem extent?_places {op : Operator} (h : extent? forest owner slot op = some extent) :
    extent.first + extent.marker = slot ∧ extent.marker < extent.count ∧
      ∀ place < extent.count, place ≠ extent.marker →
        (∃ role, (place, role) ∈ extent.operands) ∨
          ∃ token, forest.token? owner (extent.first + place) = some token ∧
            isElse forest token = true := by
  unfold extent? at h
  split at h
  · split at h
    · cases h
    · obtain rfl := Option.some.inj h
      refine ⟨by simp only; omega, by simp, ?_⟩
      intro place hplace hne
      left
      obtain rfl | rfl : place = 0 ∨ place = 2 := by simp only at hplace hne; omega
      · exact ⟨.left, by simp⟩
      · exact ⟨.right, by simp⟩
  · obtain rfl := Option.some.inj h
    refine ⟨rfl, by simp, ?_⟩
    intro place hplace hne
    left
    obtain rfl : place = 1 := by simp only at hplace hne; omega
    exact ⟨.only, by simp⟩
  · simp only at h
    split at h
    · rename_i helse
      obtain rfl := Option.some.inj h
      refine ⟨rfl, by simp, ?_⟩
      intro place hplace hne
      obtain rfl | rfl | rfl | rfl : place = 1 ∨ place = 2 ∨ place = 3 ∨ place = 4 := by
        simp only at hplace hne
        omega
      · exact Or.inl ⟨.condition, by simp⟩
      · exact Or.inl ⟨.trueCase, by simp⟩
      · right
        exact (Option.any_eq_true _ _).mp helse
      · exact Or.inl ⟨.falseCase, by simp⟩
    · obtain rfl := Option.some.inj h
      refine ⟨rfl, by simp, ?_⟩
      intro place hplace hne
      left
      obtain rfl | rfl : place = 1 ∨ place = 2 := by simp only at hplace hne; omega
      · exact ⟨.condition, by simp⟩
      · exact ⟨.trueCase, by simp⟩

/-- The text `else` is neither a marker nor an operator. -/
theorem kind_of_isElse {token : Token} (h : isElse forest token = true) : token.kind = .text := by
  unfold isElse at h
  simp only [Bool.and_eq_true, decide_eq_true_eq] at h
  exact h.1

end Faults

/-- The run of an operator without a fault is there, and it can be collapsed. -/
theorem collapsible_of_extent (hp : forest.Packed) {token : Token} {op : Operator}
    {extent : Extent} {symbol : String} (htoken : forest.token? owner slot = some token)
    (hdelimiter : token.IsDelimiter) (hextent : extent? forest owner slot op = some extent)
    (hfault : extentFault? table forest owner symbol extent = none) :
    ∃ before left right after,
      forest.Collapsible owner extent.first extent.count extent.marker before left token right
          after ∧
        ∀ t ∈ left ++ right, isRawOperator table t = false := by
  obtain ⟨hslot, hmarker, hplaces⟩ := extent?_places hextent
  have hoperands := extentFault?_eq_none.mp hfault
  -- whatever stands in another place is an operand or `else`
  have hother : ∀ place < extent.count, place ≠ extent.marker →
      ∃ t, forest.token? owner (extent.first + place) = some t ∧ t.kind ≠ .node owner ∧
        isRawOperator table t = false := by
    intro place hplace hne
    rcases hplaces place hplace hne with ⟨role, hrole⟩ | ⟨t, ht, helse⟩
    · obtain ⟨t, ht, hoperand⟩ := hoperands place role hrole
      exact ⟨t, ht, hoperand.unmarked, hoperand.grouped⟩
    · have hkind := kind_of_isElse helse
      exact ⟨t, ht, by simp [hkind], by simp [isRawOperator, hkind]⟩
  have hall : ∀ place < extent.count,
      ∃ t, forest.token? owner (extent.first + place) = some t := by
    intro place hplace
    by_cases hne : place = extent.marker
    · exact ⟨token, by rw [hne, hslot, htoken]⟩
    · obtain ⟨t, ht, -⟩ := hother place hplace hne
      exact ⟨t, ht⟩
  have hrun : forest.hasRun owner extent.first extent.count extent.marker = true := by
    rw [Forest.hasRun_iff]
    refine ⟨forest.index_lt_of_token? htoken, by omega, hmarker, ?_⟩
    obtain ⟨t, ht⟩ := hall (extent.count - 1) (by omega)
    have hlt := forest.slot_lt_of_token? ht
    omega
  obtain ⟨before, left, mark, right, after, hs⟩ := Forest.exists_splits hp hrun
  obtain rfl : mark = token := by
    have hmark := hs.token?_mark
    rw [hslot, htoken] at hmark
    exact (Option.some.inj hmark).symm
  have hrunTokens : ∀ t ∈ left ++ right,
      t.kind ≠ .node owner ∧ isRawOperator table t = false := by
    intro t ht
    obtain ⟨place, hplace, hne, hat⟩ := hs.token?_run ht
    obtain ⟨t', ht', hunmarked, hraw⟩ := hother place hplace hne
    obtain rfl : t = t' := Option.some.inj (hat.symm.trans ht')
    exact ⟨hunmarked, hraw⟩
  exact ⟨before, left, right, after, ⟨hs, hdelimiter, fun t ht => (hrunTokens t ht).1⟩,
    fun t ht => (hrunTokens t ht).2⟩

section Raw

variable {first count : Nat} {application : OperatorApplication}
  {before left right after : List Token} {mark t : Token} {id : NodeId}

theorem isDelimiter_of_isRawOperator (h : isRawOperator table t = true) : t.IsDelimiter := by
  unfold isRawOperator at h
  split at h
  · rename_i delimiter hkind
    exact ⟨delimiter, hkind⟩
  · cases h

/-- An operator other than the one that takes its run stays in its list. -/
theorem mem_tokenList_collapse_of_isRawOperator (hp : forest.Packed)
    (hs : forest.Splits owner first count application.marker before left mark right after)
    (hraw : ∀ t ∈ left ++ right, isRawOperator table t = false)
    (hop : isRawOperator table t = true) (hne : t ≠ mark) (ht : t ∈ forest.tokenList id) :
    t ∈ (forest.collapse owner first count application).tokenList id := by
  by_cases hid : id = owner
  · subst hid
    rw [Forest.tokenList_collapse_owner hp hs]
    rcases hs.mem_cases ht with hrest | hrun | heq
    · simp only [List.mem_append, List.mem_cons] at hrest ⊢
      tauto
    · rw [hraw t hrun] at hop
      cases hop
    · exact absurd heq hne
  · rw [Forest.tokenList_collapse_of_ne hp (hs.hasRun hp)
      (Forest.nextId_ne_of_index_lt (forest.index_lt_of_mem_tokenList ht)) hid]
    exact ht

/-- An operator that is left after a collapse was in the same list, and is not the run's own. -/
theorem mem_tokenList_of_collapse (hp : forest.Packed) (hd : forest.Separate)
    (hc : forest.Collapsible owner first count application.marker before left mark right after)
    (hraw : ∀ t ∈ left ++ right, isRawOperator table t = false)
    (hop : isRawOperator table t = true)
    (ht : t ∈ (forest.collapse owner first count application).tokenList id) :
    t ∈ forest.tokenList id ∧ mark.span.start ≠ t.span.start := by
  have hs := hc.toSplits
  have htd := isDelimiter_of_isRawOperator hop
  rcases Forest.mem_tokenList_of_isDelimiter hp hs ht htd with
    ⟨-, hrun⟩ | ⟨rfl, hrest⟩ | ⟨-, hother, hold⟩
  · rw [hraw t hrun] at hop
    cases hop
  · exact ⟨hs.mem_rest hrest, hd.start_ne hs (by simp) hrest hc.mark_delimiter htd⟩
  · refine ⟨hold, ?_⟩
    intro heq
    exact hother (hd.across _ _ _ _ hs.mem_mark hold hc.mark_delimiter htd heq).symm

end Raw

section Step

variable {grouping : Grouping} {path : OperatorPath} {token : Token}

/-- A run that is there is collapsed. -/
theorem exists_apply_eq (table : RuleSetTable) (path : OperatorPath) (extent : Extent)
    (hrun : grouping.forest.hasRun owner extent.first extent.count extent.marker = true) :
    ∃ rules, (grouping.finish path.offset).apply table owner path extent =
      { grouping with
        forest := grouping.forest.collapse owner extent.first extent.count
          ⟨rules, path.operator, path.delimiter, extent.marker⟩
        finished := path.offset :: grouping.finished } := by
  unfold apply finish Forest.collapse?
  simp only
  rw [if_pos hrun]
  exact ⟨_, rfl⟩

/--
An operator is rejected with a report at its token, or the run that it takes has no fault
and is collapsed for it.
-/
theorem groupOperator_extent_cases (table : RuleSetTable) (path : OperatorPath)
    (hp : grouping.forest.Packed)
    (htoken : grouping.forest.token? owner slot = some token) (hdelimiter : token.IsDelimiter) :
    (∃ fault : GroupingFault,
      grouping.groupOperator table owner slot path =
        { grouping with
          log := grouping.log.report .structural token.span fault.message
          finished := path.offset :: grouping.finished }) ∨
      ∃ symbol extent rules before left right after,
        extent? grouping.forest owner slot path.operator = some extent ∧
          extentFault? table grouping.forest owner symbol extent = none ∧
          grouping.forest.Collapsible owner extent.first extent.count extent.marker before left
            token right after ∧
          (∀ t ∈ left ++ right, isRawOperator table t = false) ∧
          grouping.groupOperator table owner slot path =
            { grouping with
              forest := grouping.forest.collapse owner extent.first extent.count
                ⟨rules, path.operator, path.delimiter, extent.marker⟩
              finished := path.offset :: grouping.finished } := by
  have hreject : ∀ fault : GroupingFault,
      (grouping.finish path.offset).reject owner slot fault =
        { grouping with
          log := grouping.log.report .structural token.span fault.message
          finished := path.offset :: grouping.finished } := by
    intro fault
    unfold reject finish
    simp only [htoken]
    rfl
  unfold groupOperator
  simp only
  split
  · left
    exact ⟨_, hreject _⟩
  · rename_i extent hextent
    split
    · left
      exact ⟨_, hreject _⟩
    · rename_i hfault
      right
      obtain ⟨before, left, right, after, hc, hraw⟩ :=
        collapsible_of_extent hp htoken hdelimiter hextent hfault
      obtain ⟨rules, happly⟩ := exists_apply_eq table path extent
        (hc.toSplits.hasRun hp)
      exact ⟨_, extent, rules, before, left, right, after, hextent, hfault, hc, hraw, happly⟩

/-- An operator is rejected with a report at its token, or its run is collapsed. -/
theorem groupOperator_cases (table : RuleSetTable) (path : OperatorPath)
    (hp : grouping.forest.Packed)
    (htoken : grouping.forest.token? owner slot = some token) (hdelimiter : token.IsDelimiter) :
    (∃ fault : GroupingFault,
      grouping.groupOperator table owner slot path =
        { grouping with
          log := grouping.log.report .structural token.span fault.message
          finished := path.offset :: grouping.finished }) ∨
      ∃ first count application before left right after,
        grouping.forest.Collapsible owner first count application.marker before left token right
            after ∧
          (∀ t ∈ left ++ right, isRawOperator table t = false) ∧
          grouping.groupOperator table owner slot path =
            { grouping with
              forest := grouping.forest.collapse owner first count application
              finished := path.offset :: grouping.finished } := by
  rcases groupOperator_extent_cases table path hp htoken hdelimiter with
    hreject | ⟨_, extent, rules, before, left, right, after, -, -, hc, hraw, heq⟩
  · exact Or.inl hreject
  · exact Or.inr ⟨extent.first, extent.count, ⟨rules, path.operator, path.delimiter, extent.marker⟩,
      before, left, right, after, hc, hraw, heq⟩

/-- A binary operator between two operands takes them. -/
theorem groupOperator_of_binary (table : RuleSetTable) (hp : grouping.forest.Packed)
    (hshape : path.operator.shape = .binary) {before after : List Token} {l r : Token}
    (hlist : grouping.forest.tokenList owner = before ++ l :: token :: r :: after)
    (hl : l.IsOperand table owner) (hr : r.IsOperand table owner) :
    ∃ application, application.operator = path.operator ∧
      application.delimiter = path.delimiter ∧ application.marker = 1 ∧
        grouping.groupOperator table owner (before.length + 1) path =
          { grouping with
            forest := grouping.forest.collapse owner before.length 3 application
            finished := path.offset :: grouping.finished } := by
  have hextent : extent? grouping.forest owner (before.length + 1) path.operator =
      some ⟨before.length, 3, 1, [(0, .left), (2, .right)]⟩ := by
    unfold extent?
    rw [hshape]
    rfl
  have hfault : ∀ symbol, extentFault? table grouping.forest owner symbol
      ⟨before.length, 3, 1, [(0, .left), (2, .right)]⟩ = none := by
    intro symbol
    rw [extentFault?_eq_none]
    intro place role hmem
    rcases List.mem_cons.mp hmem with heq | hmem
    · obtain ⟨rfl, -⟩ := Prod.mk.inj heq
      refine ⟨l, ?_, hl⟩
      rw [← Forest.getElem?_tokenList, hlist]
      simp
    · obtain ⟨rfl, -⟩ := Prod.mk.inj (List.mem_singleton.mp hmem)
      refine ⟨r, ?_, hr⟩
      rw [← Forest.getElem?_tokenList, hlist]
      simp
  have hsplits : grouping.forest.Splits owner before.length 3 1 before [l] token [r] after :=
    ⟨by rw [hlist]; simp, rfl, rfl, rfl⟩
  obtain ⟨rules, happly⟩ := exists_apply_eq table path
    ⟨before.length, 3, 1, [(0, .left), (2, .right)]⟩ (hsplits.hasRun hp)
  refine ⟨⟨rules, path.operator, path.delimiter, 1⟩, rfl, rfl, rfl, ?_⟩
  unfold groupOperator
  simp only [hextent, hfault]
  exact happly

end Step

section Runs

/-- Where a path that can be followed ends. -/
theorem token?_of_walk? {path : OperatorPath}
    (h : OperatorPath.walk? forest path = some (owner, slot)) :
    ∃ token, forest.token? owner slot = some token ∧ token.kind = .delimiter path.delimiter ∧
      token.span.start = path.offset := by
  unfold OperatorPath.walk? at h
  obtain ⟨-, hmatch⟩ := Option.filter_eq_some_iff.mp h
  simp only at hmatch
  split at hmatch
  · rename_i token htoken
    simp only [Bool.and_eq_true, decide_eq_true_eq, beq_iff_eq] at hmatch
    exact ⟨token, htoken, hmatch⟩
  · cases hmatch

variable {P : Grouping → Prop}
  (hstep : ∀ grouping owner slot path token, P grouping →
    grouping.forest.token? owner slot = some token →
      token.kind = .delimiter path.delimiter → token.span.start = path.offset →
        P (grouping.groupOperator table owner slot path))

include hstep

theorem takePaths_preserves (paths : List OperatorPath) {grouping : Grouping} (h : P grouping) :
    P (takePaths table paths grouping) := by
  induction paths generalizing grouping with
  | nil => exact h
  | cons path paths ih =>
      unfold takePaths
      split
      · exact h
      · rename_i owner slot hwalk
        obtain ⟨token, htoken, hkind, hoffset⟩ := token?_of_walk? hwalk
        exact ih (hstep _ owner slot path token h htoken hkind hoffset)

theorem runRounds_preserves (count : Nat) {grouping : Grouping} (h : P grouping) :
    P (runRounds table count grouping) := by
  induction count generalizing grouping with
  | zero => exact h
  | succ count ih =>
      unfold runRounds
      split
      · exact h
      · exact ih (takePaths_preserves hstep _ h)

/-- What every step keeps is kept by the whole run. -/
theorem run_preserves {grouping : Grouping} (h : P grouping) : P (run table grouping) :=
  runRounds_preserves hstep _ h

omit hstep in
/-- What a collapse keeps in a forest is kept by the whole run. -/
theorem run_preserves_forest {P : Forest → Prop} (hpacked : ∀ forest, P forest → forest.Packed)
    (hcollapse : ∀ {forest : Forest} {owner : NodeId} {first count : Nat}
      {application : OperatorApplication} {before left right after : List Token} {mark : Token},
      P forest →
        forest.Collapsible owner first count application.marker before left mark right after →
          P (forest.collapse owner first count application))
    {grouping : Grouping} (h : P grouping.forest) : P (run table grouping).forest := by
  refine run_preserves (P := fun g => P g.forest) ?_ h
  intro g owner slot path token hg htoken hkind _
  rcases groupOperator_cases table path (hpacked _ hg) htoken ⟨path.delimiter, hkind⟩ with
    ⟨fault, heq⟩ | ⟨first, count, application, before, left, right, after, hc, -, heq⟩
  · rw [heq]
    exact hg
  · rw [heq]
    exact hcollapse hg hc

end Runs

end Grouping
end ExprLang
