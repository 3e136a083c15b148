import ExprLang.Proofs.Grouping.Order

/-!
# What becomes of every operator

A run ends, and each operator of the lexed forest is then either the marker of one new
node, with its operands around it, or still in its list with one report. Operators that
are not taken yet wait in their lists, so that every step settles the one that it takes
and leaves the others as they are.

Main results:
* `operatorList_of_extent`: the list of the node that an operator becomes;
* `rounds_run`: the rounds of a run end when no operator is left;
* `Accounted.groupOperator`: one step, on every operator and on the reports;
* `applied_or_rejected`: the whole run of a lexed forest.
-/

namespace ExprLang

open OperatorPath

/-- The token is the delimiter of this operator. -/
def Token.IsOperator (table : RuleSetTable) (token : Token) (op : Operator) : Prop :=
  ∃ id precedence, token.kind = .delimiter id ∧
    (table.delimiter id).operator? = some (op, precedence)

namespace Grouping

/--
The list of an operator's node: its marker, and operands that were in the list of `owner`.
-/
inductive OperatorList (table : RuleSetTable) (forest : Forest) (owner : NodeId)
    (marker : Token) : OperatorShape → List Token → Prop
  | binary {left right : Token} (hleft : left.IsOperand table owner)
      (hright : right.IsOperand table owner) :
      OperatorList table forest owner marker .binary [left, marker, right]
  | prefixed {operand : Token} (hoperand : operand.IsOperand table owner) :
      OperatorList table forest owner marker .prefixed [marker, operand]
  | ifThen {condition trueCase : Token} (hcondition : condition.IsOperand table owner)
      (htrue : trueCase.IsOperand table owner) :
      OperatorList table forest owner marker .conditional [marker, condition, trueCase]
  | ifThenElse {condition trueCase other falseCase : Token}
      (hcondition : condition.IsOperand table owner) (htrue : trueCase.IsOperand table owner)
      (hother : isElse forest other = true) (hfalse : falseCase.IsOperand table owner) :
      OperatorList table forest owner marker .conditional
        [marker, condition, trueCase, other, falseCase]

/--
A token of `owner` has become the marker of one node of its operator. The nodes of the
lexed forest are the first `size` ones.
-/
structure Applied (table : RuleSetTable) (size : Nat) (forest : Forest) (owner : NodeId)
    (token : Token) (op : Operator) : Prop where
  node : ∃ id, size ≤ id.index ∧ (forest.header id).operator = some op ∧
    OperatorList table forest owner ⟨token.span, .node id⟩ op.shape (forest.tokenList id) ∧
      ∀ other, size ≤ other.index → ⟨token.span, .node other⟩ ∈ forest.tokenList other →
        other = id
  taken : ∀ id, token ∉ forest.tokenList id

/-- A token is still in its list, and one of the reports is about it. -/
structure Rejected (forest : Forest) (reports : List Diagnostic) (owner : NodeId)
    (token : Token) : Prop where
  mem : token ∈ forest.tokenList owner
  report : ∃ report, reports.filter (·.span = token.span) = [report] ∧
    report.category = .structural

/-- Rounds of grouping without a bound on their number: one more as long as an operator is left. -/
inductive Rounds (table : RuleSetTable) : Grouping → Grouping → Prop
  | done {grouping : Grouping}
      (hnone : findAll table grouping.finished grouping.forest = []) :
      Rounds table grouping grouping
  | round {grouping final : Grouping}
      (hsome : findAll table grouping.finished grouping.forest ≠ [])
      (rest : Rounds table
        (takePaths table (sort (findAll table grouping.finished grouping.forest)) grouping)
        final) :
      Rounds table grouping final

variable {table : RuleSetTable} {grouping : Grouping}

section Operators

variable {token : Token} {op : Operator}

theorem isOperator_iff : (∃ op, token.IsOperator table op) ↔ isRawOperator table token = true := by
  unfold Token.IsOperator isRawOperator Delimiter.isOperator
  constructor
  · rintro ⟨op, id, precedence, hkind, hop⟩
    simp [hkind, hop]
  · intro h
    split at h
    · rename_i id hkind
      obtain ⟨⟨op, precedence⟩, hop⟩ := Option.isSome_iff_exists.mp h
      exact ⟨op, id, precedence, hkind, hop⟩
    · cases h

theorem isRawOperator_of_isOperator (h : token.IsOperator table op) :
    isRawOperator table token = true :=
  isOperator_iff.mp ⟨op, h⟩

/-- A token is the delimiter of at most one operator. -/
theorem eq_of_isOperator {op' : Operator} (h : token.IsOperator table op)
    (h' : token.IsOperator table op') : op = op' := by
  obtain ⟨id, precedence, hkind, hop⟩ := h
  obtain ⟨id', precedence', hkind', hop'⟩ := h'
  obtain rfl : id = id' := TokenKind.delimiter.inj (hkind.symm.trans hkind')
  exact (Prod.mk.inj (Option.some.inj (hop.symm.trans hop'))).1

end Operators

section Lists

variable {forest : Forest} {owner : NodeId} {slot : Nat} {op : Operator}
  {before left right after : List Token} {mark marker : Token}

/-- The run of an operator without a fault has the operands of the operator's shape. -/
theorem operatorList_of_extent {extent : Extent} {symbol : String}
    (hextent : extent? forest owner slot op = some extent)
    (hfault : extentFault? table forest owner symbol extent = none)
    (hs : forest.Splits owner extent.first extent.count extent.marker before left mark right
      after) :
    OperatorList table forest owner marker op.shape (left ++ marker :: right) := by
  have hoperands := extentFault?_eq_none.mp hfault
  have hoperand : ∀ place role, (place, role) ∈ extent.operands → ∀ t,
      forest.token? owner (extent.first + place) = some t → t.IsOperand table owner := by
    intro place role hrole t ht
    obtain ⟨t', ht', hoperand⟩ := hoperands place role hrole
    obtain rfl : t = t' := Option.some.inj (ht.symm.trans ht')
    exact hoperand
  have hcount := hs.count_eq
  have hmarker := hs.marker_eq
  have hright := @Forest.Splits.token?_right _ _ _ _ _ _ _ _ _ _ hs
  unfold extent? at hextent
  split at hextent
  · rename_i hshape
    rw [hshape]
    split at hextent
    · cases hextent
    · obtain rfl := Option.some.inj hextent
      simp only at hcount hmarker
      obtain ⟨l, rfl⟩ := List.length_eq_one_iff.mp hmarker.symm
      obtain ⟨r, rfl⟩ := List.length_eq_one_iff.mp (show right.length = 1 by omega)
      exact .binary (hoperand 0 .left (by simp) l (hs.token?_left (i := 0) rfl))
        (hoperand 2 .right (by simp) r (hright (i := 0) rfl))
  · rename_i hshape
    rw [hshape]
    obtain rfl := Option.some.inj hextent
    simp only at hcount hmarker
    obtain rfl := List.length_eq_zero_iff.mp hmarker.symm
    obtain ⟨o, rfl⟩ := List.length_eq_one_iff.mp (show right.length = 1 by omega)
    exact .prefixed (hoperand 1 .only (by simp) o (hright (i := 0) rfl))
  · rename_i hshape
    rw [hshape]
    simp only at hextent
    split at hextent
    · rename_i helse
      obtain rfl := Option.some.inj hextent
      simp only at hcount hmarker
      obtain rfl := List.length_eq_zero_iff.mp hmarker.symm
      match right, hcount with
      | [c, t, e, f], _ =>
          obtain ⟨other, hother, hword⟩ := (Option.any_eq_true _ _).mp helse
          obtain rfl : e = other := Option.some.inj ((hright (i := 2) rfl).symm.trans hother)
          exact .ifThenElse (hoperand 1 .condition (by simp) c (hright (i := 0) rfl))
            (hoperand 2 .trueCase (by simp) t (hright (i := 1) rfl)) hword
            (hoperand 4 .falseCase (by simp) f (hright (i := 3) rfl))
    · obtain rfl := Option.some.inj hextent
      simp only at hcount hmarker
      obtain rfl := List.length_eq_zero_iff.mp hmarker.symm
      obtain ⟨c, t, rfl⟩ := List.length_eq_two.mp (show right.length = 2 by omega)
      exact .ifThen (hoperand 1 .condition (by simp) c (hright (i := 0) rfl))
        (hoperand 2 .trueCase (by simp) t (hright (i := 1) rfl))

theorem OperatorList.marker_mem {shape : OperatorShape} {tokens : List Token}
    (h : OperatorList table forest owner marker shape tokens) : marker ∈ tokens := by
  cases h with
  | binary => simp
  | prefixed => simp
  | ifThen => simp
  | ifThenElse => simp

/-- Only the source matters to the text `else`. -/
theorem isElse_of_source_eq {g : Forest} (heq : g.source = forest.source) (token : Token) :
    isElse g token = isElse forest token := by
  unfold isElse Forest.tokenText Forest.spanText
  rw [heq]

/-- Only the source matters to a list, for the text `else`. -/
theorem OperatorList.of_source_eq {shape : OperatorShape} {tokens : List Token} {g : Forest}
    (h : OperatorList table forest owner marker shape tokens) (heq : g.source = forest.source) :
    OperatorList table g owner marker shape tokens := by
  have helse := isElse_of_source_eq heq
  cases h with
  | binary hleft hright => exact .binary hleft hright
  | prefixed hoperand => exact .prefixed hoperand
  | ifThen hcondition htrue => exact .ifThen hcondition htrue
  | ifThenElse hcondition htrue hother hfalse =>
      exact .ifThenElse hcondition htrue ((helse _).trans hother) hfalse

end Lists

section Collapse

variable {forest : Forest} {size : Nat} {owner : NodeId} {first count : Nat}
  {application : OperatorApplication} {before left right after : List Token} {mark : Token}

/-- In a new node's list after a collapse, a marker is one of before or that of the run. -/
theorem marker_of_collapse (ha : forest.Arranged)
    (hc : forest.Collapsible owner first count application.marker before left mark right after)
    {id : NodeId} {t : Token}
    (ht : t ∈ (forest.collapse owner first count application).tokenList id)
    (hkind : t.kind = .node id) :
    (id = forest.nextId ∧ t.span = mark.span) ∨ t ∈ forest.tokenList id := by
  have hs := hc.toSplits
  rcases Forest.mem_tokenList_collapse ha.packed hs ht with
    ⟨rfl, hrun | rfl⟩ | ⟨rfl, hrest | rfl⟩ | ⟨-, -, hold⟩
  · exact absurd rfl (ha.ne_nextId (hs.mem_run hrun) hkind)
  · exact Or.inl ⟨rfl, rfl⟩
  · exact Or.inr (hs.mem_rest hrest)
  · exact absurd (TokenKind.node.inj hkind).symm (Forest.nextId_ne_of_index_lt hs.owner_lt)
  · exact Or.inr hold

/-- The operator that takes its run becomes the marker of the new node. -/
theorem applied_collapse (ha : forest.Arranged) (hd : forest.Separate)
    (hsize : size ≤ forest.nodes.size)
    (hc : forest.Collapsible owner first count application.marker before left mark right after)
    (hraw : ∀ t ∈ left ++ right, isRawOperator table t = false)
    (hmark : mark.IsOperator table application.operator)
    (hlist : ∀ marker, OperatorList table forest owner marker application.operator.shape
      (left ++ marker :: right))
    (hfresh : ∀ other, size ≤ other.index → ⟨mark.span, .node other⟩ ∉ forest.tokenList other) :
    Applied table size (forest.collapse owner first count application) owner mark
      application.operator := by
  have hs := hc.toSplits
  refine ⟨⟨forest.nextId, hsize, ?_, ?_, ?_⟩, ?_⟩
  · rw [Forest.header_collapse_nextId forest hs.owner_lt]
  · rw [Forest.tokenList_collapse_nextId ha.packed hs]
    exact (hlist _).of_source_eq rfl
  · intro other hother hmem
    rcases marker_of_collapse ha hc hmem rfl with ⟨heq, -⟩ | hold
    · exact heq
    · exact absurd hold (hfresh other hother)
  · intro id hmem
    have hne := (mem_tokenList_of_collapse ha.packed hd hc hraw
      (isRawOperator_of_isOperator hmark) hmem).2
    exact hne rfl

/-- An operator that became a marker stays one when another operator takes a run. -/
theorem Applied.collapse {owner' : NodeId} {token : Token} {op : Operator}
    (h : Applied table size forest owner' token op) (ha : forest.Arranged)
    (hd : forest.Separate) (htoken : token.IsOperator table op)
    (hc : forest.Collapsible owner first count application.marker before left mark right after)
    (hraw : ∀ t ∈ left ++ right, isRawOperator table t = false) (howner : owner.index < size)
    (hne : token.span ≠ mark.span) :
    Applied table size (forest.collapse owner first count application) owner' token op := by
  have hs := hc.toSplits
  obtain ⟨id, hid, hop, hlist, hunique⟩ := h.node
  have hidOwner : id ≠ owner := by
    rintro rfl
    exact absurd howner (Nat.not_lt.mpr hid)
  have hnew := Forest.nextId_ne_of_index_lt (forest.index_lt_of_mem_tokenList hlist.marker_mem)
  refine ⟨⟨id, hid, ?_, ?_, ?_⟩, ?_⟩
  · rw [Forest.header_collapse forest hnew hs.owner_lt]
    exact hop
  · rw [Forest.tokenList_collapse_of_ne ha.packed (hs.hasRun ha.packed) hnew hidOwner]
    exact hlist.of_source_eq rfl
  · intro other hother hmem
    rcases marker_of_collapse ha hc hmem rfl with ⟨-, heq⟩ | hold
    · exact absurd heq hne
    · exact hunique other hother hold
  · intro other hmem
    exact h.taken other (mem_tokenList_of_collapse ha.packed hd hc hraw
      (isRawOperator_of_isOperator htoken) hmem).1

end Collapse

section Ledger

/-- What has become of an operator so far. -/
inductive Outcome (table : RuleSetTable) (size : Nat) (grouping : Grouping)
    (reports : List Diagnostic) (owner : NodeId) (token : Token) (op : Operator) : Prop
  | waits (hwaits : token.span.start ∉ grouping.finished)
      (hmem : token ∈ grouping.forest.tokenList owner)
  | rejected (hfinished : token.span.start ∈ grouping.finished)
      (hrejected : Rejected grouping.forest reports owner token)
  | applied (hfinished : token.span.start ∈ grouping.finished)
      (happlied : Applied table size grouping.forest owner token op)

/--
What has become of the operators of a lexed forest so far. `reports` are those that were
added to its log.
-/
structure Accounted (table : RuleSetTable) (lexed grouping : Grouping)
    (reports : List Diagnostic) : Prop where
  sound : grouping.Sound
  size_le : lexed.forest.nodes.size ≤ grouping.forest.nodes.size
  entries_eq : grouping.log.entries.toList = lexed.log.entries.toList ++ reports
  /-- An operator that is left is where it was in the lexed forest. -/
  origin : ∀ id t, t ∈ grouping.forest.tokenList id → isRawOperator table t = true →
    t ∈ lexed.forest.tokenList id
  marked : ∀ id t, lexed.forest.nodes.size ≤ id.index → t ∈ grouping.forest.tokenList id →
    t.kind = .node id → t.span.start ∈ grouping.finished
  reported : ∀ report ∈ reports, ∃ owner token, token ∈ grouping.forest.tokenList owner ∧
    isRawOperator table token = true ∧ token.span.start ∈ grouping.finished ∧
      report.span = token.span
  outcome : ∀ owner token op, token ∈ lexed.forest.tokenList owner → token.IsOperator table op →
    Outcome table lexed.forest.nodes.size grouping reports owner token op

namespace Accounted

variable {lexed : Grouping} {reports : List Diagnostic} {owner : NodeId} {token : Token}

/-- At the start every operator waits. -/
theorem refl (hs : grouping.Sound) (hnone : grouping.finished = []) :
    Accounted table grouping grouping [] where
  sound := hs
  size_le := le_rfl
  entries_eq := (List.append_nil _).symm
  origin := fun _ _ ht _ => ht
  marked := fun _ _ hid ht _ =>
    absurd (grouping.forest.index_lt_of_mem_tokenList ht) (Nat.not_lt.mpr hid)
  reported := fun _ h => absurd h List.not_mem_nil
  outcome := fun _ _ _ ht _ => .waits (by simp [hnone]) ht

/-- An operator that is left is told by its start among those of the lexed forest. -/
theorem eq_of_start (h : Accounted table lexed grouping reports) (hlexed : lexed.Sound)
    {id : NodeId} {t : Token} (htoken : token ∈ grouping.forest.tokenList owner)
    (hop : isRawOperator table token = true) (ht : t ∈ lexed.forest.tokenList id)
    (hop' : isRawOperator table t = true) (heq : t.span.start = token.span.start) :
    id = owner ∧ t = token := by
  have hold := h.origin owner token htoken hop
  have htd := isDelimiter_of_isRawOperator hop'
  have hdelimiter := isDelimiter_of_isRawOperator hop
  exact ⟨hlexed.separate.across id owner t token ht hold htd hdelimiter heq,
    hlexed.separate.eq_of_start ht hold htd hdelimiter heq⟩

/-- Nothing was reported at an operator that waits. -/
theorem unreported (h : Accounted table lexed grouping reports)
    (hwaits : token.span.start ∉ grouping.finished) :
    reports.filter (·.span = token.span) = [] := by
  rw [List.filter_eq_nil_iff]
  intro report hreport heq
  obtain ⟨_, t, -, -, hfinished, hspan⟩ := h.reported report hreport
  rw [decide_eq_true_iff, hspan] at heq
  exact hwaits (heq ▸ hfinished)

/-- An operator that waits has no marker in a new node. -/
theorem unmarked (h : Accounted table lexed grouping reports)
    (hwaits : token.span.start ∉ grouping.finished) (other : NodeId)
    (hother : lexed.forest.nodes.size ≤ other.index) :
    ⟨token.span, .node other⟩ ∉ grouping.forest.tokenList other := by
  intro hmem
  have hfinished := h.marked other ⟨token.span, .node other⟩ hother hmem rfl
  exact hwaits hfinished

section Step

variable (h : Accounted table lexed grouping reports) (hlexed : lexed.Sound)
  (htoken : token ∈ grouping.forest.tokenList owner)
  (hwaits : token.span.start ∉ grouping.finished)

include h hlexed htoken hwaits

/-- An operator that is rejected is settled, and the others are what they were. -/
theorem reject (hop : isRawOperator table token = true) (message : String) :
    ∃ report, Accounted table lexed
      { grouping with
        log := grouping.log.report .structural token.span message
        finished := token.span.start :: grouping.finished } (reports ++ [report]) := by
  refine ⟨grouping.log.entry .structural token.span message,
    ⟨⟨h.sound.1, h.sound.2⟩, h.size_le, ?_, h.origin, ?_, ?_, ?_⟩⟩
  · rw [Log.toList_report, h.entries_eq, List.append_assoc]
  · intro id t hid ht hkind
    exact List.mem_cons_of_mem _ (h.marked id t hid ht hkind)
  · intro report hreport
    rcases List.mem_append.mp hreport with hreport | hreport
    · obtain ⟨id, t, ht, hraw, hfinished, hspan⟩ := h.reported report hreport
      exact ⟨id, t, ht, hraw, List.mem_cons_of_mem _ hfinished, hspan⟩
    · rw [List.mem_singleton.mp hreport]
      exact ⟨owner, token, htoken, hop, List.mem_cons_self, rfl⟩
  · intro id t op ht htop
    by_cases heq : t.span.start = token.span.start
    · obtain ⟨rfl, rfl⟩ := h.eq_of_start hlexed htoken hop ht (isRawOperator_of_isOperator htop) heq
      refine .rejected List.mem_cons_self
        ⟨htoken, grouping.log.entry .structural t.span message, ?_, rfl⟩
      rw [List.filter_append, h.unreported hwaits]
      simp [Log.entry]
    · rcases h.outcome id t op ht htop with
        ⟨hfree, hmem⟩ | ⟨hfinished, hmem, report, hreports, hcategory⟩ | ⟨hfinished, happlied⟩
      · exact .waits (List.not_mem_cons_of_ne_of_not_mem heq hfree) hmem
      · refine .rejected (List.mem_cons_of_mem _ hfinished) ⟨hmem, report, ?_, hcategory⟩
        rw [List.filter_append, hreports]
        have hne : token.span ≠ t.span := fun hspan => heq (congrArg Span.start hspan).symm
        simp [Log.entry, hne]
      · exact .applied (List.mem_cons_of_mem _ hfinished) happlied

/-- An operator that takes its run is settled, and the others are what they were. -/
theorem collapse {first count : Nat} {application : OperatorApplication}
    {before left right after : List Token}
    (hc : grouping.forest.Collapsible owner first count application.marker before left token right
      after)
    (hraw : ∀ t ∈ left ++ right, isRawOperator table t = false)
    (hop : token.IsOperator table application.operator)
    (hlist : ∀ marker, OperatorList table grouping.forest owner marker application.operator.shape
      (left ++ marker :: right)) :
    Accounted table lexed
      { grouping with
        forest := grouping.forest.collapse owner first count application
        finished := token.span.start :: grouping.finished } reports := by
  have ha := h.sound.arranged
  have hd := h.sound.separate
  have hs := hc.toSplits
  have hopRaw := isRawOperator_of_isOperator hop
  have howner : owner.index < lexed.forest.nodes.size :=
    lexed.forest.index_lt_of_mem_tokenList (h.origin owner token htoken hopRaw)
  -- an operator other than the one that takes its run stays where it is
  have hstays : ∀ id t, t ∈ grouping.forest.tokenList id → isRawOperator table t = true →
      t.span.start ≠ token.span.start →
        t ∈ (grouping.forest.collapse owner first count application).tokenList id := by
    intro id t ht htraw hne
    refine mem_tokenList_collapse_of_isRawOperator ha.packed hs hraw htraw ?_ ht
    rintro rfl
    exact hne rfl
  refine ⟨⟨ha.collapse hc, hd.collapse ha.packed hs⟩, ?_, h.entries_eq, ?_, ?_, ?_, ?_⟩
  · rw [Forest.size_collapse]
    exact Nat.le_succ_of_le h.size_le
  · intro id t ht htraw
    exact h.origin id t (mem_tokenList_of_collapse ha.packed hd hc hraw htraw ht).1 htraw
  · intro id t hid ht hkind
    rcases marker_of_collapse ha hc ht hkind with ⟨-, hspan⟩ | hold
    · rw [hspan]
      exact List.mem_cons_self
    · exact List.mem_cons_of_mem _ (h.marked id t hid hold hkind)
  · intro report hreport
    obtain ⟨id, t, ht, htraw, hfinished, hspan⟩ := h.reported report hreport
    refine ⟨id, t, hstays id t ht htraw ?_, htraw, List.mem_cons_of_mem _ hfinished, hspan⟩
    intro heq
    exact hwaits (heq ▸ hfinished)
  · intro id t op ht htop
    have htraw := isRawOperator_of_isOperator htop
    by_cases heq : t.span.start = token.span.start
    · obtain ⟨rfl, rfl⟩ := h.eq_of_start hlexed htoken hopRaw ht htraw heq
      obtain rfl := eq_of_isOperator htop hop
      exact .applied List.mem_cons_self
        (applied_collapse ha hd h.size_le hc hraw hop hlist (h.unmarked hwaits))
    · have hne : t.span ≠ token.span := fun hspan => heq (congrArg Span.start hspan)
      rcases h.outcome id t op ht htop with
        ⟨hfree, hmem⟩ | ⟨hfinished, hmem, hreport⟩ | ⟨hfinished, happlied⟩
      · exact .waits (List.not_mem_cons_of_ne_of_not_mem heq hfree) (hstays id t hmem htraw heq)
      · exact .rejected (List.mem_cons_of_mem _ hfinished) ⟨hstays id t hmem htraw heq, hreport⟩
      · exact .applied (List.mem_cons_of_mem _ hfinished)
          (happlied.collapse ha hd htop hc hraw howner hne)

end Step

/-- One step of the run settles the operator that it takes. -/
theorem groupOperator (h : Accounted table lexed grouping reports) (hlexed : lexed.Sound)
    {slot depth : Nat} {path : OperatorPath}
    (htoken : grouping.forest.token? owner slot = some token)
    (hpath : ofToken? table grouping.finished [] depth token = some path) :
    ∃ reports', Accounted table lexed (grouping.groupOperator table owner slot path) reports' := by
  obtain ⟨id, op, precedence, hkind, hwaits, hop, rfl⟩ := ofToken?_eq_some.mp hpath
  have hmem := Forest.mem_tokenList_of_token? htoken
  have hoperator : token.IsOperator table op := ⟨id, precedence, hkind, hop⟩
  rcases groupOperator_extent_cases table ⟨[], depth, token.span.start, id, op, precedence⟩
    h.sound.arranged.packed htoken ⟨id, hkind⟩ with
    ⟨fault, heq⟩ | ⟨symbol, extent, rules, before, left, right, after, hextent, hfault, hc, hraw,
      heq⟩
  · rw [heq]
    obtain ⟨report, hnext⟩ := h.reject hlexed hmem hwaits (isRawOperator_of_isOperator hoperator)
      fault.message
    exact ⟨_, hnext⟩
  · rw [heq]
    have hnext : Accounted table lexed
        { grouping with
          forest := grouping.forest.collapse owner extent.first extent.count
            ⟨rules, op, id, extent.marker⟩
          finished := token.span.start :: grouping.finished } reports :=
      h.collapse hlexed hmem hwaits hc hraw hoperator
        fun _ => operatorList_of_extent hextent hfault hc.toSplits
    exact ⟨reports, hnext⟩

end Accounted

end Ledger

section Runs

/-- The rounds end: each one takes an operator, and a run takes as many rounds as it needs. -/
theorem rounds_run (table : RuleSetTable) (hs : grouping.Sound) :
    Rounds table grouping (run table grouping) := by
  suffices hrounds : ∀ count grouping, grouping.Sound → (queue table grouping).length ≤ count →
      Rounds table grouping (runRounds table count grouping) by
    refine hrounds _ grouping hs ?_
    unfold queue
    rw [List.length_map, (perm_sort _).length_eq]
  intro count
  induction count with
  | zero =>
      intro grouping _ hle
      exact .done (queue_eq_nil_iff.mp (List.length_eq_zero_iff.mp (Nat.le_zero.mp hle)))
  | succ count ih =>
      intro grouping hs hle
      unfold runRounds
      split
      · rename_i hnone
        exact .done hnone
      · rename_i hsome
        obtain ⟨k, hpos, -, hdrop, hsound⟩ := takePaths_eq
          (sort (findAll table grouping.finished grouping.forest)) hs rfl
        have hne : sort (findAll table grouping.finished grouping.forest) ≠ [] :=
          fun hnil => hsome (List.Perm.eq_nil (hnil ▸ (perm_sort _).symm))
        obtain ⟨path, paths, hpaths⟩ := List.exists_cons_of_ne_nil hne
        have hk : 0 < k := by
          refine hpos path (by rw [hpaths]; rfl) (walk?_ne_none table hs.arranged ?_)
          rw [← (perm_sort _).mem_iff, hpaths]
          exact List.mem_cons_self
        refine .round hsome (ih _ hsound ?_)
        rw [hdrop, List.length_drop]
        omega

/-- In the end every operator of the lexed forest is settled. -/
theorem accounted_run (table : RuleSetTable) (hs : grouping.Sound)
    (hnone : grouping.finished = []) :
    ∃ reports, Accounted table grouping (run table grouping) reports := by
  refine run_induction (P := fun g => ∃ reports, Accounted table grouping g reports) ?_ ?_
    ⟨[], .refl hs hnone⟩
  · rintro g ⟨_, hg⟩
    exact hg.sound
  · rintro g owner slot token depth op ops ⟨reports, hg⟩ - htoken hpath
    exact hg.groupOperator hs htoken hpath

/-- When none is found any more, an operator that is left is finished. -/
theorem start_mem_finished (hs : grouping.Sound)
    (hnone : findAll table grouping.finished grouping.forest = []) {owner : NodeId} {token : Token}
    (hmem : token ∈ grouping.forest.tokenList owner) (hop : isRawOperator table token = true) :
    token.span.start ∈ grouping.finished := by
  by_contra hwaits
  obtain ⟨op, id, precedence, hkind, hoperator⟩ := isOperator_iff.mpr hop
  obtain ⟨slot, htoken⟩ := Forest.exists_token?_of_mem hmem
  obtain ⟨above, hleads⟩ :=
    hs.arranged.led owner (grouping.forest.index_lt_of_mem_tokenList hmem)
  have hpending : Pending table grouping
      ⟨[], above.length + 1, token.span.start, id, op, precedence⟩ :=
    ⟨owner, above, slot, token, hleads, htoken,
      ofToken?_eq_some.mpr ⟨id, op, precedence, hkind, hwaits, hoperator, rfl⟩⟩
  rw [← mem_queue_iff hs.arranged, queue_eq_nil_iff.mpr hnone] at hpending
  cases hpending

/-- Once no operator waits, each is rejected or applied, and not both. -/
theorem Accounted.settled {lexed : Grouping} {reports : List Diagnostic}
    (h : Accounted table lexed grouping reports) (hlexed : lexed.Sound)
    (hnone : findAll table grouping.finished grouping.forest = []) {owner : NodeId} {token : Token}
    {op : Operator} (hmem : token ∈ lexed.forest.tokenList owner)
    (hop : token.IsOperator table op) :
    Xor (Applied table lexed.forest.nodes.size grouping.forest owner token op ∧
        ∀ report ∈ reports, report.span ≠ token.span)
      (Rejected grouping.forest reports owner token) := by
  rcases h.outcome owner token op hmem hop with
    ⟨hwaits, hleft⟩ | ⟨-, hrejected⟩ | ⟨-, happlied⟩
  · exact absurd (start_mem_finished h.sound hnone hleft (isRawOperator_of_isOperator hop)) hwaits
  · exact Or.inr ⟨hrejected, fun happlied => happlied.1.taken owner hrejected.mem⟩
  · refine Or.inl ⟨⟨happlied, ?_⟩, fun hrejected => happlied.taken owner hrejected.mem⟩
    intro report hreport hspan
    -- a report is about an operator that is left, and no other one starts there
    obtain ⟨id, t, ht, hraw, -, hreported⟩ := h.reported report hreport
    obtain ⟨-, rfl⟩ := h.eq_of_start hlexed ht hraw hmem (isRawOperator_of_isOperator hop)
      (congrArg Span.start (hspan.symm.trans hreported))
    exact happlied.taken id ht

/-- An operator that is left in the end is rejected. -/
theorem Accounted.rejected_of_mem {lexed : Grouping} {reports : List Diagnostic}
    (h : Accounted table lexed grouping reports) (hlexed : lexed.Sound)
    (hnone : findAll table grouping.finished grouping.forest = []) {owner : NodeId} {token : Token}
    (hmem : token ∈ grouping.forest.tokenList owner) (hraw : isRawOperator table token = true) :
    Rejected grouping.forest reports owner token := by
  obtain ⟨op, hop⟩ := isOperator_iff.mpr hraw
  rcases h.settled hlexed hnone (h.origin owner token hmem hraw) hop with
    ⟨happlied, -⟩ | ⟨hrejected, -⟩
  · exact absurd hmem (happlied.1.taken owner)
  · exact hrejected

end Runs

end Grouping

namespace LexInput

open Grouping

/--
Grouping a lexed forest takes rounds as long as an operator is left, and ends. Each operator
of the lexed forest then either is the marker of one new node and has no report, or is still
in its list and has one. There are no other reports.
-/
theorem applied_or_rejected (input : LexInput) (calls : List LexCall) (table : RuleSetTable) :
    Rounds table (ofLexed (input.finish calls))
        (Grouping.run table (ofLexed (input.finish calls))) ∧
      ∃ reports, ((input.finish calls).group table).log.entries.toList =
          (input.finish calls).log.entries.toList ++ reports ∧
        (∀ owner token op, token ∈ (input.finish calls).forest.tokenList owner →
          token.IsOperator table op →
            Xor (Applied table (input.finish calls).forest.nodes.size
                  ((input.finish calls).group table).forest owner token op ∧
                ∀ report ∈ reports, report.span ≠ token.span)
              (Rejected ((input.finish calls).group table).forest reports owner token)) ∧
        ∀ report ∈ reports, ∃ owner token op,
          token ∈ (input.finish calls).forest.tokenList owner ∧ token.IsOperator table op ∧
            report.span = token.span ∧
              Rejected ((input.finish calls).group table).forest reports owner token := by
  have hs := sound_ofLexed input calls
  have hnone := (run_eq_queue table hs).2
  obtain ⟨reports, h⟩ := accounted_run table hs rfl
  refine ⟨rounds_run table hs, reports, h.entries_eq, ?_, ?_⟩
  · intro owner token op hmem hop
    exact h.settled hs hnone hmem hop
  · intro report hreport
    obtain ⟨owner, token, ht, hraw, -, hspan⟩ := h.reported report hreport
    obtain ⟨op, hop⟩ := isOperator_iff.mpr hraw
    exact ⟨owner, token, op, h.origin owner token ht hraw, hop, hspan,
      h.rejected_of_mem hs hnone ht hraw⟩

end LexInput
end ExprLang
