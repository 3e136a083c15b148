import ExprLang.Language
import ExprLang.Proofs.Grouping.OperatorNodes
import ExprLang.Proofs.Grouping.Repetition

/-!
# The clauses of conditionals

A conditional takes its condition and its true case from behind it and, if the word `else` comes
third, this word and a false case. The word is looked for in that place only: anywhere else it is
plain text and an operand like any other one. If a part is missing, the conditional is left with
one report about the first such part.

All this happens when the turn of the conditional comes, with the tokens that stand behind it then.
What it has taken stays as it is, and so does the token behind it as long as it is not taken by
another operator; so no conditional without a false case has the word `else` behind it.

Main definitions:
* `Grouping.Turn`: what stands behind an operator when its turn comes;
* `Grouping.Clause`: what a conditional takes of that, or what is wrong with it.

Main results:
* `Grouping.groupOperator_conditional`: one step on a conditional;
* `Grouping.settled_run`: what becomes of all conditionals in a run;
* `LexInput.conditional_clauses`: the conditionals of a grouped forest.
-/

namespace ExprLang

open OperatorPath

/-- An operator as it is written. -/
def OperatorPath.symbol (table : RuleSetTable) (op : OperatorPath) : String :=
  String.ofList (table.delimiter op.delimiter).text

namespace Grouping

section Definitions

variable (table : RuleSetTable)

/--
The operators in front of another one were taken, and its token is in the list of `owner` with these
tokens behind it.
-/
def Turn (lexed : LexOutput) (op : OperatorPath) (owner : NodeId) (token : Token)
    (behind : List Token) : Prop :=
  ∃ before after front, sort (operators table lexed.forest) = before ++ op :: after ∧
    token.kind = .delimiter op.delimiter ∧ token.span.start = op.offset ∧
    (before.foldl (takeByOffset table) (ofLexed lexed)).forest.tokenList owner =
      front ++ token :: behind

/--
What a conditional takes of the tokens behind it, or what is wrong with the first part that is
missing.
-/
inductive Clause (forest : Forest) (owner : NodeId) (symbol : String) :
    List Token → Except GroupingFault (List Token) → Prop
  | noCondition {behind : List Token} {fault : GroupingFault}
      (hfault : operandFault? table owner symbol .condition behind.head? = some fault) :
      Clause forest owner symbol behind (.error fault)
  | noTrueCase {condition : Token} {behind : List Token} {fault : GroupingFault}
      (hcondition : condition.IsOperand table owner)
      (hfault : operandFault? table owner symbol .trueCase behind.head? = some fault) :
      Clause forest owner symbol (condition :: behind) (.error fault)
  | ifThen {condition trueCase : Token} {behind : List Token}
      (hcondition : condition.IsOperand table owner) (htrue : trueCase.IsOperand table owner)
      (hother : ∀ other ∈ behind.head?, isElse forest other = false) :
      Clause forest owner symbol (condition :: trueCase :: behind) (.ok [condition, trueCase])
  | noFalseCase {condition trueCase other : Token} {behind : List Token} {fault : GroupingFault}
      (hcondition : condition.IsOperand table owner) (htrue : trueCase.IsOperand table owner)
      (hother : isElse forest other = true)
      (hfault : operandFault? table owner symbol .falseCase behind.head? = some fault) :
      Clause forest owner symbol (condition :: trueCase :: other :: behind) (.error fault)
  | ifThenElse {condition trueCase other falseCase : Token} {behind : List Token}
      (hcondition : condition.IsOperand table owner) (htrue : trueCase.IsOperand table owner)
      (hother : isElse forest other = true) (hfalse : falseCase.IsOperand table owner) :
      Clause forest owner symbol (condition :: trueCase :: other :: falseCase :: behind)
        (.ok [condition, trueCase, other, falseCase])

end Definitions

variable {table : RuleSetTable}

section Clauses

variable {forest : Forest} {owner : NodeId} {slot : Nat} {symbol : String} {behind : List Token}

/-- The tokens from a slot on start with the one in this slot. -/
theorem drop_eq_cons_of_token? {token : Token} (h : forest.token? owner slot = some token) :
    (forest.tokenList owner).drop slot = token :: (forest.tokenList owner).drop (slot + 1) := by
  rw [drop_eq_toList_append, Forest.getElem?_tokenList, h]
  rfl

theorem head?_drop_tokenList (forest : Forest) (owner : NodeId) (slot : Nat) :
    ((forest.tokenList owner).drop slot).head? = forest.token? owner slot := by
  rw [List.head?_drop, Forest.getElem?_tokenList]

theorem extentFault?_cons {first count marker place : Nat} {role : OperandRole}
    {operands : List (Nat × OperandRole)} :
    extentFault? table forest owner symbol ⟨first, count, marker, (place, role) :: operands⟩ =
      (operandFault? table owner symbol role (forest.token? owner (first + place))).or
        (extentFault? table forest owner symbol ⟨first, count, marker, operands⟩) := by
  unfold extentFault?
  rw [List.findSome?_cons]
  dsimp only
  cases operandFault? table owner symbol role (forest.token? owner (first + place)) with
  | none => rfl
  | some fault => rfl

/-- The run of a conditional, and its fault if it has one, are those of its clause. -/
theorem exists_clause (table : RuleSetTable) (forest : Forest) (owner : NodeId) (slot : Nat)
    (symbol : String) :
    ∃ extent, extent? forest owner slot .conditional = some extent ∧
      extent.first = slot ∧ extent.marker = 0 ∧
      ((∃ fault, extentFault? table forest owner symbol extent = some fault ∧
          Clause table forest owner symbol ((forest.tokenList owner).drop (slot + 1))
            (.error fault)) ∨
        (extentFault? table forest owner symbol extent = none ∧
          Clause table forest owner symbol ((forest.tokenList owner).drop (slot + 1))
            (.ok (((forest.tokenList owner).drop (slot + 1)).take (extent.count - 1))))) := by
  obtain ⟨more, hextent, hmore⟩ :=
    extent?_conditional forest owner slot (show Operator.conditional.shape = .conditional from rfl)
  refine ⟨_, hextent, rfl, rfl, ?_⟩
  rw [extentFault?_cons, extentFault?_cons]
  cases hcondition : operandFault? table owner symbol .condition
      (forest.token? owner (slot + 1)) with
  | some fault =>
      refine Or.inl ⟨fault, rfl, .noCondition ?_⟩
      rw [head?_drop_tokenList]
      exact hcondition
  | none =>
      obtain ⟨condition, hfirst, hc⟩ := operandFault?_eq_none.mp hcondition
      rw [drop_eq_cons_of_token? hfirst]
      cases htrue : operandFault? table owner symbol .trueCase
          (forest.token? owner (slot + 2)) with
      | some fault =>
          refine Or.inl ⟨fault, rfl, .noTrueCase hc ?_⟩
          rw [head?_drop_tokenList]
          exact htrue
      | none =>
          obtain ⟨trueCase, hsecond, ht⟩ := operandFault?_eq_none.mp htrue
          rw [drop_eq_cons_of_token? hsecond]
          rcases hmore with ⟨rfl, hother⟩ | ⟨rfl, other, hthird, hother⟩
          · refine Or.inr ⟨rfl, .ifThen hc ht fun other hmem => hother other ?_⟩
            rw [head?_drop_tokenList] at hmem
            exact hmem
          · rw [drop_eq_cons_of_token? hthird, extentFault?_cons]
            cases hfalse : operandFault? table owner symbol .falseCase
                (forest.token? owner (slot + 4)) with
            | some fault =>
                refine Or.inl ⟨fault, rfl, .noFalseCase hc ht hother ?_⟩
                rw [head?_drop_tokenList]
                exact hfalse
            | none =>
                obtain ⟨falseCase, hfourth, hf⟩ := operandFault?_eq_none.mp hfalse
                rw [drop_eq_cons_of_token? hfourth]
                exact Or.inr ⟨rfl, .ifThenElse hc ht hother hf⟩

theorem Clause.of_source_eq {g : Forest} {result : Except GroupingFault (List Token)}
    (h : Clause table forest owner symbol behind result) (heq : forest.source = g.source) :
    Clause table g owner symbol behind result := by
  have helse := isElse_of_source_eq heq
  cases h with
  | noCondition hfault => exact .noCondition hfault
  | noTrueCase hcondition hfault => exact .noTrueCase hcondition hfault
  | ifThen hcondition htrue hother =>
      exact .ifThen hcondition htrue fun other hmem => (helse other).symm.trans (hother other hmem)
  | noFalseCase hcondition htrue hother hfault =>
      exact .noFalseCase hcondition htrue ((helse _).symm.trans hother) hfault
  | ifThenElse hcondition htrue hother hfalse =>
      exact .ifThenElse hcondition htrue ((helse _).symm.trans hother) hfalse

/-- Behind a condition and a true case alone the word `else` does not come. -/
theorem Clause.not_isElse_head? {taken after : List Token}
    (h : Clause table forest owner symbol (taken ++ after) (.ok taken)) (htwo : taken.length = 2) :
    ∀ other ∈ after.head?, isElse forest other = false := by
  obtain ⟨condition, trueCase, rfl⟩ := List.length_eq_two.mp htwo
  cases h with
  | ifThen _ _ hother => exact hother

end Clauses

section Step

variable {grouping : Grouping} {owner : NodeId} {slot : Nat} {token : Token} {path : OperatorPath}

/-- A conditional is rejected for what is wrong with its clause, or it takes the whole clause. -/
theorem groupOperator_conditional (hp : grouping.forest.Packed)
    (htoken : grouping.forest.token? owner slot = some token) (hdelimiter : token.IsDelimiter)
    (hop : path.operator = .conditional) :
    (∃ fault front behind,
      grouping.forest.tokenList owner = front ++ token :: behind ∧
      Clause table grouping.forest owner (path.symbol table) behind (.error fault) ∧
      grouping.groupOperator table owner slot path =
        { grouping with
          log := grouping.log.report .structural token.span fault.message
          finished := path.offset :: grouping.finished }) ∨
      ∃ count rules before taken after,
        grouping.forest.Collapsible owner slot count 0 before [] token taken after ∧
        (∀ t ∈ taken, isRawOperator table t = false) ∧
        Clause table grouping.forest owner (path.symbol table) (taken ++ after) (.ok taken) ∧
        grouping.groupOperator table owner slot path =
          { grouping with
            forest := grouping.forest.collapse owner slot count
              ⟨rules, .conditional, path.delimiter, 0⟩
            finished := path.offset :: grouping.finished } := by
  obtain ⟨extent, hextent, hfirst, hmarker, ⟨fault, hfault, hclause⟩ | ⟨hfault, hclause⟩⟩ :=
    exists_clause table grouping.forest owner slot (path.symbol table)
  · have hlist := List.take_append_drop slot (grouping.forest.tokenList owner)
    rw [drop_eq_cons_of_token? htoken] at hlist
    refine Or.inl ⟨fault, _, _, hlist.symm, hclause, ?_⟩
    unfold OperatorPath.symbol at hfault
    unfold groupOperator reject finish
    simp only [hop, hextent, hfault, htoken]
    rfl
  · obtain ⟨before, left, taken, after, hc, hraw⟩ :=
      collapsible_of_extent hp htoken hdelimiter hextent hfault
    obtain ⟨rules, happly⟩ := exists_apply_eq table path extent (hc.toSplits.hasRun hp)
    rw [hfirst, hmarker] at hc
    rw [hfirst, hmarker, hop] at happly
    obtain rfl : left = [] := List.length_eq_zero_iff.mp hc.marker_eq.symm
    have hdrop : (grouping.forest.tokenList owner).drop (slot + 1) = taken ++ after := by
      rw [hc.list_eq, hc.first_eq]
      simp
    have hcount : extent.count - 1 = taken.length := by
      rw [hc.count_eq]
      simp
    rw [hcount, hdrop, List.take_left] at hclause
    refine Or.inr ⟨extent.count, rules, before, taken, after, hc, hraw, hclause, ?_⟩
    unfold OperatorPath.symbol at hfault
    unfold groupOperator
    simp only [hop, hextent, hfault]
    exact happly

end Step

section Chains

/--
If a token is that of a conditional without a false case, other than a marker of the list's owner,
then the next one is not the word `else`.
-/
def Unfollowed (forest : Forest) (owner : NodeId) (token next : Token) : Prop :=
  ∀ id, token.kind = .node id → id ≠ owner →
    (forest.header id).operator = some .conditional → (forest.tokenList id).length = 3 →
      isElse forest next = false

variable {forest : Forest} {owner : NodeId} {first count : Nat}
  {application : OperatorApplication} {before left right after : List Token} {mark : Token}

/-- What follows the tokens of a list is not changed by a collapse. -/
theorem Unfollowed.collapse {a b : NodeId} {token next : Token}
    (h : Unfollowed forest a token next) (ha : forest.Arranged) (ho : Operated table forest)
    (hc : forest.Collapsible owner first count application.marker before left mark right after)
    (hop : isRawOperator table mark = true) (hmem : token ∈ forest.tokenList a)
    (hmarker : token.kind = .node a → a = b) :
    Unfollowed (forest.collapse owner first count application) b token next := by
  have hs := hc.toSplits
  intro id hkind hne hconditional hlength
  have hnew := ha.ne_nextId hmem hkind
  rw [Forest.operator_collapse hnew hs.owner_lt] at hconditional
  rw [ho.tokenList_collapse ha.packed hs hop hnew hconditional] at hlength
  have hother : id ≠ a := by
    rintro rfl
    exact hne (hmarker hkind)
  exact h id hkind hother hconditional hlength

/-- The lists stay so when an operator takes its run, if its own node has no `else` behind it. -/
theorem isChain_collapse (ha : forest.Arranged) (ho : Operated table forest)
    (hchain : ∀ id, (forest.tokenList id).IsChain (Unfollowed forest id))
    (hc : forest.Collapsible owner first count application.marker before left mark right after)
    (hop : isRawOperator table mark = true)
    (hbehind : application.operator = .conditional → (left ++ mark :: right).length = 3 →
      ∀ next ∈ after.head?, isElse forest next = false) (id : NodeId) :
    ((forest.collapse owner first count application).tokenList id).IsChain
      (Unfollowed (forest.collapse owner first count application) id) := by
  have hs := hc.toSplits
  have hp := ha.packed
  have hold : ∀ (a b : NodeId) (l : List Token), l.IsChain (Unfollowed forest a) →
      (∀ t ∈ l, t ∈ forest.tokenList a) → (∀ t ∈ l, t.kind = .node a → a = b) →
        l.IsChain (Unfollowed (forest.collapse owner first count application) b) := by
    intro a b l hl hsub hmarker
    exact hl.imp_of_mem_imp fun x y hx _ hxy =>
      hxy.collapse ha ho hc hop (hsub x hx) (hmarker x hx)
  have hnode : ∀ t : Token, t.kind = .node forest.nextId →
      isElse (forest.collapse owner first count application) t = false := fun t hkind =>
    Bool.eq_false_iff.mpr fun helse => nomatch (kind_of_isElse helse).symm.trans hkind
  have howner := hchain owner
  rw [hs.list_eq] at howner
  have hrun := howner.left_of_append.right_of_append
  by_cases hid : id = forest.nextId
  · subst hid
    rw [Forest.tokenList_collapse_nextId hp hs]
    have hpart : ∀ l : List Token, l.IsChain (Unfollowed forest owner) → l ⊆ left ++ right →
        l.IsChain (Unfollowed (forest.collapse owner first count application) forest.nextId) :=
      fun l hl hsub => hold owner _ l hl (fun t ht => hs.mem_run (hsub ht)) fun t ht hkind =>
        absurd hkind (hc.unmarked t (hsub ht))
    refine List.isChain_append.mpr ⟨hpart left hrun.left_of_append (List.subset_append_left _ _),
      List.isChain_cons.mpr ⟨?_, hpart right (List.isChain_cons.mp hrun.right_of_append).2
        (List.subset_append_right _ _)⟩, ?_⟩
    · rintro next - id hkind hne
      exact absurd (TokenKind.node.inj hkind).symm hne
    · rintro token - next hnext id - - - -
      rw [← Option.some.inj hnext]
      exact hnode _ rfl
  · by_cases hid' : id = owner
    · subst hid'
      rw [Forest.tokenList_collapse_owner hp hs]
      have hpart : ∀ l : List Token, l.IsChain (Unfollowed forest id) → l ⊆ before ++ after →
          l.IsChain (Unfollowed (forest.collapse id first count application) id) :=
        fun l hl hsub => hold id id l hl (fun t ht => hs.mem_rest (hsub ht)) fun _ _ _ => rfl
      refine List.isChain_append.mpr ⟨hpart before howner.left_of_append.left_of_append
        (List.subset_append_left _ _), List.isChain_cons.mpr ⟨?_, hpart after
          howner.right_of_append (List.subset_append_right _ _)⟩, ?_⟩
      · intro next hnext child hkind _ hconditional hlength
        obtain rfl : child = forest.nextId := (TokenKind.node.inj hkind).symm
        rw [Forest.header_collapse_nextId forest hs.owner_lt] at hconditional
        rw [Forest.tokenList_collapse_nextId hp hs] at hlength
        exact hbehind (Option.some.inj hconditional) (by simpa using hlength) next hnext
      · rintro token - next hnext child - - - -
        rw [← Option.some.inj hnext]
        exact hnode _ rfl
    · rw [Forest.tokenList_collapse_of_ne hp (hs.hasRun hp) hid hid']
      exact hold id id _ (hchain id) (fun _ ht => ht) fun _ _ _ => rfl

end Chains

section Ledger

variable (table) (lexed : LexOutput)

/-- The node of a conditional has in its list what this took when its turn came. -/
def Taken (forest : Forest) (id : NodeId) : Prop :=
  ∃ op owner token behind taken, Turn table lexed op owner token behind ∧
    op.operator = .conditional ∧
    Clause table lexed.forest owner (op.symbol table) behind (.ok taken) ∧
    forest.tokenList id = ⟨token.span, .node id⟩ :: taken

/-- A conditional was without a part when its turn came, which is reported. -/
def Missed (reports : List Diagnostic) (owner : NodeId) (token : Token) : Prop :=
  ∃ op behind fault, Turn table lexed op owner token behind ∧ op.operator = .conditional ∧
    Clause table lexed.forest owner (op.symbol table) behind (.error fault) ∧
    ∃ report ∈ reports, report.span = token.span ∧ report.category = .structural ∧
      report.message = fault.message

/-- What has become of the conditionals so far. `reports` are those that were added to the log. -/
structure Settled (grouping : Grouping) (reports : List Diagnostic) : Prop where
  judged : Judged table lexed grouping
  operated : Operated table grouping.forest
  source_eq : grouping.forest.source = lexed.forest.source
  entries_eq : grouping.log.entries.toList = lexed.log.entries.toList ++ reports
  taken : ∀ id, (grouping.forest.header id).operator = some .conditional →
    Taken table lexed grouping.forest id
  missed : ∀ owner token, token ∈ grouping.forest.tokenList owner →
    token.IsOperator table .conditional → token.span.start ∈ grouping.finished →
      Missed table lexed reports owner token
  chain : ∀ id, (grouping.forest.tokenList id).IsChain (Unfollowed grouping.forest id)

variable {table} {lexed} {grouping : Grouping} {reports : List Diagnostic} {owner : NodeId}
  {slot depth : Nat} {token : Token} {op : OperatorPath} {ops : List OperatorPath}

/-- The turn of the first operator of the queue has come. -/
theorem Judged.turn (h : Judged table lexed grouping) (hqueue : queue table grouping = op :: ops)
    (hkind : token.kind = .delimiter op.delimiter) (hoffset : token.span.start = op.offset)
    {front behind : List Token}
    (hlist : grouping.forest.tokenList owner = front ++ token :: behind) :
    Turn table lexed op owner token behind := by
  obtain ⟨before, hsort, hreached⟩ := h.reached
  rw [hqueue] at hsort
  rw [hreached] at hlist
  exact ⟨before, ops, front, hsort, hkind, hoffset, hlist⟩

theorem Missed.mono {more : List Diagnostic} (h : Missed table lexed reports owner token) :
    Missed table lexed (reports ++ more) owner token := by
  obtain ⟨op, behind, fault, hturn, hop, hclause, report, hreport, habout⟩ := h
  exact ⟨op, behind, fault, hturn, hop, hclause, report, List.mem_append_left _ hreport, habout⟩

section Step

variable (h : Settled table lexed grouping reports) (hqueue : queue table grouping = op :: ops)
  (htoken : grouping.forest.token? owner slot = some token)
  (hpath : ofToken? table grouping.finished [] depth token = some op)

include h hqueue htoken hpath

/-- A conditional that is rejected misses a part of its clause. -/
theorem Settled.reject {fault : GroupingFault}
    (hclause : op.operator = .conditional → ∃ front behind,
      grouping.forest.tokenList owner = front ++ token :: behind ∧
        Clause table grouping.forest owner (op.symbol table) behind (.error fault))
    (heq : grouping.groupOperator table owner slot op =
      { grouping with
        log := grouping.log.report .structural token.span fault.message
        finished := op.offset :: grouping.finished }) :
    ∃ reports', Settled table lexed (grouping.groupOperator table owner slot op) reports' := by
  have hjudged := h.judged.groupOperator hqueue htoken hpath
  have hmem := Forest.mem_tokenList_of_token? htoken
  obtain ⟨id, o, precedence, hkind, -, hop, rfl⟩ := ofToken?_eq_some.mp hpath
  rw [heq] at hjudged ⊢
  refine ⟨reports ++ [grouping.log.entry .structural token.span fault.message], hjudged,
    h.operated, h.source_eq, ?_, h.taken, ?_, h.chain⟩
  · rw [Log.toList_report, h.entries_eq, List.append_assoc]
  · intro owner' t ht hconditional hfinished
    rcases List.mem_cons.mp hfinished with hstart | hfinished
    · have hdelimiter : token.IsDelimiter := ⟨id, hkind⟩
      have htd := isDelimiter_of_isRawOperator (isRawOperator_of_isOperator hconditional)
      have hseparate := h.judged.sound.separate
      obtain rfl := hseparate.across owner' owner t token ht hmem htd hdelimiter hstart
      obtain rfl := hseparate.eq_of_start ht hmem htd hdelimiter hstart
      obtain rfl := eq_of_isOperator hconditional ⟨id, precedence, hkind, hop⟩
      obtain ⟨front, behind, hlist, hclause⟩ := hclause rfl
      exact ⟨_, behind, fault, h.judged.turn hqueue hkind rfl hlist, rfl,
        hclause.of_source_eq h.source_eq, _, List.mem_append_right _ (List.mem_singleton_self _),
        rfl, rfl, rfl⟩
    · exact (h.missed owner' t ht hconditional hfinished).mono

/-- A conditional that takes its run has its clause in the new node. -/
theorem Settled.collapse {first count : Nat} (application : OperatorApplication)
    {before left right after : List Token}
    (hc : grouping.forest.Collapsible owner first count application.marker before left token right
      after)
    (hraw : ∀ t ∈ left ++ right, isRawOperator table t = false)
    (happlied : application.operator = op.operator)
    (hclause : op.operator = .conditional → left = [] ∧
      Clause table grouping.forest owner (op.symbol table) (right ++ after) (.ok right))
    (heq : grouping.groupOperator table owner slot op =
      { grouping with
        forest := grouping.forest.collapse owner first count application
        finished := op.offset :: grouping.finished }) :
    ∃ reports', Settled table lexed (grouping.groupOperator table owner slot op) reports' := by
  have hjudged := h.judged.groupOperator hqueue htoken hpath
  have ha := h.judged.sound.arranged
  have hp := ha.packed
  have hs := hc.toSplits
  obtain ⟨id, o, precedence, hkind, -, hop, rfl⟩ := ofToken?_eq_some.mp hpath
  have htokenRaw := isRawOperator_of_isOperator ⟨id, precedence, hkind, hop⟩
  have hoperated := operated_groupOperator table
    ⟨[], depth, token.span.start, id, o, precedence⟩ h.judged.sound h.operated htoken hkind
      htokenRaw
  rw [heq] at hjudged hoperated ⊢
  refine ⟨reports, hjudged, hoperated, ?_, h.entries_eq, ?_, ?_, ?_⟩
  · exact h.source_eq
  · intro node hconditional
    by_cases hnew : node = grouping.forest.nextId
    · subst hnew
      rw [Forest.header_collapse_nextId _ hs.owner_lt] at hconditional
      obtain ⟨rfl, htaken⟩ := hclause (happlied.symm.trans (Option.some.inj hconditional))
      have hlist : grouping.forest.tokenList owner = before ++ token :: (right ++ after) := by
        rw [hs.list_eq]
        simp
      exact ⟨_, owner, token, right ++ after, right, h.judged.turn hqueue hkind rfl hlist,
        happlied.symm.trans (Option.some.inj hconditional), htaken.of_source_eq h.source_eq,
        Forest.tokenList_collapse_nextId hp hs⟩
    · rw [Forest.operator_collapse hnew hs.owner_lt] at hconditional
      obtain ⟨op', owner', token', behind, taken, hturn, hop', hclause', hlist⟩ :=
        h.taken node hconditional
      exact ⟨op', owner', token', behind, taken, hturn, hop', hclause',
        (h.operated.tokenList_collapse hp hs htokenRaw hnew hconditional).trans hlist⟩
  · intro owner' t ht hconditional hfinished
    obtain ⟨hold, hne⟩ := mem_tokenList_of_collapse hp h.judged.sound.separate hc hraw
      (isRawOperator_of_isOperator hconditional) ht
    rcases List.mem_cons.mp hfinished with hstart | hfinished
    · exact absurd hstart.symm hne
    · exact h.missed owner' t hold hconditional hfinished
  · refine isChain_collapse ha h.operated h.chain hc htokenRaw fun hconditional hlength => ?_
    obtain ⟨rfl, htaken⟩ := hclause (happlied.symm.trans hconditional)
    exact htaken.not_isElse_head? (by simpa using hlength)

/-- One step settles the operator that it takes. -/
theorem Settled.groupOperator :
    ∃ reports', Settled table lexed (grouping.groupOperator table owner slot op) reports' := by
  have hp := h.judged.sound.arranged.packed
  have hdelimiter := isDelimiter_of_isRawOperator (isRawOperator_of_ofToken? hpath)
  by_cases hop : op.operator = .conditional
  · rcases groupOperator_conditional hp htoken hdelimiter hop with
      ⟨fault, front, behind, hlist, hclause, heq⟩ |
      ⟨count, rules, before, taken, after, hc, hraw, hclause, heq⟩
    · exact h.reject hqueue htoken hpath (fun _ => ⟨front, behind, hlist, hclause⟩) heq
    · exact h.collapse hqueue htoken hpath ⟨rules, .conditional, op.delimiter, 0⟩ hc hraw hop.symm
        (fun _ => ⟨rfl, hclause⟩) heq
  · rcases groupOperator_extent_cases table op hp htoken hdelimiter with
      ⟨fault, heq⟩ | ⟨symbol, extent, rules, before, left, right, after, -, -, hc, hraw, heq⟩
    · exact h.reject hqueue htoken hpath (fun hconditional => absurd hconditional hop) heq
    · exact h.collapse hqueue htoken hpath ⟨rules, op.operator, op.delimiter, extent.marker⟩ hc hraw
        rfl (fun hconditional => absurd hconditional hop) heq

end Step

/-- What becomes of all conditionals in a run over a forest that has no operator node yet. -/
theorem settled_run (table : RuleSetTable) (hs : (ofLexed lexed).Sound)
    (hnone : ∀ id, (lexed.forest.header id).operator = none) :
    ∃ reports, Settled table lexed (run table (ofLexed lexed)) reports := by
  have hcontexts : ∀ id op, (lexed.forest.header id).operator = some op → False :=
    fun id op hid => nomatch hid.symm.trans (hnone id)
  refine run_induction (P := fun g => ∃ reports, Settled table lexed g reports) ?_ ?_ ⟨[], ?_⟩
  · rintro g ⟨reports, hg⟩
    exact hg.judged.sound
  · rintro g owner slot token depth op ops ⟨reports, hg⟩ hqueue htoken hpath
    exact hg.groupOperator hqueue htoken hpath
  · refine ⟨.start hs, ?_, rfl, (List.append_nil _).symm, ?_, ?_, fun id => ?_⟩
    · exact fun id op hid => (hcontexts id op hid).elim
    · exact fun id hid => (hcontexts id _ hid).elim
    · exact fun _ _ _ _ hfinished => absurd hfinished List.not_mem_nil
    · refine (List.pairwise_of_forall fun _ _ => ?_).isChain
      exact fun child _ _ hconditional _ => (hcontexts child _ hconditional).elim

end Ledger

end Grouping

namespace LexInput

open Grouping

/--
In a grouped forest the node of every conditional has in its list the marker, a condition and a true
case, and behind these the word `else` and a false case if the word came third when the turn of the
conditional came. Every conditional that is left was without a part then, and has one report, about
the first such part. The word `else` is not left behind a conditional without a false case.
-/
theorem conditional_clauses (input : LexInput) (calls : List LexCall) (table : RuleSetTable) :
    let lexed := input.finish calls
    let grouped := lexed.group table
    ∃ reports, grouped.log.entries.toList = lexed.log.entries.toList ++ reports ∧
      (∀ id, (grouped.forest.header id).operator = some .conditional →
        ∃ op owner token behind taken, Turn table lexed op owner token behind ∧
          op.operator = .conditional ∧
          Clause table lexed.forest owner (op.symbol table) behind (.ok taken) ∧
          grouped.forest.tokenList id = ⟨token.span, .node id⟩ :: taken) ∧
      (∀ owner token, token ∈ grouped.forest.tokenList owner →
        token.IsOperator table .conditional →
          ∃ op behind fault report, Turn table lexed op owner token behind ∧
            op.operator = .conditional ∧
            Clause table lexed.forest owner (op.symbol table) behind (.error fault) ∧
            reports.filter (·.span = token.span) = [report] ∧ report.category = .structural ∧
            report.message = fault.message) ∧
      ∀ owner, (grouped.forest.tokenList owner).IsChain fun token next =>
        ∀ id, token.kind = .node id → id ≠ owner →
          (grouped.forest.header id).operator = some .conditional →
            (grouped.forest.tokenList id).length = 3 → isElse grouped.forest next = false := by
  intro lexed grouped
  have hs : (ofLexed lexed).Sound := sound_ofLexed input calls
  have hforest : grouped.forest = (Grouping.run table (ofLexed lexed)).forest :=
    forest_group table lexed
  obtain ⟨reports, h⟩ := settled_run table hs (input.lexed_final calls).operator_eq_none
  obtain ⟨reports', hall⟩ := accounted_run table hs rfl
  obtain rfl : reports = reports' :=
    List.append_cancel_left (h.entries_eq.symm.trans hall.entries_eq)
  have hnone := (run_eq_queue table hs).2
  rw [hforest]
  refine ⟨reports, h.entries_eq, h.taken, ?_, h.chain⟩
  intro owner token hmem hop
  have hraw := isRawOperator_of_isOperator hop
  obtain ⟨-, report, hreport, hcategory⟩ := hall.rejected_of_mem hs hnone hmem hraw
  obtain ⟨op, behind, fault, hturn, hconditional, hclause, entry, hentry, hspan, -, hmessage⟩ :=
    h.missed owner token hmem hop (start_mem_finished h.judged.sound hnone hmem hraw)
  have hsame : entry ∈ [report] := by
    rw [← hreport]
    exact List.mem_filter.mpr ⟨hentry, decide_eq_true hspan⟩
  rw [List.mem_singleton.mp hsame] at hmessage
  exact ⟨op, behind, fault, report, hturn, hconditional, hclause, hreport, hcategory, hmessage⟩

/-- In `if else 1` the word `else` is the condition, and nothing is reported. -/
theorem conditional_clauses_else :
    let grouped := ((Language.input "if else 1").finish []).group Grammar.builtin
    (grouped.forest.header ⟨1⟩).operator = some .conditional ∧
      (grouped.forest.tokenList ⟨1⟩).map Token.span = [⟨0, 2⟩, ⟨3, 7⟩, ⟨8, 9⟩] ∧
      isElse grouped.forest ⟨⟨3, 7⟩, .text⟩ = true ∧
      (∃ token ∈ grouped.forest.tokenList ⟨1⟩, isElse grouped.forest token = true) ∧
      grouped.log.entries.toList = [] := by
  have hs := sound_ofLexed (Language.input "if else 1") []
  rw [group_eq_takeListed Grammar.builtin hs (by decide +kernel)]
  decide +kernel

end LexInput
end ExprLang
