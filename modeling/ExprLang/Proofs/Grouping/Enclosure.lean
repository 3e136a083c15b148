import ExprLang.Proofs.Grouping.Layout
import ExprLang.Proofs.Grouping.OperatorNodes
import ExprLang.Proofs.Lexing.Enclosure

/-!
# Grouping inside parentheses

Of a source in parentheses all operators are one level deeper and one offset further on, so that
they are taken in the same order. Markers are no operands, so that no operator takes one of the
parentheses: as long as no operator is rejected, the same runs are taken in both forests.

Main definitions:
* `OperatorPath.enclosed`: the same operator inside parentheses;
* `Grouping.Wrapped`: the state of a grouping, and that of the same one inside parentheses.

Main results:
* `Grouping.Wrapped.queue_eq`: the same operators are left;
* `Grouping.Wrapped.groupOperator`: an operator that is not rejected takes the same run;
* `LexInput.wrapped_parse`: the grouped forest is the same inside a group.
-/

namespace ExprLang

open OperatorPath

/-- The operator one level deeper and one offset further on. -/
def OperatorPath.enclosed (op : OperatorPath) : OperatorPath :=
  { op with depth := op.depth + 1, offset := op.offset + 1 }

namespace Forest

/-- No node ends behind the root. -/
theorem Laid.stop_le {forest : Forest} (hl : forest.Laid) (ha : forest.Arranged) {id : NodeId}
    (hid : id.index < forest.nodes.size) :
    (forest.header id).span.stop ≤ (forest.header root).span.stop := by
  obtain ⟨slots, hleads⟩ := ha.led id hid
  clear hid
  induction hleads with
  | root => exact le_rfl
  | @child slots owner slot token id hpath htoken hkind hne ih =>
      have hmem := mem_tokenList_of_token? htoken
      obtain ⟨-, -, hspan⟩ := ha.nested owner token id hmem hkind hne
      have hrow := hl.rows owner (forest.index_lt_of_token? htoken)
      rw [← hspan]
      exact ((hrow.inside _ (List.mem_map_of_mem hmem)).2).trans ih

/-- No token ends behind the root. -/
theorem Laid.token_stop_le {forest : Forest} (hl : forest.Laid) (ha : forest.Arranged)
    {id : NodeId} {token : Token} (hmem : token ∈ forest.tokenList id) :
    token.span.stop ≤ (forest.header root).span.stop := by
  have hid := forest.index_lt_of_mem_tokenList hmem
  exact ((hl.rows id hid).inside _ (List.mem_map_of_mem hmem)).2.trans (hl.stop_le ha hid)

/-- Grouping leaves the spans of the nodes of before. -/
theorem span_collapse {forest : Forest} {id owner : NodeId} (hid : id ≠ forest.nextId)
    (howner : owner.index < forest.nodes.size) (first count : Nat)
    (application : OperatorApplication) :
    ((forest.collapse owner first count application).header id).span = (forest.header id).span := by
  rw [header_collapse forest hid howner]

/-- The text of a part of the source is the same inside parentheses. -/
theorem Wrapped.spanText_eq {forest outer : Forest} (h : Wrapped forest outer) {span : Span}
    (hspan : span.stop ≤ forest.source.size) :
    outer.spanText span.shifted = forest.spanText span := by
  unfold spanText Span.shifted
  rw [h.enclosed.slice?_eq hspan]

end Forest

/-- An operand is one inside parentheses. -/
theorem Token.IsOperand.shifted {table : RuleSetTable} {owner : NodeId} {token : Token}
    (h : token.IsOperand table owner) : token.shifted.IsOperand table owner.shifted := by
  have hraw : Grouping.isRawOperator table token.shifted = Grouping.isRawOperator table token := by
    unfold Grouping.isRawOperator
    rw [Token.kind_shifted]
    cases token.kind <;> rfl
  have hseparator : Grouping.separatorText? table token.shifted = Grouping.separatorText? table token := by
    unfold Grouping.separatorText?
    rw [Token.kind_shifted]
    cases token.kind <;> rfl
  exact ⟨fun hkind => h.unmarked (TokenKind.shifted_eq_node.mp hkind), hraw.trans h.grouped,
    hseparator.trans h.unseparated⟩

namespace Grouping

section Steps

variable {table : RuleSetTable} {grouping : Grouping} {owner : NodeId} {slot : Nat}
  {path : OperatorPath}

/-- An operator whose operands are all there takes its run. -/
theorem groupOperator_of_extent {extent : Extent} {rules : RuleSetId}
    (hextent : extent? grouping.forest owner slot path.operator = some extent)
    (hfault : ∀ symbol, extentFault? table grouping.forest owner symbol extent = none)
    (hrules : table.find? path.operator.contextName = some rules)
    (hrun : grouping.forest.hasRun owner extent.first extent.count extent.marker = true) :
    grouping.groupOperator table owner slot path =
      { grouping with
        forest := grouping.forest.collapse owner extent.first extent.count
          ⟨rules, path.operator, path.delimiter, extent.marker⟩
        finished := path.offset :: grouping.finished } := by
  unfold groupOperator
  simp only [hextent, hfault]
  unfold apply finish Forest.collapse?
  simp only [hrules, Option.getD_some]
  rw [if_pos hrun]

/-- Grouping one operator only adds to the log. -/
theorem length_log_groupOperator (table : RuleSetTable) (grouping : Grouping) (owner : NodeId)
    (slot : Nat) (path : OperatorPath) :
    grouping.log.length ≤ (grouping.groupOperator table owner slot path).log.length := by
  have hreject : ∀ fault, grouping.log.length ≤
      ((grouping.finish path.offset).reject owner slot fault).log.length := by
    intro fault
    simp [reject, finish, Log.report, Log.length]
  unfold groupOperator
  simp only
  split
  · exact hreject _
  · split
    · exact hreject _
    · unfold apply
      simp only
      split
      · exact le_rfl
      · exact le_rfl

theorem length_log_takeByOffset (table : RuleSetTable) (grouping : Grouping) (op : OperatorPath) :
    grouping.log.length ≤ (takeByOffset table grouping op).log.length := by
  unfold takeByOffset
  split
  · exact le_rfl
  · exact length_log_groupOperator _ _ _ _ _

theorem length_log_foldl (table : RuleSetTable) (ops : List OperatorPath) (grouping : Grouping) :
    grouping.log.length ≤ (ops.foldl (takeByOffset table) grouping).log.length := by
  induction ops generalizing grouping with
  | nil => exact le_rfl
  | cons op ops ih =>
      exact (length_log_takeByOffset table grouping op).trans (ih _)

/-- Grouping leaves the nodes of before as they were, but for their lists and their parents. -/
theorem header_run (table : RuleSetTable) (ha : grouping.forest.Arranged) {id : NodeId}
    (hid : id.index < grouping.forest.nodes.size) :
    ((run table grouping).forest.header id).rules = (grouping.forest.header id).rules ∧
      ((run table grouping).forest.header id).contextClass =
        (grouping.forest.header id).contextClass ∧
      ((run table grouping).forest.header id).operator = (grouping.forest.header id).operator ∧
      ((run table grouping).forest.header id).span = (grouping.forest.header id).span ∧
      (run table grouping).forest.source = grouping.forest.source := by
  refine (run_preserves (P := fun g => g.forest.Arranged ∧ id.index < g.forest.nodes.size ∧
    (g.forest.header id).rules = (grouping.forest.header id).rules ∧
      (g.forest.header id).contextClass = (grouping.forest.header id).contextClass ∧
      (g.forest.header id).operator = (grouping.forest.header id).operator ∧
      (g.forest.header id).span = (grouping.forest.header id).span ∧
      g.forest.source = grouping.forest.source) ?_ ⟨ha, hid, rfl, rfl, rfl, rfl, rfl⟩).2.2
  rintro g owner slot path token ⟨hg, hlt, hsame⟩ htoken hkind -
  have hdelimiter : token.IsDelimiter := ⟨path.delimiter, hkind⟩
  refine ⟨arranged_groupOperator hg htoken hdelimiter, ?_⟩
  rcases groupOperator_cases table path hg.packed htoken hdelimiter with
    ⟨fault, heq⟩ | ⟨first, count, application, before, left, right, after, hc, -, heq⟩
  · rw [heq]
    exact ⟨hlt, hsame⟩
  · rw [heq]
    simp only [Forest.size_collapse, Forest.source_collapse]
    rw [Forest.header_collapse g.forest (Forest.nextId_ne_of_index_lt hlt) hc.toSplits.owner_lt]
    exact ⟨Nat.lt_succ_of_lt hlt, hsame⟩

end Steps

/-- The second state is that of the same grouping inside parentheses. -/
structure Wrapped (grouping outer : Grouping) : Prop where
  forest : grouping.forest.Wrapped outer.forest
  sound : grouping.Sound
  outerSound : outer.Sound
  laid : grouping.forest.Laid
  within : (grouping.forest.header Forest.root).span.stop ≤ grouping.forest.source.size
  finished : outer.finished = grouping.finished.map (· + 1)

namespace Wrapped

variable {table : RuleSetTable} {grouping outer : Grouping}

section Queue

/-- The same token is an operator inside parentheses, at the same place of the order. -/
theorem ofToken?_shifted (h : Wrapped grouping outer) {depth : Nat} {token : Token} :
    ofToken? table outer.finished [] (depth + 1) token.shifted =
      (ofToken? table grouping.finished [] depth token).map enclosed := by
  have hfinished : outer.finished.contains token.shifted.span.start =
      grouping.finished.contains token.span.start := by
    rw [Bool.eq_iff_iff, h.finished]
    simp [Token.shifted, Span.shifted]
  unfold ofToken?
  rw [Token.kind_shifted, hfinished]
  cases token.kind with
  | text => rfl
  | node id => rfl
  | literal id => rfl
  | delimiter id =>
      simp only [TokenKind.shifted]
      split
      · rfl
      · cases (table.delimiter id).operator? with
        | none => rfl
        | some op => rfl

/-- The operators that are left are those that are left inside parentheses. -/
theorem pending_iff (h : Wrapped grouping outer) {op : OperatorPath} :
    Pending table outer op ↔ ∃ inner, Pending table grouping inner ∧ op = inner.enclosed := by
  constructor
  · rintro ⟨owner, above, slot, token, hleads, htoken, hpath⟩
    have hmem := Forest.mem_tokenList_of_token? htoken
    have hdelimiter := (isDelimiter_of_ofToken? hpath).1
    obtain ⟨i⟩ := owner
    cases i with
    | zero =>
        -- the only token below the root is the group
        obtain ⟨group, hlist, hkind⟩ := h.forest.outermost
        rw [show (⟨0⟩ : NodeId) = Forest.root from rfl, hlist, List.mem_singleton] at hmem
        exact absurd hdelimiter (Forest.not_isDelimiter_of_node (hmem ▸ hkind))
    | succ i =>
        obtain ⟨front, back, hlisted⟩ := h.forest.listed ⟨i⟩
        rcases hlisted.mem_cases hmem with hkind | ⟨s, hs, rfl⟩
        · exact absurd hdelimiter (Forest.not_isDelimiter_of_node hkind)
        · obtain ⟨slots, hinner⟩ := h.sound.arranged.led ⟨i⟩
            (grouping.forest.index_lt_of_mem_tokenList hs)
          obtain ⟨slots', houter, hlength⟩ := h.forest.leads hinner
          rw [hleads.unique h.outerSound.arranged.wellNested houter, hlength, h.ofToken?_shifted]
            at hpath
          obtain ⟨inner, hinnerPath, rfl⟩ := Option.map_eq_some_iff.mp hpath
          obtain ⟨slot', hslot'⟩ := Forest.exists_token?_of_mem hs
          exact ⟨inner, ⟨⟨i⟩, slots, slot', s, hinner, hslot', hinnerPath⟩, rfl⟩
  · rintro ⟨inner, ⟨owner, above, slot, token, hleads, htoken, hpath⟩, rfl⟩
    obtain ⟨slots', houter, hlength⟩ := h.forest.leads hleads
    obtain ⟨front, back, hlisted⟩ := h.forest.listed owner
    refine ⟨owner.shifted, slots', front.length + slot, token.shifted, houter,
      hlisted.token? htoken, ?_⟩
    rw [hlength, h.ofToken?_shifted, hpath, Option.map_some]

theorem precedes_enclosed (a b : OperatorPath) : a.enclosed.precedes b.enclosed = a.precedes b := by
  rw [Bool.eq_iff_iff, precedes_iff, precedes_iff]
  simp only [enclosed]
  omega

theorem enclosed_injective : Function.Injective OperatorPath.enclosed := by
  rintro ⟨slots, depth, offset, delimiter, operator, precedence⟩
    ⟨slots', depth', offset', delimiter', operator', precedence'⟩ heq
  simpa [enclosed] using heq

/-- The operators that are left are taken in the same order inside parentheses. -/
theorem queue_eq (h : Wrapped grouping outer) :
    queue table outer = (queue table grouping).map enclosed := by
  refine eq_of_pairwise_precedes table h.outerSound (pairwise_queue _ _) ?_
    (nodup_queue table h.outerSound)
    ((nodup_queue table h.sound).map enclosed_injective) ?_ ?_
  · refine List.pairwise_map.mpr ((pairwise_queue table grouping).imp ?_)
    intro a b hab
    rw [precedes_enclosed]
    exact hab
  · intro op
    rw [mem_queue_iff h.outerSound.arranged, h.pending_iff, List.mem_map]
    simp only [mem_queue_iff h.sound.arranged, eq_comm]
  · intro op hop
    exact (mem_queue_iff h.outerSound.arranged).mp hop

end Queue

section Runs

variable {owner : NodeId} {slot : Nat} {front back : List Token} {extent : Extent}

/-- The word `else` stands at the same place inside parentheses. -/
theorem any_isElse (h : Wrapped grouping outer)
    (hlisted : Forest.Listed owner (grouping.forest.tokenList owner) front back
      (outer.forest.tokenList owner.shifted)) :
    (outer.forest.token? owner.shifted (front.length + slot)).any (isElse outer.forest) =
      (grouping.forest.token? owner slot).any (isElse grouping.forest) := by
  rw [← Forest.getElem?_tokenList, ← Forest.getElem?_tokenList]
  rcases hlisted.getElem? slot with ⟨token, htoken, hshifted⟩ | ⟨hnone, hmarker⟩
  · have hstop := h.laid.token_stop_le h.sound.arranged (List.mem_of_getElem? htoken)
    rw [htoken, hshifted, Option.any_some, Option.any_some]
    unfold isElse Forest.tokenText
    rw [show token.shifted.span = token.span.shifted from rfl,
      h.forest.spanText_eq (hstop.trans h.within), Token.kind_shifted]
    cases token.kind <;> rfl
  · rw [hnone]
    cases hget : (outer.forest.tokenList owner.shifted)[front.length + slot]? with
    | none => rfl
    | some token =>
        rw [Option.any_some, Option.any_none]
        unfold isElse
        rw [hmarker token hget]
        rfl

/-- An operator takes the same run inside parentheses. -/
theorem extent?_eq (h : Wrapped grouping outer)
    (hlisted : Forest.Listed owner (grouping.forest.tokenList owner) front back
      (outer.forest.tokenList owner.shifted)) {op : Operator}
    (hextent : extent? grouping.forest owner slot op = some extent) :
    extent? outer.forest owner.shifted (front.length + slot) op =
      some { extent with first := front.length + extent.first } := by
  unfold extent? at hextent ⊢
  split at hextent
  · split at hextent
    · cases hextent
    · rename_i hslot
      obtain rfl := Option.some.inj hextent
      rw [if_neg (by omega), Nat.add_sub_assoc (by omega)]
  · obtain rfl := Option.some.inj hextent
    rfl
  · simp only at hextent ⊢
    rw [Nat.add_assoc, h.any_isElse hlisted]
    split at hextent
    · rename_i helse
      obtain rfl := Option.some.inj hextent
      rw [if_pos helse]
    · rename_i helse
      obtain rfl := Option.some.inj hextent
      rw [if_neg helse]

/-- A run that has its operands has them inside parentheses. -/
theorem extentFault?_shifted
    (hlisted : Forest.Listed owner (grouping.forest.tokenList owner) front back
      (outer.forest.tokenList owner.shifted)) {symbol : String}
    (hfault : extentFault? table grouping.forest owner symbol extent = none) (symbol' : String) :
    extentFault? table outer.forest owner.shifted symbol'
      { extent with first := front.length + extent.first } = none := by
  rw [extentFault?_eq_none] at hfault ⊢
  intro place role hmem
  obtain ⟨token, htoken, hoperand⟩ := hfault place role hmem
  refine ⟨token.shifted, ?_, hoperand.shifted⟩
  simp only
  rw [Nat.add_assoc]
  exact hlisted.token? htoken

end Runs

section Steps

variable {owner : NodeId} {slot : Nat} {token : Token} {op : OperatorPath}
  {front back : List Token}

/-- An operator that is not rejected takes the same run inside parentheses. -/
theorem groupOperator (h : Wrapped grouping outer)
    (hfind : ∀ op : Operator, ∃ rules, table.find? op.contextName = some rules)
    (hlisted : Forest.Listed owner (grouping.forest.tokenList owner) front back
      (outer.forest.tokenList owner.shifted))
    (htoken : grouping.forest.token? owner slot = some token)
    (hkind : token.kind = .delimiter op.delimiter)
    (hlog : (grouping.groupOperator table owner slot op).log.length ≤ grouping.log.length) :
    Wrapped (grouping.groupOperator table owner slot op)
        (outer.groupOperator table owner.shifted (front.length + slot) op.enclosed) ∧
      (outer.groupOperator table owner.shifted (front.length + slot) op.enclosed).log =
        outer.log := by
  have hdelimiter : token.IsDelimiter := ⟨op.delimiter, hkind⟩
  have hp := h.sound.arranged.packed
  have hp' := h.outerSound.arranged.packed
  have hsound := sound_groupOperator table op h.sound htoken hdelimiter
  have houterSound := sound_groupOperator table op.enclosed h.outerSound
    (hlisted.token? htoken) (Token.isDelimiter_shifted.mpr hdelimiter)
  rcases groupOperator_extent_cases table op hp htoken hdelimiter with
    ⟨fault, heq⟩ | ⟨symbol, extent, _, before, left, right, after, hextent, hfault, hc, -, -⟩
  · -- a rejected operator would be reported
    rw [heq] at hlog
    simp only [Log.report, Log.length, Array.size_push] at hlog
    omega
  · obtain ⟨rules, hrules⟩ := hfind op.operator
    have hs := hc.toSplits
    have hfault' : ∀ symbol', extentFault? table grouping.forest owner symbol' extent = none :=
      fun _ => extentFault?_eq_none.mpr (extentFault?_eq_none.mp hfault)
    have hinner := groupOperator_of_extent hextent hfault' hrules (hs.hasRun hp)
    have hrun : outer.forest.hasRun owner.shifted (front.length + extent.first) extent.count
        extent.marker = true :=
      (Forest.Wrapped.splits hs hlisted).hasRun hp'
    have hextent' : extent? outer.forest owner.shifted (front.length + slot)
        op.enclosed.operator = some { extent with first := front.length + extent.first } :=
      h.extent?_eq hlisted hextent
    have houter := groupOperator_of_extent hextent' (extentFault?_shifted hlisted hfault) hrules
      hrun
    rw [hinner] at hsound ⊢
    rw [houter] at houterSound ⊢
    refine ⟨⟨h.forest.collapse hp hp' hs hlisted, hsound, houterSound, h.laid.collapse hp hc, ?_, ?_⟩,
      rfl⟩
    · exact (congrArg Span.stop (Forest.span_collapse
        (Forest.nextId_ne_of_index_lt h.sound.arranged.size_pos)
        (Forest.index_lt_of_token? _ htoken) _ _ _)).trans_le h.within
    · rw [h.finished]
      rfl

/-- Operators that are not rejected take the same runs inside parentheses. -/
theorem foldl (h : Wrapped grouping outer)
    (hfind : ∀ op : Operator, ∃ rules, table.find? op.contextName = some rules)
    {ops : List OperatorPath} (hqueue : queue table grouping = ops)
    (hlog : (ops.foldl (takeByOffset table) grouping).log.length ≤ grouping.log.length) :
    Wrapped (ops.foldl (takeByOffset table) grouping)
        ((ops.map enclosed).foldl (takeByOffset table) outer) ∧
      ((ops.map enclosed).foldl (takeByOffset table) outer).log = outer.log := by
  induction ops generalizing grouping outer with
  | nil => exact ⟨h, rfl⟩
  | cons op ops ih =>
      obtain ⟨⟨owner, above, slot, token, -, htoken, hpath⟩, -⟩ :=
        first_of_queue h.sound.arranged hqueue
      obtain ⟨id, o, precedence, hkind, -, -, rfl⟩ := ofToken?_eq_some.mp hpath
      obtain ⟨front, back, hlisted⟩ := h.forest.listed owner
      have htake := takeByOffset_eq table h.sound htoken
        ⟨[], above.length + 1, token.span.start, id, o, precedence⟩ hkind rfl
      have htake' := takeByOffset_eq table h.outerSound (hlisted.token? htoken)
        (OperatorPath.enclosed ⟨[], above.length + 1, token.span.start, id, o, precedence⟩)
        (show token.kind.shifted = .delimiter id by rw [hkind]; rfl) rfl
      have hrest := queue_groupOperator
        ⟨[], above.length + 1, token.span.start, id, o, precedence⟩ h.sound hqueue htoken hkind rfl
      rw [List.foldl_cons] at hlog
      rw [List.foldl_cons, List.map_cons, List.foldl_cons]
      change takeByOffset table grouping
        ⟨[], above.length + 1, token.span.start, id, o, precedence⟩ = _ at htake
      change takeByOffset table outer
        (OperatorPath.enclosed ⟨[], above.length + 1, token.span.start, id, o, precedence⟩) = _
        at htake'
      rw [htake] at hlog ⊢
      rw [htake']
      have hgrows := length_log_foldl table ops (grouping.groupOperator table owner slot
        ⟨[], above.length + 1, token.span.start, id, o, precedence⟩)
      have hsteps := length_log_groupOperator table grouping owner slot
        ⟨[], above.length + 1, token.span.start, id, o, precedence⟩
      obtain ⟨hnext, hsame⟩ := h.groupOperator hfind hlisted htoken hkind (hgrows.trans hlog)
      obtain ⟨hfinal, hlogs⟩ := ih hnext hrest (hlog.trans hsteps)
      exact ⟨hfinal, hlogs.trans hsame⟩

end Steps

/-- A run that rejects no operator takes the same runs inside parentheses. -/
theorem run (h : Wrapped grouping outer)
    (hfind : ∀ op : Operator, ∃ rules, table.find? op.contextName = some rules)
    (hlog : (Grouping.run table grouping).log.length ≤ grouping.log.length) :
    Wrapped (Grouping.run table grouping) (Grouping.run table outer) ∧
      (Grouping.run table outer).log = outer.log := by
  rw [(run_eq_queue table h.sound).1] at hlog ⊢
  rw [(run_eq_queue table h.outerSound).1, h.queue_eq]
  exact h.foldl hfind rfl hlog

end Wrapped

end Grouping

namespace LexInput

open Language

variable {inner outer : Source}

/-- Parsing reports everything that reading does. -/
theorem length_log_lex_le (input : LexInput) : input.lex.log.length ≤ input.parse.log.length := by
  have hs : (Grouping.ofLexed input.lex).Sound := Grouping.sound_ofLexed input []
  have hgrows := Grouping.length_log_foldl input.table
    (Grouping.queue input.table (Grouping.ofLexed input.lex)) (Grouping.ofLexed input.lex)
  rw [← (Grouping.run_eq_queue input.table hs).1] at hgrows
  exact hgrows

/-- The lexed forests, as the states of their groupings. -/
theorem wrapped_ofLexed
    (hforest : Forest.Wrapped (ofSource inner).lex.forest (ofSource outer).lex.forest) :
    Grouping.Wrapped (Grouping.ofLexed (ofSource inner).lex)
      (Grouping.ofLexed (ofSource outer).lex) where
  forest := hforest
  sound := Grouping.sound_ofLexed (ofSource inner) []
  outerSound := Grouping.sound_ofLexed (ofSource outer) []
  laid := ((ofSource inner).lexed_final []).laid
  within := by
    have hsource : (ofSource inner).lex.forest.source = inner :=
      ((ofSource inner).lexed_final []).source_eq
    show ((ofSource inner).lex.forest.header Forest.root).span.stop ≤
      (ofSource inner).lex.forest.source.size
    rw [hsource]
    have hspan := ((ofSource inner).lexed_final []).span_root
    exact (congrArg Span.stop hspan).trans_le ((ofSource inner).cursor_final_le [])
  finished := rfl

/--
A source that is parsed without a report, and without a line comment that is open in the end, is
parsed to the same forest inside parentheses, inside one group.
-/
theorem wrapped_parse (h : Enclosed inner outer) (hsize : outer.size < Span.offsetCount)
    (hlog : (ofSource inner).parse.log.length = 0)
    (hclosed : ∀ id, ¬((ofSource inner).lex.forest.header id).IsOpenLineComment) :
    Forest.Wrapped (ofSource inner).parse.forest (ofSource outer).parse.forest ∧
      (ofSource outer).parse.log = .ofSource outer ∧
      ((ofSource outer).parse.forest.header Forest.root.shifted).rules = Grammar.parensRules ∧
      ((ofSource outer).parse.forest.header Forest.root.shifted).contextClass =
        .ofFlags [.enclosure] ∧
      ((ofSource outer).parse.forest.header Forest.root.shifted).operator = none := by
  have hlex : (ofSource inner).lex.log.length = 0 :=
    Nat.le_zero.mp (hlog ▸ length_log_lex_le (ofSource inner))
  obtain ⟨hforest, hlogOuter, hrules, hclass⟩ := wrapped_lex h hsize hlex hclosed
  have hstart := wrapped_ofLexed hforest
  obtain ⟨hwrapped, hsame⟩ := hstart.run Grammar.exists_find?_contextName
    (hlog.trans_le (Nat.zero_le _))
  have hgroup : Forest.root.shifted.index < (ofSource outer).lex.forest.nodes.size := by
    rw [hforest.size]
    exact Nat.succ_lt_succ hstart.sound.arranged.size_pos
  obtain ⟨hrulesRun, hclassRun, hopRun, -⟩ :=
    Grouping.header_run Grammar.builtin hstart.outerSound.arranged hgroup
  have hop := ((ofSource outer).lexed_final []).operator_eq_none Forest.root.shifted
  exact ⟨hwrapped.forest, hsame.trans hlogOuter, hrulesRun.trans hrules, hclassRun.trans hclass,
    hopRun.trans hop⟩

end LexInput
end ExprLang
