import ExprLang.Language
import ExprLang.Proofs.Grouping.Obstruction
import ExprLang.Proofs.Grouping.Outcome

/-!
# Grouping once more

An operator is judged once. If another operator stood in the place of an operand then, which is
grouped later, it is left although it has all its operands in the end, and it would be grouped if
the operators of the grouped forest were grouped once more. Nothing else changes in a second run:
what stood in the way of an operator still does so, as long as it is left.

Main definitions:
* `Grouping.BlockedBy`: an operator was judged while another one stood in the place of an operand;
* `Grouping.Stuck`: why an operator that was judged is left;
* `Grouping.takeListed`: a run over operators that are in order, which can be evaluated.

Main results:
* `Grouping.Stuck.collapse`: an operator that is left stays stuck, or what blocked it is gone;
* `Grouping.judged_run`: what a run leaves is stuck;
* `Grouping.repeated_run`: what a second run does;
* `LexInput.group_again`: what a second run changes.
-/

namespace ExprLang

open OperatorPath

namespace Grouping

/--
When the turn of an operator of a lexed forest came, another operator stood in the place of its
first missing operand.
-/
def BlockedBy (table : RuleSetTable) (lexed : LexOutput) (token obstacle : Token) : Prop :=
  ∃ before op after owner slot,
    sort (operators table lexed.forest) = before ++ op :: after ∧
    (before.foldl (takeByOffset table) (ofLexed lexed)).forest.token? owner slot = some token ∧
    token.kind = .delimiter op.delimiter ∧ token.span.start = op.offset ∧
    Blocks table (before.foldl (takeByOffset table) (ofLexed lexed)).forest owner slot op.operator
      obstacle

/--
An operator that was judged is left: something still stands in its way, or the operator that blocked
it is gone.
-/
def Stuck (table : RuleSetTable) (lexed : LexOutput) (forest : Forest) (id : NodeId)
    (token : Token) : Prop :=
  (∃ op obstacle?, token.IsOperator table op ∧
    Obstructed table forest id token op.shape obstacle? ∧
      ∀ t ∈ obstacle?, isRawOperator table t = true → BlockedBy table lexed token t) ∨
    ∃ obstacle, BlockedBy table lexed token obstacle ∧ ∀ id, obstacle ∉ forest.tokenList id

variable {table : RuleSetTable} {lexed : LexOutput} {grouping : Grouping} {token : Token}

/-- What blocks an operator is an operator. -/
theorem BlockedBy.isRawOperator {obstacle : Token} (h : BlockedBy table lexed token obstacle) :
    Grouping.isRawOperator table obstacle = true := by
  obtain ⟨_, _, _, _, _, -, -, -, -, _, _, _, _, _, -, -, -, -, hraw⟩ := h
  exact hraw

section Collapse

variable {forest : Forest} {owner id : NodeId} {first count : Nat}
  {application : OperatorApplication} {front left right behind : List Token} {mark : Token}

/-- An operator that is gone does not come back. -/
theorem not_mem_collapse {obstacle : Token} (hp : forest.Packed) (hd : forest.Separate)
    (hc : forest.Collapsible owner first count application.marker front left mark right behind)
    (hrun : ∀ t ∈ left ++ right, t.IsOperand table owner)
    (hraw : Grouping.isRawOperator table obstacle = true)
    (hgone : obstacle = mark ∨ ∀ id, obstacle ∉ forest.tokenList id) (id : NodeId) :
    obstacle ∉ (forest.collapse owner first count application).tokenList id := by
  intro hmem
  obtain ⟨hold, hne⟩ :=
    mem_tokenList_of_collapse hp hd hc (fun t ht => (hrun t ht).grouped) hraw hmem
  rcases hgone with rfl | hgone
  · exact hne rfl
  · exact hgone id hold

/-- When an operator takes its run the others stay stuck, for it may only be what blocked them. -/
theorem Stuck.collapse (h : Stuck table lexed forest id token) (hp : forest.Packed)
    (hd : forest.Separate)
    (hc : forest.Collapsible owner first count application.marker front left mark right behind)
    (hrun : ∀ t ∈ left ++ right, t.IsOperand table owner)
    (hmark : isRawOperator table mark = true) (htoken : isRawOperator table token = true)
    (hne : mark ≠ token) :
    Stuck table lexed (forest.collapse owner first count application) id token := by
  rcases h with ⟨op, obstacle?, hop, hobstructed, hblocked⟩ | ⟨obstacle, hblocked, hgone⟩
  · by_cases hobstacle : mark ∈ obstacle?
    · exact Or.inr ⟨mark, hblocked mark hobstacle hmark,
        not_mem_collapse hp hd hc hrun hmark (Or.inl rfl)⟩
    · refine Or.inl ⟨op, obstacle?, hop,
        hobstructed.collapse hp hc hrun hmark htoken hne fun t ht heq => ?_, hblocked⟩
      exact hobstacle (heq ▸ ht)
  · exact Or.inr ⟨obstacle, hblocked,
      not_mem_collapse hp hd hc hrun hblocked.isRawOperator (Or.inr hgone)⟩

end Collapse

section First

/-- A run so far: the operators in front of those that are left were judged in order. -/
structure Judged (table : RuleSetTable) (lexed : LexOutput) (grouping : Grouping) : Prop where
  sound : grouping.Sound
  reached : ∃ before, sort (operators table lexed.forest) = before ++ queue table grouping ∧
    grouping = before.foldl (takeByOffset table) (ofLexed lexed)
  stuck : ∀ id token, token ∈ grouping.forest.tokenList id → isRawOperator table token = true →
    token.span.start ∈ grouping.finished → Stuck table lexed grouping.forest id token

variable {owner : NodeId} {slot depth : Nat} {op : OperatorPath} {ops : List OperatorPath}

/-- At the start no operator was judged. -/
theorem Judged.start (hs : (ofLexed lexed).Sound) : Judged table lexed (ofLexed lexed) where
  sound := hs
  reached := ⟨[], sort_operators_eq hs rfl, rfl⟩
  stuck := fun _ _ _ _ hfinished => absurd hfinished List.not_mem_nil

/-- An operator that is not complete when its turn comes is stuck. -/
theorem Judged.stuck_of_not_complete (h : Judged table lexed grouping)
    (hqueue : queue table grouping = op :: ops)
    (htoken : grouping.forest.token? owner slot = some token)
    (hpath : ofToken? table grouping.finished [] depth token = some op)
    (hnot : ¬Complete table grouping.forest owner slot op.operator) :
    Stuck table lexed grouping.forest owner token := by
  obtain ⟨before, hsort, hreached⟩ := h.reached
  obtain ⟨id, o, precedence, hkind, -, hop, rfl⟩ := ofToken?_eq_some.mp hpath
  obtain ⟨obstacle?, hobstructed, hblocks⟩ := exists_obstructed htoken hnot
  refine Or.inl ⟨o, obstacle?, ⟨id, precedence, hkind, hop⟩, hobstructed, fun t ht hraw => ?_⟩
  have hblocked := hblocks t ht hraw
  rw [hqueue] at hsort
  rw [hreached] at htoken hblocked
  exact ⟨before, _, ops, owner, slot, hsort, htoken, hkind, rfl, hblocked⟩

/-- Judging the next operator leaves all that were judged stuck. -/
theorem Judged.groupOperator (h : Judged table lexed grouping)
    (hqueue : queue table grouping = op :: ops)
    (htoken : grouping.forest.token? owner slot = some token)
    (hpath : ofToken? table grouping.finished [] depth token = some op) :
    Judged table lexed (grouping.groupOperator table owner slot op) := by
  have hs := h.sound
  have hp := hs.arranged.packed
  have hraw := isRawOperator_of_ofToken? hpath
  have hdelimiter := isDelimiter_of_isRawOperator hraw
  have hmem := Forest.mem_tokenList_of_token? htoken
  have hsound := sound_groupOperator table op hs htoken hdelimiter
  have hreached : ∃ before, sort (operators table lexed.forest) =
        before ++ queue table (grouping.groupOperator table owner slot op) ∧
      grouping.groupOperator table owner slot op =
        before.foldl (takeByOffset table) (ofLexed lexed) := by
    obtain ⟨before, hsort, hreached⟩ := h.reached
    obtain ⟨id, o, precedence, hkind, -, -, rfl⟩ := ofToken?_eq_some.mp hpath
    refine ⟨before ++ [⟨[], depth, token.span.start, id, o, precedence⟩], ?_, ?_⟩
    · rw [queue_groupOperator _ hs hqueue htoken hkind rfl, hsort, hqueue, List.append_assoc]
      rfl
    · rw [List.foldl_append, ← hreached]
      exact (takeByOffset_eq table hs htoken ⟨[], depth, token.span.start, id, o, precedence⟩ hkind
        rfl).symm
  have hoffset := (isDelimiter_of_ofToken? hpath).2.1
  by_cases hcomplete : Complete table grouping.forest owner slot op.operator
  · obtain ⟨first, count, application, front, left, right, behind, hc, hrun, heq⟩ :=
      groupOperator_of_complete hp htoken hdelimiter hcomplete
    rw [heq] at hsound hreached ⊢
    refine ⟨hsound, hreached, fun id t ht hop hfinished => ?_⟩
    obtain ⟨hold, hne⟩ := mem_tokenList_of_collapse hp hs.separate hc
      (fun t ht => (hrun t ht).grouped) hop ht
    rcases List.mem_cons.mp hfinished with hstart | hfinished
    · exact absurd (hoffset.symm.trans hstart.symm) hne
    · exact (h.stuck id t hold hop hfinished).collapse hp hs.separate hc hrun hraw hop
        fun heq => hne (congrArg (fun t => t.span.start) heq)
  · obtain ⟨log, heq⟩ := groupOperator_of_not_complete hp htoken hdelimiter hcomplete
    rw [heq] at hsound hreached ⊢
    refine ⟨hsound, hreached, fun id t ht hop hfinished => ?_⟩
    rcases List.mem_cons.mp hfinished with hstart | hfinished
    · have hsame := hstart.trans hoffset
      have htd := isDelimiter_of_isRawOperator hop
      obtain rfl := hs.separate.across id owner t token ht hmem htd hdelimiter hsame
      obtain rfl := hs.separate.eq_of_start ht hmem htd hdelimiter hsame
      exact h.stuck_of_not_complete hqueue htoken hpath hcomplete
    · exact h.stuck id t ht hop hfinished

/-- When all operators were judged, those that are left are stuck. -/
theorem judged_run (table : RuleSetTable) (hs : (ofLexed lexed).Sound) :
    Judged table lexed (run table (ofLexed lexed)) ∧
      ∀ id token, token ∈ (run table (ofLexed lexed)).forest.tokenList id →
        isRawOperator table token = true →
          Stuck table lexed (run table (ofLexed lexed)).forest id token := by
  have hjudged : Judged table lexed (run table (ofLexed lexed)) := by
    refine run_induction (fun _ h => h.sound) ?_ (.start hs)
    intro g owner slot token depth op ops hg hqueue htoken hpath
    exact hg.groupOperator hqueue htoken hpath
  refine ⟨hjudged, fun id token hmem hraw => hjudged.stuck id token hmem hraw ?_⟩
  exact start_mem_finished hjudged.sound (run_eq_queue table hs).2 hmem hraw

/-- The forest that grouping leaves is that of the run. -/
theorem forest_group (table : RuleSetTable) (lexed : LexOutput) :
    (lexed.group table).forest = (run table (ofLexed lexed)).forest :=
  rfl

/-- A grouped forest can be grouped once more. -/
theorem sound_ofLexed_group (table : RuleSetTable) (hs : (ofLexed lexed).Sound) :
    (ofLexed (lexed.group table)).Sound := by
  have hsound := (judged_run table hs).1.sound
  have hforest := forest_group table lexed
  exact ⟨hforest ▸ hsound.arranged, hforest ▸ hsound.separate⟩

end First

section Second

/-- A second run so far, on the forest that the first one left. -/
structure Repeated (table : RuleSetTable) (lexed once : LexOutput) (grouping : Grouping) :
    Prop where
  sound : grouping.Sound
  stuck : ∀ id token, token ∈ grouping.forest.tokenList id → isRawOperator table token = true →
    Stuck table lexed grouping.forest id token
  /-- An operator is only taken when what blocked it is gone. -/
  left : ∀ id token, token ∈ once.forest.tokenList id → isRawOperator table token = true →
    token ∈ grouping.forest.tokenList id ∨
      ∃ obstacle, BlockedBy table lexed token obstacle ∧
        ∀ id, obstacle ∉ grouping.forest.tokenList id
  fixed : (∀ token obstacle, BlockedBy table lexed token obstacle →
    ∃ id, obstacle ∈ once.forest.tokenList id) → grouping.forest = once.forest

variable {once : LexOutput} {owner : NodeId} {slot depth : Nat} {op : OperatorPath}

/-- A step of a second run takes an operator only if what blocked it in the first one is gone. -/
theorem Repeated.groupOperator (h : Repeated table lexed once grouping)
    (htoken : grouping.forest.token? owner slot = some token)
    (hpath : ofToken? table grouping.finished [] depth token = some op) :
    Repeated table lexed once (grouping.groupOperator table owner slot op) := by
  have hs := h.sound
  have hp := hs.arranged.packed
  have hraw := isRawOperator_of_ofToken? hpath
  have hdelimiter := isDelimiter_of_isRawOperator hraw
  have hmem := Forest.mem_tokenList_of_token? htoken
  have hsound := sound_groupOperator table op hs htoken hdelimiter
  by_cases hcomplete : Complete table grouping.forest owner slot op.operator
  · obtain ⟨first, count, application, front, left, right, behind, hc, hrun, heq⟩ :=
      groupOperator_of_complete hp htoken hdelimiter hcomplete
    obtain ⟨obstacle, hblocked, hgone⟩ : ∃ obstacle, BlockedBy table lexed token obstacle ∧
        ∀ id, obstacle ∉ grouping.forest.tokenList id := by
      rcases h.stuck owner token hmem hraw with ⟨o, obstacle?, hop, hobstructed, -⟩ | hgone
      · obtain ⟨id, o', precedence, hkind, -, hop', rfl⟩ := ofToken?_eq_some.mp hpath
        obtain rfl := eq_of_isOperator hop ⟨id, precedence, hkind, hop'⟩
        exact absurd hcomplete (hobstructed.not_complete hs.separate htoken hdelimiter)
      · exact hgone
    rw [heq] at hsound ⊢
    have hstays : ∀ obstacle, isRawOperator table obstacle = true →
        (∀ id, obstacle ∉ grouping.forest.tokenList id) →
          ∀ id, obstacle ∉ (grouping.forest.collapse owner first count application).tokenList id :=
      fun _ hraw hgone => not_mem_collapse hp hs.separate hc hrun hraw (Or.inr hgone)
    refine ⟨hsound, fun id t ht hop => ?_, fun id t ht hop => ?_, fun hkept => ?_⟩
    · obtain ⟨hold, hne⟩ := mem_tokenList_of_collapse hp hs.separate hc
        (fun t ht => (hrun t ht).grouped) hop ht
      exact (h.stuck id t hold hop).collapse hp hs.separate hc hrun hraw hop
        fun heq => hne (congrArg (fun t => t.span.start) heq)
    · rcases h.left id t ht hop with hold | ⟨other, hother, hotherGone⟩
      · by_cases hsame : t = token
        · exact Or.inr ⟨obstacle, hsame ▸ hblocked, hstays obstacle hblocked.isRawOperator hgone⟩
        · exact Or.inl (mem_tokenList_collapse_of_isRawOperator hp hc.toSplits
            (fun t ht => (hrun t ht).grouped) hop hsame hold)
      · exact Or.inr ⟨other, hother, hstays other hother.isRawOperator hotherGone⟩
    · obtain ⟨id, hthere⟩ := hkept token obstacle hblocked
      exact absurd (h.fixed hkept ▸ hthere) (hgone id)
  · obtain ⟨log, heq⟩ := groupOperator_of_not_complete hp htoken hdelimiter hcomplete
    rw [heq] at hsound ⊢
    exact ⟨hsound, h.stuck, h.left, h.fixed⟩

/-- What a second run does. -/
theorem repeated_run (table : RuleSetTable) (hs : (ofLexed lexed).Sound) :
    Repeated table lexed (lexed.group table) (run table (ofLexed (lexed.group table))) := by
  have hforest := forest_group table lexed
  have hstuck := (judged_run table hs).2
  refine run_induction (fun _ h => h.sound) ?_
    ⟨sound_ofLexed_group table hs, hforest ▸ hstuck, ?_, fun _ => rfl⟩
  · intro g owner slot token depth op ops hg _ htoken hpath
    exact hg.groupOperator htoken hpath
  · exact fun _ _ hmem _ => Or.inl hmem

end Second

section Listed

variable (table) (lexed)

/-- The operators of a lexed forest taken one after the other as its lists show them. -/
def takeListed : LexOutput :=
  let grouping := (operators table lexed.forest).foldl (takeByOffset table) (ofLexed lexed)
  ⟨grouping.forest, grouping.log⟩

variable {lexed}

/-- Operators that are in order need not be sorted. -/
theorem group_eq_takeListed (hs : (ofLexed lexed).Sound)
    (horder : (operators table lexed.forest).Pairwise fun a b => a.precedes b = true) :
    lexed.group table = takeListed table lexed := by
  have hrun := run_eq_of_pairwise hs rfl horder
  exact congrArg (fun grouping => LexOutput.mk grouping.forest grouping.log) hrun

variable {table}

/--
What blocks an operator is left if the operators that were ever in a list are in that of the root in
the end.
-/
theorem BlockedBy.mem_of_inits {obstacle : Token} (h : BlockedBy table lexed token obstacle)
    (hs : (ofLexed lexed).Sound)
    (horder : (operators table lexed.forest).Pairwise fun a b => a.precedes b = true)
    (hlists : ∀ before ∈ (operators table lexed.forest).inits,
      ∀ i ∈ List.range (before.foldl (takeByOffset table) (ofLexed lexed)).forest.nodes.size,
        ∀ t ∈ (before.foldl (takeByOffset table) (ofLexed lexed)).forest.tokenList ⟨i⟩,
          Grouping.isRawOperator table t = true →
            t ∈ (takeListed table lexed).forest.tokenList Forest.root) :
    obstacle ∈ (lexed.group table).forest.tokenList Forest.root := by
  obtain ⟨before, op, after, owner, slot, hsort, -, -, -, extent, _, place, _, _, -, -, -, hat,
    hraw⟩ := h
  have hbefore : before ∈ (operators table lexed.forest).inits := by
    rw [List.mem_inits, ← List.mergeSort_of_pairwise horder]
    exact ⟨op :: after, hsort.symm⟩
  rw [group_eq_takeListed table hs horder]
  exact hlists before hbefore owner.index (List.mem_range.mpr (Forest.index_lt_of_token? _ hat))
    obstacle (Forest.mem_tokenList_of_token? hat) hraw

end Listed

end Grouping

namespace LexInput

open Grouping

/--
The operators of a grouped forest are grouped once more. If all operators that stood in the place of
an operand when another operator was judged are still left, the forest stays as it is. In any case
an operator that was left is only grouped if it was blocked by another one that is gone.
-/
theorem group_again (input : LexInput) (calls : List LexCall) (table : RuleSetTable) :
    let lexed := input.finish calls
    let once := lexed.group table
    let twice := once.group table
    ((∀ token obstacle, BlockedBy table lexed token obstacle →
        ∃ id, obstacle ∈ once.forest.tokenList id) → twice.forest = once.forest) ∧
      ∀ id token, token ∈ once.forest.tokenList id → isRawOperator table token = true →
        token ∈ twice.forest.tokenList id ∨
          ∃ obstacle, BlockedBy table lexed token obstacle ∧
            ∀ id, obstacle ∉ twice.forest.tokenList id := by
  intro lexed once twice
  have hrepeated : Repeated table lexed once (Grouping.run table (ofLexed once)) :=
    repeated_run table (sound_ofLexed input calls)
  have hforest : twice.forest = (Grouping.run table (ofLexed once)).forest :=
    forest_group table once
  rw [hforest]
  exact ⟨hrepeated.fixed, hrepeated.left⟩

/-- In `x * + y` both operators block each other. So they are left, also by a second run. -/
theorem group_again_blocked :
    let lexed := (Language.input "x * + y").finish []
    let once := lexed.group Grammar.builtin
    BlockedBy Grammar.builtin lexed ⟨⟨2, 3⟩, .delimiter ⟨46⟩⟩ ⟨⟨4, 5⟩, .delimiter ⟨49⟩⟩ ∧
      (∀ token obstacle, BlockedBy Grammar.builtin lexed token obstacle →
        ∃ id, obstacle ∈ once.forest.tokenList id) ∧
      (once.group Grammar.builtin).forest = once.forest := by
  have hs := sound_ofLexed (Language.input "x * + y") []
  have hoperators : operators Grammar.builtin ((Language.input "x * + y").finish []).forest =
      [⟨[], 1, 2, ⟨46⟩, .multiply, 30⟩, ⟨[], 1, 4, ⟨49⟩, .add, 40⟩] := by
    decide +kernel
  have hlist : ((Language.input "x * + y").finish []).forest.tokenList Forest.root =
      [⟨⟨0, 1⟩, .text⟩, ⟨⟨2, 3⟩, .delimiter ⟨46⟩⟩, ⟨⟨4, 5⟩, .delimiter ⟨49⟩⟩, ⟨⟨6, 7⟩, .text⟩] := by
    decide +kernel
  have hat := fun slot => (Forest.getElem?_tokenList _ Forest.root slot).symm.trans
    (congrArg (fun list => list[slot]?) hlist)
  have horder : (operators Grammar.builtin ((Language.input "x * + y").finish []).forest).Pairwise
      fun a b => a.precedes b = true := by
    rw [hoperators]
    decide
  have hblocked : BlockedBy Grammar.builtin ((Language.input "x * + y").finish [])
      ⟨⟨2, 3⟩, .delimiter ⟨46⟩⟩ ⟨⟨4, 5⟩, .delimiter ⟨49⟩⟩ := by
    refine ⟨[], _, _, Forest.root, 1, (List.mergeSort_of_pairwise horder).trans hoperators, hat 1,
      rfl, rfl, ⟨0, 3, 1, [(0, .left), (2, .right)]⟩, [(0, .left)], 2, .right, [], rfl, rfl, ?_,
      hat 2, by decide +kernel⟩
    exact List.forall_mem_singleton.mpr ⟨⟨⟨0, 1⟩, .text⟩, hat 0, nofun, rfl, rfl⟩
  have hkept : ∀ token obstacle,
      BlockedBy Grammar.builtin ((Language.input "x * + y").finish []) token obstacle →
        ∃ id, obstacle ∈ (((Language.input "x * + y").finish []).group
          Grammar.builtin).forest.tokenList id :=
    fun _ _ h => ⟨Forest.root, h.mem_of_inits hs horder (by decide +kernel)⟩
  exact ⟨hblocked, hkept, (group_again (Language.input "x * + y") [] Grammar.builtin).1 hkept⟩

/--
In `1 + not x` the sum is left, for the negation behind it is grouped later. In a second run the
negation is its right operand.
-/
theorem group_again_negation :
    let once := ((Language.input "1 + not x").finish []).group Grammar.builtin
    let twice := once.group Grammar.builtin
    (once.forest.tokenList Forest.root).map Token.span = [⟨0, 1⟩, ⟨2, 3⟩, ⟨4, 9⟩] ∧
      (twice.forest.tokenList Forest.root).map Token.span = [⟨0, 9⟩] ∧
      twice.forest ≠ once.forest := by
  have hs := sound_ofLexed (Language.input "1 + not x") []
  have honce := group_eq_takeListed Grammar.builtin hs (by decide +kernel)
  have htwice := group_eq_takeListed Grammar.builtin (sound_ofLexed_group Grammar.builtin hs) (by
    rw [honce]
    decide +kernel)
  have hfirst : ((((Language.input "1 + not x").finish []).group Grammar.builtin).forest.tokenList
      Forest.root).map Token.span = [⟨0, 1⟩, ⟨2, 3⟩, ⟨4, 9⟩] := by
    rw [honce]
    decide +kernel
  have hsecond : (((((Language.input "1 + not x").finish []).group Grammar.builtin).group
      Grammar.builtin).forest.tokenList Forest.root).map Token.span = [⟨0, 9⟩] := by
    rw [htwice, honce]
    decide +kernel
  refine ⟨hfirst, hsecond, fun hsame => ?_⟩
  have hspans := congrArg (fun forest => (forest.tokenList Forest.root).map Token.span) hsame
  exact absurd (hfirst.symm.trans (hspans.symm.trans hsecond)) (by decide)

end LexInput
end ExprLang
