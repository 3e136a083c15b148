import ExprLang.Proofs.Grouping.Queue
import ExprLang.Proofs.Lexing.Delimiters
import ExprLang.Proofs.Lexing.Nesting
import ExprLang.Proofs.Lexing.Reading

/-!
# Grouping in one pass

The rounds of a run collect the operators again whenever a path leads nowhere. They could
be collected and sorted once: each is then looked up by its offset when its turn comes.
A round takes the operators from the front of the queue, so that the next round goes on
where it stopped.

Main results:
* `takePaths_eq`, `runRounds_eq`: a round, and any number of rounds, take the operators
  from the front of the queue, and at least one of them each;
* `run_induction`: what every step keeps is kept by the run;
* `sort_operators_eq`: the queue at the start is the sorted list of all operators;
* `run_eq_foldl`: the run takes all operators of a lexed forest in that order.
-/

namespace ExprLang

/-- The first place in which a delimiter starts at an offset. -/
def Forest.locate? (forest : Forest) (offset : Nat) : Option (NodeId × Nat) :=
  (List.range forest.nodes.size).findSome? fun i =>
    ((forest.tokens ⟨i⟩).toList.findIdx? fun token =>
      match token.kind with
      | .delimiter _ => token.span.start = offset
      | _ => false).map fun slot => (⟨i⟩, slot)

open OperatorPath

namespace Grouping

/-- The operators in the lists of all nodes. -/
def operators (table : RuleSetTable) (forest : Forest) : List OperatorPath :=
  (List.range forest.nodes.size).flatMap fun i =>
    (forest.tokens ⟨i⟩).toList.filterMap (ofToken? table [] [] (forest.depth ⟨i⟩ + 1))

/-- Groups an operator where its offset is found. -/
def takeByOffset (table : RuleSetTable) (grouping : Grouping) (op : OperatorPath) : Grouping :=
  match grouping.forest.locate? op.offset with
  | none => grouping
  | some (owner, slot) => grouping.groupOperator table owner slot op

variable {table : RuleSetTable} {grouping : Grouping}

section Location

variable {forest : Forest} {owner : NodeId} {slot : Nat} {token : Token}

/-- A delimiter is found by its offset. -/
theorem locate?_eq_some (hd : forest.Separate) (htoken : forest.token? owner slot = some token)
    (hdelimiter : token.IsDelimiter) :
    forest.locate? token.span.start = some (owner, slot) := by
  obtain ⟨delimiter, hkind⟩ := hdelimiter
  cases hlocate : forest.locate? token.span.start with
  | none =>
      have hindex := List.mem_range.mpr (forest.index_lt_of_token? htoken)
      unfold Forest.locate? at hlocate
      have hnone := List.findSome?_eq_none_iff.mp hlocate owner.index hindex
      rw [Option.map_eq_none_iff, List.findIdx?_eq_none_iff] at hnone
      have hfalse := hnone token (Forest.mem_tokenList_of_token? htoken)
      simp only [hkind, decide_true] at hfalse
      cases hfalse
  | some place =>
      unfold Forest.locate? at hlocate
      obtain ⟨i, -, hi⟩ := List.exists_of_findSome?_eq_some hlocate
      obtain ⟨j, hj, rfl⟩ := Option.map_eq_some_iff.mp hi
      obtain ⟨hlt, hat, -⟩ := List.findIdx?_eq_some_iff_getElem.mp hj
      have hfound : forest.token? ⟨i⟩ j = some (forest.tokens ⟨i⟩).toList[j] := by
        rw [← Forest.getElem?_tokenList]
        exact List.getElem?_eq_getElem hlt
      split at hat
      · rename_i delimiter' hkind'
        obtain ⟨hnode, rfl⟩ := hd.place_eq hfound htoken ⟨delimiter', hkind'⟩
          ⟨delimiter, hkind⟩ (of_decide_eq_true hat)
        rw [hnode]
      · cases hat

/-- An operator that stands in a slot is grouped there. -/
theorem takeByOffset_eq (table : RuleSetTable) (hs : grouping.Sound)
    (htoken : grouping.forest.token? owner slot = some token) (op : OperatorPath)
    (hkind : token.kind = .delimiter op.delimiter) (hoffset : token.span.start = op.offset) :
    takeByOffset table grouping op.unplaced = grouping.groupOperator table owner slot op := by
  unfold takeByOffset
  have hlocate := locate?_eq_some hs.separate htoken ⟨op.delimiter, hkind⟩
  rw [hoffset] at hlocate
  simp only [show op.unplaced.offset = op.offset from rfl, hlocate]
  rfl

end Location

section Rounds

/--
Following paths in order takes operators from the front of the queue, and at least one if
the first path can be followed.
-/
theorem takePaths_eq (paths : List OperatorPath) (hs : grouping.Sound)
    (hqueue : queue table grouping = paths.map unplaced) :
    ∃ k, (∀ path, paths.head? = some path → walk? grouping.forest path ≠ none → 0 < k) ∧
      takePaths table paths grouping =
        ((queue table grouping).take k).foldl (takeByOffset table) grouping ∧
      queue table (takePaths table paths grouping) = (queue table grouping).drop k ∧
      (takePaths table paths grouping).Sound := by
  induction paths generalizing grouping with
  | nil => exact ⟨0, by simp, rfl, rfl, hs⟩
  | cons path paths ih =>
      unfold takePaths
      split
      · rename_i hwalk
        refine ⟨0, ?_, rfl, rfl, hs⟩
        rintro _ ⟨⟩ hsome
        exact absurd hwalk hsome
      · rename_i owner slot hwalk
        obtain ⟨token, htoken, hkind, hoffset⟩ := token?_of_walk? hwalk
        have hstep : takeByOffset table grouping path.unplaced =
            grouping.groupOperator table owner slot path :=
          takeByOffset_eq table hs htoken path hkind hoffset
        rw [List.map_cons] at hqueue
        have hrest : queue table (grouping.groupOperator table owner slot path) =
            paths.map unplaced :=
          queue_groupOperator path.unplaced hs hqueue htoken hkind hoffset
        obtain ⟨k, -, htake, hdrop, hsound⟩ :=
          ih (sound_groupOperator table path hs htoken ⟨path.delimiter, hkind⟩) hrest
        refine ⟨k + 1, fun _ _ _ => Nat.succ_pos k, ?_, ?_, hsound⟩
        · rw [htake, hrest, hqueue, List.take_succ_cons, List.foldl_cons, hstep]
        · rw [hdrop, hrest, hqueue, List.drop_succ_cons]

/-- A path that has just been found can be followed. -/
theorem walk?_ne_none (table : RuleSetTable) (ha : grouping.forest.Arranged) {path : OperatorPath}
    (hmem : path ∈ findAll table grouping.finished grouping.forest) :
    walk? grouping.forest path ≠ none := by
  obtain ⟨owner, above, slot, token, hleads, htoken, hpath⟩ := (mem_findAll_iff ha.wellNested).mp hmem
  obtain ⟨id, op, precedence, hkind, -, -, rfl⟩ := ofToken?_eq_some.mp hpath
  rw [walk?_eq_some hleads htoken rfl hkind rfl]
  simp

/-- Rounds take the operators from the front of the queue, and at least one each. -/
theorem runRounds_eq (table : RuleSetTable) (hs : grouping.Sound) (count : Nat) :
    ∃ k, min count (queue table grouping).length ≤ k ∧
      runRounds table count grouping =
        ((queue table grouping).take k).foldl (takeByOffset table) grouping ∧
      queue table (runRounds table count grouping) = (queue table grouping).drop k := by
  induction count generalizing grouping with
  | zero => exact ⟨0, by simp, rfl, rfl⟩
  | succ count ih =>
      unfold runRounds
      split
      · rename_i hnone
        have hempty : queue table grouping = [] := queue_eq_nil_iff.mpr hnone
        exact ⟨0, by simp [hempty], rfl, rfl⟩
      · -- the first path has just been found, so that the round takes at least one operator
        obtain ⟨k, hpos, htake, hdrop, hsound⟩ := takePaths_eq
          (sort (findAll table grouping.finished grouping.forest)) hs rfl
        have hfirst : queue table grouping ≠ [] → 0 < k := by
          intro hne
          obtain ⟨path, paths, hpaths⟩ := List.exists_cons_of_ne_nil
            (fun h => hne (by rw [queue, h]; rfl) :
              sort (findAll table grouping.finished grouping.forest) ≠ [])
          refine hpos path (by rw [hpaths]; rfl) (walk?_ne_none table hs.arranged ?_)
          rw [← (perm_sort _).mem_iff, hpaths]
          exact List.mem_cons_self
        obtain ⟨m, hle, htake', hdrop'⟩ := ih hsound
        refine ⟨k + m, ?_, ?_, ?_⟩
        · rw [hdrop, List.length_drop] at hle
          by_cases hne : queue table grouping = []
          · simp [hne]
          · have hpos := hfirst hne
            omega
        · rw [htake', hdrop, List.take_add, List.foldl_append, ← htake]
        · rw [hdrop', hdrop, List.drop_drop]

/-- A run takes the whole queue. -/
theorem run_eq_queue (table : RuleSetTable) (hs : grouping.Sound) :
    run table grouping = (queue table grouping).foldl (takeByOffset table) grouping ∧
      findAll table (run table grouping).finished (run table grouping).forest = [] := by
  have hlength : (findAll table grouping.finished grouping.forest).length =
      (queue table grouping).length := by
    unfold queue
    rw [List.length_map, (perm_sort _).length_eq]
  obtain ⟨k, hle, htake, hdrop⟩ := runRounds_eq table hs
    (findAll table grouping.finished grouping.forest).length
  rw [hlength, Nat.min_self] at hle
  rw [List.take_of_length_le hle] at htake
  rw [List.drop_of_length_le hle] at hdrop
  exact ⟨htake, queue_eq_nil_iff.mp hdrop⟩

/-- What every step on the first operator of the queue keeps is kept by the whole run. -/
theorem run_induction {P : Grouping → Prop} (hsound : ∀ grouping, P grouping → grouping.Sound)
    (hstep : ∀ grouping owner slot token depth op ops, P grouping →
      queue table grouping = op :: ops → grouping.forest.token? owner slot = some token →
        ofToken? table grouping.finished [] depth token = some op →
          P (grouping.groupOperator table owner slot op))
    (h : P grouping) : P (run table grouping) := by
  rw [(run_eq_queue table (hsound _ h)).1]
  suffices hfold : ∀ ops grouping, P grouping → queue table grouping = ops →
      P (ops.foldl (takeByOffset table) grouping) from hfold _ grouping h rfl
  intro ops
  induction ops with
  | nil =>
      intro grouping h _
      exact h
  | cons op ops ih =>
      intro grouping h hqueue
      have hs := hsound grouping h
      obtain ⟨⟨owner, above, slot, token, -, htoken, hpath⟩, -⟩ := first_of_queue hs.arranged hqueue
      have hnext := hstep grouping owner slot token _ op ops h hqueue htoken hpath
      obtain ⟨id, o, precedence, hkind, -, -, rfl⟩ := ofToken?_eq_some.mp hpath
      have htake := takeByOffset_eq table hs htoken
        ⟨[], above.length + 1, token.span.start, id, o, precedence⟩ hkind rfl
      rw [List.foldl_cons]
      refine ih _ ?_ ?_
      · exact htake ▸ hnext
      · exact (congrArg (queue table) htake).trans
          (queue_groupOperator _ hs hqueue htoken hkind rfl)

end Rounds

section Operators

/-- With nothing finished the operators that are left are those in all lists. -/
theorem mem_operators_iff (ha : grouping.forest.Arranged) (hnone : grouping.finished = [])
    {op : OperatorPath} :
    op ∈ operators table grouping.forest ↔ Pending table grouping op := by
  unfold operators Pending
  rw [List.mem_flatMap, hnone]
  constructor
  · rintro ⟨i, -, hmem⟩
    obtain ⟨token, htoken, hpath⟩ := List.mem_filterMap.mp hmem
    obtain ⟨slot, hslot⟩ := Forest.exists_token?_of_mem htoken
    obtain ⟨above, hleads⟩ := ha.led ⟨i⟩ (grouping.forest.index_lt_of_token? hslot)
    rw [hleads.depth_eq ha] at hpath
    exact ⟨⟨i⟩, above, slot, token, hleads, hslot, hpath⟩
  · rintro ⟨owner, above, slot, token, hleads, htoken, hpath⟩
    refine ⟨owner.index, List.mem_range.mpr (hleads.index_lt ha.wellNested), ?_⟩
    refine List.mem_filterMap.mpr ⟨token, Forest.mem_tokenList_of_token? htoken, ?_⟩
    rw [hleads.depth_eq ha]
    exact hpath

/-- No operator is listed twice. -/
theorem nodup_operators {forest : Forest} (hd : forest.Separate) :
    (operators table forest).Nodup := by
  unfold operators
  have hof : ∀ {depth t p}, ofToken? table [] [] depth t = some p →
      t.IsDelimiter ∧ p.offset = t.span.start := by
    intro depth t p h
    obtain ⟨id, _, _, hkind, -, -, rfl⟩ := ofToken?_eq_some.mp h
    exact ⟨⟨id, hkind⟩, rfl⟩
  rw [List.nodup_flatMap]
  constructor
  · intro i _
    refine List.Pairwise.filterMap _ ?_ (hd.within ⟨i⟩)
    rintro s t hst p hp q hq rfl
    obtain ⟨hsd, hso⟩ := hof hp
    obtain ⟨htd, hto⟩ := hof hq
    exact hst hsd htd (hso.symm.trans hto)
  · refine List.Pairwise.imp ?_ List.nodup_range
    intro i j hij p hp hq
    obtain ⟨s, hs, hp⟩ := List.mem_filterMap.mp hp
    obtain ⟨t, ht, hq⟩ := List.mem_filterMap.mp hq
    obtain ⟨hsd, hso⟩ := hof hp
    obtain ⟨htd, hto⟩ := hof hq
    exact hij (congrArg NodeId.index
      (hd.across ⟨i⟩ ⟨j⟩ s t hs ht hsd htd (hso.symm.trans hto)))

/-- The queue at the start is the sorted list of all operators. -/
theorem sort_operators_eq (hs : grouping.Sound) (hnone : grouping.finished = []) :
    sort (operators table grouping.forest) = queue table grouping := by
  have hmem : ∀ p, p ∈ sort (operators table grouping.forest) ↔ Pending table grouping p := by
    intro p
    rw [(perm_sort _).mem_iff, mem_operators_iff hs.arranged hnone]
  refine eq_of_pairwise_precedes table hs (pairwise_sort _) (pairwise_queue _ _)
    ((perm_sort _).nodup_iff.mpr (nodup_operators hs.separate)) (nodup_queue table hs) ?_ ?_
  · intro p
    rw [hmem, mem_queue_iff hs.arranged]
  · intro p hp
    exact (hmem p).mp hp

/-- Operators whose lists are in order already are taken as they stand. -/
theorem run_eq_of_pairwise (hs : grouping.Sound) (hnone : grouping.finished = [])
    (horder : (operators table grouping.forest).Pairwise fun a b => a.precedes b = true) :
    run table grouping = (operators table grouping.forest).foldl (takeByOffset table) grouping := by
  rw [(run_eq_queue table hs).1, ← sort_operators_eq hs hnone, sort,
    List.mergeSort_of_pairwise horder]

end Operators

/-- A lexed forest whose operators are to be grouped. -/
def ofLexed (output : LexOutput) : Grouping :=
  { forest := output.forest, log := output.log }

theorem sound_ofLexed (input : LexInput) (calls : List LexCall) :
    (ofLexed (input.finish calls)).Sound :=
  ⟨(input.lexed_final calls).arranged, (input.lexed_final calls).separate⟩

/--
Grouping a lexed forest in rounds is the same as taking all its operators in order, each
where its offset is then found. No operator is left in the end, and after any number of
rounds those that are left are the last ones, in the same order.
-/
theorem run_eq_foldl (input : LexInput) (calls : List LexCall) (table : RuleSetTable) :
    run table (ofLexed (input.finish calls)) =
        (sort (operators table (input.finish calls).forest)).foldl (takeByOffset table)
          (ofLexed (input.finish calls)) ∧
      findAll table (run table (ofLexed (input.finish calls))).finished
        (run table (ofLexed (input.finish calls))).forest = [] ∧
      ∀ count, ∃ k, queue table (runRounds table count (ofLexed (input.finish calls))) =
        (sort (operators table (input.finish calls).forest)).drop k := by
  have hs := sound_ofLexed input calls
  have hsort : sort (operators table (input.finish calls).forest) =
      queue table (ofLexed (input.finish calls)) := sort_operators_eq hs rfl
  rw [hsort]
  obtain ⟨hrun, hempty⟩ := run_eq_queue table hs
  refine ⟨hrun, hempty, ?_⟩
  intro count
  obtain ⟨k, -, -, hdrop⟩ := runRounds_eq table hs count
  exact ⟨k, hdrop⟩

end Grouping
end ExprLang
