import ExprLang.Proofs.Grouping.Search
import ExprLang.Proofs.Grouping.Step

/-!
# The operators that are left

The operators of a forest that are not finished form a queue, in the order in which they
are taken. Grouping the first of them takes it out of the queue and leaves the others as
they are: the run that it takes may only hold deeper operators, and there are none left,
so no operator moves to another list or depth.

Main results:
* `mem_queue_iff`: what is in the queue;
* `pending_groupOperator`: what is pending after the first operator was grouped;
* `queue_groupOperator`: the queue after a step is the rest of the queue.
-/

namespace ExprLang

namespace Forest

variable {forest : Forest} {a b : NodeId} {i j : Nat} {s t : Token}

/-- A delimiter is told by its offset: it stands in one slot of one list. -/
theorem Separate.place_eq (hd : forest.Separate) (hs : forest.token? a i = some s)
    (ht : forest.token? b j = some t) (hsd : s.IsDelimiter) (htd : t.IsDelimiter)
    (heq : s.span.start = t.span.start) : a = b ∧ i = j := by
  obtain rfl := hd.across a b s t (mem_tokenList_of_token? hs) (mem_tokenList_of_token? ht)
    hsd htd heq
  refine ⟨rfl, ?_⟩
  rw [← getElem?_tokenList] at hs ht
  obtain ⟨hi, rfl⟩ := List.getElem?_eq_some_iff.mp hs
  obtain ⟨hj, rfl⟩ := List.getElem?_eq_some_iff.mp ht
  have hpairs := List.pairwise_iff_getElem.mp (hd.within a)
  rcases Nat.lt_trichotomy i j with hlt | heq' | hgt
  · exact absurd heq (hpairs i j hi hj hlt hsd htd)
  · exact heq'
  · exact absurd heq.symm (hpairs j i hj hi hgt htd hsd)

theorem Separate.eq_of_start (hd : forest.Separate) (hs : s ∈ forest.tokenList a)
    (ht : t ∈ forest.tokenList b) (hsd : s.IsDelimiter) (htd : t.IsDelimiter)
    (heq : s.span.start = t.span.start) : s = t := by
  obtain ⟨i, hi⟩ := exists_token?_of_mem hs
  obtain ⟨j, hj⟩ := exists_token?_of_mem ht
  obtain ⟨rfl, rfl⟩ := hd.place_eq hi hj hsd htd heq
  exact Option.some.inj (hi.symm.trans hj)

end Forest

namespace OperatorPath

/-- The path without its slots. -/
def unplaced (path : OperatorPath) : OperatorPath :=
  { path with slots := [] }

section Order

theorem precedes_iff {a b : OperatorPath} :
    a.precedes b = true ↔ b.depth < a.depth ∨ a.depth = b.depth ∧
      (a.precedence < b.precedence ∨ a.precedence = b.precedence ∧ b.offset ≤ a.offset) := by
  unfold precedes
  split
  · rw [decide_eq_true_iff]
    omega
  · split
    · rw [decide_eq_true_iff]
      omega
    · rw [decide_eq_true_iff]
      omega

theorem precedes_trans (a b c : OperatorPath) (hab : a.precedes b = true)
    (hbc : b.precedes c = true) : a.precedes c = true := by
  rw [precedes_iff] at hab hbc ⊢
  omega

theorem precedes_total (a b : OperatorPath) : (a.precedes b || b.precedes a) = true := by
  rw [Bool.or_eq_true, precedes_iff, precedes_iff]
  omega

/-- The order does not depend on slots. -/
theorem sort_map_unplaced (paths : List OperatorPath) :
    (sort paths).map unplaced = sort (paths.map unplaced) :=
  List.map_mergeSort fun _ _ _ _ => rfl

theorem pairwise_sort (paths : List OperatorPath) :
    (sort paths).Pairwise fun a b => a.precedes b = true :=
  List.pairwise_mergeSort precedes_trans precedes_total paths

theorem perm_sort (paths : List OperatorPath) : (sort paths).Perm paths :=
  List.mergeSort_perm paths _

end Order

end OperatorPath

open OperatorPath

namespace Grouping

/-- A forest whose operators can be told by their offsets. -/
structure Sound (grouping : Grouping) : Prop where
  arranged : grouping.forest.Arranged
  separate : grouping.forest.Separate

/-- An operator is left: a token in a list of the forest, which is not finished. -/
def Pending (table : RuleSetTable) (grouping : Grouping) (op : OperatorPath) : Prop :=
  ∃ owner above slot token, Forest.Leads grouping.forest above owner ∧
    grouping.forest.token? owner slot = some token ∧
      ofToken? table grouping.finished [] (above.length + 1) token = some op

/-- The operators that are left, in the order in which they are taken. -/
def queue (table : RuleSetTable) (grouping : Grouping) : List OperatorPath :=
  (sort (findAll table grouping.finished grouping.forest)).map unplaced

variable {table : RuleSetTable} {grouping : Grouping}

section Queue

theorem ofToken?_unplaced {finished : List Nat} (slots : List Nat) {depth : Nat} {token : Token} :
    (ofToken? table finished slots depth token).map unplaced =
      ofToken? table finished [] depth token := by
  unfold ofToken?
  split
  · split
    · rfl
    · cases (table.delimiter _).operator? with
      | none => rfl
      | some op => rfl
  · rfl

/-- A pending operator is a delimiter, and its path says where it starts. -/
theorem isDelimiter_of_ofToken? {finished slots : List Nat} {depth : Nat} {token : Token}
    {path : OperatorPath} (h : ofToken? table finished slots depth token = some path) :
    token.IsDelimiter ∧ path.offset = token.span.start ∧ path.depth = depth := by
  obtain ⟨id, op, precedence, hkind, -, -, rfl⟩ := ofToken?_eq_some.mp h
  exact ⟨⟨id, hkind⟩, rfl, rfl⟩

/-- Two operators with the same offset are the same. -/
theorem Pending.eq_of_offset (hs : grouping.Sound) {p q : OperatorPath}
    (hp : Pending table grouping p) (hq : Pending table grouping q)
    (heq : p.offset = q.offset) : p = q := by
  obtain ⟨owner, above, slot, token, hleads, htoken, hpath⟩ := hp
  obtain ⟨owner', above', slot', token', hleads', htoken', hpath'⟩ := hq
  obtain ⟨id, op, precedence, hkind, -, -, hp⟩ := ofToken?_eq_some.mp hpath
  obtain ⟨id', op', precedence', hkind', -, -, hq⟩ := ofToken?_eq_some.mp hpath'
  have hstart : token.span.start = token'.span.start := by
    rw [hp, hq] at heq
    exact heq
  obtain ⟨rfl, rfl⟩ := hs.separate.place_eq htoken htoken' ⟨id, hkind⟩ ⟨id', hkind'⟩ hstart
  obtain rfl : token = token' := Option.some.inj (htoken.symm.trans htoken')
  rw [hleads.unique hs.arranged.wellNested hleads'] at hpath
  exact Option.some.inj (hpath.symm.trans hpath')

/-- The queue holds what is pending. -/
theorem mem_queue_iff (ha : grouping.forest.Arranged) {op : OperatorPath} :
    op ∈ queue table grouping ↔ Pending table grouping op := by
  unfold queue Pending
  rw [List.mem_map]
  constructor
  · rintro ⟨path, hmem, rfl⟩
    rw [(perm_sort _).mem_iff, mem_findAll_iff ha.wellNested] at hmem
    obtain ⟨owner, above, slot, token, hleads, htoken, hpath⟩ := hmem
    refine ⟨owner, above, slot, token, hleads, htoken, ?_⟩
    rw [← ofToken?_unplaced (slot :: above), hpath]
    rfl
  · rintro ⟨owner, above, slot, token, hleads, htoken, hpath⟩
    rw [← ofToken?_unplaced (slot :: above)] at hpath
    obtain ⟨path, hfound, rfl⟩ := Option.map_eq_some_iff.mp hpath
    refine ⟨path, ?_, rfl⟩
    rw [(perm_sort _).mem_iff, mem_findAll_iff ha.wellNested]
    exact ⟨owner, above, slot, token, hleads, htoken, hfound⟩

/-- The queue is empty when nothing is found. -/
theorem queue_eq_nil_iff :
    queue table grouping = [] ↔ findAll table grouping.finished grouping.forest = [] := by
  unfold queue
  rw [List.map_eq_nil_iff]
  constructor
  · intro h
    exact List.Perm.eq_nil (h ▸ (perm_sort _).symm)
  · intro h
    rw [h]
    exact List.Perm.eq_nil (perm_sort [])

theorem pairwise_queue (table : RuleSetTable) (grouping : Grouping) :
    (queue table grouping).Pairwise fun a b => a.precedes b = true := by
  unfold queue
  rw [sort_map_unplaced]
  exact pairwise_sort _

/-- No operator is in the queue twice. -/
theorem nodup_queue (table : RuleSetTable) (hs : grouping.Sound) : (queue table grouping).Nodup := by
  unfold queue
  -- without their slots operators are still told apart by their offsets
  refine List.Nodup.map_on ?_ ((perm_sort _).nodup_iff.mpr (nodup_findAll _ _ _))
  intro p hp q hq heq
  rw [(perm_sort _).mem_iff, mem_findAll_iff hs.arranged.wellNested] at hp hq
  obtain ⟨owner, above, slot, token, hleads, htoken, hpath⟩ := hp
  obtain ⟨owner', above', slot', token', hleads', htoken', hpath'⟩ := hq
  obtain ⟨id, op, precedence, hkind, -, -, rfl⟩ := ofToken?_eq_some.mp hpath
  obtain ⟨id', op', precedence', hkind', -, -, rfl⟩ := ofToken?_eq_some.mp hpath'
  have hstart : token.span.start = token'.span.start := congrArg OperatorPath.offset heq
  obtain ⟨rfl, rfl⟩ := hs.separate.place_eq htoken htoken' ⟨id, hkind⟩ ⟨id', hkind'⟩ hstart
  obtain rfl : token = token' := Option.some.inj (htoken.symm.trans htoken')
  obtain rfl := hleads.unique hs.arranged.wellNested hleads'
  exact Option.some.inj (hpath.symm.trans hpath')

/-- Lists of pending operators in the same order are equal if they hold the same ones. -/
theorem eq_of_pairwise_precedes (table : RuleSetTable) (hs : grouping.Sound) {ps qs : List OperatorPath}
    (hps : ps.Pairwise fun a b => a.precedes b = true)
    (hqs : qs.Pairwise fun a b => a.precedes b = true) (hnodup : ps.Nodup) (hnodup' : qs.Nodup)
    (hmem : ∀ p, p ∈ ps ↔ p ∈ qs) (hpending : ∀ p ∈ ps, Pending table grouping p) : ps = qs := by
  refine List.Perm.eq_of_pairwise ?_ hps hqs ((List.perm_ext_iff_of_nodup hnodup hnodup').mpr hmem)
  intro a b ha hb hab hba
  refine (hpending a ha).eq_of_offset hs (hpending b ((hmem b).mpr hb)) ?_
  rw [precedes_iff] at hab hba
  omega

end Queue

section Step

variable {owner : NodeId} {slot : Nat} {token : Token} {op : OperatorPath}

theorem isRawOperator_of_ofToken?
    {finished slots : List Nat} {depth : Nat} {path : OperatorPath}
    (h : ofToken? table finished slots depth token = some path) :
    isRawOperator table token = true := by
  obtain ⟨id, op, precedence, hkind, -, hop, -⟩ := ofToken?_eq_some.mp h
  unfold isRawOperator Delimiter.isOperator
  rw [hkind]
  simp only
  rw [hop]
  rfl

/-- Grouping an operator keeps the forest sound. -/
theorem sound_groupOperator (table : RuleSetTable) (op : OperatorPath)
    (hs : grouping.Sound)
    (htoken : grouping.forest.token? owner slot = some token) (hdelimiter : token.IsDelimiter) :
    (grouping.groupOperator table owner slot op).Sound := by
  rcases groupOperator_cases table op hs.arranged.packed htoken hdelimiter with
    ⟨fault, heq⟩ | ⟨first, count, application, before, left, right, after, hc, -, heq⟩
  · rw [heq]
    exact ⟨hs.arranged, hs.separate⟩
  · rw [heq]
    exact ⟨hs.arranged.collapse hc, hs.separate.collapse hs.arranged.packed hc.toSplits⟩

/-- What is pending when an operator is finished. -/
theorem pending_finish {forest : Forest} {log : Log} {finished : List Nat} {offset : Nat}
    {p : OperatorPath} (log' : Log) :
    Pending table ⟨forest, log, offset :: finished⟩ p ↔
      Pending table ⟨forest, log', finished⟩ p ∧ p.offset ≠ offset := by
  unfold Pending
  constructor
  · rintro ⟨owner, above, slot, token, hleads, htoken, hpath⟩
    obtain ⟨id, op, precedence, hkind, hnot, hop, rfl⟩ := ofToken?_eq_some.mp hpath
    obtain ⟨hne, hnot⟩ := not_or.mp (List.mem_cons.not.mp hnot)
    refine ⟨⟨owner, above, slot, token, hleads, htoken, ?_⟩, hne⟩
    exact ofToken?_eq_some.mpr ⟨id, op, precedence, hkind, hnot, hop, rfl⟩
  · rintro ⟨⟨owner, above, slot, token, hleads, htoken, hpath⟩, hne⟩
    obtain ⟨id, op, precedence, hkind, hnot, hop, rfl⟩ := ofToken?_eq_some.mp hpath
    refine ⟨owner, above, slot, token, hleads, htoken, ?_⟩
    have hnot' : token.span.start ∉ offset :: finished :=
      List.mem_cons.not.mpr (not_or.mpr ⟨hne, hnot⟩)
    exact ofToken?_eq_some.mpr ⟨id, op, precedence, hkind, hnot', hop, rfl⟩

section Collapse

variable {first count : Nat} {application : OperatorApplication}
  {before left right after : List Token}

/--
An operator in a list that is not nested below the run keeps its depth. If no pending
operator is nested deeper than the run's owner, that is every list with one.
-/
theorem length_of_leads_collapse (hs : grouping.Sound)
    (hc : grouping.forest.Collapsible owner first count application.marker before left token right
      after) {above : List Nat} (howner : Forest.Leads grouping.forest above owner)
    {id : NodeId} {inner inner' : List Nat} (hleads : Forest.Leads grouping.forest inner id)
    (hleads' : Forest.Leads (grouping.forest.collapse owner first count application) inner' id)
    (hle : inner.length ≤ above.length) : inner'.length = inner.length := by
  obtain ⟨inner'', hleads'', hlength⟩ := howner.collapse hs.arranged hc hleads
  rw [hleads'.unique (hs.arranged.collapse hc).wellNested hleads'']
  omega

/-- What is pending after an operator took its run was pending before. -/
theorem pending_of_collapse (hs : grouping.Sound)
    (hc : grouping.forest.Collapsible owner first count application.marker before left token right
      after)
    (hraw : ∀ t ∈ left ++ right, isRawOperator table t = false) {above : List Nat}
    (howner : Forest.Leads grouping.forest above owner)
    (hdeepest : ∀ p, Pending table grouping p → p.depth ≤ above.length + 1) {p : OperatorPath}
    (hp : Pending table { grouping with
      forest := grouping.forest.collapse owner first count application } p) :
    Pending table grouping p := by
  have ha := hs.arranged
  obtain ⟨id, inner', slot', t, hleads', htoken', hpath⟩ := hp
  -- the token stood in the same list, at the same depth
  obtain ⟨hold, -⟩ := mem_tokenList_of_collapse ha.packed hs.separate hc hraw
    (isRawOperator_of_ofToken? hpath) (Forest.mem_tokenList_of_token? htoken')
  obtain ⟨inner, hleads⟩ := ha.led id (grouping.forest.index_lt_of_mem_tokenList hold)
  obtain ⟨slot, hslot⟩ := Forest.exists_token?_of_mem hold
  obtain ⟨delimiter, op, precedence, hkind, hnot, hop, hp⟩ := ofToken?_eq_some.mp hpath
  have hpending : Pending table grouping
      ⟨[], inner.length + 1, t.span.start, delimiter, op, precedence⟩ :=
    ⟨id, inner, slot, t, hleads, hslot,
      ofToken?_eq_some.mpr ⟨delimiter, op, precedence, hkind, hnot, hop, rfl⟩⟩
  have hle : inner.length + 1 ≤ above.length + 1 := hdeepest _ hpending
  rw [hp, length_of_leads_collapse hs hc howner hleads hleads' (by omega)]
  exact hpending

/-- The pending operators other than the one that took its run are left. -/
theorem pending_collapse (hs : grouping.Sound)
    (hc : grouping.forest.Collapsible owner first count application.marker before left token right
      after)
    (hraw : ∀ t ∈ left ++ right, isRawOperator table t = false) {above : List Nat}
    (howner : Forest.Leads grouping.forest above owner)
    (hdeepest : ∀ p, Pending table grouping p → p.depth ≤ above.length + 1) {p : OperatorPath}
    (hp : Pending table grouping p) (hne : p.offset ≠ token.span.start) :
    Pending table { grouping with
      forest := grouping.forest.collapse owner first count application } p := by
  have ha := hs.arranged
  have hsplits := hc.toSplits
  have hle := hdeepest p hp
  obtain ⟨id, inner, slot, t, hleads, htoken, hpath⟩ := hp
  obtain ⟨-, hoffset, hdepth⟩ := isDelimiter_of_ofToken? hpath
  obtain ⟨inner', hleads', -⟩ := howner.collapse ha hc hleads
  have hnew : t ∈ (grouping.forest.collapse owner first count application).tokenList id := by
    refine mem_tokenList_collapse_of_isRawOperator ha.packed hsplits hraw
      (isRawOperator_of_ofToken? hpath) ?_ (Forest.mem_tokenList_of_token? htoken)
    rintro rfl
    exact hne hoffset
  obtain ⟨slot', hslot'⟩ := Forest.exists_token?_of_mem hnew
  rw [← length_of_leads_collapse hs hc howner hleads hleads' (by omega)] at hpath
  exact ⟨id, inner', slot', t, hleads', hslot', hpath⟩

end Collapse

/-- Grouping an operator that no pending one is nested deeper than leaves all others pending. -/
theorem pending_groupOperator (hs : grouping.Sound) (hop : Pending table grouping op)
    (hdeepest : ∀ p, Pending table grouping p → p.depth ≤ op.depth)
    (htoken : grouping.forest.token? owner slot = some token)
    (hkind : token.kind = .delimiter op.delimiter) (hoffset : token.span.start = op.offset)
    (p : OperatorPath) :
    Pending table (grouping.groupOperator table owner slot op) p ↔
      Pending table grouping p ∧ p.offset ≠ op.offset := by
  have hdelimiter : token.IsDelimiter := ⟨op.delimiter, hkind⟩
  obtain ⟨owner', above, slot', token', hleads, htoken', hpath⟩ := hop
  obtain ⟨htd, hstart, hdepth⟩ := isDelimiter_of_ofToken? hpath
  obtain ⟨rfl, rfl⟩ := hs.separate.place_eq htoken htoken' hdelimiter htd (hoffset.trans hstart)
  rw [hdepth] at hdeepest
  rcases groupOperator_cases table op hs.arranged.packed htoken hdelimiter with
    ⟨fault, heq⟩ | ⟨first, count, application, before, left, right, after, hc, hraw, heq⟩
  · rw [heq]
    exact pending_finish grouping.log
  · rw [heq, pending_finish grouping.log]
    constructor
    · rintro ⟨hp, hne⟩
      exact ⟨pending_of_collapse hs hc hraw hleads hdeepest hp, hne⟩
    · rintro ⟨hp, hne⟩
      rw [← hoffset] at hne
      exact ⟨pending_collapse hs hc hraw hleads hdeepest hp hne, hoffset ▸ hne⟩

/-- The first operator of the queue is pending, and no pending one is nested deeper. -/
theorem first_of_queue (ha : grouping.forest.Arranged) {ops : List OperatorPath}
    (hqueue : queue table grouping = op :: ops) :
    Pending table grouping op ∧
      ∀ p, Pending table grouping p → p = op ∨ p ∈ ops ∧ op.precedes p = true := by
  have hsorted := pairwise_queue table grouping
  rw [hqueue] at hsorted
  constructor
  · rw [← mem_queue_iff ha, hqueue]
    exact List.mem_cons_self
  · intro p hp
    rw [← mem_queue_iff ha, hqueue] at hp
    rcases List.mem_cons.mp hp with rfl | hp
    · exact Or.inl rfl
    · exact Or.inr ⟨hp, (List.pairwise_cons.mp hsorted).1 p hp⟩

theorem depth_le_of_first {ops : List OperatorPath} {p : OperatorPath}
    (h : p = op ∨ p ∈ ops ∧ op.precedes p = true) : p.depth ≤ op.depth := by
  rcases h with rfl | ⟨-, h⟩
  · exact le_rfl
  · have hprecedes := precedes_iff.mp h
    omega

/-- Grouping the first operator of the queue leaves the rest of the queue. -/
theorem queue_groupOperator (op : OperatorPath) (hs : grouping.Sound) {ops : List OperatorPath}
    (hqueue : queue table grouping = op :: ops)
    (htoken : grouping.forest.token? owner slot = some token)
    (hkind : token.kind = .delimiter op.delimiter) (hoffset : token.span.start = op.offset) :
    queue table (grouping.groupOperator table owner slot op) = ops := by
  have hsound := sound_groupOperator table op hs htoken
    ⟨op.delimiter, hkind⟩
  have hsorted := pairwise_queue table grouping
  have hnodup := nodup_queue table hs
  rw [hqueue] at hsorted hnodup
  obtain ⟨-, hsorted⟩ := List.pairwise_cons.mp hsorted
  obtain ⟨hnot, hnodup⟩ := List.nodup_cons.mp hnodup
  have hmem : ∀ p, Pending table grouping p ↔ p ∈ op :: ops := by
    intro p
    rw [← hqueue, mem_queue_iff hs.arranged]
  obtain ⟨hop, hfirst⟩ := first_of_queue hs.arranged hqueue
  have hpending := pending_groupOperator hs hop (fun p hp => depth_le_of_first (hfirst p hp))
    htoken hkind hoffset
  have hrest : ∀ p, p ∈ queue table (grouping.groupOperator table owner slot op) ↔ p ∈ ops := by
    intro p
    rw [mem_queue_iff hsound.arranged, hpending, hmem, List.mem_cons]
    constructor
    · rintro ⟨rfl | hp, hne⟩
      · exact absurd rfl hne
      · exact hp
    · intro hp
      refine ⟨Or.inr hp, ?_⟩
      intro heq
      have hsame := ((hmem p).mpr (List.mem_cons_of_mem _ hp)).eq_of_offset hs
        ((hmem op).mpr List.mem_cons_self) heq
      exact hnot (hsame ▸ hp)
  refine eq_of_pairwise_precedes table hs (pairwise_queue _ _) hsorted
    (nodup_queue table hsound) hnodup hrest ?_
  intro p hp
  exact (hmem p).mpr (List.mem_cons_of_mem _ ((hrest p).mp hp))

end Step

end Grouping
end ExprLang
