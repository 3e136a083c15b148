import ExprLang.Proofs.Grouping.Order
import ExprLang.Proofs.Grouping.Row
import ExprLang.Proofs.Lexing.Coverage

/-!
# Chains of binary operators

A list that holds nothing but a chain between its markers ends up with one token in its
place, for a node in which the operators of the chain are nested as they bind. While the
operators of the forest are taken in order the list is a row of trees that are ordered
so far: an operator that is at the top of one of them was taken before those that are
left, so that it binds at least as tightly.

Main results:
* `Shows.collapse`: trees that were built stay as they are;
* `step_other`, `step_own`: what grouping the next operator does to the row, if it is not
  one of the chain, and if it is;
* `Grouped.run`: what is left of the row when all operators are taken;
* `group_chain`: the tree that a chain becomes.
-/

namespace ExprLang

open OperatorPath Grouping

/-- The token is a delimiter for a binary operator. -/
def Token.IsBinary (table : RuleSetTable) (token : Token) : Prop :=
  ∃ id op precedence, token.kind = .delimiter id ∧
    (table.delimiter id).operator? = some (op, precedence) ∧ op.shape = .binary

/-- The tier of an operator's delimiter. -/
def Token.precedence (table : RuleSetTable) (token : Token) : Nat :=
  match token.kind with
  | .delimiter id => ((table.delimiter id).operator?.map Prod.snd).getD 0
  | _ => 0

/--
A token stands for a tree: for an operand that is there already among the first `size`
nodes, or for a newer node, which has the operator and the two operands as its list.
-/
inductive Shows (table : RuleSetTable) (forest : Forest) (size : Nat) : Token → OperatorTree → Prop
  | operand (token : Token) (hraw : isRawOperator table token = false)
      (hold : ∀ id, token.kind = .node id → id.index < size) :
      Shows table forest size token (.operand token)
  | binary {left right : Token} {l r : OperatorTree} (operator : Token) (id : NodeId)
      (hnew : size ≤ id.index)
      (hlist : forest.tokenList id = [left, ⟨operator.span, .node id⟩, right])
      (hoperator : ∃ delimiter op precedence, operator.kind = .delimiter delimiter ∧
        (table.delimiter delimiter).operator? = some (op, precedence) ∧
          (forest.header id).operator = some op ∧ (forest.header id).source = some delimiter)
      (hleft : Shows table forest size left l) (hright : Shows table forest size right r) :
      Shows table forest size ⟨(forest.header id).span, .node id⟩ (.binary l operator r)

namespace Shows

variable {table : RuleSetTable} {forest : Forest} {size : Nat} {token : Token}
  {tree : OperatorTree}

/-- A token for a tree is no operator that is left. -/
theorem isRawOperator (h : Shows table forest size token tree) :
    Grouping.isRawOperator table token = false := by
  cases h with
  | operand _ hraw _ => exact hraw
  | binary _ _ _ _ _ _ _ => rfl

/-- What stands for a tree with an operator is a newer node. -/
theorem exists_node {operand : Token} {links : List (Token × Token)}
    (h : Shows table forest size token tree) (hreads : tree.inorder = chain operand links)
    (hne : links ≠ []) : ∃ id, token = ⟨(forest.header id).span, .node id⟩ := by
  cases h with
  | operand _ _ _ =>
      obtain ⟨link, links, rfl⟩ := List.exists_cons_of_ne_nil hne
      simp [OperatorTree.inorder, chain] at hreads
  | binary operator id _ _ _ _ _ => exact ⟨id, rfl⟩

/-- A collapse around another operator leaves the nodes of a tree as they are. -/
theorem collapse (hp : forest.Packed) {owner : NodeId} {first count : Nat}
    {application : OperatorApplication} {before left right after : List Token} {mark : Token}
    (hc : forest.Collapsible owner first count application.marker before left mark right after)
    (hmark : Grouping.isRawOperator table mark = true) (h : Shows table forest size token tree) :
    Shows table (forest.collapse owner first count application) size token tree := by
  have hs := hc.toSplits
  induction h with
  | operand token hraw hold => exact .operand token hraw hold
  | @binary l r tl tr operator id hnew hlist hoperator hleft hright ihLeft ihRight =>
      have hid : id.index < forest.nodes.size :=
        forest.index_lt_of_mem_tokenList (show l ∈ forest.tokenList id by rw [hlist]; simp)
      -- no token of the node's list is an operator that is left
      have hne : id ≠ owner := by
        rintro rfl
        have hmem := hs.mem_mark
        rw [hlist] at hmem
        simp only [List.mem_cons, List.not_mem_nil, or_false] at hmem
        rcases hmem with rfl | rfl | rfl
        · rw [hleft.isRawOperator] at hmark
          cases hmark
        · cases hmark
        · rw [hright.isRawOperator] at hmark
          cases hmark
      have hheader := Forest.header_collapse forest (Forest.nextId_ne_of_index_lt hid) hs.owner_lt
        first count application
      have hspan : ((forest.collapse owner first count application).header id).span =
          (forest.header id).span := by rw [hheader]
      rw [← hspan]
      refine .binary operator id hnew ?_ ?_ ihLeft ihRight
      · rw [Forest.tokenList_collapse_of_ne hp (hs.hasRun hp) (Forest.nextId_ne_of_index_lt hid) hne]
        exact hlist
      · rw [hheader]
        exact hoperator

end Shows

/-- A list with nothing but a chain between its markers, and what was there before grouping. -/
structure ChainSite where
  owner : NodeId
  front : List Token
  operand : Token
  links : List (Token × Token)
  back : List Token
  /-- Number of nodes. -/
  size : Nat
  /-- Entries of the log. -/
  entries : List Diagnostic
  owner_lt : owner.index < size
  markers : ∀ t ∈ front ++ back, t.kind = .node owner
  increasing : (chain operand links).Pairwise fun s t => s.span.start < t.span.start

namespace ChainSite

/-- How far a chain is grouped: the list is a row of ordered trees that reads as the chain. -/
structure Grouped (site : ChainSite) (table : RuleSetTable) (grouping : Grouping)
    (row : OperatorRow) : Prop where
  sound : grouping.Sound
  size_le : site.size ≤ grouping.forest.nodes.size
  list_eq : grouping.forest.tokenList site.owner = site.front ++ row.tokens ++ site.back
  inorder_eq : row.inorder = chain site.operand site.links
  shows : ∀ item ∈ row.items, Shows table grouping.forest site.size item.token item.tree
  operands : ∀ item ∈ row.items, item.token.IsOperand table site.owner
  ordered : ∀ item ∈ row.items, item.tree.Ordered (Token.precedence table)
  /-- An operator that is nested was taken before those that are left. -/
  earlier : ∀ item ∈ row.items, ∀ top ∈ item.tree.top?, ∀ op ∈ row.operators,
    top.precedence table < op.precedence table ∨
      top.precedence table = op.precedence table ∧ op.span.start < top.span.start
  binary : ∀ op ∈ row.operators, op.IsBinary table
  unfinished : ∀ op ∈ row.operators, op.span.start ∉ grouping.finished
  /-- An operator of the chain that is not left is not pending. -/
  taken : ∀ link ∈ site.links, link.1 ∈ row.operators ∨
    ∀ p, Pending table grouping p → p.offset ≠ link.1.span.start
  /-- No operator of the chain is reported. -/
  unreported : ∃ new, grouping.log.entries.toList = site.entries ++ new ∧
    ∀ d ∈ new, ∀ link ∈ site.links, d.span.start ≠ link.1.span.start

variable {site : ChainSite} {table : RuleSetTable} {grouping : Grouping} {row : OperatorRow}

namespace Grouped

theorem mem_list (h : site.Grouped table grouping row) {op : Token} (hop : op ∈ row.operators) :
    op ∈ grouping.forest.tokenList site.owner := by
  rw [h.list_eq]
  have hmem := OperatorRow.mem_tokens_of_mem_operators hop
  simp [hmem]

theorem isDelimiter (h : site.Grouped table grouping row) {op : Token}
    (hop : op ∈ row.operators) : op.IsDelimiter := by
  obtain ⟨id, -, -, hkind, -⟩ := h.binary op hop
  exact ⟨id, hkind⟩

/-- An operator that stands in the list of the chain is one of the row. -/
theorem mem_operators (h : site.Grouped table grouping row) {token : Token}
    (hmem : token ∈ grouping.forest.tokenList site.owner) (hdelimiter : token.IsDelimiter)
    (hraw : isRawOperator table token = true) : token ∈ row.operators := by
  have hmarker : ∀ t ∈ site.front ++ site.back, t ≠ token := by
    rintro t ht rfl
    exact Forest.not_isDelimiter_of_node (site.markers t ht) hdelimiter
  rw [h.list_eq] at hmem
  rcases List.mem_append.mp hmem with hmem | hback
  · rcases List.mem_append.mp hmem with hfront | hrow
    · exact absurd rfl (hmarker token (List.mem_append_left _ hfront))
    · rcases OperatorRow.mem_tokens hrow with ⟨item, hitem, rfl⟩ | hop
      · rw [(h.operands item hitem).grouped] at hraw
        cases hraw
      · exact hop
  · exact absurd rfl (hmarker token (List.mem_append_right _ hback))

/-- The operators of the row are pending. -/
theorem pending (h : site.Grouped table grouping row) {op : Token} (hop : op ∈ row.operators) :
    ∃ p, Pending table grouping p ∧ p.offset = op.span.start ∧
      p.precedence = op.precedence table ∧
        ∃ above, Forest.Leads grouping.forest above site.owner ∧ p.depth = above.length + 1 := by
  obtain ⟨above, hleads⟩ := h.sound.arranged.led site.owner
    (Nat.lt_of_lt_of_le site.owner_lt h.size_le)
  obtain ⟨id, o, precedence, hkind, hoperator, -⟩ := h.binary op hop
  obtain ⟨slot, hslot⟩ := Forest.exists_token?_of_mem (h.mem_list hop)
  refine ⟨⟨[], above.length + 1, op.span.start, id, o, precedence⟩, ?_, rfl, ?_, above, hleads, rfl⟩
  · exact ⟨site.owner, above, slot, op, hleads, hslot,
      ofToken?_eq_some.mpr ⟨id, o, precedence, hkind, h.unfinished op hop, hoperator, rfl⟩⟩
  · unfold Token.precedence
    rw [hkind]
    simp only
    rw [hoperator]
    rfl

section Step

variable {owner : NodeId} {slot : Nat} {token : Token} {op : OperatorPath}
  {ops : List OperatorPath}

/-- The operators of the chain that are not left stay so. -/
theorem taken_of_pending (h : site.Grouped table grouping row) (row' : OperatorRow)
    {grouping' : Grouping}
    (hpending : ∀ p, Pending table grouping' p → Pending table grouping p ∧ p.offset ≠ op.offset)
    (hleft : ∀ t ∈ row.operators, t.span.start = op.offset ∨ t ∈ row'.operators) :
    ∀ link ∈ site.links, link.1 ∈ row'.operators ∨
      ∀ p, Pending table grouping' p → p.offset ≠ link.1.span.start := by
  intro link hlink
  rcases h.taken link hlink with hmem | hgone
  · rcases hleft link.1 hmem with hstart | hmem
    · right
      intro p hp
      rw [hstart]
      exact (hpending p hp).2
    · exact Or.inl hmem
  · exact Or.inr fun p hp => hgone p (hpending p hp).1

/-- Grouping an operator of another list leaves the row as it is. -/
theorem step_other (h : site.Grouped table grouping row)
    (hqueue : queue table grouping = op :: ops)
    (htoken : grouping.forest.token? owner slot = some token)
    (hkind : token.kind = .delimiter op.delimiter) (hoffset : token.span.start = op.offset)
    (hraw : isRawOperator table token = true) (hnot : token ∉ row.operators) :
    site.Grouped table (grouping.groupOperator table owner slot op) row := by
  have hs := h.sound
  have hp := hs.arranged.packed
  have hdelimiter : token.IsDelimiter := ⟨op.delimiter, hkind⟩
  have hmem := Forest.mem_tokenList_of_token? htoken
  obtain ⟨hop, hfirst⟩ := first_of_queue hs.arranged hqueue
  have hpending := pending_groupOperator hs hop (fun p hp => depth_le_of_first (hfirst p hp))
    htoken hkind hoffset
  have hsound := sound_groupOperator table op hs htoken hdelimiter
  have hstart : ∀ t ∈ row.operators, t.span.start ≠ op.offset := by
    intro t ht heq
    have hsame := hs.separate.eq_of_start (h.mem_list ht) hmem (h.isDelimiter ht) hdelimiter
      (heq.trans hoffset.symm)
    exact hnot (hsame ▸ ht)
  have hunfinished : ∀ t ∈ row.operators, t.span.start ∉ op.offset :: grouping.finished := by
    intro t ht hfinished
    rcases List.mem_cons.mp hfinished with heq | hfinished
    · exact hstart t ht heq
    · exact h.unfinished t ht hfinished
  have htaken := h.taken_of_pending row (fun p hp => (hpending p).mp hp)
    fun t ht => Or.inr ht
  rcases groupOperator_cases table op hp htoken hdelimiter with
    ⟨fault, heq⟩ | ⟨first, count, application, before, left, right, after, hc, -, heq⟩
  · rw [heq] at hsound htaken ⊢
    refine ⟨hsound, h.size_le, h.list_eq, h.inorder_eq, h.shows, h.operands, h.ordered,
      h.earlier, h.binary, hunfinished, htaken, ?_⟩
    · -- the report is about an operator that is not one of the chain
      obtain ⟨new, hnew, hall⟩ := h.unreported
      refine ⟨new ++ [grouping.log.entry .structural token.span fault.message], ?_, ?_⟩
      · rw [Log.toList_report, hnew, List.append_assoc]
      · intro d hd link hlink
        rcases List.mem_append.mp hd with hd | hd
        · exact hall d hd link hlink
        · rw [List.mem_singleton.mp hd]
          show token.span.start ≠ link.1.span.start
          rcases h.taken link hlink with hleft | hgone
          · intro heq'
            exact hstart link.1 hleft (heq'.symm.trans hoffset)
          · rw [hoffset]
            exact hgone op hop
  · have hne : site.owner ≠ owner := by
      rintro rfl
      exact hnot (h.mem_operators hmem hdelimiter hraw)
    have hlt := Nat.lt_of_lt_of_le site.owner_lt h.size_le
    rw [heq] at hsound htaken ⊢
    refine ⟨hsound, ?_, ?_, h.inorder_eq, ?_, h.operands, h.ordered, h.earlier, h.binary,
      hunfinished, htaken, h.unreported⟩
    · simp only [Forest.size_collapse]
      exact Nat.le_succ_of_le h.size_le
    · rw [← h.list_eq]
      exact Forest.tokenList_collapse_of_ne hp (hc.toSplits.hasRun hp)
        (Forest.nextId_ne_of_index_lt hlt) hne
    · intro item hitem
      exact (h.shows item hitem).collapse hp hc hraw

/-- Joining two ordered trees by an operator that binds no tighter gives an ordered one. -/
theorem ordered_join (h : site.Grouped table grouping row) {token : Token}
    (hop : token ∈ row.operators) {left right new : OperatorItem} {joined : OperatorRow}
    {before after : List Token} (hj : row.Join token left right new joined before after) :
    (OperatorTree.binary left.tree token right.tree).Ordered (Token.precedence table) := by
  refine ⟨h.ordered left hj.left_mem, h.ordered right hj.right_mem, ?_, ?_⟩
  · intro top htop
    rcases h.earlier left hj.left_mem top htop token hop with hlt | ⟨-, hbehind⟩
    · exact hlt
    · -- what is on the left does not start behind the operator
      exfalso
      have hincreasing := site.increasing
      rw [← h.inorder_eq] at hincreasing
      have hpair := hincreasing.sublist hj.infix_inorder.sublist
      obtain ⟨-, -, hcross⟩ := List.pairwise_append.mp hpair
      have hlt := hcross top (OperatorTree.mem_inorder_of_top? htop) token List.mem_cons_self
      omega
  · intro top htop
    rcases h.earlier right hj.right_mem top htop token hop with hlt | ⟨heq, -⟩
    · exact Nat.le_of_lt hlt
    · exact Nat.le_of_eq heq

/-- The operator that is taken first binds at least as tightly as the others of the row. -/
theorem precedence_of_first (h : site.Grouped table grouping row)
    (hqueue : queue table grouping = op :: ops) (hoffset : token.span.start = op.offset)
    (hmem : token ∈ row.operators) {t : Token} (ht : t ∈ row.operators)
    (hne : token.span.start ≠ t.span.start) :
    token.precedence table < t.precedence table ∨
      token.precedence table = t.precedence table ∧ t.span.start < token.span.start := by
  obtain ⟨hop, hfirst⟩ := first_of_queue h.sound.arranged hqueue
  obtain ⟨p, hp, hpOffset, hpPrecedence, above, hleads, hpDepth⟩ := h.pending hmem
  obtain ⟨q, hq, hqOffset, hqPrecedence, above', hleads', hqDepth⟩ := h.pending ht
  obtain rfl : p = op := hp.eq_of_offset h.sound hop (hpOffset.trans hoffset)
  obtain rfl := hleads.unique h.sound.arranged.wellNested hleads'
  rcases hfirst q hq with rfl | ⟨-, hprecedes⟩
  · exact absurd (hpOffset.symm.trans hqOffset) hne
  · rw [precedes_iff] at hprecedes
    omega

/-- An operator of the row takes its two neighbours. -/
theorem exists_groupOperator_eq (h : site.Grouped table grouping row)
    (hop : Pending table grouping op)
    (htoken : grouping.forest.token? owner slot = some token)
    (hkind : token.kind = .delimiter op.delimiter) (hmem : token ∈ row.operators) :
    ∃ left right before after application,
      application.operator = op.operator ∧ application.delimiter = op.delimiter ∧
        (∀ new, ∃ joined, row.Join token left right new joined before after) ∧
        grouping.forest.Collapsible site.owner (site.front ++ before).length 3 application.marker
          (site.front ++ before) [left.token] token [right.token] (after ++ site.back) ∧
        grouping.groupOperator table owner slot op =
          { grouping with
            forest := grouping.forest.collapse site.owner (site.front ++ before).length 3
              application
            finished := op.offset :: grouping.finished } := by
  have hp := h.sound.arranged.packed
  have hdelimiter : token.IsDelimiter := ⟨op.delimiter, hkind⟩
  obtain ⟨left, right, before, after, hjoin⟩ := OperatorRow.exists_join hmem
  obtain ⟨hlist, hleft, hright⟩ : grouping.forest.tokenList site.owner =
      (site.front ++ before) ++ left.token :: token :: right.token :: (after ++ site.back) ∧
        left ∈ row.items ∧ right ∈ row.items := by
    obtain ⟨joined, hj⟩ := hjoin left
    refine ⟨?_, hj.left_mem, hj.right_mem⟩
    rw [h.list_eq, hj.tokens_eq]
    simp
  have hc : grouping.forest.Collapsible site.owner (site.front ++ before).length 3 1
      (site.front ++ before) [left.token] token [right.token] (after ++ site.back) := by
    refine ⟨⟨by rw [hlist]; simp, rfl, rfl, rfl⟩, hdelimiter, ?_⟩
    intro t ht
    simp only [List.mem_append, List.mem_cons, List.not_mem_nil, or_false] at ht
    rcases ht with rfl | rfl
    · exact (h.operands left hleft).unmarked
    · exact (h.operands right hright).unmarked
  -- the operator stands in one slot only, so that this is the one that is grouped
  obtain ⟨rfl, rfl⟩ := h.sound.separate.place_eq htoken hc.toSplits.token?_mark hdelimiter
    hdelimiter rfl
  have hshape : op.operator.shape = .binary := by
    obtain ⟨_, _, _, token', _, htoken', hpath⟩ := hop
    obtain ⟨id, o, precedence, -, -, ho, rfl⟩ := ofToken?_eq_some.mp hpath
    obtain ⟨id', o', precedence', hkind', ho', hshape⟩ := h.binary token hmem
    obtain rfl : id = id' := TokenKind.delimiter.inj (hkind.symm.trans hkind')
    obtain ⟨rfl, rfl⟩ := Prod.mk.inj (Option.some.inj (ho.symm.trans ho'))
    exact hshape
  obtain ⟨application, hoperator, hdelim, hmarker, heq⟩ := groupOperator_of_binary table hp hshape
    hlist (h.operands left hleft) (h.operands right hright)
  rw [← hmarker] at hc
  exact ⟨left, right, before, after, application, hoperator, hdelim, hjoin, hc, heq⟩

/-- The node that an operator makes of its two neighbours shows their trees joined by it. -/
theorem shows_join (h : site.Grouped table grouping row) (hop : Pending table grouping op)
    (hkind : token.kind = .delimiter op.delimiter) {left right : OperatorItem}
    {first : Nat} {application : OperatorApplication} {before after : List Token}
    (hoperator : application.operator = op.operator)
    (hdelimiter : application.delimiter = op.delimiter)
    (hc : grouping.forest.Collapsible site.owner first 3 application.marker before [left.token]
      token [right.token] after)
    (hleft : Shows table (grouping.forest.collapse site.owner first 3 application) site.size
      left.token left.tree)
    (hright : Shows table (grouping.forest.collapse site.owner first 3 application) site.size
      right.token right.tree) :
    Shows table (grouping.forest.collapse site.owner first 3 application) site.size
      (grouping.forest.collapsedToken site.owner first 3 application)
      (.binary left.tree token right.tree) := by
  have hlt := Nat.lt_of_lt_of_le site.owner_lt h.size_le
  have hheader := Forest.header_collapse_nextId grouping.forest hlt first 3 application
  have hspan := congrArg NodeHeader.span hheader
  have hlist := Forest.tokenList_collapse_nextId h.sound.arranged.packed hc.toSplits
  obtain ⟨_, _, _, _, _, _, hpath⟩ := hop
  obtain ⟨id, o, precedence, -, -, ho, rfl⟩ := ofToken?_eq_some.mp hpath
  unfold Forest.collapsedToken
  simp only at hspan hoperator hdelimiter hkind ⊢
  rw [← hspan]
  refine .binary token _ h.size_le hlist ?_ hleft hright
  rw [hheader]
  exact ⟨id, o, precedence, hkind, ho, by rw [hoperator], by rw [hdelimiter]⟩

/-- The operators that are left stand beside the run of the one that is taken. -/
theorem start_ne_join (h : site.Grouped table grouping row) {left right : OperatorItem}
    {tree : OperatorTree} {joined : OperatorRow} {application : OperatorApplication}
    {before after : List Token}
    (hc : grouping.forest.Collapsible site.owner (site.front ++ before).length 3
      application.marker (site.front ++ before) [left.token] token [right.token]
      (after ++ site.back))
    (hj : row.Join token left right
      ⟨grouping.forest.collapsedToken site.owner (site.front ++ before).length 3 application, tree⟩
      joined before after)
    {t : Token} (ht : t ∈ joined.operators) : token.span.start ≠ t.span.start := by
  have htd := h.isDelimiter (hj.mem_operators t ht)
  have hrest : t ∈ before ++ after := by
    rcases hj.mem_rest ht with heq | hrest
    · rw [heq] at htd
      exact absurd htd Forest.not_isDelimiter_collapsedToken
    · exact hrest
  refine h.sound.separate.start_ne hc.toSplits (by simp) ?_ hc.mark_delimiter htd
  simp only [List.mem_append] at hrest ⊢
  tauto

/-- Grouping an operator of the row joins its two neighbours. -/
theorem step_own (h : site.Grouped table grouping row)
    (hqueue : queue table grouping = op :: ops)
    (htoken : grouping.forest.token? owner slot = some token)
    (hkind : token.kind = .delimiter op.delimiter) (hoffset : token.span.start = op.offset)
    (hraw : isRawOperator table token = true) (hmem : token ∈ row.operators) :
    ∃ joined, site.Grouped table (grouping.groupOperator table owner slot op) joined := by
  have hs := h.sound
  have hp := hs.arranged.packed
  have hdelimiter : token.IsDelimiter := ⟨op.delimiter, hkind⟩
  have hlt := Nat.lt_of_lt_of_le site.owner_lt h.size_le
  obtain ⟨hop, hfirst⟩ := first_of_queue hs.arranged hqueue
  have hpending := pending_groupOperator hs hop (fun p hp => depth_le_of_first (hfirst p hp))
    htoken hkind hoffset
  have hsound := sound_groupOperator table op hs htoken hdelimiter
  obtain ⟨left, right, before, after, application, hoperator, hdelim, hjoin, hc, heq⟩ :=
    h.exists_groupOperator_eq hop htoken hkind hmem
  obtain ⟨joined, hj⟩ := hjoin
    ⟨grouping.forest.collapsedToken site.owner (site.front ++ before).length 3 application,
      .binary left.tree token right.tree⟩
  have hshows : ∀ item ∈ row.items, Shows table (grouping.forest.collapse site.owner
      (site.front ++ before).length 3 application) site.size item.token item.tree :=
    fun item hitem => (h.shows item hitem).collapse hp hc hraw
  have htaken := h.taken_of_pending joined (fun p hp => (hpending p).mp hp) (by
    intro t ht
    rcases hj.operators_joined t ht with rfl | ht
    · exact Or.inl hoffset
    · exact Or.inr ht)
  -- the new node takes the place of the two neighbours, all other items are as they were
  refine ⟨joined, ?_⟩
  rw [heq] at hsound htaken ⊢
  refine ⟨hsound, ?_, ?_, ?_, ?_, ?_, ?_, ?_, ?_, ?_, htaken, h.unreported⟩
  · simp only [Forest.size_collapse]
    exact Nat.le_succ_of_le h.size_le
  · simp only
    rw [Forest.tokenList_collapse_owner hp hc.toSplits, hj.tokens_joined]
    simp [Forest.collapsedToken]
  · rw [← h.inorder_eq]
    exact hj.inorder_joined rfl
  · intro item hitem
    rcases hj.items_joined item hitem with rfl | hitem
    · exact h.shows_join hop hkind hoperator hdelim hc (hshows left hj.left_mem)
        (hshows right hj.right_mem)
    · exact hshows item hitem
  · intro item hitem
    rcases hj.items_joined item hitem with rfl | hitem
    · refine ⟨?_, rfl, rfl⟩
      intro hnode
      exact Forest.nextId_ne_of_index_lt hlt (TokenKind.node.inj hnode).symm
    · exact h.operands item hitem
  · intro item hitem
    rcases hj.items_joined item hitem with rfl | hitem
    · exact h.ordered_join hmem hj
    · exact h.ordered item hitem
  · intro item hitem top htop t ht
    have htOld := hj.mem_operators t ht
    rcases hj.items_joined item hitem with rfl | hitem
    · obtain rfl : token = top := Option.some.inj htop
      exact h.precedence_of_first hqueue hoffset hmem htOld (h.start_ne_join hc hj ht)
    · exact h.earlier item hitem top htop t htOld
  · intro t ht
    exact h.binary t (hj.mem_operators t ht)
  · intro t ht hfinished
    rcases List.mem_cons.mp hfinished with heq' | hfinished
    · exact h.start_ne_join hc hj ht (hoffset.trans heq'.symm)
    · exact h.unfinished t (hj.mem_operators t ht) hfinished

end Step

/-- When all operators are taken none is left in the row. -/
theorem final (h : site.Grouped table grouping row) :
    ∃ row', site.Grouped table (Grouping.run table grouping) row' ∧ row'.operators = [] := by
  have hrun : ∃ row', site.Grouped table (Grouping.run table grouping) row' := by
    refine run_induction (P := fun g => ∃ row, site.Grouped table g row) ?_ ?_ ⟨row, h⟩
    · rintro g ⟨_, hg⟩
      exact hg.sound
    · rintro g owner slot token depth op ops ⟨row, hg⟩ hqueue htoken hpath
      have hraw := isRawOperator_of_ofToken? hpath
      obtain ⟨id, o, precedence, hkind, -, -, rfl⟩ := ofToken?_eq_some.mp hpath
      by_cases hmem : token ∈ row.operators
      · exact hg.step_own hqueue htoken hkind rfl hraw hmem
      · exact ⟨row, hg.step_other hqueue htoken hkind rfl hraw hmem⟩
  obtain ⟨row', hrow'⟩ := hrun
  refine ⟨row', hrow', List.eq_nil_iff_forall_not_mem.mpr ?_⟩
  intro t ht
  obtain ⟨p, hp, -⟩ := hrow'.pending ht
  rw [← mem_queue_iff hrow'.sound.arranged,
    queue_eq_nil_iff.mpr (run_eq_queue table h.sound).2] at hp
  cases hp

/-- A run leaves one token in the place of the chain, for an ordered tree. -/
theorem run (h : site.Grouped table grouping row) :
    ∃ token tree,
      (Grouping.run table grouping).forest.tokenList site.owner =
        site.front ++ token :: site.back ∧
      Shows table (Grouping.run table grouping).forest site.size token tree ∧
      tree.inorder = chain site.operand site.links ∧ tree.Ordered (Token.precedence table) ∧
      ∃ new, (Grouping.run table grouping).log.entries.toList = site.entries ++ new ∧
        ∀ d ∈ new, ∀ link ∈ site.links, d.span.start ≠ link.1.span.start := by
  obtain ⟨⟨⟨token, tree⟩, rest⟩, hgrouped, hnone⟩ := h.final
  obtain ⟨htokens, hinorder⟩ := OperatorRow.eq_of_operators_eq_nil hnone
  have hlist := hgrouped.list_eq
  rw [htokens, List.append_assoc] at hlist
  exact ⟨token, tree, hlist, hgrouped.shows ⟨token, tree⟩ List.mem_cons_self,
    hinorder.symm.trans hgrouped.inorder_eq, hgrouped.ordered ⟨token, tree⟩ List.mem_cons_self,
    hgrouped.unreported⟩

end Grouped

/-- At the start every operand of the chain stands for itself. -/
theorem grouped_start (hs : grouping.Sound) (hsize : site.size = grouping.forest.nodes.size)
    (hentries : site.entries = grouping.log.entries.toList)
    (hlist : grouping.forest.tokenList site.owner =
      site.front ++ chain site.operand site.links ++ site.back)
    (hnone : grouping.finished = [])
    (hoperators : ∀ link ∈ site.links, link.1.IsBinary table)
    (hoperands : ∀ t ∈ site.operand :: site.links.map Prod.snd, t.IsOperand table site.owner) :
    site.Grouped table grouping (.ofChain site.operand site.links) := by
  have hmem : ∀ t ∈ site.operand :: site.links.map Prod.snd,
      t ∈ grouping.forest.tokenList site.owner := by
    intro t ht
    rw [hlist]
    refine List.mem_append_left _ (List.mem_append_right _ ?_)
    rcases List.mem_cons.mp ht with rfl | ht
    · exact List.mem_cons_self
    · obtain ⟨link, hlink, rfl⟩ := List.mem_map.mp ht
      refine List.mem_cons_of_mem _ (List.mem_flatMap.mpr ⟨link, hlink, ?_⟩)
      simp
  refine ⟨hs, Nat.le_of_eq hsize, ?_, ?_, ?_, ?_, ?_, ?_, ?_, ?_, ?_, ?_⟩
  · rw [OperatorRow.tokens_ofChain]
    exact hlist
  · exact OperatorRow.inorder_ofChain _ _
  · intro item hitem
    obtain ⟨htoken, htree⟩ := OperatorRow.tree_of_mem_items_ofChain hitem
    have hoperand := hoperands item.token htoken
    rw [htree]
    refine .operand item.token hoperand.grouped ?_
    intro id hkind
    rw [hsize]
    refine (hs.arranged.nested site.owner item.token id (hmem _ htoken) hkind ?_).1
    rintro rfl
    exact hoperand.unmarked hkind
  · intro item hitem
    exact hoperands item.token (OperatorRow.tree_of_mem_items_ofChain hitem).1
  · intro item hitem
    rw [(OperatorRow.tree_of_mem_items_ofChain hitem).2]
    trivial
  · intro item hitem top htop
    rw [(OperatorRow.tree_of_mem_items_ofChain hitem).2] at htop
    cases htop
  · intro op hop
    rw [OperatorRow.operators_ofChain] at hop
    obtain ⟨link, hlink, rfl⟩ := List.mem_map.mp hop
    exact hoperators link hlink
  · intro op _
    rw [hnone]
    exact List.not_mem_nil
  · intro link hlink
    left
    rw [OperatorRow.operators_ofChain]
    exact List.mem_map_of_mem hlink
  · exact ⟨[], by simp [hentries], by simp⟩

end ChainSite

namespace LexInput

/-- The tokens of a list in a lexed forest start in strictly increasing order. -/
theorem pairwise_start_lt (input : LexInput) (calls : List LexCall) {owner : NodeId}
    (howner : owner.index < (input.finish calls).forest.nodes.size) :
    ((input.finish calls).forest.tokenList owner).Pairwise fun s t =>
      s.span.start < t.span.start := by
  have hcovers := (input.lexed_final calls).covers howner
  refine hcovers.ordered.imp_of_mem ?_
  intro s t hs _ hle
  exact Nat.lt_of_lt_of_le (hcovers.nonempty s hs) hle

/-- A list of a lexed forest that is a chain without its markers is the site of the chain. -/
theorem exists_chainSite (input : LexInput) (calls : List LexCall) {owner : NodeId}
    {operand : Token} {links : List (Token × Token)}
    (hlist : ((input.finish calls).forest.tokenList owner).filter
      (fun token => !token.isMarkerOf owner) = chain operand links) :
    ∃ site : ChainSite, site.owner = owner ∧ site.operand = operand ∧ site.links = links ∧
      site.size = (input.finish calls).forest.nodes.size ∧
      site.entries = (input.finish calls).log.entries.toList ∧
      (input.finish calls).forest.tokenList owner =
        site.front ++ chain operand links ++ site.back := by
  obtain ⟨front, back, hsplit, hmarkers⟩ :=
    ((input.lexed_final calls).bracketed owner).eq_append_filter
  have hsplit : (input.finish calls).forest.tokenList owner =
      front ++ chain operand links ++ back := hlist ▸ hsplit
  have howner : owner.index < (input.finish calls).forest.nodes.size := by
    refine Forest.index_lt_of_mem_tokenList _ (show operand ∈ _ from ?_)
    rw [hsplit]
    simp [chain]
  have hincreasing : (chain operand links).Pairwise fun s t => s.span.start < t.span.start := by
    have hpair := input.pairwise_start_lt calls howner
    rw [hsplit, List.append_assoc] at hpair
    exact (List.pairwise_append.mp (List.pairwise_append.mp hpair).2.1).1
  exact ⟨⟨owner, front, operand, links, back, _, _, howner, hmarkers, hincreasing⟩, rfl, rfl, rfl,
    rfl, rfl, hsplit⟩

/--
A list of a lexed forest with nothing but a chain between its markers. Grouping puts one
token in the place of the chain. It stands for the only ordered tree that reads as the
chain, and no operator of the chain is reported.
-/
theorem group_chain (input : LexInput) (calls : List LexCall) (table : RuleSetTable)
    (owner : NodeId) (operand : Token) (links : List (Token × Token))
    (hlist : ((input.finish calls).forest.tokenList owner).filter
      (fun token => !token.isMarkerOf owner) = chain operand links)
    (hne : links ≠ []) (hoperators : ∀ link ∈ links, link.1.IsBinary table)
    (hoperands : ∀ token ∈ operand :: links.map Prod.snd, token.IsOperand table owner) :
    ∃ front back id tree,
      (input.finish calls).forest.tokenList owner = front ++ chain operand links ++ back ∧
      (∀ token ∈ front ++ back, token.kind = .node owner) ∧
      ((input.finish calls).group table).forest.tokenList owner = front ++
        ⟨(((input.finish calls).group table).forest.header id).span, .node id⟩ :: back ∧
      Shows table ((input.finish calls).group table).forest
        (input.finish calls).forest.nodes.size
        ⟨(((input.finish calls).group table).forest.header id).span, .node id⟩ tree ∧
      tree.inorder = chain operand links ∧ tree.Ordered (Token.precedence table) ∧
      (∀ other : OperatorTree, other.inorder = chain operand links →
        other.Ordered (Token.precedence table) → other = tree) ∧
      ∃ new, ((input.finish calls).group table).log.entries.toList =
          (input.finish calls).log.entries.toList ++ new ∧
        ∀ d ∈ new, ∀ link ∈ links, d.span.start ≠ link.1.span.start := by
  obtain ⟨site, rfl, rfl, rfl, hsize, hentries, hsplit⟩ := input.exists_chainSite calls hlist
  have hstart : site.Grouped table (ofLexed (input.finish calls))
      (.ofChain site.operand site.links) :=
    site.grouped_start (sound_ofLexed input calls) hsize hentries hsplit rfl hoperators hoperands
  obtain ⟨token, tree, hfinal, hshows, hreads, hordered, hunreported⟩ := hstart.run
  obtain ⟨id, rfl⟩ := hshows.exists_node hreads hne
  rw [hsize] at hshows
  rw [hentries] at hunreported
  refine ⟨site.front, site.back, id, tree, hsplit, site.markers, hfinal, hshows, hreads, hordered,
    ?_, hunreported⟩
  intro other hother hotherOrdered
  exact hotherOrdered.unique hordered (hother.trans hreads.symm)

/-- A grammar with a product and a sum. -/
def sumTable : RuleSetTable :=
  { delimiters := #[.ofOperator .multiply, .ofOperator .add]
    ruleSets := #[{
      name := "sum"
      delimiters := some [⟨0⟩, ⟨1⟩]
      slots := [('*', 0), ('+', 1)] }] }

/-- A sum with a product in it. -/
def sumInput : LexInput :=
  ⟨sumTable, .ofString "a+b*c", ⟨0⟩⟩

/-- In `a+b*c` the product is nested in the sum. -/
theorem group_chain_sum :
    ∃ front back id,
      ((sumInput.finish []).group sumTable).forest.tokenList Forest.root = front ++
        ⟨(((sumInput.finish []).group sumTable).forest.header id).span, .node id⟩ :: back ∧
      Shows sumTable ((sumInput.finish []).group sumTable).forest
        (sumInput.finish []).forest.nodes.size
        ⟨(((sumInput.finish []).group sumTable).forest.header id).span, .node id⟩
        (.binary (.operand ⟨⟨0, 1⟩, .text⟩) ⟨⟨1, 2⟩, .delimiter ⟨1⟩⟩
          (.binary (.operand ⟨⟨2, 3⟩, .text⟩) ⟨⟨3, 4⟩, .delimiter ⟨0⟩⟩
            (.operand ⟨⟨4, 5⟩, .text⟩))) := by
  have hoperators : ∀ link ∈ [((⟨⟨1, 2⟩, .delimiter ⟨1⟩⟩ : Token), (⟨⟨2, 3⟩, .text⟩ : Token)),
      (⟨⟨3, 4⟩, .delimiter ⟨0⟩⟩, ⟨⟨4, 5⟩, .text⟩)], link.1.IsBinary sumTable := by
    intro link hlink
    rcases List.mem_cons.mp hlink with rfl | hlink
    · exact ⟨⟨1⟩, .add, 40, rfl, rfl, rfl⟩
    · rw [List.mem_singleton.mp hlink]
      exact ⟨⟨0⟩, .multiply, 30, rfl, rfl, rfl⟩
  have hoperands : ∀ token ∈ [(⟨⟨0, 1⟩, .text⟩ : Token), ⟨⟨2, 3⟩, .text⟩, ⟨⟨4, 5⟩, .text⟩],
      token.IsOperand sumTable Forest.root := by
    intro token htoken
    have hkind : token.kind = .text := by
      simp only [List.mem_cons, List.not_mem_nil, or_false] at htoken
      rcases htoken with rfl | rfl | rfl
      · rfl
      · rfl
      · rfl
    refine ⟨by simp [hkind], ?_, ?_⟩
    · unfold isRawOperator
      rw [hkind]
    · unfold separatorText?
      rw [hkind]
  obtain ⟨front, back, id, tree, -, -, hlist, hshows, -, -, hunique, -⟩ :=
    group_chain sumInput [] sumTable Forest.root _ _ (by decide)
      (by decide) hoperators hoperands
  have htree := hunique
    (.binary (.operand ⟨⟨0, 1⟩, .text⟩) ⟨⟨1, 2⟩, .delimiter ⟨1⟩⟩
      (.binary (.operand ⟨⟨2, 3⟩, .text⟩) ⟨⟨3, 4⟩, .delimiter ⟨0⟩⟩
        (.operand ⟨⟨4, 5⟩, .text⟩))) rfl
    ⟨trivial, ⟨trivial, trivial, by rintro _ ⟨⟩, by rintro _ ⟨⟩⟩, by rintro _ ⟨⟩,
      by rintro _ ⟨⟩; decide⟩
  rw [← htree] at hshows
  exact ⟨front, back, id, hlist, hshows⟩

end LexInput
end ExprLang
