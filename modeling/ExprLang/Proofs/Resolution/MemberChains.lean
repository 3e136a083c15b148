import ExprLang.Host.Store
import ExprLang.Language
import ExprLang.Proofs.Grouping.Sides
import ExprLang.Proofs.Resolution.NodeTerms
import ExprLang.Proofs.Resolution.Parallel

/-!
# Member chains

Member operators in a row are grouped by how tightly they bind, which gives trees of every
shape. A chain is read in the order of the source all the same: its nodes are walked with a
stack on which the operands of a node lie around its operator, and what comes out is the
sequence of operands and operators that the tree spells from left to right. The value of the
chain is a left fold over this sequence.

Main definitions:
* `Forest.Spells`: the sequence that a tree of member operators spells;
* `ChainWalk`: the walk through such a tree;
* `Resolution.memberFold`: the value of a sequence, one look-up after the other.

Main results:
* `walk_of_spells`: the walk finds the sequence;
* `nodeTerm_of_spells`: so does the term of the node;
* `value_of_spells`: the value depends on the sequence alone.
-/

namespace ExprLang

/-- A member operator with the token behind it. -/
abbrev Segment := Operator × Token

/-- The link of a segment. -/
def Segment.link (segment : Segment) : Link :=
  ⟨segment.1, segment.2.span, decide (segment.2.kind = .text)⟩

/-- The last token of a sequence. -/
def lastToken (first : Token) (segments : List Segment) : Token :=
  (segments.map Prod.snd).getLastD first

@[simp]
theorem lastToken_append_cons (first second : Token) (segments more : List Segment)
    (op : Operator) :
    lastToken first (segments ++ (op, second) :: more) = lastToken second more := by
  simp [lastToken, List.getLast?_cons]

namespace Forest

section Sequences

variable (forest : Forest)

/-- The node of a member operator that a token stands for. -/
def memberNode? (token : Token) : Option NodeId :=
  token.node?.filter fun id => (forest.header id).operator.any Operator.isMember

/--
The operands and member operators below a token, from left to right: a first operand and the
segments behind it. No operand is itself the node of a member operator.
-/
inductive Spells : Token → Token → List Segment → Prop
  | operand {token : Token} (h : forest.memberNode? token = none) : Spells token token []
  | node {token left marker right first second : Token} {id : NodeId} {op : Operator}
      {segments more : List Segment} (hnode : forest.memberNode? token = some id)
      (hop : (forest.header id).operator = some op)
      (hlist : forest.tokenList id = [left, marker, right])
      (hleft : Spells left first segments) (hright : Spells right second more) :
      Spells token first (segments ++ (op, second) :: more)

/-- The token for a node in the list of its parent. -/
def nodeToken (id : NodeId) : Token :=
  ⟨(forest.header id).span, .node id⟩

/-- The term of a token that is no marker. -/
def operandTerm (token : Token) : Term :=
  match token.kind with
  | .text => .name token.span
  | .literal id => .literal token.span (forest.literal id)
  | .delimiter id => .delimiter token.span id
  | .node id => forest.nodeTerm id

variable {forest} {token : Token} {id : NodeId}

theorem memberNode?_eq_some :
    forest.memberNode? token = some id ↔
      token.kind = .node id ∧ ∃ op, (forest.header id).operator = some op ∧ op.isMember = true := by
  rw [memberNode?, Option.filter_eq_some_iff, Option.any_eq_true]
  have hnode : token.node? = some id ↔ token.kind = .node id := by
    unfold Token.node?
    cases token.kind <;> simp
  rw [hnode]

theorem memberNode?_eq_none :
    forest.memberNode? token = none ↔
      ∀ id op, token.kind = .node id → (forest.header id).operator = some op →
        op.isMember = false := by
  rw [Option.eq_none_iff_forall_ne_some]
  constructor
  · intro h id op hkind hop
    by_contra hmember
    exact h id (memberNode?_eq_some.mpr ⟨hkind, op, hop, by simpa using hmember⟩)
  · intro h id hid
    obtain ⟨hkind, op, hop, hmember⟩ := memberNode?_eq_some.mp hid
    rw [h id op hkind hop] at hmember
    cases hmember

end Sequences

end Forest

section Walks

/-- What is left to do on a walk through a tree of member operators. -/
inductive ChainItem where
  | visit (token : Token)
  | link (op : Operator)

/-- A walk through a tree of member operators. -/
structure ChainWalk where
  /-- What is left to do, the next item first. -/
  items : List ChainItem
  /-- The operands that were met. -/
  operands : List Token
  /-- The operators that were met. -/
  operators : List Operator

namespace ChainWalk

variable (forest : Forest)

/-- The operands of a node around its operator. -/
def around (id : NodeId) : List ChainItem :=
  match (forest.header id).operator, forest.tokenList id with
  | some op, [left, _, right] => [.visit left, .link op, .visit right]
  | _, _ => []

/-- The next item of a walk; the node of a member operator is taken apart on the stack. -/
def next (walk : ChainWalk) : ChainWalk :=
  match walk.items with
  | [] => walk
  | .link op :: rest => { walk with items := rest, operators := walk.operators ++ [op] }
  | .visit token :: rest =>
      match forest.memberNode? token with
      | some id => { walk with items := around forest id ++ rest }
      | none => { walk with items := rest, operands := walk.operands ++ [token] }

/-- A walk that starts with the operands of a node. -/
def start (id : NodeId) : ChainWalk :=
  ⟨around forest id, [], []⟩

/-- The sequence that was met: the first operand, and each operator with the next operand. -/
def sequence? (walk : ChainWalk) : Option (Token × List Segment) :=
  walk.operands.head?.map fun first => (first, walk.operators.zip walk.operands.tail)

end ChainWalk

variable {forest : Forest} {token first : Token} {segments : List Segment}

/-- A token takes as many steps as its tree has parts, and what is behind it stays. -/
theorem iterate_next_visit (h : forest.Spells token first segments) (rest : List ChainItem)
    (operands : List Token) (operators : List Operator) :
    (ChainWalk.next forest)^[3 * segments.length + 1]
        ⟨.visit token :: rest, operands, operators⟩ =
      ⟨rest, operands ++ first :: segments.map Prod.snd,
        operators ++ segments.map Prod.fst⟩ := by
  induction h generalizing rest operands operators with
  | operand h => simp [ChainWalk.next, h]
  | @node token left marker right first second id op segments more hnode hop hlist _ _ ihl ihr =>
      have hsteps : 3 * (segments ++ (op, second) :: more).length + 1 =
          (3 * more.length + 1) + (1 + ((3 * segments.length + 1) + 1)) := by
        rw [List.length_append, List.length_cons]
        omega
      have hparts : ChainWalk.next forest ⟨.visit token :: rest, operands, operators⟩ =
          ⟨.visit left :: .link op :: .visit right :: rest, operands, operators⟩ := by
        simp [ChainWalk.next, ChainWalk.around, hnode, hop, hlist]
      rw [hsteps, Function.iterate_add_apply _ (3 * more.length + 1),
        Function.iterate_add_apply _ 1, Function.iterate_add_apply _ (3 * segments.length + 1),
        Function.iterate_one, hparts, ihl]
      exact (ihr rest _ _).trans (by simp)

/-- The walk through a tree ends, and finds the sequence that the tree spells. -/
theorem walk_of_spells {id : NodeId} (hnode : forest.memberNode? token = some id)
    (h : forest.Spells token first segments) :
    ((ChainWalk.next forest)^[3 * segments.length] (ChainWalk.start forest id)).items = [] ∧
      ((ChainWalk.next forest)^[3 * segments.length]
        (ChainWalk.start forest id)).sequence? = some (first, segments) := by
  have hwalk := iterate_next_visit h [] [] []
  have hstart : ChainWalk.next forest ⟨[.visit token], [], []⟩ = ChainWalk.start forest id := by
    simp [ChainWalk.next, ChainWalk.start, hnode]
  rw [Function.iterate_succ_apply, hstart] at hwalk
  rw [hwalk]
  exact ⟨rfl, congrArg (fun links => some (first, links)) (List.zip_of_prod rfl rfl).symm⟩

end Walks

section Terms

namespace Term

variable {span : Span} {op : Operator} {operands : List Term} {term : Term}

/-- The term of an operator has the span that it is given, and only members make chains. -/
theorem ofOperator?_eq_some_span (h : ofOperator? span op operands = some term) :
    term.span = span ∧ term.isName = false ∧
      (op.isMember = false → term.chainHead = term ∧ term.chainLinks = []) := by
  unfold ofOperator? at h
  split at h
  · obtain rfl := Option.some.inj h
    cases hmember : op.isMember with
    | true => exact ⟨rfl, rfl, fun h => nomatch h⟩
    | false => exact ⟨rfl, rfl, fun _ => ⟨rfl, rfl⟩⟩
  · obtain rfl := Option.some.inj h
    exact ⟨rfl, rfl, fun _ => ⟨rfl, rfl⟩⟩
  · obtain rfl := Option.some.inj h
    exact ⟨rfl, rfl, fun _ => ⟨rfl, rfl⟩⟩
  · obtain rfl := Option.some.inj h
    exact ⟨rfl, rfl, fun _ => ⟨rfl, rfl⟩⟩
  · cases h

end Term

namespace Forest

variable {forest : Forest} {token : Token} {id : NodeId}

/-- The term of a node has the span of the node, and only those of member operators are chains. -/
theorem nodeTerm_span (forest : Forest) (id : NodeId) :
    (forest.nodeTerm id).span = (forest.header id).span ∧ (forest.nodeTerm id).isName = false ∧
      ((∀ op, (forest.header id).operator = some op → op.isMember = false) →
        (forest.nodeTerm id).chainHead = forest.nodeTerm id ∧
          (forest.nodeTerm id).chainLinks = []) := by
  unfold nodeTerm Term.ofNode
  split
  · rename_i term hterm
    obtain ⟨op, hop, hterm⟩ := Option.bind_eq_some_iff.mp hterm
    obtain ⟨hspan, hname, hlinks⟩ := Term.ofOperator?_eq_some_span hterm
    exact ⟨hspan, hname, fun h => hlinks (h op hop)⟩
  · exact ⟨rfl, rfl, fun _ => ⟨rfl, rfl⟩⟩

/-- A token for a node covers what the node covers. -/
def Covers (forest : Forest) (token : Token) : Prop :=
  ∀ id, token.kind = .node id → token.span = (forest.header id).span

theorem operandTerm_isName : (forest.operandTerm token).isName = decide (token.kind = .text) := by
  unfold operandTerm
  split
  · rename_i hkind
    simp [hkind, Term.isName]
  · rename_i hkind
    simp [hkind, Term.isName]
  · rename_i hkind
    simp [hkind, Term.isName]
  · rename_i id hkind
    simp [hkind, (forest.nodeTerm_span id).2.1]

theorem operandTerm_span (h : forest.Covers token) :
    (forest.operandTerm token).span = token.span := by
  unfold operandTerm
  split
  · rfl
  · rfl
  · rfl
  · rename_i id hkind
    exact (forest.nodeTerm_span id).1.trans (h id hkind).symm

/-- An operand that is no node of a member operator is no chain. -/
theorem operandTerm_chain (h : forest.memberNode? token = none) :
    (forest.operandTerm token).chainHead = forest.operandTerm token ∧
      (forest.operandTerm token).chainLinks = [] := by
  unfold operandTerm
  split
  · exact ⟨rfl, rfl⟩
  · exact ⟨rfl, rfl⟩
  · exact ⟨rfl, rfl⟩
  · rename_i id hkind
    exact (forest.nodeTerm_span id).2.2 fun op hop => memberNode?_eq_none.mp h id op hkind hop

theorem tokenTerm?_eq_operandTerm {owner : NodeId} (h : token.kind ≠ .node owner) :
    forest.tokenTerm? owner token = some (forest.operandTerm token) := by
  unfold tokenTerm? operandTerm Term.ofToken?
  cases hkind : token.kind with
  | text => rfl
  | literal id => rfl
  | delimiter id => rfl
  | node id => exact if_neg fun hid => h (by rw [hkind, hid])

/-- The items of a node between two operands are their terms. -/
theorem itemTerms_of_sides {left marker right : Token} (ha : forest.Arranged)
    (hid : id.index < forest.nodes.size) (h : forest.HasSides id left marker right) :
    forest.itemTerms id = [forest.operandTerm left, forest.operandTerm right] := by
  have hmarker : marker.isMarkerOf id = true := by simp [Token.isMarkerOf, h.marker_eq]
  rw [itemTerms_eq ha hid, h.list_eq,
    List.filterMap_cons_some (tokenTerm?_eq_operandTerm h.left_ne),
    List.filterMap_cons_none (tokenTerm?_of_marker hmarker),
    List.filterMap_cons_some (tokenTerm?_eq_operandTerm h.right_ne), List.filterMap_nil]

/-- The term of a member operator joins those of its operands. -/
theorem nodeTerm_of_sides {left marker right : Token} {op : Operator} (ha : forest.Arranged)
    (hop : (forest.header id).operator = some op) (hmember : op.isMember = true)
    (h : forest.HasSides id left marker right) :
    forest.nodeTerm id =
      .member (forest.header id).span op (forest.operandTerm left) (forest.operandTerm right) := by
  have hnode : (forest.node id).operator = some op := hop
  unfold nodeTerm Term.ofNode
  rw [itemTerms_of_sides ha (index_lt_of_operator hop) h, hnode, Option.bind_some]
  simp only [Term.ofOperator?, op.shape_of_isMember hmember, hmember, if_true]

/-- What is read of a token is the sequence that its tree spells. -/
structure ReadsAs (forest : Forest) (token first : Token) (segments : List Segment) : Prop where
  head : (forest.operandTerm token).chainHead = forest.operandTerm first
  links : (forest.operandTerm token).chainLinks = segments.map Segment.link
  covers : forest.Covers first
  start : token.span.start = first.span.start
  stop : token.span.stop = (lastToken first segments).span.stop

/-- Every tree is read as the sequence that it spells, by induction on the tree. -/
theorem readsAs_of_spells {first : Token} {segments : List Segment} (ha : forest.Arranged)
    (hs : forest.Sided) (h : forest.Spells token first segments) (hcovers : forest.Covers token) :
    forest.ReadsAs token first segments := by
  induction h with
  | operand hnone =>
      obtain ⟨hhead, hlinks⟩ := operandTerm_chain hnone
      exact ⟨hhead, hlinks, hcovers, rfl, rfl⟩
  | @node token left marker right first second id op segments more hnode hop hlist _ _ ihl ihr =>
      obtain ⟨hkind, op', hop', hmember⟩ := memberNode?_eq_some.mp hnode
      obtain rfl : op = op' := Option.some.inj (hop.symm.trans hop')
      obtain ⟨left', marker', right', hsides⟩ := hs id op hop (op.shape_of_isMember hmember)
      obtain ⟨rfl, rfl, rfl⟩ : left = left' ∧ marker = marker' ∧ right = right' := by
        simpa using hlist.symm.trans hsides.list_eq
      have hleft : forest.Covers left := fun child hchild =>
        (ha.nested id left child (by simp [hlist]) hchild
          fun heq => hsides.left_ne (by rw [hchild, heq])).2.2
      have hright : forest.Covers right := fun child hchild =>
        (ha.nested id right child (by simp [hlist]) hchild
          fun heq => hsides.right_ne (by rw [hchild, heq])).2.2
      have hl := ihl hleft
      have hr := ihr hright
      have hterm : forest.operandTerm token =
          .member (forest.header id).span op (forest.operandTerm left)
            (forest.operandTerm right) := by
        rw [operandTerm, hkind]
        exact nodeTerm_of_sides ha hop hmember hsides
      have hspan := (hcovers id hkind).trans hsides.span_eq
      constructor
      · rw [hterm]
        exact hl.head
      · rw [hterm, Term.member, Term.chainLinks, hl.links, hr.head, hr.links,
          operandTerm_span hr.covers, operandTerm_isName, List.map_append, List.map_cons]
        rfl
      · exact hl.covers
      · rw [hspan]
        exact hl.start
      · rw [hspan, lastToken_append_cons]
        exact hr.stop

/-- The term of a tree of member operators: the sequence that it spells, as one chain. -/
theorem nodeTerm_of_spells {first : Token} {segments : List Segment} (ha : forest.Arranged)
    (hs : forest.Sided) (h : forest.Spells (forest.nodeToken id) first segments)
    (hne : segments ≠ []) :
    ∃ op, forest.nodeTerm id =
      .chain ⟨first.span.start, (lastToken first segments).span.stop⟩ op
        (forest.operandTerm first) (segments.map Segment.link) := by
  have hcovers : forest.Covers (forest.nodeToken id) := by
    intro child hchild
    rw [← TokenKind.node.inj hchild]
    rfl
  have hread := readsAs_of_spells ha hs h hcovers
  cases h with
  | operand => exact absurd rfl hne
  | @node _ left marker right _ second child op segments more hnode hop hlist =>
      obtain ⟨hkind, op', hop', hmember⟩ := memberNode?_eq_some.mp hnode
      obtain rfl := TokenKind.node.inj hkind
      obtain rfl : op = op' := Option.some.inj (hop.symm.trans hop')
      obtain ⟨left, marker, right, hsides⟩ := hs id op hop (op.shape_of_isMember hmember)
      have hterm := nodeTerm_of_sides ha hop hmember hsides
      have hspan : (forest.header id).span =
          ⟨first.span.start, (lastToken first (segments ++ (op, second) :: more)).span.stop⟩ :=
        congrArg₂ Span.mk hread.start hread.stop
      have hhead : (forest.nodeTerm id).chainHead = _ := hread.head
      have hlinks : (forest.nodeTerm id).chainLinks = _ := hread.links
      rw [hterm] at hhead hlinks
      refine ⟨op, ?_⟩
      rw [hterm, ← hspan, ← hhead, ← hlinks]
      rfl

end Forest

end Terms

namespace Resolution

variable {σ : Type} (resolution : Resolution σ)

section Folds

/--
One look-up of a chain: the member of the value so far, or the value at which the chain stops.
`whole` is the span of the chain, and `awaited` says whether arguments follow the segment.
-/
def lookUpSegment (whole : Span) (awaited : Bool) (current : Value) (segment : Segment) :
    Resolve σ (Except Value Value) := do
  let name := resolution.textOf segment.2.span
  if current.isUnresolved then
    return .error (.unresolved (resolution.textOf whole))
  else if segment.1 = .nullConditional ∧ current.isNull then
    return .error .null
  else if segment.2.kind ≠ .text then
    return .error (← resolution.fail whole (.memberNameExpected name))
  else
    match current with
    | .object ref => do
        match ← resolution.member? ref name segment.2.span with
        | some value => return .ok value
        | none =>
            if awaited then
              return .error (.invocation ref name)
            else
              return .error (← resolution.fail whole (.noMember name current.typeName))
    | _ => return .error (← resolution.fail whole (.noMember name current.typeName))

/-- The look-ups of a sequence from a value on, up to the one at which the chain stops. -/
def lookUpSegments (whole : Span) (callFollows : Bool) (segments : List Segment)
    (start : Value) : ExceptT Value (Resolve σ) Value :=
  segments.zipIdx.foldlM (fun current (segment, i) =>
    .mk (resolution.lookUpSegment whole (callFollows && i + 1 == segments.length) current segment))
    start

/-- The value of a sequence: that of the first operand, then one look-up for each segment. -/
def memberFold (callFollows : Bool) (first : Token) (segments : List Segment) :
    Resolve σ Value := do
  let whole : Span := ⟨first.span.start, (lastToken first segments).span.stop⟩
  let operand := resolution.forest.operandTerm first
  let start ← resolution.unlessStopped operand (resolution.value false operand)
  match ← (resolution.lookUpSegments whole callFollows segments start).run with
  | .ok value => return value
  | .error value => return value

variable {resolution} {whole : Span} {callFollows : Bool}

/-- The first link is a look-up, and the others are followed from its value if it has one. -/
theorem followLinks_cons (segment : Segment) (links : List Link) (current : Value) :
    resolution.followLinks whole callFollows (segment.link :: links) current = (do
      match ← resolution.lookUpSegment whole (callFollows && links.isEmpty) current segment with
      | .ok value => resolution.followLinks whole callFollows links value
      | .error value => return value) := by
  obtain ⟨op, token⟩ := segment
  change resolution.followLinks whole callFollows
    (⟨op, token.span, decide (token.kind = .text)⟩ :: links) current = _
  rw [followLinks.eq_def, lookUpSegment.eq_def]
  dsimp only
  split
  · rfl
  split
  · rfl
  by_cases hname : token.kind = .text
  · rw [if_neg (by simp [hname]), if_neg (by simp [hname])]
    cases current with
    | object ref =>
        simp only [bind_assoc]
        refine bind_congr fun found => ?_
        cases found with
        | some value => rfl
        | none =>
            dsimp only
            split
            · rfl
            · rfl
    | _ => rfl
  · rw [if_pos (by simp [hname]), if_pos hname]
    rfl

/-- Links are followed as the look-ups are folded, by induction on the links that are left. -/
theorem followLinks_eq_foldlM (count : Nat) (segments : List Segment) (i : Nat)
    (hcount : i + segments.length = count) (current : Value) :
    resolution.followLinks whole callFollows (segments.map Segment.link) current = (do
      match ← ((segments.zipIdx i).foldlM (m := ExceptT Value (Resolve σ))
        (fun current (segment, i) =>
          .mk (resolution.lookUpSegment whole (callFollows && i + 1 == count) current segment))
        current).run with
      | .ok value => return value
      | .error value => return value) := by
  induction segments generalizing i current with
  | nil => rfl
  | cons segment rest ih =>
      rw [List.length_cons] at hcount
      have hlast : (rest.map Segment.link).isEmpty = (i + 1 == count) := by
        cases rest with
        | nil => simpa using hcount
        | cons other rest =>
            rw [List.length_cons] at hcount
            simp only [List.map_cons, List.isEmpty_cons]
            exact (beq_eq_false_iff_ne.mpr (by omega)).symm
      rw [List.map_cons, followLinks_cons, List.zipIdx_cons, List.foldlM_cons, ExceptT.run_bind,
        bind_assoc, hlast]
      refine bind_congr fun found => ?_
      cases found with
      | ok value => exact ih (i + 1) (by omega) value
      | error value => rfl

end Folds

/-- A resolution reads of its forest the text and no more. -/
theorem parallel_of_source_eq (resolution : Resolution σ) {regrouped : Forest}
    (hsource : regrouped.source = resolution.forest.source) :
    Parallel Eq (fun {_} action other => action = other)
      { resolution with forest := regrouped } resolution where
  table := rfl
  scope := rfl
  textOf := fun {s t} hspan => by
    rw [hspan, textOf, textOf, Forest.spanText, Forest.spanText, hsource]
  merge := fun h h' => congrArg₂ Span.merge h h'
  pure := fun _ => rfl
  bind := fun h hnext => by
    rw [h]
    exact bind_congr hnext
  withoutLog := fun h => congrArg withoutLog h
  report := fun category _ _ message hspan =>
    congrArg (fun span => report category span message) hspan
  stopsAt := fun _ _ => rfl
  member := fun target name _ _ hspan => congrArg (resolution.member? target name) hspan
  invoke := fun target name args _ _ hspan => congrArg (resolution.invoke target name args) hspan

end Resolution

namespace Forest

variable {forest : Forest} {id : NodeId}

/-- Every token for a node spells a sequence, by induction on how nodes are nested. -/
theorem exists_spells (ha : forest.Arranged) (hs : forest.Sided)
    (hid : id.index < forest.nodes.size) {token : Token} (hkind : token.kind = .node id) :
    ∃ first segments, forest.Spells token first segments := by
  refine ha.node_induction (P := fun id => ∀ token : Token, token.kind = .node id →
    ∃ first segments, forest.Spells token first segments) ?_ hid token hkind
  intro id _ hbelow token hkind
  cases hnode : forest.memberNode? token with
  | none => exact ⟨token, [], .operand hnode⟩
  | some child =>
      obtain ⟨hchild, op, hop, hmember⟩ := memberNode?_eq_some.mp hnode
      obtain rfl : child = id := TokenKind.node.inj (hchild.symm.trans hkind)
      obtain ⟨left, marker, right, hsides⟩ := hs child op hop (op.shape_of_isMember hmember)
      have hside : ∀ side ∈ forest.tokenList child, side.kind ≠ .node child →
          ∃ first segments, forest.Spells side first segments := by
        intro side hmem hne
        cases hinner : forest.memberNode? side with
        | none => exact ⟨side, [], .operand hinner⟩
        | some inner =>
            obtain ⟨hkind', -⟩ := memberNode?_eq_some.mp hinner
            exact hbelow side hmem inner hkind' (fun heq => hne (by rw [hkind', heq])) side hkind'
      obtain ⟨first, segments, hleft⟩ := hside left (by simp [hsides.list_eq]) hsides.left_ne
      obtain ⟨second, more, hright⟩ := hside right (by simp [hsides.list_eq]) hsides.right_ne
      exact ⟨first, _, .node hnode hop hsides.list_eq hleft hright⟩

/-- A tree that spells more than its own token is that of a member operator. -/
theorem Spells.memberNode?_eq {first : Token} {segments : List Segment}
    (h : forest.Spells (forest.nodeToken id) first segments) (hne : segments ≠ []) :
    forest.memberNode? (forest.nodeToken id) = some id := by
  cases h with
  | operand => exact absurd rfl hne
  | node hnode _ _ =>
      obtain ⟨hkind, -⟩ := memberNode?_eq_some.mp hnode
      rw [hnode, ← TokenKind.node.inj hkind]

end Forest

section Chains

variable {σ : Type}

/-- The value of a tree of member operators is the left fold over the sequence that it spells. -/
theorem Resolution.value_eq_memberFold (resolution : Resolution σ) {id : NodeId} {first : Token}
    {segments : List Segment} (ha : resolution.forest.Arranged) (hs : resolution.forest.Sided)
    (h : resolution.forest.Spells (resolution.forest.nodeToken id) first segments)
    (hne : segments ≠ []) (callFollows : Bool) :
    resolution.value callFollows (resolution.forest.nodeTerm id) =
      resolution.memberFold callFollows first segments := by
  obtain ⟨op, hterm⟩ := Forest.nodeTerm_of_spells ha hs h hne
  rw [hterm, value, memberFold]
  refine bind_congr fun start => ?_
  exact followLinks_eq_foldlM _ segments 0 (Nat.zero_add _) start

/--
The walk through a tree of member operators finds the sequence that the tree spells, and the
value of the tree is the left fold over it. In another forest of the same text every tree that
spells the sequence has the same value, however it is grouped.
-/
theorem Resolution.value_of_spells (resolution : Resolution σ) {id : NodeId} {first : Token}
    {segments : List Segment} (ha : resolution.forest.Arranged) (hs : resolution.forest.Sided)
    (h : resolution.forest.Spells (resolution.forest.nodeToken id) first segments)
    (hne : segments ≠ []) (callFollows : Bool) :
    let walk := (ChainWalk.next resolution.forest)^[3 * segments.length]
      (ChainWalk.start resolution.forest id)
    (walk.items = [] ∧ walk.sequence? = some (first, segments)) ∧
    resolution.value callFollows (resolution.forest.nodeTerm id) =
      resolution.memberFold callFollows first segments ∧
    ∀ (regrouped : Forest) (other : NodeId), regrouped.Arranged → regrouped.Sided →
      regrouped.source = resolution.forest.source →
      regrouped.operandTerm first = resolution.forest.operandTerm first →
      regrouped.Spells (regrouped.nodeToken other) first segments →
        ({ resolution with forest := regrouped } : Resolution σ).value callFollows
            (regrouped.nodeTerm other) =
          resolution.value callFollows (resolution.forest.nodeTerm id) := by
  intro walk
  refine ⟨walk_of_spells (h.memberNode?_eq hne) h,
    resolution.value_eq_memberFold ha hs h hne callFollows, ?_⟩
  intro regrouped other ha' hs' hsource hfirst h'
  obtain ⟨op, hterm⟩ := Forest.nodeTerm_of_spells ha hs h hne
  obtain ⟨op', hterm'⟩ := Forest.nodeTerm_of_spells ha' hs' h' hne
  have hparallel := resolution.parallel_of_source_eq hsource
  rw [hterm, hterm', hfirst, hparallel.value callFollows (Term.moved_rfl (fun _ => rfl) _)]
  rw [value, value]

/-- Two member operators in a row, which are read but not yet grouped. -/
def dottedInput : LexInput :=
  ⟨{ delimiters := #[.ofOperator .member]
     ruleSets := #[{
       name := "members"
       delimiters := some [⟨0⟩]
       slots := [('.', 0)] }] }, .ofString "a.b.c", ⟨0⟩⟩

/-- A forest in which an operator of the root is grouped with the tokens beside it. -/
def joinedAt (first : Nat) (forest : Forest) : Forest :=
  forest.collapse Forest.root first 3 ⟨⟨0⟩, .member, ⟨0⟩, 1⟩

theorem arranged_joinedAt {forest : Forest} (before : List Token) (left mark right : Token)
    (after : List Token) (ha : forest.Arranged)
    (hlist : forest.tokenList Forest.root = before ++ [left, mark, right] ++ after)
    (hmark : mark.kind = .delimiter ⟨0⟩) : (joinedAt before.length forest).Arranged := by
  have hne : ∀ t ∈ [left] ++ [right], t.kind ≠ .node Forest.root := fun t ht =>
    ha.unmarked Forest.root t (by rw [hlist]; simp at ht ⊢; tauto)
  have hc : forest.Collapsible Forest.root before.length 3 1 before [left] mark [right] after :=
    ⟨⟨hlist, rfl, rfl, rfl⟩, ⟨⟨0⟩, hmark⟩, hne⟩
  exact ha.collapse hc

theorem sided_of_size_eq {forest : Forest} (hsize : forest.nodes.size = 3)
    (hroot : (forest.header Forest.root).operator = none)
    {left marker right left' marker' right' : Token}
    (hfirst : forest.HasSides ⟨1⟩ left marker right)
    (hsecond : forest.HasSides ⟨2⟩ left' marker' right') : forest.Sided := by
  rintro id op hop -
  have hid := Forest.index_lt_of_operator hop
  obtain ⟨i⟩ := id
  rw [hsize] at hid
  match i, hid with
  | 0, _ => cases hroot.symm.trans hop
  | 1, _ => exact ⟨left, marker, right, hfirst⟩
  | 2, _ => exact ⟨left', marker', right', hsecond⟩

/-- Three names in a tree that leans to the right. -/
def rightJoined : Forest :=
  joinedAt 0 (joinedAt 2 dottedInput.lex.forest)

/-- The same names in a tree that leans to the left. -/
def leftJoined : Forest :=
  joinedAt 0 (joinedAt 0 dottedInput.lex.forest)

theorem arranged_rightJoined : rightJoined.Arranged :=
  arranged_joinedAt [] ⟨⟨0, 1⟩, .text⟩ ⟨⟨1, 2⟩, .delimiter ⟨0⟩⟩ ⟨⟨2, 5⟩, .node ⟨1⟩⟩ []
    (arranged_joinedAt [⟨⟨0, 1⟩, .text⟩, ⟨⟨1, 2⟩, .delimiter ⟨0⟩⟩] ⟨⟨2, 3⟩, .text⟩
      ⟨⟨3, 4⟩, .delimiter ⟨0⟩⟩ ⟨⟨4, 5⟩, .text⟩ [] (dottedInput.lexed_final []).arranged (by decide)
      rfl)
    (by decide) rfl

theorem arranged_leftJoined : leftJoined.Arranged :=
  arranged_joinedAt [] ⟨⟨0, 3⟩, .node ⟨1⟩⟩ ⟨⟨3, 4⟩, .delimiter ⟨0⟩⟩ ⟨⟨4, 5⟩, .text⟩ []
    (arranged_joinedAt [] ⟨⟨0, 1⟩, .text⟩ ⟨⟨1, 2⟩, .delimiter ⟨0⟩⟩ ⟨⟨2, 3⟩, .text⟩
      [⟨⟨3, 4⟩, .delimiter ⟨0⟩⟩, ⟨⟨4, 5⟩, .text⟩] (dottedInput.lexed_final []).arranged (by decide)
      rfl)
    (by decide) rfl

theorem hasSides_rightJoined :
    rightJoined.HasSides ⟨1⟩ ⟨⟨2, 3⟩, .text⟩ ⟨⟨3, 4⟩, .node ⟨1⟩⟩ ⟨⟨4, 5⟩, .text⟩ ∧
      rightJoined.HasSides ⟨2⟩ ⟨⟨0, 1⟩, .text⟩ ⟨⟨1, 2⟩, .node ⟨2⟩⟩ ⟨⟨2, 5⟩, .node ⟨1⟩⟩ :=
  ⟨⟨by decide, by decide, rfl, by decide, by decide⟩,
    ⟨by decide, by decide, rfl, by decide, by decide⟩⟩

theorem hasSides_leftJoined :
    leftJoined.HasSides ⟨1⟩ ⟨⟨0, 1⟩, .text⟩ ⟨⟨1, 2⟩, .node ⟨1⟩⟩ ⟨⟨2, 3⟩, .text⟩ ∧
      leftJoined.HasSides ⟨2⟩ ⟨⟨0, 3⟩, .node ⟨1⟩⟩ ⟨⟨3, 4⟩, .node ⟨2⟩⟩ ⟨⟨4, 5⟩, .text⟩ :=
  ⟨⟨by decide, by decide, rfl, by decide, by decide⟩,
    ⟨by decide, by decide, rfl, by decide, by decide⟩⟩

/-- The segments behind the first name. -/
def dottedSegments : List Segment :=
  [(.member, ⟨⟨2, 3⟩, .text⟩), (.member, ⟨⟨4, 5⟩, .text⟩)]

theorem spells_rightJoined :
    rightJoined.Spells (rightJoined.nodeToken ⟨2⟩) ⟨⟨0, 1⟩, .text⟩ dottedSegments := by
  have hinner : rightJoined.Spells ⟨⟨2, 5⟩, .node ⟨1⟩⟩ ⟨⟨2, 3⟩, .text⟩
      ([] ++ (.member, ⟨⟨4, 5⟩, .text⟩) :: []) :=
    .node (by decide) (by decide) hasSides_rightJoined.1.list_eq (.operand rfl) (.operand rfl)
  have houter : rightJoined.Spells (rightJoined.nodeToken ⟨2⟩) ⟨⟨0, 1⟩, .text⟩
      ([] ++ (.member, ⟨⟨2, 3⟩, .text⟩) :: ([] ++ (.member, ⟨⟨4, 5⟩, .text⟩) :: [])) :=
    .node (by decide) (by decide) hasSides_rightJoined.2.list_eq (.operand rfl) hinner
  exact houter

theorem spells_leftJoined :
    leftJoined.Spells (leftJoined.nodeToken ⟨2⟩) ⟨⟨0, 1⟩, .text⟩ dottedSegments := by
  have hinner : leftJoined.Spells ⟨⟨0, 3⟩, .node ⟨1⟩⟩ ⟨⟨0, 1⟩, .text⟩
      ([] ++ (.member, ⟨⟨2, 3⟩, .text⟩) :: []) :=
    .node (by decide) (by decide) hasSides_leftJoined.1.list_eq (.operand rfl) (.operand rfl)
  have houter : leftJoined.Spells (leftJoined.nodeToken ⟨2⟩) ⟨⟨0, 1⟩, .text⟩
      (([] ++ (.member, ⟨⟨2, 3⟩, .text⟩) :: []) ++ (.member, ⟨⟨4, 5⟩, .text⟩) :: []) :=
    .node (by decide) (by decide) hasSides_leftJoined.2.list_eq hinner (.operand rfl)
  exact houter

/-- The host's members are looked up in the same order in both trees. -/
theorem value_of_spells_dotted :
    let resolution : Resolution Store := ⟨dottedInput.table, rightJoined, Store.host, ⟨0⟩, .full⟩
    resolution.value true (rightJoined.nodeTerm ⟨2⟩) =
        resolution.memberFold true ⟨⟨0, 1⟩, .text⟩ dottedSegments ∧
      ({ resolution with forest := leftJoined } : Resolution Store).value true
          (leftJoined.nodeTerm ⟨2⟩) =
        resolution.value true (rightJoined.nodeTerm ⟨2⟩) := by
  intro resolution
  have hright : rightJoined.Sided :=
    sided_of_size_eq (by decide) (by decide) hasSides_rightJoined.1 hasSides_rightJoined.2
  have hleft : leftJoined.Sided :=
    sided_of_size_eq (by decide) (by decide) hasSides_leftJoined.1 hasSides_leftJoined.2
  obtain ⟨-, hfold, hregrouped⟩ := resolution.value_of_spells arranged_rightJoined hright
    spells_rightJoined (by simp [dottedSegments]) true
  have hsource : leftJoined.source = rightJoined.source := by
    simp only [leftJoined, rightJoined, joinedAt, Forest.source_collapse]
  have hfirst : leftJoined.operandTerm ⟨⟨0, 1⟩, .text⟩ =
      rightJoined.operandTerm ⟨⟨0, 1⟩, .text⟩ := by
    simp only [Forest.operandTerm]
  exact ⟨hfold, hregrouped leftJoined ⟨2⟩ arranged_leftJoined hleft hsource hfirst
    spells_leftJoined⟩

/-- In a parsed text the value of every member operator is such a left fold. -/
theorem LexInput.exists_memberFold (input : LexInput) (host : Host σ) (scope : ObjectRef)
    (mode : ResolutionMode σ) {id : NodeId} {op : Operator}
    (hop : (input.parse.forest.header id).operator = some op) (hmember : op.isMember = true) :
    ∃ first segments, segments ≠ [] ∧
      input.parse.forest.Spells (input.parse.forest.nodeToken id) first segments ∧
      ∀ callFollows, (input.resolution host scope mode).value callFollows
          (input.parse.forest.nodeTerm id) =
        (input.resolution host scope mode).memberFold callFollows first segments := by
  have hkind : (input.parse.forest.nodeToken id).kind = .node id := rfl
  obtain ⟨first, segments, h⟩ := Forest.exists_spells input.arranged_parse input.sided_parse
    (Forest.index_lt_of_operator hop) hkind
  have hne : segments ≠ [] := by
    cases h with
    | operand hnone =>
        rw [Forest.memberNode?_eq_none.mp hnone id op rfl hop] at hmember
        cases hmember
    | node => simp
  exact ⟨first, segments, hne, h, fun callFollows =>
    (input.resolution host scope mode).value_eq_memberFold input.arranged_parse input.sided_parse
      h hne callFollows⟩

end Chains

end ExprLang
