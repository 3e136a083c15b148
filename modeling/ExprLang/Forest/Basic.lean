import ExprLang.RuleSet.Table
import ExprLang.Span
import ExprLang.Text.Source

/-!
# The token forest

A forest is a source text together with nodes, each of which owns a list of
tokens. A token covers a span and has one payload. A node stands in the list of
its parent as a single token; in its own list a token that refers to the node
itself is a marker: its opening or closing delimiter, or its operator.

All tokens are kept in one arena, and a node owns a range of it.

Main functions:
* `openNode`, `pushLiteral`, `closeNode`: how the lexer builds a forest;
* `collapse`: replaces a run of tokens by a new operator node that owns them; the
  run is copied to the end of the arena, and what follows it moves down.
-/

namespace ExprLang

/-- A node of a forest, by its number. Nodes are numbered in the order of their creation. -/
structure NodeId where
  index : Nat
  deriving DecidableEq, Inhabited

/-- A literal of a forest, by its number. -/
structure LiteralId where
  index : Nat
  deriving DecidableEq, Inhabited

/-- What a token is. -/
inductive TokenKind where
  /-- Plain text. -/
  | text
  /-- A nested node, or a marker of the node that owns the list. -/
  | node (id : NodeId)
  /-- A delimiter without a value. -/
  | delimiter (id : DelimiterId)
  /-- A value read by a scan rule. -/
  | literal (id : LiteralId)
  deriving DecidableEq, Inhabited

/-- A piece of the source with its payload. -/
structure Token where
  span : Span
  kind : TokenKind
  deriving DecidableEq, Inhabited

/-- The node that a token refers to. -/
def Token.node? (token : Token) : Option NodeId :=
  match token.kind with
  | .node id => some id
  | _ => none

/-- Is the token a marker of `owner`? -/
def Token.isMarkerOf (token : Token) (owner : NodeId) : Bool :=
  token.kind = .node owner

/-- A part of the arena: `length` tokens from the slot `start` on. -/
structure TokenRange where
  start : Nat
  length : Nat
  deriving DecidableEq, Inhabited

/-- The slot behind a range. -/
def TokenRange.stop (range : TokenRange) : Nat :=
  range.start + range.length

/-- A context or an operator, as a forest keeps it. -/
structure NodeHeader where
  rules : RuleSetId
  contextClass : ContextClass
  operator : Option Operator
  /-- The delimiter that opened the context. -/
  opener : Option DelimiterId
  /-- The delimiter that closed the context. -/
  closer : Option DelimiterId
  parent : Option NodeId
  /-- The delimiter that made the node; none for raw text. -/
  source : Option DelimiterId
  span : Span
  /-- Where its tokens are in the arena. -/
  range : TokenRange
  deriving Inhabited

/-- A context or an operator with its operands, and its tokens. -/
structure Node extends NodeHeader where
  tokens : Array Token
  deriving Inhabited

/-- A source, the tokens and nodes that it consists of, and its literals. -/
structure Forest where
  source : Source
  arena : Array Token
  nodes : Array NodeHeader
  literals : Array Literal

/-- A context as the lexer opens it. -/
structure OpenedNode where
  rules : RuleSetId
  contextClass : ContextClass
  opener : Option DelimiterId
  parent : NodeId
  start : Nat

/-- An operator and the place of its token in the run that it takes. -/
structure OperatorApplication where
  rules : RuleSetId
  operator : Operator
  delimiter : DelimiterId
  marker : Nat

namespace Forest

/-- The first node, which stands for the whole text. -/
def root : NodeId := ⟨0⟩

/-- The forest of a source with nothing but its root. -/
def ofSource (source : Source) (rules : RuleSetId) : Forest :=
  { source := source
    arena := #[]
    nodes := #[
      { rules := rules
        contextClass := .ofFlags [.root]
        operator := none
        opener := none
        closer := none
        parent := none
        source := none
        span := ⟨0, source.size⟩
        range := ⟨0, 0⟩ }]
    literals := #[] }

section Access

variable (forest : Forest)

/-- What is kept of the node of this number. -/
def header (id : NodeId) : NodeHeader :=
  forest.nodes.getD id.index default

/-- The tokens of a node, markers included. -/
def tokens (id : NodeId) : Array Token :=
  let range := (forest.header id).range
  forest.arena.extract range.start range.stop

/-- The token in a slot of a node. -/
def token? (id : NodeId) (slot : Nat) : Option Token :=
  let range := (forest.header id).range
  if slot < range.length then forest.arena[range.start + slot]? else none

/-- The node of this number. -/
def node (id : NodeId) : Node :=
  { forest.header id with tokens := forest.tokens id }

/-- The tokens of the root. -/
def topLevel : Array Token :=
  forest.tokens root

/-- The literal of this number. -/
def literal (id : LiteralId) : Literal :=
  forest.literals.getD id.index default

end Access

section Construction

variable (forest : Forest)

/-- Adds a context that is still open: it owns no tokens yet. -/
def openNode (opened : OpenedNode) : NodeId × Forest :=
  (⟨forest.nodes.size⟩,
    { forest with
      nodes := forest.nodes.push
        { rules := opened.rules
          contextClass := opened.contextClass
          operator := none
          opener := opened.opener
          closer := none
          parent := some opened.parent
          source := opened.opener
          span := .point opened.start
          range := ⟨0, 0⟩ } })

/-- Adds a literal. -/
def pushLiteral (literal : Literal) : LiteralId × Forest :=
  (⟨forest.literals.size⟩, { forest with literals := forest.literals.push literal })

/-- Gives a node its tokens and its end. The tokens go to the end of the arena. -/
def closeNode (id : NodeId) (tokens : Array Token) (closer : Option DelimiterId) (stop : Nat) :
    Forest :=
  { forest with
    arena := forest.arena ++ tokens
    nodes := forest.nodes.modify id.index fun node =>
      { node with
        closer := closer
        span := ⟨node.span.start, stop⟩
        range := ⟨forest.arena.size, tokens.size⟩ } }

/-- Makes `parent` the parent of a node. -/
def reparent (parent : NodeId) (nodes : Array NodeHeader) (child : NodeId) : Array NodeHeader :=
  nodes.modify child.index fun node => { node with parent := some parent }

/--
Copies `count` elements from the slot `source` on over those from the slot
`target` on, the first one first.
-/
def copyDown {α : Type} (source target : Nat) : (count : Nat) → Array α → Array α
  | 0, elements => elements
  | count + 1, elements =>
      copyDown (source + 1) (target + 1) count <|
        match elements[source]? with
        | none => elements
        | some element => elements.setIfInBounds target element

/-- Has a node `count` tokens from slot `first` on, and the marker its place among them? -/
def hasRun (owner : NodeId) (first count marker : Nat) : Bool :=
  match forest.nodes[owner.index]? with
  | none => false
  | some node => 0 < count && marker < count && first + count ≤ node.range.length

/-- The number of the next node. -/
def nextId : NodeId :=
  ⟨forest.nodes.size⟩

/-- The slot of the arena in which a slot of a node is. -/
def arenaSlot (owner : NodeId) (slot : Nat) : Nat :=
  (forest.header owner).range.start + slot

/-- The tokens of a run, the one in the marker's place as a marker of the next node. -/
def markedRun (owner : NodeId) (first count marker : Nat) : Array Token :=
  let id := forest.nextId
  let base := forest.arenaSlot owner first
  (forest.arena.extract base (base + count)).modify marker fun token =>
    { token with kind := .node id }

/-- The span from the first token of a run to its last one. -/
def runSpan (run : Array Token) : Span :=
  (run.getD 0 default).span.merge (run.back?.getD default).span

/-- The nodes that the tokens of a run refer to, `id` apart. -/
def childrenIn (id : NodeId) (run : Array Token) : List NodeId :=
  (run.toList.filterMap Token.node?).filter (· ≠ id)

/-- The arena with `count` tokens of a node from slot `first` on replaced by one. -/
def replaceRun (owner : NodeId) (first count : Nat) (token : Token) (arena : Array Token) :
    Array Token :=
  let base := forest.arenaSlot owner first
  copyDown (base + count) (base + 1) ((forest.header owner).range.stop - (base + count))
    (arena.setIfInBounds base token)

/--
Replaces `count` tokens of a node from slot `first` on by one token for a new
operator node that owns them; the token at the marker's place becomes a marker of
the new node.
-/
def collapse (owner : NodeId) (first count : Nat) (application : OperatorApplication) : Forest :=
  let id := forest.nextId
  let run := forest.markedRun owner first count application.marker
  let span := runSpan run
  let nodes := ((childrenIn id run).foldl (reparent id) forest.nodes).push
    { rules := application.rules
      contextClass := .ofFlags [.operator]
      operator := some application.operator
      opener := none
      closer := none
      parent := some owner
      source := some application.delimiter
      span := span
      range := ⟨forest.arena.size, count⟩ }
  { forest with
    arena := forest.replaceRun owner first count ⟨span, .node id⟩ (forest.arena ++ run)
    nodes := nodes.modify owner.index fun node =>
      { node with range := ⟨node.range.start, node.range.length - (count - 1)⟩ } }

/-- Collapses a run if there is one, and gives the number of the new node. -/
def collapse? (owner : NodeId) (first count : Nat) (application : OperatorApplication) :
    Option (NodeId × Forest) :=
  if forest.hasRun owner first count application.marker then
    some (forest.nextId, forest.collapse owner first count application)
  else
    none

end Construction

section Shape

variable (forest : Forest)

/-- Number of links from a node up to one without a parent, at most `limit`. -/
def depthWithin : (limit : Nat) → NodeId → Nat
  | 0, _ => 0
  | limit + 1, id =>
      match (forest.header id).parent with
      | none => 0
      | some parent => depthWithin limit parent + 1

/-- How deep a node is nested. A chain of parents has no more links than there are nodes. -/
def depth (id : NodeId) : Nat :=
  forest.depthWithin forest.nodes.size id

end Shape

section Lemmas

variable (forest : Forest)

@[simp]
theorem source_openNode (opened : OpenedNode) :
    (forest.openNode opened).2.source = forest.source := rfl

@[simp]
theorem source_pushLiteral (literal : Literal) :
    (forest.pushLiteral literal).2.source = forest.source := rfl

@[simp]
theorem source_closeNode (id : NodeId) (tokens : Array Token) (closer : Option DelimiterId)
    (stop : Nat) :
    (forest.closeNode id tokens closer stop).source = forest.source := rfl

@[simp]
theorem source_collapse (owner : NodeId) (first count : Nat) (application : OperatorApplication) :
    (forest.collapse owner first count application).source = forest.source := rfl

@[simp]
theorem size_openNode (opened : OpenedNode) :
    (forest.openNode opened).2.nodes.size = forest.nodes.size + 1 := by
  simp [openNode]

@[simp]
theorem size_closeNode (id : NodeId) (tokens : Array Token) (closer : Option DelimiterId)
    (stop : Nat) :
    (forest.closeNode id tokens closer stop).nodes.size = forest.nodes.size := by
  simp [closeNode]

end Lemmas

end Forest
end ExprLang
