import ExprLang.Forest.Basic

/-!
# Flattening

The tokens of a forest in one list, level by level. A policy says for every
nested node whether its token and its own tokens are listed. A span that was met
once is not listed or entered again.
-/

namespace ExprLang

/-- What becomes of a nested node in a flat list. -/
inductive Inclusion where
  /-- Its token is listed, and its own tokens later. -/
  | full
  /-- Its token is listed as one unit. -/
  | whole
  /-- Only its own tokens are listed. -/
  | childrenOnly
  /-- Nothing of it is listed. -/
  | skip
  deriving DecidableEq, Inhabited

namespace Inclusion

/-- Is the token of the node listed? -/
def listsToken : Inclusion → Bool
  | full | whole => true
  | childrenOnly | skip => false

/-- Are the tokens in the node visited? -/
def entersNode : Inclusion → Bool
  | full | childrenOnly => true
  | whole | skip => false

end Inclusion

namespace Forest

/-- A flat list in the making: its tokens, the spans met, and the nodes of the next level. -/
structure Flattening where
  listed : Array Token := #[]
  seen : List Span := []
  next : Array NodeId := #[]

variable (forest : Forest) (policy : Node → Inclusion)

/-- Visits one token of a node. -/
def visitToken (owner : NodeId) (state : Flattening) (token : Token) : Flattening :=
  if state.seen.contains token.span then
    state
  else
    let state := { state with seen := token.span :: state.seen }
    match token.kind with
    | .node id =>
        if id = owner then
          { state with listed := state.listed.push token }
        else
          let inclusion := policy (forest.node id)
          { state with
            listed := if inclusion.listsToken then state.listed.push token else state.listed
            next := if inclusion.entersNode then state.next.push id else state.next }
    | _ => { state with listed := state.listed.push token }

/-- Visits the tokens of a node. -/
def visitNode (state : Flattening) (owner : NodeId) : Flattening :=
  (forest.tokens owner).foldl (forest.visitToken policy owner) state

/-- Visits the nodes of the next level, and of those below it, at most `limit` levels. -/
def visitLevels : (limit : Nat) → Flattening → Flattening
  | 0, state => state
  | limit + 1, state =>
      if state.next.isEmpty then
        state
      else
        visitLevels limit <|
          state.next.foldl (forest.visitNode policy) { state with next := #[] }

/-- Number of tokens in all lists. -/
def tokenCount : Nat :=
  forest.nodes.foldl (fun count node => count + node.range.length) 0

/--
The tokens of the forest level by level. Every level but that of the root is due
to a token with a new span, so there are no more of them than tokens.
-/
def flatten : List Token :=
  (forest.visitLevels policy (forest.tokenCount + 1) { next := #[root] }).listed.toList

/-- Flattens with text literals and line comments as units. -/
def flattenStandard : List Token :=
  forest.flatten fun node =>
    if node.contextClass.has .textLiteral || node.contextClass.has .lineComment then
      .whole
    else
      .full

end Forest
end ExprLang
