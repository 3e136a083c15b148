import ExprLang.Forest.Basic

/-!
# The text of tokens and nodes

Every token and every node stands for a piece of the source. A node's inner text
lies between its opening and its closing delimiter; its content is that of its
tokens, with literals in the place of the text they were read from.
-/

namespace ExprLang
namespace Forest

variable (forest : Forest)

/-- The source text of a span, empty where the span is none of the source. -/
def spanText (span : Span) : List Char :=
  (forest.source.slice? span.start span.stop).getD []

/-- The source text of a token. -/
def tokenText (token : Token) : List Char :=
  forest.spanText token.span

/-- The source text of a node, its delimiters included. -/
def nodeText (id : NodeId) : List Char :=
  forest.spanText (forest.header id).span

/-- Where the inner text of a node starts: behind its opening delimiter. -/
def innerStart (id : NodeId) : Nat :=
  let node := forest.node id
  match node.opener, node.tokens[0]? with
  | some _, some first => if first.isMarkerOf id then first.span.stop else node.span.start
  | _, _ => node.span.start

/-- Where the inner text of a node ends: at its closing delimiter, not before it starts. -/
def innerStop (id : NodeId) : Nat :=
  let node := forest.node id
  match node.closer, node.tokens.back? with
  | some _, some last =>
      if last.isMarkerOf id then max last.span.start (forest.innerStart id) else node.span.stop
  | _, _ => node.span.stop

/-- The source text between the delimiters of a node. -/
def innerText (id : NodeId) : List Char :=
  forest.spanText ⟨forest.innerStart id, forest.innerStop id⟩

/-- What a token adds to the content of the node that owns it. -/
def tokenContent (owner : NodeId) (token : Token) : List Char :=
  match token.kind with
  | .literal id => (forest.literal id).display.toList
  | .node id => if id = owner then [] else forest.tokenText token
  | _ => forest.tokenText token

/-- The content of a node: its tokens without its markers, with the texts of literals. -/
def content (id : NodeId) : List Char :=
  (forest.tokens id).toList.flatMap (forest.tokenContent id)

end Forest
end ExprLang
