import ExprLang.Lexer

/-!
# Forests that are being built

While a text is read there is a forest and a stack of lists that are not complete, the
root's at the bottom. `Draft` says in which ways these can grow, without a word on which
delimiter is found where: blanks are passed over, leaves are added, contexts are opened
and closed. What is true of every lexed forest is shown by induction on drafts.

Main definitions:
* `Frame`, `Frame.Ends`: a list that is being read, and how it ends;
* `Draft`, `Lexed`: what can be built, and what is left when the root is closed.
-/

namespace ExprLang

/-- A list that is being read: that of an open context, or that of the root. -/
structure Frame where
  node : NodeId
  rules : RuleSetId
  start : Nat
  tokens : Array Token

namespace Frame

/-- Adds a token to a list. -/
def push (frame : Frame) (token : Token) : Frame :=
  { frame with tokens := frame.tokens.push token }

/--
How the list of a context that is read up to `reach` ends: with its closing delimiter,
which becomes a marker, or without one.
-/
inductive Ends (frame : Frame) (reach : Nat) : Option DelimiterId → Array Token → Nat → Prop
  | closed (id : DelimiterId) (stop : Nat) (hpos : reach < stop) :
      Ends frame reach (some id) (frame.tokens.push ⟨⟨reach, stop⟩, .node frame.node⟩) stop
  | cut : Ends frame reach none frame.tokens reach

end Frame

/--
A forest that is being built, with the lists that are being read, the innermost one
first, and the offset up to which the text is accounted for.
-/
inductive Draft (input : LexInput) : Forest → List Frame → Nat → Prop
  | start :
      Draft input (.ofSource input.source input.rules) [⟨Forest.root, input.rules, 0, #[]⟩] 0
  /-- A blank character is passed over. -/
  | skip {forest : Forest} {frame : Frame} {outer : List Frame} {before behind : List Char}
      {c : Char}
      (draft : Draft input forest (frame :: outer) (Text.byteSize before))
      (hchars : input.source.chars = before ++ c :: behind)
      (hblank : input.table.isWhitespace frame.rules input.rules c = true) :
      Draft input forest (frame :: outer) (Text.byteSize before + c.utf8Size)
  /-- A text, a delimiter or a literal is added to the innermost list. -/
  | leaf {forest : Forest} {frame : Frame} {outer : List Frame} {reach : Nat}
      (draft : Draft input forest (frame :: outer) reach)
      (stop : Nat) (hpos : reach < stop)
      (kind : TokenKind) (hkind : ∀ id, kind ≠ .node id) :
      Draft input forest (frame.push ⟨⟨reach, stop⟩, kind⟩ :: outer) stop
  /-- A value is kept for a literal. -/
  | value {forest : Forest} {frames : List Frame} {reach : Nat}
      (draft : Draft input forest frames reach) (literal : Literal) :
      Draft input (forest.pushLiteral literal).2 frames reach
  /-- A context is opened, with its opening delimiter as the first token. -/
  | opened {forest : Forest} {frame : Frame} {outer : List Frame} {reach : Nat}
      (draft : Draft input forest (frame :: outer) reach)
      (stop : Nat) (hpos : reach < stop) (rules : RuleSetId) (opener : DelimiterId) :
      Draft input
        (forest.openNode
          { rules := rules
            contextClass := (input.table.ruleSet rules).contextClass
            opener := some opener
            parent := frame.node
            start := reach }).2
        (⟨forest.nextId, rules, reach, #[⟨⟨reach, stop⟩, .node forest.nextId⟩]⟩ ::
          frame :: outer) stop
  /-- The innermost context is closed and becomes a token of the list below. -/
  | closed {forest : Forest} {frame next : Frame} {outer : List Frame} {reach stop : Nat}
      {closer : Option DelimiterId} {tokens : Array Token}
      (draft : Draft input forest (frame :: next :: outer) reach)
      (hends : frame.Ends reach closer tokens stop) :
      Draft input (forest.closeNode frame.node tokens closer stop)
        (next.push ⟨⟨frame.start, stop⟩, .node frame.node⟩ :: outer) stop

/-- A forest whose root has been closed at `stop`, when all contexts were closed. -/
inductive Lexed (input : LexInput) : Forest → Nat → Prop
  | intro {forest : Forest} {frame : Frame} {stop : Nat}
      (draft : Draft input forest [frame] stop) :
      Lexed input (forest.closeNode Forest.root frame.tokens none stop) stop

end ExprLang
