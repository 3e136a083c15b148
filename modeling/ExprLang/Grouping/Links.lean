import ExprLang.Grouping.Path

/-!
# Finding operators along links

A search for operators that keeps no paths to the nodes on its way. The nodes that are still to be
visited are on a stack. Each of them has a link, which keeps its slot and the link of the node
that it stands in. An operator's path is made by following the links from its node up to the root.

What is found are the paths of the search through trees, in another order.
-/

namespace ExprLang

/-- How a nested node is reached. -/
structure SlotLink where
  /-- The number of the link of the node that it stands in; none for the root. -/
  parent : Option Nat
  slot : Nat
  deriving Inhabited

/-- A search for operators. -/
structure OperatorSearch where
  /-- The links that were made, the last one first. The first one that was made has number 0. -/
  links : List SlotLink
  /-- The nodes that are to be visited with the numbers of their links, the next one first. -/
  pending : List (NodeId × Option Nat)
  found : List OperatorPath

/-- The slots that a link leads through, its own first. -/
def SlotLink.slotsThrough : List SlotLink → Option Nat → List Nat
  | link :: older, some number =>
      if number = older.length then
        link.slot :: slotsThrough older link.parent
      else
        slotsThrough older (some number)
  | _, _ => []

namespace OperatorSearch

variable (table : RuleSetTable) (finished : List Nat)

/-- The search at its start: the root is to be visited. -/
def start : OperatorSearch :=
  ⟨[], [(Forest.root, none)], []⟩

/-- Takes up a token: an operator is found, and a nested node is to be visited. -/
def takeToken (owner : NodeId) (link : Option Nat) (search : OperatorSearch) :
    Token × Nat → OperatorSearch
  | (token, slot) =>
      match token.kind with
      | .node child =>
          if child = owner then
            search
          else
            { search with
              links := ⟨link, slot⟩ :: search.links
              pending := (child, some search.links.length) :: search.pending }
      | _ =>
          let slots := slot :: SlotLink.slotsThrough search.links link
          { search with
            found := search.found ++
              (OperatorPath.ofToken? table finished slots slots.length token).toList }

variable (forest : Forest)

/-- Takes up the tokens of a node from left to right. -/
def visit (search : OperatorSearch) (owner : NodeId) (link : Option Nat) : OperatorSearch :=
  (forest.tokens owner).toList.zipIdx.foldl (takeToken table finished owner link) search

/-- Visits nodes until none is left, but no more than `count`; none if there are more. -/
def run : (count : Nat) → OperatorSearch → Option (List OperatorPath)
  | 0, search => if search.pending.isEmpty then some search.found else none
  | count + 1, search =>
      match search.pending with
      | [] => some search.found
      | (owner, link) :: rest =>
          run count (visit table finished forest { search with pending := rest } owner link)

end OperatorSearch
end ExprLang
