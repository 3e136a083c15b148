import ExprLang.Grouping.Links
import ExprLang.Language
import ExprLang.Proofs.Grouping.Outcome

/-!
# What the search along links finds

The search visits a node, puts the nodes in its list on the stack, and visits all that is below
them before it comes back to what was on the stack earlier. A link that was made leads through the
same slots for good, as later links are only put in front. In a well nested forest no path is
longer than there are nodes, so that the search ends, and it finds what the search through the
trees finds.

Main definitions:
* `OperatorSearch.StandsFor`: an entry of the stack stands for a node and the slots to it;
* `OperatorSearch.reached`: what is found below a node, in the order of the visits;
* `OperatorPath.StandsAt`: where an operator that is not finished stands.

Main results:
* `OperatorSearch.run_of_standsFor`: what visiting the nodes on the stack does;
* `OperatorSearch.perm_reached`: the paths are those of the search through the trees;
* `OperatorPath.sort_eq_of_perm`: so that they are taken in the same order;
* `OperatorSearch.finds_operators`: one path for each operator, which leads to it and to no other.
-/

namespace ExprLang

open OperatorPath

namespace OperatorSearch

variable {table : RuleSetTable} {finished : List Nat} {forest : Forest}

section Links

variable {links more : List SlotLink} {entry : NodeId × Option Nat} {node : List Nat × NodeId}

/-- An entry of the stack stands for a node, with the slots that lead to it. -/
structure StandsFor (links : List SlotLink) (entry : NodeId × Option Nat)
    (node : List Nat × NodeId) : Prop where
  node_eq : entry.1 = node.2
  slots_eq : SlotLink.slotsThrough links entry.2 = node.1
  made : ∀ number ∈ entry.2, number < links.length

/-- Links that are made later change nothing. -/
theorem slotsThrough_of_suffix {link : Option Nat} (h : links <:+ more)
    (hmade : ∀ number ∈ link, number < links.length) :
    SlotLink.slotsThrough more link = SlotLink.slotsThrough links link := by
  obtain ⟨later, rfl⟩ := h
  induction later with
  | nil => rfl
  | cons last later ih =>
      cases link with
      | none => cases links <;> rfl
      | some number =>
          have hlt := hmade number rfl
          rw [← ih, List.cons_append, SlotLink.slotsThrough, if_neg]
          simp only [List.length_append]
          omega

theorem StandsFor.of_suffix (h : StandsFor links entry node) (hmore : links <:+ more) :
    StandsFor more entry node where
  node_eq := h.node_eq
  slots_eq := (slotsThrough_of_suffix hmore h.made).trans h.slots_eq
  made := fun number hnumber => (h.made number hnumber).trans_le hmore.length_le

/-- A new link leads through its slot and then where the link of its owner leads. -/
theorem StandsFor.child (h : StandsFor links entry node) (slot : Nat) (child : NodeId) :
    StandsFor (⟨entry.2, slot⟩ :: links) (child, some links.length) (slot :: node.1, child) where
  node_eq := rfl
  slots_eq := by
    rw [SlotLink.slotsThrough, if_pos rfl, h.slots_eq]
  made := by
    rintro number ⟨⟩
    exact Nat.lt_succ_self _

end Links

section Visits

/-- The node that stands in a slot of a node, with the slots that lead to it. -/
def nested? (node : List Nat × NodeId) (item : Token × Nat) : Option (List Nat × NodeId) :=
  match item.1.kind with
  | .node child => if child = node.2 then none else some (item.2 :: node.1, child)
  | _ => none

/-- The path of the operator that stands in a slot of a node. -/
def operator? (table : RuleSetTable) (finished : List Nat) (node : List Nat × NodeId)
    (item : Token × Nat) : Option OperatorPath :=
  ofToken? table finished (item.2 :: node.1) (node.1.length + 1) item.1

theorem operator?_of_node {node : List Nat × NodeId} {item : Token × Nat} {child : NodeId}
    (h : item.1.kind = .node child) : operator? table finished node item = none := by
  unfold operator? ofToken?
  rw [h]

/-- What taking up a token does: a nested node gets a link, and any other token may be found. -/
theorem takeToken_cases {node : List Nat × NodeId} {link : Option Nat} {search : OperatorSearch}
    (h : StandsFor search.links (node.2, link) node) (item : Token × Nat) :
    (nested? node item = none ∧ takeToken table finished node.2 link search item =
      { search with found := search.found ++ (operator? table finished node item).toList }) ∨
    ∃ child, nested? node item = some (item.2 :: node.1, child) ∧
      operator? table finished node item = none ∧
      takeToken table finished node.2 link search item =
        { search with
          links := ⟨link, item.2⟩ :: search.links
          pending := (child, some search.links.length) :: search.pending } := by
  obtain ⟨token, slot⟩ := item
  by_cases hkind : ∃ child, token.kind = .node child
  · obtain ⟨child, hkind⟩ := hkind
    have hoperator : operator? table finished node (token, slot) = none := operator?_of_node hkind
    by_cases hchild : child = node.2
    · refine Or.inl ⟨by simp only [nested?, hkind, if_pos hchild], ?_⟩
      rw [hoperator, Option.toList_none, List.append_nil]
      simp only [takeToken, hkind, if_pos hchild]
    · refine Or.inr ⟨child, by simp only [nested?, hkind, if_neg hchild], hoperator, ?_⟩
      simp only [takeToken, hkind, if_neg hchild]
  · refine Or.inl ⟨?_, ?_⟩
    · unfold nested?
      split
      · rename_i child hchild
        exact absurd ⟨child, hchild⟩ hkind
      · rfl
    · simp only [takeToken, h.slots_eq]
      split
      · rename_i child hchild
        exact absurd ⟨child, hchild⟩ hkind
      · rfl

/-- What visiting a node does: its operators are found, and the nodes in it come next. -/
theorem foldl_takeToken {node : List Nat × NodeId} {link : Option Nat} {search : OperatorSearch}
    (h : StandsFor search.links (node.2, link) node) (items : List (Token × Nat)) :
    ∃ links entries,
      items.foldl (takeToken table finished node.2 link) search =
        ⟨links, entries ++ search.pending,
          search.found ++ items.filterMap (operator? table finished node)⟩ ∧
      search.links <:+ links ∧
      entries.Forall₂ (StandsFor links) (items.filterMap (nested? node)).reverse := by
  induction items generalizing search with
  | nil => exact ⟨search.links, [], by simp, List.suffix_rfl, .nil⟩
  | cons item items ih =>
      rw [List.foldl_cons]
      rcases @takeToken_cases table finished node link search h item with
        ⟨hnested, htake⟩ | ⟨child, hnested, hoperator, htake⟩
      · rw [htake, List.filterMap_cons_none hnested]
        obtain ⟨links, entries, hfold, hlinks, hentries⟩ := @ih { search with
          found := search.found ++ (operator? table finished node item).toList } h
        refine ⟨links, entries, ?_, hlinks, hentries⟩
        rw [hfold, List.filterMap_cons, List.append_assoc]
        cases operator? table finished node item with
        | none => rfl
        | some path => rfl
      · have hstands := h.of_suffix (List.suffix_cons ⟨link, item.2⟩ search.links)
        rw [htake, List.filterMap_cons_none hoperator, List.filterMap_cons_some hnested]
        obtain ⟨links, entries, hfold, hlinks, hentries⟩ := @ih { search with
          links := ⟨link, item.2⟩ :: search.links
          pending := (child, some search.links.length) :: search.pending } hstands
        refine ⟨links, entries ++ [(child, some search.links.length)], ?_,
          (List.suffix_cons _ _).trans hlinks, ?_⟩
        · rw [hfold, List.append_assoc]
          rfl
        · rw [List.reverse_cons]
          exact List.rel_append hentries
            (.cons ((h.child item.2 child).of_suffix hlinks) .nil)

/-- The operators of a node that are not finished. -/
def operators (table : RuleSetTable) (finished : List Nat) (forest : Forest)
    (node : List Nat × NodeId) : List OperatorPath :=
  (forest.tokenList node.2).zipIdx.filterMap (operator? table finished node)

/-- The nodes that stand in the list of a node. -/
def nested (forest : Forest) (node : List Nat × NodeId) : List (List Nat × NodeId) :=
  (forest.tokenList node.2).zipIdx.filterMap (nested? node)

/-- What is found below a node, `limit` levels deep, in the order in which nodes are visited. -/
def reached (table : RuleSetTable) (finished : List Nat) (forest : Forest) :
    (limit : Nat) → List Nat × NodeId → List OperatorPath
  | 0, _ => []
  | limit + 1, node =>
      operators table finished forest node ++
        (nested forest node).reverse.flatMap (reached table finished forest limit)

/-- One node is visited: its operators are found, and the nodes in it are put on the stack. -/
theorem run_succ {links : List SlotLink} {entry : NodeId × Option Nat} {node : List Nat × NodeId}
    (h : StandsFor links entry node) (rest : List (NodeId × Option Nat))
    (found : List OperatorPath) :
    ∃ more children, links <:+ more ∧
      children.Forall₂ (StandsFor more) (nested forest node).reverse ∧
      ∀ count, run table finished forest (count + 1) ⟨links, entry :: rest, found⟩ =
        run table finished forest count
          ⟨more, children ++ rest, found ++ operators table finished forest node⟩ := by
  obtain ⟨owner, link⟩ := entry
  obtain rfl : owner = node.2 := h.node_eq
  obtain ⟨more, children, hvisit, hmore, hchildren⟩ :=
    @foldl_takeToken table finished node link ⟨links, rest, found⟩ h
      (forest.tokenList node.2).zipIdx
  exact ⟨more, children, hmore, hchildren, fun count =>
    congrArg (run table finished forest count) hvisit⟩

theorem leads_of_mem_nested {node child : List Nat × NodeId}
    (hleads : Forest.Leads forest node.1 node.2) (h : child ∈ nested forest node) :
    Forest.Leads forest child.1 child.2 ∧ child.1.length = node.1.length + 1 := by
  obtain ⟨⟨token, slot⟩, hitem, hnested⟩ := List.mem_filterMap.mp h
  have htoken : forest.token? node.2 slot = some token := by
    rw [← Forest.getElem?_tokenList]
    exact List.mk_mem_zipIdx_iff_getElem?.mp hitem
  unfold nested? at hnested
  split at hnested
  · rename_i id hkind
    split at hnested
    · cases hnested
    · rename_i hne
      rw [← Option.some.inj hnested]
      exact ⟨hleads.child htoken hkind hne, rfl⟩
  · cases hnested

/--
The nodes on the stack are visited one after the other, each of them with all that is below it,
before what was on the stack earlier.
-/
theorem run_of_standsFor (hw : forest.WellNested) (limit : Nat) {links : List SlotLink}
    {entries : List (NodeId × Option Nat)} {nodes : List (List Nat × NodeId)}
    (hentries : entries.Forall₂ (StandsFor links) nodes)
    (hnodes : ∀ node ∈ nodes, Forest.Leads forest node.1 node.2 ∧
      forest.nodes.size ≤ node.1.length + limit)
    (rest : List (NodeId × Option Nat)) (found : List OperatorPath) :
    ∃ steps more, links <:+ more ∧ ∀ count,
      run table finished forest (count + steps) ⟨links, entries ++ rest, found⟩ =
        run table finished forest count
          ⟨more, rest, found ++ nodes.flatMap (reached table finished forest limit)⟩ := by
  induction limit generalizing entries nodes links rest found with
  | zero =>
      cases hentries with
      | nil => exact ⟨0, links, List.suffix_rfl, fun count => by simp⟩
      | cons hentry _ =>
          obtain ⟨hleads, hsize⟩ := hnodes _ List.mem_cons_self
          have hlt := hleads.length_lt hw
          omega
  | succ limit ih =>
      induction nodes generalizing entries links found with
      | nil =>
          cases hentries
          exact ⟨0, links, List.suffix_rfl, fun count => by simp⟩
      | cons node nodes ihNodes =>
          cases hentries with
          | @cons entry _ entries _ hentry hentries =>
              obtain ⟨hleads, hsize⟩ := hnodes node List.mem_cons_self
              obtain ⟨links₁, children, hlinks₁, hchildren, hvisit⟩ :=
                @run_succ table finished forest links entry node hentry (entries ++ rest) found
              -- the nodes that stand in this one are on top of the stack then
              obtain ⟨below, links₂, hlinks₂, hbelow⟩ := ih hchildren (by
                intro child hchild
                obtain ⟨hchildLeads, hlength⟩ :=
                  leads_of_mem_nested hleads (List.mem_reverse.mp hchild)
                exact ⟨hchildLeads, by omega⟩) (entries ++ rest)
                (found ++ operators table finished forest node)
              obtain ⟨behind, links₃, hlinks₃, hbehind⟩ := ihNodes
                (hentries.imp fun _ _ h => h.of_suffix (hlinks₁.trans hlinks₂))
                (fun other hother => hnodes other (List.mem_cons_of_mem _ hother))
                (found ++ reached table finished forest (limit + 1) node)
              refine ⟨behind + below + 1, links₃, hlinks₁.trans (hlinks₂.trans hlinks₃), ?_⟩
              intro count
              rw [List.cons_append, ← Nat.add_assoc, ← Nat.add_assoc, hvisit, hbelow,
                List.append_assoc]
              have hreached := hbehind count
              rw [reached] at hreached
              rw [hreached, List.flatMap_cons, reached, List.append_assoc]

end Visits

section Trees

/-- The paths in a row of trees are those in each of them. -/
theorem inTrees_eq_flatMap (above : List Nat) (depth slot : Nat) (trees : List Tree) :
    inTrees table finished above depth slot [] trees =
      (trees.zipIdx slot).flatMap fun item =>
        inTree table finished above depth item.2 [] item.1 := by
  induction trees generalizing slot with
  | nil => simp [inTrees]
  | cons tree rest ih => rw [inTrees_cons, ih, List.zipIdx_cons, List.flatMap_cons]

/-- What is found below a node, token by token. -/
theorem below_succ (limit : Nat) (node : List Nat × NodeId) :
    below table finished forest (limit + 1) node.1 node.2 =
      (forest.tokenList node.2).zipIdx.flatMap fun item =>
        (operator? table finished node item).toList ++ (nested? node item).toList.flatMap
          fun child => below table finished forest limit child.1 child.2 := by
  rw [below, Forest.treesWithin, inTrees_eq_flatMap, List.zipIdx_map, List.flatMap_map]
  refine List.flatMap_congr fun item _ => ?_
  obtain ⟨token, slot⟩ := item
  simp only [Prod.map_apply, id_eq]
  cases hkind : token.kind with
  | node child =>
      rw [operator?_of_node hkind]
      by_cases hchild : child = node.2
      · simp [nested?, hkind, hchild, inTree, ofToken?]
      · simp [nested?, hkind, hchild, inTree, below]
  | text => simp [nested?, operator?, hkind, inTree]
  | literal id => simp [nested?, operator?, hkind, inTree]
  | delimiter id => simp [nested?, operator?, hkind, inTree]

/-- Visiting the nodes finds the same paths as the search through the trees. -/
theorem perm_reached (limit : Nat) (node : List Nat × NodeId) :
    (reached table finished forest limit node).Perm
      (below table finished forest limit node.1 node.2) := by
  induction limit generalizing node with
  | zero => simp [reached, below, Forest.treesWithin, inTrees]
  | succ limit ih =>
      have hnested : ((nested forest node).reverse.flatMap
          (reached table finished forest limit)).Perm
            ((forest.tokenList node.2).zipIdx.flatMap fun item => (nested? node item).toList.flatMap
              fun child => below table finished forest limit child.1 child.2) := by
        rw [← List.flatMap_assoc, ← List.filterMap_eq_flatMap_toList]
        exact (List.reverse_perm _).flatMap fun child _ => ih child
      rw [reached, below_succ, operators, List.filterMap_eq_flatMap_toList]
      exact (hnested.append_left _).trans (List.flatMap_append_perm _ _ _)

end Trees

/-- In a well nested forest the search ends, with the paths that the search through trees finds. -/
theorem exists_run_start (table : RuleSetTable) (finished : List Nat) (hw : forest.WellNested) :
    ∃ steps paths, (∀ count, steps ≤ count → run table finished forest count start = some paths) ∧
      paths.Perm (findAll table finished forest) := by
  have hstart : List.Forall₂ (StandsFor []) [(Forest.root, none)] [([], Forest.root)] :=
    .cons ⟨rfl, rfl, nofun⟩ .nil
  obtain ⟨steps, more, -, hrun⟩ := @run_of_standsFor table finished forest hw forest.nodes.size
    [] _ _ hstart (by simpa using Forest.Leads.root) [] []
  refine ⟨steps, reached table finished forest forest.nodes.size ([], Forest.root), ?_,
    perm_reached forest.nodes.size ([], Forest.root)⟩
  intro count hcount
  obtain ⟨count, rfl⟩ := Nat.exists_eq_add_of_le' hcount
  refine (hrun count).trans ?_
  rw [List.flatMap_singleton, List.nil_append]
  cases count with
  | zero => rfl
  | succ count => rfl

end OperatorSearch

namespace OperatorPath

variable {table : RuleSetTable} {finished : List Nat} {forest : Forest} {path : OperatorPath}

/-- A path that can be followed leads to a delimiter of its own with its own offset. -/
theorem exists_token?_of_walk? {owner : NodeId} {slot : Nat}
    (h : walk? forest path = some (owner, slot)) :
    ∃ token, forest.token? owner slot = some token ∧ token.kind = .delimiter path.delimiter ∧
      token.span.start = path.offset := by
  obtain ⟨-, hcheck⟩ := Option.filter_eq_some_iff.mp h
  simp only at hcheck
  split at hcheck
  · rename_i token htoken
    obtain ⟨hkind, hstart⟩ := Bool.and_eq_true_iff.mp hcheck
    exact ⟨token, htoken, by simpa using hkind, by simpa using hstart⟩
  · cases hcheck

/-- What is found is an operator, and its path leads to it. -/
theorem walk?_of_mem_findAll (hw : forest.WellNested) (h : path ∈ findAll table finished forest) :
    ∃ owner above slot token, Forest.Leads forest above owner ∧
      forest.token? owner slot = some token ∧
      ofToken? table finished (slot :: above) (above.length + 1) token = some path ∧
      walk? forest path = some (owner, slot) := by
  obtain ⟨owner, above, slot, token, hleads, htoken, hpath⟩ := (mem_findAll_iff hw).mp h
  refine ⟨owner, above, slot, token, hleads, htoken, hpath, ?_⟩
  obtain ⟨id, op, precedence, hkind, -, -, rfl⟩ := ofToken?_eq_some.mp hpath
  exact walk?_eq_some hleads htoken rfl hkind rfl

/-- Where an operator that is not finished stands, reached from the root. -/
def StandsAt (table : RuleSetTable) (finished : List Nat) (forest : Forest)
    (place : NodeId × Nat) : Prop :=
  ∃ above token, Forest.Leads forest above place.1 ∧
    forest.token? place.1 place.2 = some token ∧ Grouping.isRawOperator table token = true ∧
      token.span.start ∉ finished

theorem exists_mem_findAll (hw : forest.WellNested) {place : NodeId × Nat}
    (h : StandsAt table finished forest place) :
    ∃ path ∈ findAll table finished forest, walk? forest path = some place := by
  obtain ⟨above, token, hleads, htoken, hraw, hnew⟩ := h
  obtain ⟨op, id, precedence, hkind, hop⟩ := Grouping.isOperator_iff.mpr hraw
  have hpath := ofToken?_eq_some.mpr
    ⟨id, op, precedence, hkind, hnew, hop, (rfl : _ = OperatorPath.mk (place.2 :: above)
      (above.length + 1) token.span.start id op precedence)⟩
  exact ⟨_, (mem_findAll_iff hw).mpr ⟨place.1, above, place.2, token, hleads, htoken, hpath⟩,
    walk?_eq_some hleads htoken rfl hkind rfl⟩

/-- The paths that are found lead to the operators one to one. -/
theorem exists_places (hw : forest.WellNested) {paths : List OperatorPath}
    (hperm : paths.Perm (findAll table finished forest)) :
    ∃ places : List (NodeId × Nat), paths.map (walk? forest) = places.map some ∧ places.Nodup ∧
      ∀ place, place ∈ places ↔ StandsAt table finished forest place := by
  have hwalk : ∀ path ∈ paths, _ := fun path hmem =>
    walk?_of_mem_findAll hw (hperm.mem_iff.mp hmem)
  refine ⟨paths.map fun path => (walk? forest path).getD default, ?_, ?_, ?_⟩
  · rw [List.map_map]
    refine List.map_congr_left fun path hmem => ?_
    obtain ⟨owner, -, slot, -, -, -, -, hplace⟩ := hwalk path hmem
    rw [Function.comp_apply, hplace, Option.getD_some]
  · -- the path of a place is made of the slots that lead there
    refine List.Nodup.map_on ?_ (hperm.nodup_iff.mpr (nodup_findAll table finished forest))
    intro path hmem path' hmem' heq
    obtain ⟨owner, above, slot, token, hleads, htoken, hpath, hplace⟩ := hwalk path hmem
    obtain ⟨owner', above', slot', token', hleads', htoken', hpath', hplace'⟩ := hwalk path' hmem'
    rw [hplace, hplace', Option.getD_some, Option.getD_some] at heq
    obtain ⟨rfl, rfl⟩ := Prod.mk.inj heq
    obtain rfl : token = token' := Option.some.inj (htoken.symm.trans htoken')
    obtain rfl := hleads.unique hw hleads'
    exact Option.some.inj (hpath.symm.trans hpath')
  · intro place
    rw [List.mem_map]
    constructor
    · rintro ⟨path, hmem, rfl⟩
      obtain ⟨owner, above, slot, token, hleads, htoken, hpath, hplace⟩ := hwalk path hmem
      obtain ⟨id, op, precedence, -, hnew, -, -⟩ := ofToken?_eq_some.mp hpath
      rw [hplace]
      exact ⟨above, token, hleads, htoken, Grouping.isRawOperator_of_ofToken? hpath, hnew⟩
    · intro hplace
      obtain ⟨path, hmem, hwalk⟩ := exists_mem_findAll hw hplace
      exact ⟨path, hperm.mem_iff.mpr hmem, by rw [hwalk, Option.getD_some]⟩

/-- The order in which operators are found makes no difference to that in which they are taken. -/
theorem sort_eq_of_perm (hw : forest.WellNested) (hd : forest.Separate) {paths : List OperatorPath}
    (hperm : paths.Perm (findAll table finished forest)) :
    sort paths = sort (findAll table finished forest) := by
  refine List.Perm.eq_of_pairwise ?_ (pairwise_sort _) (pairwise_sort _)
    ((perm_sort paths).trans (hperm.trans (perm_sort _).symm))
  intro path path' hmem hmem' hle hle'
  obtain ⟨owner, above, slot, token, hleads, htoken, hpath, -⟩ :=
    walk?_of_mem_findAll hw (hperm.mem_iff.mp ((perm_sort paths).mem_iff.mp hmem))
  obtain ⟨owner', above', slot', token', hleads', htoken', hpath', -⟩ :=
    walk?_of_mem_findAll hw ((perm_sort _).mem_iff.mp hmem')
  obtain ⟨id, op, precedence, hkind, -, -, rfl⟩ := ofToken?_eq_some.mp hpath
  obtain ⟨id', op', precedence', hkind', -, -, rfl⟩ := ofToken?_eq_some.mp hpath'
  have hstart : token.span.start = token'.span.start := by
    rw [precedes_iff] at hle hle'
    simp only at hle hle'
    omega
  obtain ⟨rfl, rfl⟩ := hd.place_eq htoken htoken' ⟨id, hkind⟩ ⟨id', hkind'⟩ hstart
  obtain rfl : token = token' := Option.some.inj (htoken.symm.trans htoken')
  obtain rfl := hleads.unique hw hleads'
  exact Option.some.inj (hpath.symm.trans hpath')

end OperatorPath

namespace OperatorSearch

/--
In a well nested forest the search along links ends with one path for each operator that is not
finished, at any depth, which leads to the operator. In any forest whose delimiters start at
different offsets such a path leads to the delimiter that it was made for or nowhere.
-/
theorem finds_operators (table : RuleSetTable) (finished : List Nat) {forest : Forest}
    (hw : forest.WellNested) :
    ∃ steps paths, ∃ places : List (NodeId × Nat),
      (∀ count, steps ≤ count → run table finished forest count start = some paths) ∧
      paths.Perm (findAll table finished forest) ∧
      paths.map (walk? forest) = places.map some ∧ places.Nodup ∧
      (∀ place, place ∈ places ↔ StandsAt table finished forest place) ∧
      ∀ path ∈ paths, ∃ owner slot token, walk? forest path = some (owner, slot) ∧
        forest.token? owner slot = some token ∧ token.kind = .delimiter path.delimiter ∧
        token.span.start = path.offset ∧
        (table.delimiter path.delimiter).operator? = some (path.operator, path.precedence) ∧
        ∀ later : Forest, later.Separate → ∀ owner slot, walk? later path = some (owner, slot) →
          ∃ same, later.token? owner slot = some same ∧ same.kind = token.kind ∧
            same.span.start = token.span.start ∧
            ∀ owner' slot' other, later.token? owner' slot' = some other → other.IsDelimiter →
              other.span.start = token.span.start → owner' = owner ∧ slot' = slot := by
  obtain ⟨steps, paths, hrun, hperm⟩ := exists_run_start table finished hw
  obtain ⟨places, hwalk, hnodup, hplaces⟩ := exists_places hw hperm
  refine ⟨steps, paths, places, hrun, hperm, hwalk, hnodup, hplaces, fun path hmem => ?_⟩
  obtain ⟨owner, above, slot, token, -, htoken, hpath, hplace⟩ :=
    walk?_of_mem_findAll hw (hperm.mem_iff.mp hmem)
  obtain ⟨id, op, precedence, hkind, -, hop, rfl⟩ := ofToken?_eq_some.mp hpath
  refine ⟨owner, slot, token, hplace, htoken, hkind, rfl, hop, ?_⟩
  intro later hseparate owner slot hlater
  obtain ⟨same, hsame, hsameKind, hsameStart⟩ := exists_token?_of_walk? hlater
  refine ⟨same, hsame, hsameKind.trans hkind.symm, hsameStart, ?_⟩
  intro owner' slot' other hother hdelimiter hstart
  exact hseparate.place_eq hother hsame hdelimiter ⟨id, hsameKind⟩ (hstart.trans hsameStart.symm)

/-- Two operators, one of them in parentheses. -/
theorem finds_operators_parentheses :
    (Language.input "(1 + 2) * 3").lex.forest.WellNested ∧
      ∃ steps paths, ∃ places : List (NodeId × Nat),
        run (Language.input "(1 + 2) * 3").table [] (Language.input "(1 + 2) * 3").lex.forest steps
          start = some paths ∧
        paths.map (walk? (Language.input "(1 + 2) * 3").lex.forest) = places.map some ∧
        (Forest.root, 1) ∈ places ∧ (⟨1⟩, 2) ∈ places := by
  have hlexed : ∀ input : LexInput, input.lex.forest.WellNested := fun input =>
    (input.lexed_final []).arranged.wellNested
  have hw := hlexed (Language.input "(1 + 2) * 3")
  have htokens : (Language.input "(1 + 2) * 3").lex.forest.token? Forest.root 0 =
        some ⟨⟨0, 7⟩, .node ⟨1⟩⟩ ∧
      ((Language.input "(1 + 2) * 3").lex.forest.token? Forest.root 1).any
        (Grouping.isRawOperator (Language.input "(1 + 2) * 3").table) = true ∧
      ((Language.input "(1 + 2) * 3").lex.forest.token? ⟨1⟩ 2).any
        (Grouping.isRawOperator (Language.input "(1 + 2) * 3").table) = true := by
    decide +kernel
  obtain ⟨hnode, houter, hinner⟩ := htokens
  obtain ⟨times, htimes, htimesRaw⟩ := (Option.any_eq_true _ _).mp houter
  obtain ⟨plus, hplus, hplusRaw⟩ := (Option.any_eq_true _ _).mp hinner
  obtain ⟨steps, paths, places, hrun, -, hwalk, -, hplaces, -⟩ :=
    finds_operators (Language.input "(1 + 2) * 3").table [] hw
  refine ⟨hw, steps, paths, places, hrun steps le_rfl, hwalk, (hplaces _).mpr ?_,
    (hplaces _).mpr ?_⟩
  · exact ⟨[], times, .root, htimes, htimesRaw, List.not_mem_nil⟩
  · exact ⟨[0], plus, .child .root hnode rfl (by decide), hplus, hplusRaw, List.not_mem_nil⟩

end OperatorSearch
end ExprLang
