import ExprLang.Grouping.Path
import ExprLang.Proofs.Forest.Nesting

/-!
# Finding operators and following paths

The search walks through the trees of a forest and keeps the slots it went through. In
a well nested forest it finds every operator that is not finished, with the slots that
lead to it, and finds none twice; following such a path leads back to the operator.

Main results:
* `mem_findAll_iff`: what is found;
* `nodup_findAll`: nothing is found twice;
* `walk?_eq_some`: a path whose slots lead to an operator can be followed.
-/

namespace ExprLang
namespace OperatorPath

variable {table : RuleSetTable} {finished : List Nat}

theorem ofToken?_eq_some {slots : List Nat} {depth : Nat} {token : Token} {path : OperatorPath} :
    ofToken? table finished slots depth token = some path ↔
      ∃ id op precedence, token.kind = .delimiter id ∧ token.span.start ∉ finished ∧
        (table.delimiter id).operator? = some (op, precedence) ∧
          path = ⟨slots, depth, token.span.start, id, op, precedence⟩ := by
  unfold ofToken?
  split
  · rename_i id hkind
    rw [hkind]
    constructor
    · intro h
      split at h
      · cases h
      · rename_i hnot
        obtain ⟨⟨op, precedence⟩, hop, rfl⟩ := Option.map_eq_some_iff.mp h
        exact ⟨id, op, precedence, rfl, by simpa using hnot, hop, rfl⟩
    · rintro ⟨id', op, precedence, hid, hnot, hop, rfl⟩
      obtain rfl : id = id' := TokenKind.delimiter.inj hid
      rw [if_neg (by simpa using hnot), hop]
      rfl
  · rename_i hkind
    constructor
    · intro h
      cases h
    · rintro ⟨id, op, precedence, hid, -⟩
      exact absurd hid (hkind id)

section Trees

mutual

theorem inTree_later (above : List Nat) (depth slot : Nat) (later : List OperatorPath) :
    (tree : Tree) → inTree table finished above depth slot later tree =
      inTree table finished above depth slot [] tree ++ later
  | .leaf token => by simp [inTree]
  | .branch _ _ _ children => by
      simp only [inTree]
      exact inTrees_later (slot :: above) (depth + 1) 0 later children

theorem inTrees_later (above : List Nat) (depth slot : Nat) (later : List OperatorPath) :
    (trees : List Tree) → inTrees table finished above depth slot later trees =
      inTrees table finished above depth slot [] trees ++ later
  | [] => by simp [inTrees]
  | tree :: rest => by
      simp only [inTrees]
      rw [inTree_later above depth slot (inTrees table finished above depth (slot + 1) later rest),
        inTrees_later above depth (slot + 1) later rest,
        inTree_later above depth slot (inTrees table finished above depth (slot + 1) [] rest),
        List.append_assoc]

end

/-- The paths in a row of trees are those in the first tree and those in the others. -/
theorem inTrees_cons (above : List Nat) (depth slot : Nat) (tree : Tree) (rest : List Tree) :
    inTrees table finished above depth slot [] (tree :: rest) =
      inTree table finished above depth slot [] tree ++
        inTrees table finished above depth (slot + 1) [] rest := by
  rw [inTrees, inTree_later]

theorem mem_inTrees_iff {above : List Nat} {depth slot : Nat} {trees : List Tree}
    {path : OperatorPath} :
    path ∈ inTrees table finished above depth slot [] trees ↔
      ∃ i tree, trees[i]? = some tree ∧
        path ∈ inTree table finished above depth (slot + i) [] tree := by
  induction trees generalizing slot with
  | nil => simp [inTrees]
  | cons tree rest ih =>
      rw [inTrees_cons, List.mem_append, ih]
      constructor
      · rintro (h | ⟨i, t, ht, h⟩)
        · exact ⟨0, tree, rfl, h⟩
        · refine ⟨i + 1, t, ht, ?_⟩
          rwa [Nat.add_assoc, Nat.add_comm 1 i] at h
      · rintro ⟨i, t, ht, h⟩
        cases i with
        | zero =>
            obtain rfl : tree = t := by simpa using ht
            exact Or.inl h
        | succ i =>
            refine Or.inr ⟨i, t, ht, ?_⟩
            rwa [Nat.add_assoc, Nat.add_comm 1 i]

mutual

/-- The slots of what is found in a tree end in those of the tree. -/
theorem slots_of_mem_inTree {above : List Nat} {depth slot : Nat} {path : OperatorPath} :
    (tree : Tree) → path ∈ inTree table finished above depth slot [] tree →
      ∃ inner, path.slots = inner ++ slot :: above
  | .leaf token, h => by
      simp only [inTree, List.append_nil, Option.mem_toList] at h
      obtain ⟨_, _, _, _, _, _, rfl⟩ := ofToken?_eq_some.mp h
      exact ⟨[], rfl⟩
  | .branch _ _ _ children, h => by
      simp only [inTree] at h
      obtain ⟨inner, i, -, hslots⟩ := slots_of_mem_inTrees children h
      exact ⟨inner ++ [i], by simp [hslots]⟩

/-- The slots of what is found in a row of trees end in one of theirs. -/
theorem slots_of_mem_inTrees {above : List Nat} {depth slot : Nat} {path : OperatorPath} :
    (trees : List Tree) → path ∈ inTrees table finished above depth slot [] trees →
      ∃ inner i, slot ≤ i ∧ path.slots = inner ++ i :: above
  | [], h => by simp [inTrees] at h
  | tree :: rest, h => by
      rw [inTrees_cons, List.mem_append] at h
      rcases h with h | h
      · obtain ⟨inner, hslots⟩ := slots_of_mem_inTree tree h
        exact ⟨inner, slot, le_rfl, hslots⟩
      · obtain ⟨inner, i, hle, hslots⟩ := slots_of_mem_inTrees rest h
        exact ⟨inner, i, by omega, hslots⟩

end

mutual

theorem nodup_inTree (above : List Nat) (depth slot : Nat) :
    (tree : Tree) → (inTree table finished above depth slot [] tree).Nodup
  | .leaf token => by
      simp only [inTree, List.append_nil]
      cases ofToken? table finished (slot :: above) depth token with
      | none => exact List.nodup_nil
      | some path => exact List.nodup_singleton path
  | .branch _ _ _ children => by
      simp only [inTree]
      exact nodup_inTrees (slot :: above) (depth + 1) 0 children

theorem nodup_inTrees (above : List Nat) (depth slot : Nat) :
    (trees : List Tree) → (inTrees table finished above depth slot [] trees).Nodup
  | [] => by simp [inTrees]
  | tree :: rest => by
      rw [inTrees_cons]
      refine List.nodup_append.mpr ⟨nodup_inTree above depth slot tree,
        nodup_inTrees above depth (slot + 1) rest, ?_⟩
      rintro path h _ h' rfl
      obtain ⟨inner, hslots⟩ := slots_of_mem_inTree tree h
      obtain ⟨inner', i, hle, hslots'⟩ := slots_of_mem_inTrees rest h'
      have hend := List.append_inj_right' (hslots.symm.trans hslots') rfl
      injection hend with hslot
      omega

end

end Trees

section Levels

variable {forest : Forest}

/-- What is found below a node, `limit` levels deep. -/
def below (table : RuleSetTable) (finished : List Nat) (forest : Forest) (limit : Nat)
    (above : List Nat) (owner : NodeId) : List OperatorPath :=
  inTrees table finished above (above.length + 1) 0 [] (forest.treesWithin limit owner)

/-- What is found below a node: its own operators, and what is found below its nested nodes. -/
theorem mem_below_succ {limit : Nat} {above : List Nat} {owner : NodeId} {path : OperatorPath} :
    path ∈ below table finished forest (limit + 1) above owner ↔
      ∃ slot token, forest.token? owner slot = some token ∧
        (ofToken? table finished (slot :: above) (above.length + 1) token = some path ∨
          ∃ id, token.kind = .node id ∧ id ≠ owner ∧
            path ∈ below table finished forest limit (slot :: above) id) := by
  conv_lhs => rw [below, Forest.treesWithin, mem_inTrees_iff]
  have hget : ∀ (f : Token → Tree) slot tree,
      ((forest.tokens owner).toList.map f)[slot]? = some tree ↔
        ∃ token, forest.token? owner slot = some token ∧ f token = tree := by
    intro f slot tree
    rw [List.getElem?_map, Option.map_eq_some_iff, ← Forest.getElem?_tokenList]
    rfl
  -- a leaf is an operator or nothing; a nested node is no operator
  have hnode : ∀ token id slots depth, token.kind = .node id →
      ofToken? table finished slots depth token ≠ some path := by
    intro token id slots depth hkind h
    obtain ⟨_, _, _, hdelimiter, -⟩ := ofToken?_eq_some.mp h
    rw [hkind] at hdelimiter
    cases hdelimiter
  constructor
  · rintro ⟨slot, tree, htree, hmem⟩
    obtain ⟨token, htoken, rfl⟩ := (hget _ slot tree).mp htree
    rw [Nat.zero_add] at hmem
    refine ⟨slot, token, htoken, ?_⟩
    split at hmem
    · rename_i id hkind
      split at hmem
      · simp only [inTree, List.append_nil, Option.mem_toList] at hmem
        exact Or.inl hmem
      · rename_i hne
        simp only [inTree] at hmem
        exact Or.inr ⟨id, hkind, hne, hmem⟩
    · simp only [inTree, List.append_nil, Option.mem_toList] at hmem
      exact Or.inl hmem
  · rintro ⟨slot, token, htoken, h⟩
    refine ⟨slot, _, (hget _ slot _).mpr ⟨token, htoken, rfl⟩, ?_⟩
    rw [Nat.zero_add]
    rcases h with h | ⟨id, hkind, hne, h⟩
    · split
      · rename_i id hkind
        exact absurd h (hnode token id _ _ hkind)
      · simp only [inTree, List.append_nil, Option.mem_toList]
        exact h
    · rw [hkind]
      simp only
      rw [if_neg hne]
      simp only [inTree]
      exact h

/-- What is found below a node is an operator in some list that the slots lead to. -/
theorem exists_of_mem_below {limit : Nat} {above : List Nat} {owner : NodeId}
    {path : OperatorPath} (hleads : Forest.Leads forest above owner)
    (h : path ∈ below table finished forest limit above owner) :
    ∃ owner above slot token, Forest.Leads forest above owner ∧
      forest.token? owner slot = some token ∧
        ofToken? table finished (slot :: above) (above.length + 1) token = some path := by
  induction limit generalizing above owner with
  | zero => simp [below, Forest.treesWithin, inTrees] at h
  | succ limit ih =>
      obtain ⟨slot, token, htoken, hpath | ⟨id, hkind, hne, hpath⟩⟩ := mem_below_succ.mp h
      · exact ⟨owner, above, slot, token, hleads, htoken, hpath⟩
      · exact ih (hleads.child htoken hkind hne) hpath

/-- What is found below a node is found below the root, as many levels deeper. -/
theorem mem_below_root {limit : Nat} {above : List Nat} {owner : NodeId} {path : OperatorPath}
    (hleads : Forest.Leads forest above owner)
    (h : path ∈ below table finished forest limit above owner) :
    path ∈ below table finished forest (limit + above.length) [] Forest.root := by
  induction hleads generalizing limit with
  | root => exact h
  | @child slots owner slot token id hpath htoken hkind hne ih =>
      have howner : path ∈ below table finished forest (limit + 1) slots owner :=
        mem_below_succ.mpr ⟨slot, token, htoken, Or.inr ⟨id, hkind, hne, h⟩⟩
      have hroot := ih howner
      rwa [Nat.add_assoc, Nat.add_comm 1] at hroot

/-- In a well nested forest every operator that is not finished is found. -/
theorem mem_findAll_iff (hw : forest.WellNested) {path : OperatorPath} :
    path ∈ findAll table finished forest ↔
      ∃ owner above slot token, Forest.Leads forest above owner ∧
        forest.token? owner slot = some token ∧
          ofToken? table finished (slot :: above) (above.length + 1) token = some path := by
  constructor
  · intro h
    exact exists_of_mem_below Forest.Leads.root h
  · rintro ⟨owner, above, slot, token, hleads, htoken, hpath⟩
    have hlt := hleads.length_lt hw
    obtain ⟨limit, hlimit⟩ : ∃ limit, forest.nodes.size = limit + 1 + above.length :=
      ⟨forest.nodes.size - 1 - above.length, by omega⟩
    have hbelow : path ∈ below table finished forest (limit + 1) above owner :=
      mem_below_succ.mpr ⟨slot, token, htoken, Or.inl hpath⟩
    have hroot := mem_below_root hleads hbelow
    rw [← hlimit] at hroot
    exact hroot

/-- No operator is found twice. -/
theorem nodup_findAll (table : RuleSetTable) (finished : List Nat) (forest : Forest) :
    (findAll table finished forest).Nodup :=
  nodup_inTrees [] 1 0 forest.trees

end Levels

section Walk

variable {forest : Forest}

/-- Following the slots that lead to a node leads to the node. -/
theorem follow?_of_leads {above : List Nat} {owner : NodeId}
    (h : Forest.Leads forest above owner) {rest : List Nat} (hrest : rest ≠ []) :
    follow? forest (above.reverse ++ rest) Forest.root = follow? forest rest owner := by
  induction h generalizing rest with
  | root => rfl
  | @child slots owner slot token id path htoken hkind hne ih =>
      rw [List.reverse_cons, List.append_assoc, ih (by simp)]
      obtain ⟨next, rest, rfl⟩ := List.exists_cons_of_ne_nil hrest
      obtain ⟨span, kind⟩ := token
      obtain rfl : kind = .node id := hkind
      show follow? forest (slot :: next :: rest) owner = _
      rw [follow?, htoken]
      · exact if_neg hne
      · exact List.cons_ne_nil next rest

/-- A path whose slots lead to its operator can be followed. -/
theorem walk?_eq_some {above : List Nat} {owner : NodeId} {slot : Nat} {token : Token}
    {path : OperatorPath} (h : Forest.Leads forest above owner)
    (htoken : forest.token? owner slot = some token) (hslots : path.slots = slot :: above)
    (hkind : token.kind = .delimiter path.delimiter) (hoffset : token.span.start = path.offset) :
    walk? forest path = some (owner, slot) := by
  unfold walk?
  rw [hslots, List.reverse_cons, follow?_of_leads h (by simp), follow?,
    Option.filter_some_pos]
  simp only [htoken, hkind, hoffset]
  simp

end Walk

end OperatorPath
end ExprLang
