import ExprLang.Proofs.Grouping.OperatorTree

/-!
# Rows of operands and operators

While a chain is being grouped its list is a row: tokens that stand for trees, and
between them the operators that are left. Joining the two neighbours of an operator
makes the row shorter and keeps what it reads as.

Main results:
* `join_first`, `Join.cons`: the neighbours of an operator along the row;
* `exists_join`: an operator of a row has two neighbours, and any token can take their
  place.
-/

namespace ExprLang

/-- A token of a list with the tree that it stands for. -/
structure OperatorItem where
  token : Token
  tree : OperatorTree

/-- Items with operators between them. -/
structure OperatorRow where
  first : OperatorItem
  rest : List (Token × OperatorItem)

namespace OperatorRow

variable (row : OperatorRow)

/-- The list of a row. -/
def tokens : List Token :=
  chain row.first.token (row.rest.map fun link => (link.1, link.2.token))

/-- What a row reads as from left to right. -/
def inorder : List Token :=
  row.first.tree.inorder ++ row.rest.flatMap fun link => link.1 :: link.2.tree.inorder

/-- The items of a row. -/
def items : List OperatorItem :=
  row.first :: row.rest.map Prod.snd

/-- The operators of a row that are left. -/
def operators : List Token :=
  row.rest.map Prod.fst

/-- A row with one more item and operator in front. -/
def cons (item : OperatorItem) (operator : Token) (row : OperatorRow) : OperatorRow :=
  ⟨item, (operator, row.first) :: row.rest⟩

/-- The row in which every operand of a chain stands for itself. -/
def ofChain (operand : Token) (links : List (Token × Token)) : OperatorRow :=
  ⟨⟨operand, .operand operand⟩, links.map fun link => (link.1, ⟨link.2, .operand link.2⟩)⟩

/--
A row around one of its operators: the tokens before and behind its two neighbours, and
the row in which a new item stands in their place.
-/
structure Join (operator : Token) (left right new : OperatorItem) (joined : OperatorRow)
    (before after : List Token) : Prop where
  tokens_eq : row.tokens = before ++ left.token :: operator :: right.token :: after
  tokens_joined : joined.tokens = before ++ new.token :: after
  left_mem : left ∈ row.items
  right_mem : right ∈ row.items
  items_joined : ∀ item ∈ joined.items, item = new ∨ item ∈ row.items
  operators_joined : ∀ op ∈ row.operators, op = operator ∨ op ∈ joined.operators
  mem_operators : ∀ op ∈ joined.operators, op ∈ row.operators
  infix_inorder : (left.tree.inorder ++ operator :: right.tree.inorder).IsInfix row.inorder
  inorder_joined : new.tree.inorder = left.tree.inorder ++ operator :: right.tree.inorder →
    joined.inorder = row.inorder

variable {row}

section Cons

variable (item : OperatorItem) (op : Token) (row)

theorem tokens_cons : (row.cons item op).tokens = item.token :: op :: row.tokens := rfl

theorem items_cons : (row.cons item op).items = item :: row.items := rfl

theorem operators_cons : (row.cons item op).operators = op :: row.operators := rfl

theorem inorder_cons : (row.cons item op).inorder = item.tree.inorder ++ op :: row.inorder := by
  simp [inorder, cons]

end Cons

/-- The first operator of a row has the first two items as its neighbours. -/
theorem join_first (item : OperatorItem) (op : Token) (row : OperatorRow) (new : OperatorItem) :
    (row.cons item op).Join op item row.first new ⟨new, row.rest⟩ []
      (row.rest.flatMap fun link => [link.1, link.2.token]) where
  tokens_eq := by simp [tokens, chain, cons, List.flatMap_map]
  tokens_joined := by simp [tokens, chain, List.flatMap_map]
  left_mem := List.mem_cons_self
  right_mem := List.mem_cons_of_mem _ List.mem_cons_self
  items_joined := by
    intro i hi
    rcases List.mem_cons.mp hi with rfl | hi
    · exact Or.inl rfl
    · exact Or.inr (List.mem_cons_of_mem _ (List.mem_cons_of_mem _ hi))
  operators_joined := by
    intro o ho
    exact List.mem_cons.mp ho
  mem_operators := fun _ ho => List.mem_cons_of_mem _ ho
  infix_inorder :=
    ⟨[], row.rest.flatMap fun link => link.1 :: link.2.tree.inorder, by simp [inorder, cons]⟩
  inorder_joined := by
    intro hnew
    simp [inorder, cons, hnew]

/-- The neighbours of an operator are the same in a longer row. -/
theorem Join.cons {operator : Token} {left right new : OperatorItem} {joined : OperatorRow}
    {before after : List Token} (hj : row.Join operator left right new joined before after)
    (item : OperatorItem) (op : Token) :
    (row.cons item op).Join operator left right new (joined.cons item op)
      (item.token :: op :: before) after where
  tokens_eq := by
    rw [tokens_cons, hj.tokens_eq]
    rfl
  tokens_joined := by
    rw [tokens_cons, hj.tokens_joined]
    rfl
  left_mem := List.mem_cons_of_mem _ hj.left_mem
  right_mem := List.mem_cons_of_mem _ hj.right_mem
  items_joined := by
    intro i hi
    rw [items_cons] at hi ⊢
    rcases List.mem_cons.mp hi with rfl | hi
    · exact Or.inr List.mem_cons_self
    · exact (hj.items_joined i hi).imp_right (List.mem_cons_of_mem _)
  operators_joined := by
    intro o ho
    rw [operators_cons] at ho ⊢
    rcases List.mem_cons.mp ho with rfl | ho
    · exact Or.inr List.mem_cons_self
    · exact (hj.operators_joined o ho).imp_right (List.mem_cons_of_mem _)
  mem_operators := by
    intro o ho
    rw [operators_cons] at ho ⊢
    rcases List.mem_cons.mp ho with rfl | ho
    · exact List.mem_cons_self
    · exact List.mem_cons_of_mem _ (hj.mem_operators o ho)
  infix_inorder := by
    obtain ⟨s, t, hst⟩ := hj.infix_inorder
    refine ⟨item.tree.inorder ++ op :: s, t, ?_⟩
    rw [inorder_cons, ← hst]
    simp
  inorder_joined := by
    intro hnew
    rw [inorder_cons, inorder_cons, hj.inorder_joined hnew]

/-- Every operator of a row has two neighbours, and one item can take their place. -/
theorem exists_join {operator : Token} (h : operator ∈ row.operators) :
    ∃ left right before after, ∀ new, ∃ joined, row.Join operator left right new joined before
      after := by
  obtain ⟨first, rest⟩ := row
  induction rest generalizing first with
  | nil => cases h
  | cons link rest ih =>
      obtain ⟨op, item⟩ := link
      by_cases heq : op = operator
      · subst heq
        exact ⟨_, _, _, _, fun new => ⟨_, join_first first op ⟨item, rest⟩ new⟩⟩
      · have hrest : operator ∈ (⟨item, rest⟩ : OperatorRow).operators := by
          rcases List.mem_cons.mp h with h | h
          · exact absurd h.symm heq
          · exact h
        obtain ⟨left, right, before, after, hjoin⟩ := ih item hrest
        refine ⟨left, right, first.token :: op :: before, after, ?_⟩
        intro new
        obtain ⟨joined, hj⟩ := hjoin new
        exact ⟨joined.cons first op, hj.cons first op⟩

theorem tokens_ofChain (operand : Token) (links : List (Token × Token)) :
    (ofChain operand links).tokens = chain operand links := by
  simp [tokens, ofChain, Function.comp_def]

theorem inorder_ofChain (operand : Token) (links : List (Token × Token)) :
    (ofChain operand links).inorder = chain operand links := by
  simp [inorder, ofChain, chain, OperatorTree.inorder, List.flatMap_map]

theorem operators_ofChain (operand : Token) (links : List (Token × Token)) :
    (ofChain operand links).operators = links.map Prod.fst := by
  simp [operators, ofChain, Function.comp_def]

/-- The items of a chain are its operands. -/
theorem tree_of_mem_items_ofChain {operand : Token} {links : List (Token × Token)}
    {item : OperatorItem} (h : item ∈ (ofChain operand links).items) :
    item.token ∈ operand :: links.map Prod.snd ∧ item.tree = .operand item.token := by
  rcases List.mem_cons.mp h with rfl | h
  · exact ⟨List.mem_cons_self, rfl⟩
  · simp only [ofChain, List.map_map, List.mem_map, Function.comp_apply] at h
    obtain ⟨link, hlink, rfl⟩ := h
    exact ⟨List.mem_cons_of_mem _ (List.mem_map_of_mem hlink), rfl⟩

/-- The tokens of a row are those of its items and its operators. -/
theorem mem_tokens {t : Token} (h : t ∈ row.tokens) :
    (∃ item ∈ row.items, t = item.token) ∨ t ∈ row.operators := by
  obtain ⟨first, rest⟩ := row
  rcases List.mem_cons.mp h with rfl | h
  · exact Or.inl ⟨first, List.mem_cons_self, rfl⟩
  · simp only [List.flatMap_map, List.mem_flatMap, List.mem_cons, List.not_mem_nil, or_false]
      at h
    obtain ⟨link, hlink, rfl | rfl⟩ := h
    · exact Or.inr (List.mem_map_of_mem hlink)
    · exact Or.inl ⟨link.2, List.mem_cons_of_mem _ (List.mem_map_of_mem hlink), rfl⟩

theorem mem_tokens_of_mem_operators {t : Token} (h : t ∈ row.operators) : t ∈ row.tokens := by
  obtain ⟨link, hlink, rfl⟩ := List.mem_map.mp h
  refine List.mem_cons_of_mem _ ?_
  simp only [List.flatMap_map, List.mem_flatMap]
  exact ⟨link, hlink, List.mem_cons_self⟩

/-- The operators of a joined row stand beside the new token. -/
theorem Join.mem_rest {operator : Token} {left right new : OperatorItem} {joined : OperatorRow}
    {before after : List Token} (hj : row.Join operator left right new joined before after)
    {t : Token} (ht : t ∈ joined.operators) : t = new.token ∨ t ∈ before ++ after := by
  have hmem := mem_tokens_of_mem_operators ht
  rw [hj.tokens_joined] at hmem
  simp only [List.mem_append, List.mem_cons] at hmem ⊢
  tauto

/-- A row without operators is its first item. -/
theorem eq_of_operators_eq_nil (h : row.operators = []) :
    row.tokens = [row.first.token] ∧ row.inorder = row.first.tree.inorder := by
  have hrest : row.rest = [] := List.map_eq_nil_iff.mp h
  simp [tokens, inorder, chain, hrest]

end OperatorRow
end ExprLang
