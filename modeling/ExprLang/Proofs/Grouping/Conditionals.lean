import ExprLang.Proofs.Grammar.RuleSets
import ExprLang.Proofs.Lexing.Words
import ExprLang.Proofs.Resolution.Parsed

/-!
# Conditionals within conditionals

A text of words and conditionals is read as a list of plain texts and of operators that are left.
The operators are of one tier, so that they are taken from right to left: when the turn of one
comes, all those behind it have become trees, and it takes two of them, or four if the third one is
the word `else`. The list of the root resolves to the tree that was written at every moment.

A true case that ends in a conditional without a false case would take the `else` that follows it,
so that such a tree is not written without parentheses.

Main definitions:
* `ConditionalTree`: words and conditionals, with the words they are written with;
* `ConditionalTree.Resolves`: the trees that a list becomes from the right;
* `ReadsAs`: the tree that a token stands for.

Main results:
* `ConditionalTree.resolves_words`: the words of a tree resolve to it;
* `Grouping.Conditioned.groupOperator`: a step keeps what the list of the root resolves to;
* `LexInput.parse_conditional`: the text of a tree is parsed to that tree.
-/

namespace ExprLang

open Grammar Grouping OperatorPath

/-- A word, or a conditional. -/
inductive ConditionalTree where
  | word (text : List Char)
  | ifThen (condition trueCase : ConditionalTree)
  | ifThenElse (condition trueCase falseCase : ConditionalTree)
  deriving DecidableEq, Inhabited

namespace ConditionalTree

/-- The words that a tree is written with. -/
def words : ConditionalTree → List (List Char)
  | word text => [text]
  | ifThen condition trueCase => "if".toList :: (condition.words ++ trueCase.words)
  | ifThenElse condition trueCase falseCase =>
      "if".toList :: (condition.words ++ (trueCase.words ++ elseText :: falseCase.words))

/-- The text of a tree: its words with one blank between them. -/
def text (tree : ConditionalTree) : List Char :=
  Text.spaced tree.words

/-- Does the last part of a tree end with a conditional without a false case? -/
def endsOpen : ConditionalTree → Bool
  | word _ => false
  | ifThen _ _ => true
  | ifThenElse _ _ falseCase => falseCase.endsOpen

/--
A tree that can be written without parentheses: its words are none of the language, and no true
case would take the false case that follows it.
-/
def WellFormed : ConditionalTree → Prop
  | word text =>
      text ≠ [] ∧ (∀ c ∈ text, IsWordChar c) ∧ text ∉ keywords ∧ text ≠ elseText
  | ifThen condition trueCase => condition.WellFormed ∧ trueCase.WellFormed
  | ifThenElse condition trueCase falseCase =>
      condition.WellFormed ∧ trueCase.WellFormed ∧ falseCase.WellFormed ∧
        trueCase.endsOpen = false

/-- A word before anything is grouped: a conditional that is left, or a tree. -/
def ofWord (word : List Char) : Option ConditionalTree :=
  if word = "if".toList then none else some (.word word)

/-- A conditional becomes a tree that has the trees `taken` in it, with the trees `rest` behind. -/
inductive Takes : ConditionalTree → (taken rest : List ConditionalTree) → Prop
  | ifThen (condition trueCase : ConditionalTree) {rest : List ConditionalTree}
      (hrest : rest.head? ≠ some (.word elseText)) :
      Takes (.ifThen condition trueCase) [condition, trueCase] rest
  | ifThenElse (condition trueCase falseCase : ConditionalTree) (rest : List ConditionalTree) :
      Takes (.ifThenElse condition trueCase falseCase)
        [condition, trueCase, .word elseText, falseCase] rest

/-- The trees that are left of a list when its conditionals are taken from right to left. -/
inductive Resolves : List (Option ConditionalTree) → List ConditionalTree → Prop
  | nil : Resolves [] []
  | tree {elements : List (Option ConditionalTree)} {trees : List ConditionalTree}
      (tree : ConditionalTree) (helements : Resolves elements trees) :
      Resolves (some tree :: elements) (tree :: trees)
  | conditional {elements : List (Option ConditionalTree)} {tree : ConditionalTree}
      {taken rest : List ConditionalTree} (helements : Resolves elements (taken ++ rest))
      (htakes : Takes tree taken rest) : Resolves (none :: elements) (tree :: rest)

variable {tree : ConditionalTree} {elements : List (Option ConditionalTree)}
  {trees : List ConditionalTree}

/-- A tree that can be written is not the word `else`. -/
theorem WellFormed.ne_else (h : tree.WellFormed) : tree ≠ .word elseText := by
  rintro rfl
  exact h.2.2.2 rfl

/--
In front of what resolves to other trees, the words of a tree resolve to that tree. An `else` may
only follow if the tree does not take it.
-/
theorem resolves_append (h : tree.WellFormed) (helements : Resolves elements trees)
    (hnext : tree.endsOpen = true → trees.head? ≠ some (.word elseText)) :
    Resolves (tree.words.map ofWord ++ elements) (tree :: trees) := by
  have hif : ofWord "if".toList = none := if_pos rfl
  induction tree generalizing elements trees with
  | word text =>
      have hne : text ≠ "if".toList := fun heq => h.2.2.1 (heq ▸ by decide)
      rw [words, List.map_singleton, ofWord, if_neg hne]
      exact .tree (.word text) helements
  | ifThen condition trueCase ihCondition ihTrue =>
      obtain ⟨hcondition, htrue⟩ := h
      have hopen := hnext rfl
      have hbehind := ihTrue htrue helements fun _ => hopen
      have hall := ihCondition hcondition hbehind fun _ hhead =>
        htrue.ne_else (Option.some.inj hhead)
      rw [words, List.map_cons, List.map_append, hif, List.cons_append, List.append_assoc]
      exact .conditional hall (.ifThen condition trueCase hopen)
  | ifThenElse condition trueCase falseCase ihCondition ihTrue ihFalse =>
      obtain ⟨hcondition, htrue, hfalse, hclosed⟩ := h
      have helse : ofWord elseText = some (.word elseText) := if_neg (by decide)
      have hbehind := ihTrue htrue (.tree (.word elseText) (ihFalse hfalse helements hnext))
        fun hopen => nomatch hclosed.symm.trans hopen
      have hall := ihCondition hcondition hbehind fun _ hhead =>
        htrue.ne_else (Option.some.inj hhead)
      rw [words, List.map_cons, List.map_append, List.map_append, List.map_cons, hif, helse,
        List.cons_append, List.append_assoc, List.append_assoc, List.cons_append]
      exact .conditional hall (.ifThenElse condition trueCase falseCase trees)

/-- The words of a tree resolve to it. -/
theorem resolves_words (h : tree.WellFormed) : Resolves (tree.words.map ofWord) [tree] := by
  have hall := resolves_append h .nil fun _ => nofun
  rwa [List.append_nil] at hall

/-- Trees resolve to themselves. -/
theorem resolves_map_some (trees : List ConditionalTree) : Resolves (trees.map some) trees := by
  induction trees with
  | nil => exact .nil
  | cons tree trees ih => exact .tree tree ih

/-- Where no conditional is left nothing is taken. -/
theorem Resolves.eq_of_map_some {result : List ConditionalTree}
    (h : Resolves (trees.map some) result) : result = trees := by
  induction trees generalizing result with
  | nil => cases h with | nil => rfl
  | cons tree trees ih =>
      cases h with
      | tree _ helements => rw [ih helements]

/-- The last conditional of a list may be taken first. -/
theorem Resolves.exists_takes {before : List (Option ConditionalTree)}
    {result : List ConditionalTree} (h : Resolves (before ++ none :: trees.map some) result) :
    ∃ tree taken rest, trees = taken ++ rest ∧ Takes tree taken rest ∧
      Resolves (before ++ (tree :: rest).map some) result := by
  induction before generalizing result with
  | nil =>
      cases h with
      | @conditional _ tree taken rest helements htakes =>
          exact ⟨tree, taken, rest, helements.eq_of_map_some.symm, htakes,
            .tree tree (resolves_map_some rest)⟩
  | cons element before ih =>
      cases h with
      | tree first helements =>
          obtain ⟨tree, taken, rest, hsplit, htakes, hall⟩ := ih helements
          exact ⟨tree, taken, rest, hsplit, htakes, .tree first hall⟩
      | conditional helements hfirst =>
          obtain ⟨tree, taken, rest, hsplit, htakes, hall⟩ := ih helements
          exact ⟨tree, taken, rest, hsplit, htakes, .conditional hall hfirst⟩

/-- The words of a tree are read as words. -/
theorem WellFormed.isSpacedWord (h : tree.WellFormed) :
    ∀ word ∈ tree.words, LexInput.IsSpacedWord word := by
  have hif : LexInput.IsSpacedWord "if".toList := by
    refine ⟨by decide, ?_, fun _ => rfl⟩
    exact List.forall_iff_forall_mem.mp (by decide)
  have helse : LexInput.IsSpacedWord elseText := by
    refine ⟨by decide, ?_, fun hmem => absurd hmem (by decide)⟩
    exact List.forall_iff_forall_mem.mp (by decide)
  induction tree with
  | word text =>
      obtain ⟨hne, hchars, hkeyword, -⟩ := h
      exact List.forall_mem_singleton.mpr ⟨hne, hchars, fun hmem => absurd hmem hkeyword⟩
  | ifThen condition trueCase ihCondition ihTrue =>
      exact List.forall_mem_cons.mpr ⟨hif,
        List.forall_mem_append.mpr ⟨ihCondition h.1, ihTrue h.2⟩⟩
  | ifThenElse condition trueCase falseCase ihCondition ihTrue ihFalse =>
      obtain ⟨hcondition, htrue, hfalse, -⟩ := h
      exact List.forall_mem_cons.mpr ⟨hif, List.forall_mem_append.mpr ⟨ihCondition hcondition,
        List.forall_mem_append.mpr ⟨ihTrue htrue,
          List.forall_mem_cons.mpr ⟨helse, ihFalse hfalse⟩⟩⟩⟩

end ConditionalTree

open ConditionalTree

/-- The token is that of a conditional's node, with these tokens behind its marker. -/
structure Forest.IsConditional (forest : Forest) (token : Token) (id : NodeId)
    (operands : List Token) : Prop where
  kind_eq : token.kind = .node id
  span_eq : token.span = (forest.header id).span
  operator_eq : (forest.header id).operator = some .conditional
  source_eq : (forest.header id).source = some ifWord
  marked : ∃ marker, forest.tokenList id = marker :: operands ∧ marker.kind = .node id ∧
    forest.tokenText marker = "if".toList

/-- The tree that a token stands for. -/
inductive ReadsAs (forest : Forest) : Token → ConditionalTree → Prop
  | word {token : Token} {text : List Char} (hkind : token.kind = .text)
      (htext : forest.tokenText token = text) : ReadsAs forest token (.word text)
  | ifThen {token condition trueCase : Token} {c t : ConditionalTree} {id : NodeId}
      (hnode : forest.IsConditional token id [condition, trueCase])
      (hcondition : ReadsAs forest condition c) (htrue : ReadsAs forest trueCase t) :
      ReadsAs forest token (.ifThen c t)
  | ifThenElse {token condition trueCase other falseCase : Token} {c t f : ConditionalTree}
      {id : NodeId}
      (hnode : forest.IsConditional token id [condition, trueCase, other, falseCase])
      (hcondition : ReadsAs forest condition c) (htrue : ReadsAs forest trueCase t)
      (hother : isElse forest other = true) (hfalse : ReadsAs forest falseCase f) :
      ReadsAs forest token (.ifThenElse c t f)

section Reading

variable {forest : Forest} {token : Token} {id owner : NodeId} {operands : List Token}
  {tree : ConditionalTree}

/-- A token is that of one node with one list. -/
theorem Forest.IsConditional.operands_eq {id' : NodeId} {operands' : List Token}
    (h : forest.IsConditional token id operands) (h' : forest.IsConditional token id' operands') :
    operands = operands' := by
  obtain rfl : id = id' := TokenKind.node.inj (h.kind_eq.symm.trans h'.kind_eq)
  obtain ⟨marker, hlist, -⟩ := h.marked
  obtain ⟨marker', hlist', -⟩ := h'.marked
  exact (List.cons.inj (hlist.symm.trans hlist')).2

/-- A token stands for one tree. -/
theorem ReadsAs.unique {tree' : ConditionalTree} (h : ReadsAs forest token tree)
    (h' : ReadsAs forest token tree') : tree = tree' := by
  induction h generalizing tree' with
  | word hkind htext =>
      cases h' with
      | word _ htext' => rw [← htext, htext']
      | ifThen hnode => exact nomatch hkind.symm.trans hnode.kind_eq
      | ifThenElse hnode => exact nomatch hkind.symm.trans hnode.kind_eq
  | ifThen hnode _ _ ihCondition ihTrue =>
      cases h' with
      | word hkind => exact nomatch hkind.symm.trans hnode.kind_eq
      | ifThen hnode' hcondition htrue =>
          cases hnode.operands_eq hnode'
          rw [ihCondition hcondition, ihTrue htrue]
      | ifThenElse hnode' => cases hnode.operands_eq hnode'
  | ifThenElse hnode _ _ _ _ ihCondition ihTrue ihFalse =>
      cases h' with
      | word hkind => exact nomatch hkind.symm.trans hnode.kind_eq
      | ifThen hnode' => cases hnode.operands_eq hnode'
      | ifThenElse hnode' hcondition htrue _ hfalse =>
          cases hnode.operands_eq hnode'
          rw [ihCondition hcondition, ihTrue htrue, ihFalse hfalse]

theorem ReadsAs.isRawOperator (table : RuleSetTable) (h : ReadsAs forest token tree) :
    Grouping.isRawOperator table token = false := by
  unfold Grouping.isRawOperator
  cases h with
  | word hkind => rw [hkind]
  | ifThen hnode => rw [hnode.kind_eq]
  | ifThenElse hnode => rw [hnode.kind_eq]

/-- The text `else` is told from all other trees. -/
theorem ReadsAs.isElse_iff (h : ReadsAs forest token tree) :
    isElse forest token = true ↔ tree = .word elseText := by
  unfold isElse
  cases h with
  | word hkind htext => simp [hkind, htext]
  | ifThen hnode => simp [hnode.kind_eq]
  | ifThenElse hnode => simp [hnode.kind_eq]

/-- The text `else` is no operator. -/
theorem isRawOperator_of_isElse (table : RuleSetTable) (h : isElse forest token = true) :
    Grouping.isRawOperator table token = false := by
  unfold Grouping.isRawOperator
  rw [kind_of_isElse h]

/-- A list with an operator that is left is not that of a node that stands for a tree. -/
theorem Forest.IsConditional.ne_of_mem {table : RuleSetTable} {mark : Token}
    (h : forest.IsConditional token id operands)
    (hoperands : ∀ t ∈ operands, Grouping.isRawOperator table t = false)
    (hmem : mark ∈ forest.tokenList owner)
    (hmark : Grouping.isRawOperator table mark = true) : id ≠ owner := by
  rintro rfl
  obtain ⟨marker, hlist, hkind, -⟩ := h.marked
  rw [hlist] at hmem
  rcases List.mem_cons.mp hmem with rfl | hmem
  · exact Forest.not_isDelimiter_of_node hkind (isDelimiter_of_isRawOperator hmark)
  · exact nomatch (hoperands mark hmem).symm.trans hmark

/-- No token of a node that stands for a tree is an operator that is left. -/
theorem ReadsAs.exists_operands (table : RuleSetTable) (h : ReadsAs forest token tree)
    (hkind : token.kind = .node id) :
    ∃ operands, forest.IsConditional token id operands ∧
      ∀ t ∈ operands, Grouping.isRawOperator table t = false := by
  cases h with
  | word hword => exact nomatch hword.symm.trans hkind
  | @ifThen _ _ _ _ _ id' hnode hcondition htrue =>
      obtain rfl : id' = id := TokenKind.node.inj (hnode.kind_eq.symm.trans hkind)
      refine ⟨_, hnode, ?_⟩
      simp [hcondition.isRawOperator, htrue.isRawOperator]
  | @ifThenElse _ _ _ _ _ _ _ _ id' hnode hcondition htrue hother hfalse =>
      obtain rfl : id' = id := TokenKind.node.inj (hnode.kind_eq.symm.trans hkind)
      refine ⟨_, hnode, ?_⟩
      simp [hcondition.isRawOperator, htrue.isRawOperator, isRawOperator_of_isElse table hother,
        hfalse.isRawOperator]

/-- Beside an operator that is left, what stands for a tree is an operand. -/
theorem ReadsAs.isOperand {table : RuleSetTable} {mark : Token} (h : ReadsAs forest token tree)
    (hmem : mark ∈ forest.tokenList owner) (hmark : Grouping.isRawOperator table mark = true) :
    token.IsOperand table owner := by
  refine ⟨?_, h.isRawOperator table, ?_⟩
  · intro hkind
    obtain ⟨operands, hnode, hoperands⟩ := h.exists_operands table hkind
    exact hnode.ne_of_mem hoperands hmem hmark rfl
  · unfold separatorText?
    cases h with
    | word hkind => rw [hkind]
    | ifThen hnode => rw [hnode.kind_eq]
    | ifThenElse hnode => rw [hnode.kind_eq]

section Collapse

variable {first count : Nat} {application : OperatorApplication}
  {before left right after : List Token} {mark : Token}

/-- A node that has no operator in its list stays as it is when an operator takes a run. -/
theorem Forest.IsConditional.collapse {table : RuleSetTable}
    (h : forest.IsConditional token id operands)
    (hoperands : ∀ t ∈ operands, Grouping.isRawOperator table t = false) (hp : forest.Packed)
    (hc : forest.Collapsible owner first count application.marker before left mark right after)
    (hmark : Grouping.isRawOperator table mark = true) :
    (forest.collapse owner first count application).IsConditional token id operands := by
  have hs := hc.toSplits
  have hne := h.ne_of_mem hoperands hs.mem_mark hmark
  obtain ⟨marker, hlist, hmarker⟩ := h.marked
  have hid : id.index < forest.nodes.size :=
    forest.index_lt_of_mem_tokenList (show marker ∈ forest.tokenList id by rw [hlist]; simp)
  have hheader := Forest.header_collapse forest (Forest.nextId_ne_of_index_lt hid) hs.owner_lt
    first count application
  refine ⟨h.kind_eq, ?_, ?_, ?_, marker, ?_, hmarker⟩
  · rw [hheader]
    exact h.span_eq
  · rw [hheader]
    exact h.operator_eq
  · rw [hheader]
    exact h.source_eq
  · rw [Forest.tokenList_collapse_of_ne hp (hs.hasRun hp) (Forest.nextId_ne_of_index_lt hid) hne]
    exact hlist

/-- The node that a conditional becomes. -/
theorem Forest.isConditional_collapsedToken (hp : forest.Packed)
    (hs : forest.Splits owner first count application.marker before [] mark right after)
    (hoperator : application.operator = .conditional) (hdelimiter : application.delimiter = ifWord)
    (htext : forest.tokenText mark = "if".toList) :
    (forest.collapse owner first count application).IsConditional
      (forest.collapsedToken owner first count application) forest.nextId right := by
  have hheader := Forest.header_collapse_nextId forest hs.owner_lt first count application
  refine ⟨rfl, ?_, ?_, ?_, _, Forest.tokenList_collapse_nextId hp hs, rfl, htext⟩
  · rw [hheader]
    rfl
  · rw [hheader]
    exact congrArg some hoperator
  · rw [hheader]
    exact congrArg some hdelimiter

/-- What stands for a tree still does so when an operator takes a run. -/
theorem ReadsAs.collapse {table : RuleSetTable} (h : ReadsAs forest token tree)
    (hp : forest.Packed)
    (hc : forest.Collapsible owner first count application.marker before left mark right after)
    (hmark : Grouping.isRawOperator table mark = true) :
    ReadsAs (forest.collapse owner first count application) token tree := by
  induction h with
  | word hkind htext => exact .word hkind htext
  | ifThen hnode hcondition htrue ihCondition ihTrue =>
      refine .ifThen (hnode.collapse ?_ hp hc hmark) ihCondition ihTrue
      simp [hcondition.isRawOperator, htrue.isRawOperator]
  | ifThenElse hnode hcondition htrue hother hfalse ihCondition ihTrue ihFalse =>
      refine .ifThenElse (hnode.collapse ?_ hp hc hmark) ihCondition ihTrue hother ihFalse
      simp [hcondition.isRawOperator, htrue.isRawOperator, isRawOperator_of_isElse table hother,
        hfalse.isRawOperator]

end Collapse

end Reading

/-- A token of the root with what it stands for: a conditional that is left, or a tree. -/
structure ConditionalItem where
  token : Token
  tree? : Option ConditionalTree

namespace ConditionalItem

/-- A token that stands for a tree. -/
def ofTree (item : Token × ConditionalTree) : ConditionalItem :=
  ⟨item.1, some item.2⟩

/-- The token stands for what is noted beside it. -/
def Stands (forest : Forest) (item : ConditionalItem) : Prop :=
  match item.tree? with
  | none => item.token.kind = .delimiter ifWord ∧ forest.tokenText item.token = "if".toList
  | some tree => ReadsAs forest item.token tree

/-- When an operator takes a run, what the other tokens stand for stays. -/
theorem Stands.collapse {table : RuleSetTable} {forest : Forest} {item : ConditionalItem}
    (h : item.Stands forest) (hp : forest.Packed) {owner : NodeId} {first count : Nat}
    {application : OperatorApplication} {before left right after : List Token} {mark : Token}
    (hc : forest.Collapsible owner first count application.marker before left mark right after)
    (hmark : isRawOperator table mark = true) :
    item.Stands (forest.collapse owner first count application) := by
  unfold Stands at h ⊢
  cases htree : item.tree? with
  | none =>
      rw [htree] at h
      exact h
  | some tree =>
      rw [htree] at h
      exact ReadsAs.collapse h hp hc hmark

@[simp]
theorem map_token_ofTree (items : List (Token × ConditionalTree)) :
    (items.map ofTree).map token = items.map Prod.fst :=
  List.map_map ..

@[simp]
theorem map_tree?_ofTree (items : List (Token × ConditionalTree)) :
    (items.map ofTree).map tree? = (items.map Prod.snd).map some := by
  rw [List.map_map, List.map_map]
  rfl

end ConditionalItem

section Runs

variable {forest : Forest} {token : Token} {tree : ConditionalTree}
  {first : Nat} {before : List Token} {taken rest : List (Token × ConditionalTree)}

/-- The tokens for the trees that a conditional takes. -/
theorem ConditionalTree.Takes.exists_tokens
    (h : Takes tree (taken.map Prod.snd) (rest.map Prod.snd)) :
    (∃ c condition t trueCase, taken = [(c, condition), (t, trueCase)] ∧
      tree = .ifThen condition trueCase ∧ (rest.map Prod.snd).head? ≠ some (.word elseText)) ∨
    ∃ c condition t trueCase e f falseCase,
      taken = [(c, condition), (t, trueCase), (e, .word elseText), (f, falseCase)] ∧
        tree = .ifThenElse condition trueCase falseCase := by
  match taken, h with
  | [(c, condition), (t, trueCase)], .ifThen _ _ hrest =>
      exact Or.inl ⟨c, condition, t, trueCase, rfl, rfl, hrest⟩
  | [(c, condition), (t, trueCase), (e, _), (f, falseCase)], .ifThenElse _ _ _ _ =>
      exact Or.inr ⟨c, condition, t, trueCase, e, f, falseCase, rfl, rfl⟩

/-- A conditional takes the tokens for the trees that it takes. -/
theorem extent?_of_takes {op : Operator} (hshape : op.shape = .conditional)
    (htakes : Takes tree (taken.map Prod.snd) (rest.map Prod.snd))
    (hreads : ∀ item ∈ taken ++ rest, ReadsAs forest item.1 item.2)
    (hs : forest.Splits Forest.root first (taken.length + 1) 0 before [] token
      (taken.map Prod.fst) (rest.map Prod.fst)) :
    ∃ operands, extent? forest Forest.root first op =
        some ⟨first, taken.length + 1, 0, operands⟩ ∧
      ∀ place role, (place, role) ∈ operands → ∃ i < taken.length, place = i + 1 := by
  have hbehind : ∀ i, forest.token? Forest.root (first + 1 + i) =
      ((taken ++ rest).map Prod.fst)[i]? := by
    intro i
    rw [← Forest.getElem?_tokenList, hs.list_eq, hs.first_eq, List.nil_append, List.append_assoc,
      List.getElem?_append_right (by omega), List.map_append,
      show before.length + 1 + i - before.length = i + 1 by omega]
    rfl
  unfold extent?
  simp only [hshape]
  rw [show first + 3 = first + 1 + 2 from rfl, hbehind]
  rcases htakes.exists_tokens with
    ⟨c, condition, t, trueCase, rfl, -, hrest⟩ |
      ⟨c, condition, t, trueCase, e, f, falseCase, rfl, -⟩
  · -- what follows is not the text `else`
    have hnext : ((([(c, condition), (t, trueCase)] ++ rest).map Prod.fst)[2]?).any
        (isElse forest) = false := by
      cases rest with
      | nil => rfl
      | cons item rest =>
          refine Bool.eq_false_iff.mpr fun helse => hrest ?_
          have htree := (hreads item (by simp)).isElse_iff.mp helse
          exact congrArg some htree
    rw [hnext]
    refine ⟨_, rfl, fun place role hmem => ?_⟩
    simp only [List.mem_cons, Prod.mk.injEq, List.not_mem_nil, or_false] at hmem
    rcases hmem with ⟨rfl, -⟩ | ⟨rfl, -⟩
    · exact ⟨0, by simp, rfl⟩
    · exact ⟨1, by simp, rfl⟩
  · have hnext : isElse forest e = true :=
      (hreads (e, .word elseText) (by simp)).isElse_iff.mpr rfl
    refine ⟨_, if_pos hnext, fun place role hmem => ?_⟩
    simp only [List.mem_cons, Prod.mk.injEq, List.not_mem_nil, or_false] at hmem
    rcases hmem with ⟨rfl, -⟩ | ⟨rfl, -⟩ | ⟨rfl, -⟩
    · exact ⟨0, by simp, rfl⟩
    · exact ⟨1, by simp, rfl⟩
    · exact ⟨3, by simp, rfl⟩

/-- The node of a conditional stands for the tree that it becomes. -/
theorem readsAs_of_takes {id : NodeId}
    (htakes : Takes tree (taken.map Prod.snd) (rest.map Prod.snd))
    (hreads : ∀ item ∈ taken, ReadsAs forest item.1 item.2)
    (hnode : forest.IsConditional token id (taken.map Prod.fst)) : ReadsAs forest token tree := by
  rcases htakes.exists_tokens with
    ⟨c, condition, t, trueCase, rfl, rfl, -⟩ |
      ⟨c, condition, t, trueCase, e, f, falseCase, rfl, rfl⟩
  · exact .ifThen hnode (hreads (c, condition) (by simp)) (hreads (t, trueCase) (by simp))
  · exact .ifThenElse hnode (hreads (c, condition) (by simp)) (hreads (t, trueCase) (by simp))
      ((hreads (e, .word elseText) (by simp)).isElse_iff.mpr rfl)
      (hreads (f, falseCase) (by simp))

end Runs

namespace Grouping

/--
How far a text of conditionals is grouped: what the tokens of the root stand for resolves to the
tree that was written, and all operators that are left are among them.
-/
structure Conditioned (tree : ConditionalTree) (log : Log) (grouping : Grouping)
    (row : List ConditionalItem) : Prop where
  sound : grouping.Sound
  laid : grouping.forest.Laid
  log_eq : grouping.log = log
  list_eq : grouping.forest.tokenList Forest.root = row.map ConditionalItem.token
  stands : ∀ item ∈ row, item.Stands grouping.forest
  resolves : Resolves (row.map ConditionalItem.tree?) [tree]
  only : ∀ id token, token ∈ grouping.forest.tokenList id →
    isRawOperator builtin token = true → id = Forest.root
  unfinished : ∀ item ∈ row, item.tree? = none → item.token.span.start ∉ grouping.finished

namespace Conditioned

variable {tree : ConditionalTree} {log : Log} {grouping : Grouping} {row : List ConditionalItem}

/-- The tokens of the root start one behind the other. -/
theorem pairwise_start (h : Conditioned tree log grouping row) :
    row.Pairwise fun s t => s.token.span.start < t.token.span.start := by
  have hroot := h.laid.rows Forest.root h.sound.arranged.size_pos
  rw [h.list_eq, List.map_map] at hroot
  refine (List.pairwise_map.mp hroot.ordered).imp_of_mem ?_
  intro s t hs _ hle
  exact (hroot.nonempty _ (List.mem_map_of_mem hs)).trans_le hle

/-- A conditional that is left is pending. -/
theorem pending (h : Conditioned tree log grouping row) {item : ConditionalItem}
    (hitem : item ∈ row) (hnone : item.tree? = none) :
    Pending builtin grouping ⟨[], 1, item.token.span.start, ifWord, .conditional,
      Operator.conditional.precedence⟩ := by
  have hstands := h.stands item hitem
  unfold ConditionalItem.Stands at hstands
  rw [hnone] at hstands
  have hmem : item.token ∈ grouping.forest.tokenList Forest.root := by
    rw [h.list_eq]
    exact List.mem_map_of_mem hitem
  obtain ⟨slot, hslot⟩ := Forest.exists_token?_of_mem hmem
  obtain ⟨-, -, -, -, -, -, hoperator, -⟩ := table_conditional
  exact ⟨Forest.root, [], slot, item.token, .root, hslot, ofToken?_eq_some.mpr
    ⟨ifWord, .conditional, _, hstands.1, h.unfinished item hitem hnone, hoperator, rfl⟩⟩

/-- What is an operator stands for no tree. -/
theorem tree?_eq_none (h : Conditioned tree log grouping row) {item : ConditionalItem}
    (hitem : item ∈ row) (hraw : isRawOperator builtin item.token = true) : item.tree? = none := by
  cases htree : item.tree? with
  | none => rfl
  | some tree =>
      have hreads := h.stands item hitem
      unfold ConditionalItem.Stands at hreads
      rw [htree] at hreads
      exact nomatch (hreads.isRawOperator builtin).symm.trans hraw

section Step

variable {owner : NodeId} {slot depth : Nat} {token : Token} {op : OperatorPath}
  {ops : List OperatorPath}

/-- Behind the conditional that is taken first there are trees; another one would be taken first. -/
theorem exists_behind {before behind : List ConditionalItem} {item : ConditionalItem}
    (h : Conditioned tree log grouping (before ++ item :: behind))
    (hqueue : queue builtin grouping = ⟨[], 1, item.token.span.start, ifWord, .conditional,
      Operator.conditional.precedence⟩ :: ops) :
    ∃ pairs : List (Token × ConditionalTree), behind = pairs.map .ofTree := by
  have hall : ∀ other ∈ behind, ∃ pair, ConditionalItem.ofTree pair = other := by
    rintro ⟨t, tree?⟩ hother
    cases tree? with
    | some tree => exact ⟨(t, tree), rfl⟩
    | none =>
        have hmem := List.mem_append_right before (List.mem_cons_of_mem item hother)
        have hbehind := (List.pairwise_append.mp h.pairwise_start).2.1
        have hlt := (List.pairwise_cons.mp hbehind).1 _ hother
        rcases (first_of_queue h.sound.arranged hqueue).2 _ (h.pending hmem rfl) with
          heq | ⟨-, hprecedes⟩
        · exact absurd (congrArg OperatorPath.offset heq) hlt.ne'
        · rw [precedes_iff] at hprecedes
          simp only at hprecedes hlt
          omega
  obtain ⟨pairs, hmap⟩ := (Set.range_list_map _).ge hall
  exact ⟨pairs, hmap.symm⟩

/-- The operator that is taken first is the last conditional of the row. -/
theorem exists_split (h : Conditioned tree log grouping row)
    (hqueue : queue builtin grouping = op :: ops)
    (htoken : grouping.forest.token? owner slot = some token)
    (hpath : ofToken? builtin grouping.finished [] depth token = some op) :
    owner = Forest.root ∧ token.span.start = op.offset ∧ op.delimiter = ifWord ∧
      op.operator = .conditional ∧
      ∃ (before : List ConditionalItem) (behind : List (Token × ConditionalTree)),
        slot = before.length ∧
        row = before ++ ⟨token, none⟩ :: behind.map .ofTree := by
  have hraw := isRawOperator_of_ofToken? hpath
  obtain rfl := h.only owner token (Forest.mem_tokenList_of_token? htoken) hraw
  rw [← Forest.getElem?_tokenList, h.list_eq, List.getElem?_map] at htoken
  obtain ⟨item, hat, rfl⟩ := Option.map_eq_some_iff.mp htoken
  obtain ⟨hslot, hget⟩ := List.getElem?_eq_some_iff.mp hat
  have hitem : item ∈ row := List.mem_of_getElem? hat
  have hnone : item.tree? = none := h.tree?_eq_none hitem hraw
  obtain ⟨hop, -⟩ := first_of_queue h.sound.arranged hqueue
  obtain rfl := hop.eq_of_offset h.sound (h.pending hitem hnone) (isDelimiter_of_ofToken? hpath).2.1
  have hsplit : row = row.take slot ++ item :: row.drop (slot + 1) := by
    rw [← hget, ← List.drop_eq_getElem_cons, List.take_append_drop]
  obtain ⟨behind, hbehind⟩ := (hsplit ▸ h).exists_behind hqueue
  obtain ⟨t, tree?⟩ := item
  obtain rfl : tree? = none := hnone
  refine ⟨rfl, rfl, rfl, rfl, row.take slot, behind, ?_, hbehind ▸ hsplit⟩
  rw [List.length_take, Nat.min_eq_left hslot.le]

/-- A conditional in front of trees takes the first ones. -/
theorem exists_groupOperator_eq {mark : Token} {new : ConditionalTree} {first : Nat}
    {before : List Token} {taken rest : List (Token × ConditionalTree)}
    (hp : grouping.forest.Packed) (hraw : isRawOperator builtin mark = true)
    (hoperator : op.operator = .conditional)
    (hs : grouping.forest.Splits Forest.root first (taken.length + 1) 0 before [] mark
      (taken.map Prod.fst) (rest.map Prod.fst))
    (htakes : Takes new (taken.map Prod.snd) (rest.map Prod.snd))
    (hreads : ∀ item ∈ taken ++ rest, ReadsAs grouping.forest item.1 item.2) :
    ∃ application, application.operator = .conditional ∧
      application.delimiter = op.delimiter ∧
      grouping.forest.Collapsible Forest.root first (taken.length + 1) application.marker
        before [] mark (taken.map Prod.fst) (rest.map Prod.fst) ∧
      grouping.groupOperator builtin Forest.root first op =
        { grouping with
          forest := grouping.forest.collapse Forest.root first (taken.length + 1)
            application
          finished := op.offset :: grouping.finished } := by
  have hmem : mark ∈ grouping.forest.tokenList Forest.root := by
    rw [hs.list_eq]
    simp
  have hoperands : ∀ t ∈ taken.map Prod.fst, t.IsOperand builtin Forest.root := by
    intro t ht
    obtain ⟨item, hitem, rfl⟩ := List.mem_map.mp ht
    exact (hreads item (List.mem_append_left _ hitem)).isOperand hmem hraw
  obtain ⟨operands, hextent, hplaces⟩ :=
    extent?_of_takes (congrArg Operator.shape hoperator) htakes hreads hs
  obtain ⟨rules, hrules⟩ := Grammar.exists_find?_contextName op.operator
  refine ⟨⟨rules, op.operator, op.delimiter, 0⟩, hoperator, rfl,
    ⟨hs, isDelimiter_of_isRawOperator hraw, fun t ht => (hoperands t ht).unmarked⟩,
    groupOperator_of_extent hextent (fun symbol => ?_) hrules (hs.hasRun hp)⟩
  rw [extentFault?_eq_none]
  intro place role hplace
  obtain ⟨i, hi, rfl⟩ := hplaces place role hplace
  have hat : (taken.map Prod.fst)[i]? = some taken[i].1 := by simp [hi]
  refine ⟨taken[i].1, ?_, hoperands _ (List.mem_of_getElem? hat)⟩
  rw [Nat.add_comm i 1]
  exact (Nat.zero_add 1) ▸ hs.token?_right hat

section Taken

variable {before : List ConditionalItem} {taken rest : List (Token × ConditionalTree)}
  (h : Conditioned tree log grouping (before ++ ⟨token, none⟩ :: (taken ++ rest).map .ofTree))

include h

/-- Behind a conditional that is taken there are trees only. -/
theorem readsAs : ∀ item ∈ taken ++ rest, ReadsAs grouping.forest item.1 item.2 := by
  intro item hitem
  exact h.stands (.ofTree item)
    (List.mem_append_right _ (List.mem_cons_of_mem _ (List.mem_map_of_mem hitem)))

/-- The list of the root around the trees that a conditional takes. -/
theorem splits :
    grouping.forest.Splits Forest.root before.length (taken.length + 1) 0
      (before.map ConditionalItem.token) [] token (taken.map Prod.fst) (rest.map Prod.fst) := by
  refine ⟨?_, (List.length_map _).symm, by simp, rfl⟩
  rw [h.list_eq, List.map_append, List.map_cons, ConditionalItem.map_token_ofTree]
  simp

/-- The conditionals that are left stand in front of the one that is taken. -/
theorem unfinished_cons {node : Token} {new : ConditionalTree} :
    ∀ item ∈ before ++ ((node, new) :: rest).map .ofTree, item.tree? = none →
      item.token.span.start ∉ token.span.start :: grouping.finished := by
  intro item hitem hnone hfinished
  have hfront : item ∈ before := by
    rcases List.mem_append.mp hitem with hfront | hbehind
    · exact hfront
    · obtain ⟨pair, -, rfl⟩ := List.mem_map.mp hbehind
      cases hnone
  rcases List.mem_cons.mp hfinished with heq | hfinished
  · have hlt := (List.pairwise_append.mp h.pairwise_start).2.2 item hfront _ List.mem_cons_self
    exact absurd heq hlt.ne
  · exact h.unfinished item (List.mem_append_left _ hfront) hnone hfinished

/-- When the trees are taken, the tokens of the root stand for one tree in their place. -/
theorem stands_collapse {application : OperatorApplication} {new : ConditionalTree}
    (hc : grouping.forest.Collapsible Forest.root before.length (taken.length + 1)
      application.marker (before.map ConditionalItem.token) [] token (taken.map Prod.fst)
      (rest.map Prod.fst))
    (hraw : isRawOperator builtin token = true) (hoperator : application.operator = .conditional)
    (hdelimiter : application.delimiter = ifWord)
    (htakes : Takes new (taken.map Prod.snd) (rest.map Prod.snd)) :
    ∀ item ∈ before ++ ((grouping.forest.collapsedToken Forest.root before.length
        (taken.length + 1) application, new) :: rest).map .ofTree,
      item.Stands
        (grouping.forest.collapse Forest.root before.length (taken.length + 1) application) := by
  have hp := h.sound.arranged.packed
  have hkept : ∀ item ∈ before ++ ⟨token, none⟩ :: (taken ++ rest).map .ofTree, item.Stands
      (grouping.forest.collapse Forest.root before.length (taken.length + 1) application) :=
    fun item hitem => (h.stands item hitem).collapse hp hc hraw
  rw [List.map_append, List.forall_mem_append, List.forall_mem_cons, List.forall_mem_append]
    at hkept
  obtain ⟨hbefore, -, htaken, hrest⟩ := hkept
  have htext := (h.stands ⟨token, none⟩ (by simp)).2
  refine List.forall_mem_append.mpr ⟨hbefore, List.forall_mem_cons.mpr ⟨?_, hrest⟩⟩
  exact readsAs_of_takes htakes
    (fun item hitem => htaken (.ofTree item) (List.mem_map_of_mem hitem))
    (Forest.isConditional_collapsedToken hp hc.toSplits hoperator hdelimiter htext)

end Taken

/-- A conditional that is taken becomes a tree of those behind it. -/
theorem groupOperator (h : Conditioned tree log grouping row)
    (hqueue : queue builtin grouping = op :: ops)
    (htoken : grouping.forest.token? owner slot = some token)
    (hpath : ofToken? builtin grouping.finished [] depth token = some op) :
    ∃ row', Conditioned tree log (grouping.groupOperator builtin owner slot op) row' := by
  have hs := h.sound
  have hp := hs.arranged.packed
  have hraw := isRawOperator_of_ofToken? hpath
  have hdelimiter := isDelimiter_of_isRawOperator hraw
  have hsound := sound_groupOperator builtin op hs htoken hdelimiter
  have hlaid : (grouping.groupOperator builtin owner slot op).forest.Laid :=
    laid_groupOperator hp h.laid htoken hdelimiter
  obtain ⟨rfl, hoffset, hword, hoperator, before, behind, rfl, rfl⟩ :=
    h.exists_split hqueue htoken hpath
  -- what is behind it is a list of trees, of which it takes the first ones
  have hresolves := h.resolves
  rw [List.map_append, List.map_cons, ConditionalItem.map_tree?_ofTree] at hresolves
  obtain ⟨new, takenTrees, restTrees, hsplit, htakes, hnext⟩ := hresolves.exists_takes
  obtain ⟨taken, rest, rfl, rfl, rfl⟩ := List.map_eq_append_iff.mp hsplit
  have hreads := h.readsAs
  obtain ⟨application, hconditional, hdelim, hc, heq⟩ :=
    exists_groupOperator_eq hp hraw hoperator h.splits htakes hreads
  rw [heq] at hsound hlaid ⊢
  refine ⟨before ++ ((_, new) :: rest).map .ofTree, hsound, hlaid, h.log_eq, ?_,
    h.stands_collapse hc hraw hconditional (hdelim.trans hword) htakes, ?_, ?_,
    hoffset ▸ h.unfinished_cons⟩
  · rw [List.map_append, ConditionalItem.map_token_ofTree]
    exact Forest.tokenList_collapse_owner hp hc.toSplits
  · rw [List.map_append, ConditionalItem.map_tree?_ofTree]
    exact hnext
  · intro id t ht hop
    refine h.only id t (mem_tokenList_of_collapse hp hs.separate hc ?_ hop ht).1 hop
    rintro t ht
    obtain ⟨item, hitem, rfl⟩ := List.mem_map.mp ht
    exact (hreads item (List.mem_append_left _ hitem)).isRawOperator builtin

end Step

/-- When all operators are taken the tree that was written is left. -/
theorem run (h : Conditioned tree log grouping row) :
    (Grouping.run builtin grouping).log = log ∧
      ∃ token, (Grouping.run builtin grouping).forest.tokenList Forest.root = [token] ∧
        ReadsAs (Grouping.run builtin grouping).forest token tree := by
  have hrun : ∃ row', Conditioned tree log (Grouping.run builtin grouping) row' := by
    refine run_induction (P := fun g => ∃ row, Conditioned tree log g row) ?_ ?_ ⟨row, h⟩
    · rintro g ⟨_, hg⟩
      exact hg.sound
    · rintro g owner slot token depth op ops ⟨row, hg⟩ hqueue htoken hpath
      exact hg.groupOperator hqueue htoken hpath
  obtain ⟨row', hrow'⟩ := hrun
  -- a conditional that was left would be pending
  have hall : ∀ item ∈ row', ∃ pair, ConditionalItem.ofTree pair = item := by
    rintro ⟨token, tree?⟩ hitem
    cases tree? with
    | some tree => exact ⟨(token, tree), rfl⟩
    | none =>
        have hpending := hrow'.pending hitem rfl
        rw [← mem_queue_iff hrow'.sound.arranged,
          queue_eq_nil_iff.mpr (run_eq_queue builtin h.sound).2] at hpending
        cases hpending
  obtain ⟨pairs, rfl⟩ := (Set.range_list_map _).ge hall
  have hresolves := hrow'.resolves
  rw [ConditionalItem.map_tree?_ofTree] at hresolves
  obtain ⟨⟨token, _⟩, rfl, rfl⟩ := List.map_eq_singleton_iff.mp hresolves.eq_of_map_some.symm
  exact ⟨hrow'.log_eq, token, hrow'.list_eq, hrow'.stands _ List.mem_cons_self⟩

end Conditioned

end Grouping

namespace LexInput

open Language (ofSource)

variable {source : Source}

/-- The token of a word stands for the word. -/
theorem stands_ofWord {forest : Forest} (hsource : forest.source = source) {start : Nat}
    {word behind : List Char} (hat : source.IsAt start (word ++ behind)) :
    ConditionalItem.Stands forest ⟨⟨.ofLength start (Text.byteSize word),
      if word = "if".toList then .delimiter ifWord else .text⟩, ofWord word⟩ := by
  have htext : ∀ kind, forest.tokenText ⟨.ofLength start (Text.byteSize word), kind⟩ = word := by
    intro kind
    unfold Forest.tokenText Forest.spanText
    rw [hsource]
    exact (congrArg (·.getD []) hat.slice?_eq).trans Option.getD_some
  unfold ConditionalItem.Stands ofWord
  by_cases hif : word = "if".toList
  · rw [if_pos hif, if_pos hif]
    exact ⟨rfl, (htext _).trans hif⟩
  · rw [if_neg hif, if_neg hif]
    exact .word rfl (htext _)

/-- The tokens of words stand for the words. -/
theorem exists_row_wordTokens {forest : Forest} (hsource : forest.source = source)
    (words : List (List Char)) (start : Nat) (hat : source.IsAt start (Text.spaced words)) :
    ∃ row : List ConditionalItem, wordTokens start words = row.map ConditionalItem.token ∧
      row.map ConditionalItem.tree? = words.map ofWord ∧ ∀ item ∈ row, item.Stands forest := by
  induction words generalizing start with
  | nil => exact ⟨[], rfl, rfl, nofun⟩
  | cons word words ih =>
      cases words with
      | nil =>
          rw [Text.spaced_singleton, ← List.append_nil word] at hat
          exact ⟨[⟨_, ofWord word⟩], rfl, rfl,
            List.forall_mem_singleton.mpr (stands_ofWord hsource hat)⟩
      | cons next words =>
          rw [Text.spaced_cons_cons] at hat
          have hblank : source.IsAt (start + Text.byteSize word)
              ([' '] ++ Text.spaced (next :: words)) := hat.behind
          obtain ⟨row, hrow, htrees, hstands⟩ := ih _ hblank.behind
          refine ⟨⟨⟨.ofLength start (Text.byteSize word), _⟩, ofWord word⟩ :: row, ?_, ?_,
            List.forall_mem_cons.mpr ⟨stands_ofWord hsource hat, hstands⟩⟩
          · rw [List.map_cons, ← hrow]
            rfl
          · rw [List.map_cons, List.map_cons, htrees]

/-- Before anything is grouped the list of the root is that of the words. -/
theorem exists_conditioned_lex {tree : ConditionalTree} (h : tree.WellFormed)
    (hchars : source.chars = tree.text) (hsize : source.size < Span.offsetCount) :
    ∃ row, Conditioned tree (.ofSource source) (ofLexed (ofSource source).lex) row := by
  have hlex := lex_spaced h.isSpacedWord hchars hsize
  have hlexed := (ofSource source).lexed_final []
  obtain ⟨row, hrow, htrees, hstands⟩ :=
    exists_row_wordTokens hlexed.source_eq tree.words 0 ⟨[], hchars, rfl⟩
  refine ⟨row, sound_ofLexed (ofSource source) [], hlexed.laid, congrArg LexOutput.log hlex,
    (tokenList_lex_spaced h.isSpacedWord hchars hsize).trans hrow, hstands, ?_, ?_, nofun⟩
  · rw [htrees]
    exact resolves_words h
  · intro id token hmem _
    have hone : (ofSource source).lex.forest.nodes.size = 1 := by
      rw [hlex]
      exact Forest.size_closeNode _ _ _ _ _
    have hid := Forest.index_lt_of_mem_tokenList _ hmem
    obtain ⟨i⟩ := id
    exact congrArg NodeId.mk (Nat.lt_one_iff.mp (hone ▸ hid))

/--
The text of words and conditionals that were written without parentheses is parsed to the tree that
was written, without a report: the root has one token, which stands for that tree and no other. A
text with more bytes than there are offsets is not read.
-/
theorem parse_conditional {tree : ConditionalTree} (h : tree.WellFormed) :
    let source := Source.ofChars tree.text
    let output := (ofSource source).parse
    if source.size < Span.offsetCount then
      output.log.entries.toList = [] ∧
        ∃ token, output.forest.tokenList Forest.root = [token] ∧
          ReadsAs output.forest token tree ∧
          ∀ other, ReadsAs output.forest token other → other = tree
    else
      output.log.entries.toList =
        [(Log.ofSource source).entry .lex (.point 0) (tooLargeMessage source.size)] := by
  intro source output
  split
  · rename_i hsize
    have hchars : source.chars = tree.text := rfl
    obtain ⟨row, hrow⟩ := exists_conditioned_lex h hchars hsize
    obtain ⟨hlog, token, hlist, hreads⟩ := hrow.run
    exact ⟨congrArg (fun log => log.entries.toList) hlog, token, hlist, hreads,
      fun other hother => hother.unique hreads⟩
  · rename_i hsize
    exact congrArg (fun output => output.log.entries.toList)
      (parse_of_size_le (ofSource source) (Nat.not_lt.mp hsize))

/-- Conditionals in all three places of a conditional, and in the true case of the last one. -/
def nestedConditional : ConditionalTree :=
  .ifThenElse (.ifThen (.word ['a']) (.word ['b']))
    (.ifThenElse (.word ['c']) (.word ['d']) (.word ['e']))
    (.ifThen (.word ['f']) (.ifThen (.word ['g']) (.word ['h'])))

/-- The text of conditionals within conditionals is parsed to the tree that it was made of. -/
theorem parse_conditional_nested :
    nestedConditional.WellFormed ∧
      nestedConditional.text = "if if a b if c d else e else if f if g h".toList ∧
      (ofSource (.ofChars nestedConditional.text)).parse.log.entries.toList = [] ∧
      ∃ token,
        (ofSource (.ofChars nestedConditional.text)).parse.forest.tokenList Forest.root = [token] ∧
          ReadsAs (ofSource (.ofChars nestedConditional.text)).parse.forest token
            nestedConditional := by
  have hword : ∀ c ∈ ['a', 'b', 'c', 'd', 'e', 'f', 'g', 'h'],
      (ConditionalTree.word [c]).WellFormed := by
    have hall : ∀ c ∈ ['a', 'b', 'c', 'd', 'e', 'f', 'g', 'h'],
        IsWordChar c ∧ [c] ∉ keywords ∧ [c] ≠ elseText :=
      List.forall_iff_forall_mem.mp (by decide)
    intro c hc
    obtain ⟨hchar, hkeyword, helse⟩ := hall c hc
    exact ⟨List.cons_ne_nil c [], List.forall_mem_singleton.mpr hchar, hkeyword, helse⟩
  have hformed : nestedConditional.WellFormed := by
    refine ⟨⟨hword _ ?_, hword _ ?_⟩, ⟨hword _ ?_, hword _ ?_, hword _ ?_, rfl⟩,
      ⟨hword _ ?_, hword _ ?_, hword _ ?_⟩, rfl⟩
    all_goals decide
  have hsize : (Source.ofChars nestedConditional.text).size < Span.offsetCount := by decide
  have hparse := parse_conditional hformed
  simp only [hsize, if_true] at hparse
  obtain ⟨hlog, token, hlist, hreads, -⟩ := hparse
  exact ⟨hformed, by decide, hlog, token, hlist, hreads⟩

end LexInput

end ExprLang
