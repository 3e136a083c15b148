import ExprLang.Forest.Content
import ExprLang.Proofs.Forest.Arena
import ExprLang.Proofs.Grammar.Data

/-!
# Data in a forest

A token stands for a value: the word for null, a literal, or a list with the tokens
of its items and commas between them. While a forest is built, the nodes that have tokens keep
them, so that a token stands for the same value.

Main definitions:
* `Forest.StandsFor`, `Forest.StandForAll`: a token for a value, and the tokens of the items of a list;
* `Forest.Keeps`: one forest has been built from another one.

Main results:
* `Forest.Keeps.standsFor`: a token goes on to stand for the same value;
* `Forest.keeps_openNode`, `Forest.keeps_pushLiteral`, `Forest.keeps_closeNode`: the ways in which
  a forest is built.
-/

namespace ExprLang
namespace Forest

section Values

mutual

/-- The token is what the text of this value is read as. -/
def StandsFor (forest : Forest) : Value → Token → Prop
  | .null, token => token.kind = .text ∧ forest.tokenText token = ['n', 'u', 'l', 'l']
  | .bool b, token =>
      ∃ id, token.kind = .literal id ∧ forest.literals[id.index]? = some (.bool b)
  | .int n, token =>
      ∃ id, token.kind = .literal id ∧ forest.literals[id.index]? = some (.int n)
  | .list items, token =>
      ∃ id, token.kind = .node id ∧ (forest.header id).rules = Grammar.bracketsRules ∧
        (forest.header id).contextClass = .ofFlags [.enclosure] ∧
        ∃ opener inner closer, forest.tokenList id = opener :: (inner ++ [closer]) ∧
          opener.isMarkerOf id = true ∧ closer.isMarkerOf id = true ∧
          (∀ t ∈ inner, t.isMarkerOf id = false) ∧ StandForAll forest items inner
  | _, _ => False

/-- The tokens are what the items of a list are read as, with commas between them. -/
def StandForAll (forest : Forest) : List Value → List Token → Prop
  | [], tokens => tokens = []
  | [item], tokens => ∃ token, tokens = [token] ∧ StandsFor forest item token
  | item :: rest, tokens =>
      ∃ token separator more, tokens = token :: separator :: more ∧ StandsFor forest item token ∧
        separator.kind = .delimiter Grammar.comma ∧ StandForAll forest rest more

end

variable {forest : Forest}

/-- The tokens of the items of a list with more than one item. -/
theorem standForAll_cons {item next : Value} {rest : List Value} {tokens : List Token} :
    forest.StandForAll (item :: next :: rest) tokens ↔
      ∃ token separator more, tokens = token :: separator :: more ∧ forest.StandsFor item token ∧
        separator.kind = .delimiter Grammar.comma ∧ forest.StandForAll (next :: rest) more :=
  Iff.rfl

/-- A token that stands for a node has the tokens of a list below it. -/
theorem StandsFor.tokenList_ne_nil {value : Value} {token : Token} (h : forest.StandsFor value token)
    {id : NodeId} (hkind : token.kind = .node id) : forest.tokenList id ≠ [] := by
  cases value with
  | null =>
      rw [StandsFor, hkind] at h
      cases h.1
  | bool b =>
      rw [StandsFor] at h
      obtain ⟨literal, hliteral, -⟩ := h
      rw [hkind] at hliteral
      cases hliteral
  | int n =>
      rw [StandsFor] at h
      obtain ⟨literal, hliteral, -⟩ := h
      rw [hkind] at hliteral
      cases hliteral
  | list items =>
      rw [StandsFor] at h
      obtain ⟨node, hnode, -, -, opener, inner, closer, hlist, -⟩ := h
      rw [hkind] at hnode
      obtain rfl := TokenKind.node.inj hnode
      rw [hlist]
      exact List.cons_ne_nil _ _
  | float x => exact h.elim
  | str s => exact h.elim
  | object ref => exact h.elim
  | invocation target name => exact h.elim
  | unresolved text => exact h.elim

theorem StandsFor.isMarkerOf_eq_false {value : Value} {token : Token}
    (h : forest.StandsFor value token) {id : NodeId} (hempty : forest.tokenList id = []) :
    token.isMarkerOf id = false :=
  decide_eq_false fun hkind => h.tokenList_ne_nil hkind hempty

/-- The items of a list are no markers of a node without tokens. -/
theorem StandForAll.isMarkerOf_eq_false {items : List Value} {tokens : List Token}
    (h : forest.StandForAll items tokens) {id : NodeId} (hempty : forest.tokenList id = []) :
    ∀ t ∈ tokens, t.isMarkerOf id = false := by
  induction items generalizing tokens with
  | nil =>
      rw [StandForAll] at h
      subst h
      exact List.forall_mem_nil _
  | cons item items ih =>
      cases items with
      | nil =>
          rw [StandForAll] at h
          obtain ⟨token, rfl, hitem⟩ := h
          exact List.forall_mem_singleton.mpr (hitem.isMarkerOf_eq_false hempty)
      | cons next items =>
          obtain ⟨token, separator, more, rfl, hitem, hseparator, hrest⟩ := standForAll_cons.mp h
          have hcomma : separator.isMarkerOf id = false :=
            decide_eq_false fun hkind => nomatch hkind.symm.trans hseparator
          exact List.forall_mem_cons.mpr ⟨hitem.isMarkerOf_eq_false hempty,
            List.forall_mem_cons.mpr ⟨hcomma, ih hrest⟩⟩

end Values

/-- The literal of a number is the one that is kept at it. -/
theorem literal_of_getElem? {forest : Forest} {id : LiteralId} {literal : Literal}
    (h : forest.literals[id.index]? = some literal) : forest.literal id = literal := by
  unfold Forest.literal
  rw [Array.getD_eq_getD_getElem?, h, Option.getD_some]

/-- The nodes that have tokens, and all literals, are kept from one forest to another one. -/
structure Keeps (forest forest' : Forest) : Prop where
  source : forest'.source = forest.source
  literals : ∀ (i : Nat) (literal : Literal), forest.literals[i]? = some literal →
    forest'.literals[i]? = some literal
  nodes : ∀ id, forest.tokenList id ≠ [] →
    forest'.tokenList id = forest.tokenList id ∧ forest'.header id = forest.header id

namespace Keeps

variable {first second third : Forest}

theorem refl (forest : Forest) : forest.Keeps forest :=
  ⟨rfl, fun _ _ h => h, fun _ _ => ⟨rfl, rfl⟩⟩

theorem trans (h : first.Keeps second) (h' : second.Keeps third) : first.Keeps third := by
  refine ⟨h'.source.trans h.source, fun i literal hi => h'.literals i literal (h.literals i literal hi),
    fun id hid => ?_⟩
  obtain ⟨hlist, hheader⟩ := h.nodes id hid
  obtain ⟨hlist', hheader'⟩ := h'.nodes id (hlist ▸ hid)
  exact ⟨hlist'.trans hlist, hheader'.trans hheader⟩

theorem literal_eq (h : first.Keeps second) {id : LiteralId}
    (hid : id.index < first.literals.size) : second.literal id = first.literal id := by
  have hliteral := Array.getElem?_eq_getElem hid
  rw [literal_of_getElem? hliteral, literal_of_getElem? (h.literals _ _ hliteral)]

mutual

/-- A token goes on to stand for the same value. -/
theorem standsFor (h : first.Keeps second) :
    ∀ (value : Value) (token : Token), first.StandsFor value token → second.StandsFor value token
  | .null, token, hstands => by
      rw [StandsFor] at hstands ⊢
      have htext : second.tokenText token = first.tokenText token := by
        unfold tokenText spanText
        rw [h.source]
      exact ⟨hstands.1, htext.trans hstands.2⟩
  | .bool b, token, hstands => by
      rw [StandsFor] at hstands ⊢
      obtain ⟨id, hkind, hliteral⟩ := hstands
      exact ⟨id, hkind, h.literals _ _ hliteral⟩
  | .int n, token, hstands => by
      rw [StandsFor] at hstands ⊢
      obtain ⟨id, hkind, hliteral⟩ := hstands
      exact ⟨id, hkind, h.literals _ _ hliteral⟩
  | .list items, token, hstands => by
      rw [StandsFor] at hstands ⊢
      obtain ⟨id, hkind, hrules, hclass, opener, inner, closer, hlist, hopener, hcloser, hinner,
        hall⟩ := hstands
      obtain ⟨hlist', hheader⟩ := h.nodes id (by simp [hlist])
      rw [← hheader] at hrules hclass
      rw [← hlist'] at hlist
      exact ⟨id, hkind, hrules, hclass, opener, inner, closer, hlist, hopener, hcloser, hinner,
        standForAll h items inner hall⟩
  | .float x, _, hstands => hstands.elim
  | .str s, _, hstands => hstands.elim
  | .object ref, _, hstands => hstands.elim
  | .invocation target name, _, hstands => hstands.elim
  | .unresolved text, _, hstands => hstands.elim

/-- The tokens of the items of a list go on to stand for them. -/
theorem standForAll (h : first.Keeps second) :
    ∀ (items : List Value) (tokens : List Token), first.StandForAll items tokens →
      second.StandForAll items tokens
  | [], tokens, hstands => hstands
  | [item], tokens, hstands => by
      rw [StandForAll] at hstands ⊢
      obtain ⟨token, htokens, hitem⟩ := hstands
      exact ⟨token, htokens, standsFor h item token hitem⟩
  | item :: next :: rest, tokens, hstands => by
      rw [standForAll_cons] at hstands ⊢
      obtain ⟨token, separator, more, htokens, hitem, hseparator, hrest⟩ := hstands
      exact ⟨token, separator, more, htokens, standsFor h item token hitem, hseparator,
        standForAll h (next :: rest) more hrest⟩

end

end Keeps

section Building

variable (forest : Forest)

theorem keeps_pushLiteral (literal : Literal) :
    forest.Keeps (forest.pushLiteral literal).2 := by
  refine ⟨rfl, fun i kept hi => ?_, fun _ _ => ⟨rfl, rfl⟩⟩
  have hlt : i < forest.literals.size := (Array.getElem?_eq_some_iff.mp hi).1
  show (forest.literals.push literal)[i]? = some kept
  rw [Array.getElem?_push, if_neg hlt.ne]
  exact hi

/-- A literal that is added can be looked up. -/
theorem literals_pushLiteral (literal : Literal) :
    (forest.pushLiteral literal).2.literals[(forest.pushLiteral literal).1.index]? =
      some literal := by
  simp [pushLiteral]

theorem keeps_openNode (opened : OpenedNode) : forest.Keeps (forest.openNode opened).2 := by
  refine ⟨rfl, fun _ _ h => h, fun id hid => ⟨forest.tokenList_openNode opened id, ?_⟩⟩
  rw [header_openNode, if_neg]
  rintro rfl
  exact hid (forest.tokenList_of_size_le le_rfl)

/-- Closing a node that has no tokens yet changes no other node. -/
theorem keeps_closeNode (hp : forest.Packed) {id : NodeId} (hid : id.index < forest.nodes.size)
    (hempty : forest.tokenList id = []) (tokens : Array Token) (closer : Option DelimiterId)
    (stop : Nat) : forest.Keeps (forest.closeNode id tokens closer stop) := by
  refine ⟨rfl, fun _ _ h => h, fun other hother => ?_⟩
  have hne : other ≠ id := by
    rintro rfl
    exact hother hempty
  rw [tokenList_closeNode forest hp hid, if_neg hne, header_closeNode, if_neg fun hc => hne hc.1]
  exact ⟨rfl, rfl⟩

end Building

end Forest
end ExprLang
