import ExprLang.Forest.Basic
import Mathlib.Tactic

/-!
# Trees of binary operators

A chain is an operand followed by links, each an operator with the operand behind it.
Read from left to right a tree of binary operators is a chain. The tree that belongs to
a chain is told by how tightly its operators bind: the one at the top binds least, and
of several such ones it is the first.

Main results:
* `inorder_eq_chain`: every tree reads as a chain;
* `Ordered.unique`: ordered trees that read the same are equal.
-/

namespace ExprLang

/-- Operands and operators in turn: an operand, and links of an operator with an operand. -/
def chain (operand : Token) (links : List (Token × Token)) : List Token :=
  operand :: links.flatMap fun link => [link.1, link.2]

theorem chain_injective {a b : Token} {as bs : List (Token × Token)}
    (h : chain a as = chain b bs) : a = b ∧ as = bs := by
  induction as generalizing a b bs with
  | nil =>
      cases bs with
      | nil => exact ⟨(List.cons.inj h).1, rfl⟩
      | cons link bs => simp [chain] at h
  | cons link as ih =>
      cases bs with
      | nil => simp [chain] at h
      | cons link' bs =>
          obtain ⟨rfl, htail⟩ := List.cons.inj h
          obtain ⟨hop, hrest⟩ := List.cons.inj htail
          obtain ⟨hoperand, rfl⟩ := ih (a := link.2) (b := link'.2) hrest
          exact ⟨rfl, by rw [Prod.ext hop hoperand]⟩

theorem chain_append (a : Token) (as : List (Token × Token)) (link : Token × Token)
    (bs : List (Token × Token)) :
    chain a (as ++ link :: bs) = chain a as ++ link.1 :: chain link.2 bs := by
  simp [chain]

/-- Binary operators with their operands. -/
inductive OperatorTree where
  | operand (token : Token)
  | binary (left : OperatorTree) (operator : Token) (right : OperatorTree)

namespace OperatorTree

/-- The tokens of a tree from left to right. -/
def inorder : OperatorTree → List Token
  | operand token => [token]
  | binary left operator right => left.inorder ++ operator :: right.inorder

/-- The operator at the top of a tree, if it is no operand. -/
def top? : OperatorTree → Option Token
  | operand _ => none
  | binary _ operator _ => some operator

/--
Operators of a lower rank are nested in those of a higher one, and among equal ones those
on the right in those on the left.
-/
def Ordered (rank : Token → Nat) : OperatorTree → Prop
  | operand _ => True
  | binary left operator right =>
      left.Ordered rank ∧ right.Ordered rank ∧
        (∀ top ∈ left.top?, rank top < rank operator) ∧
          ∀ top ∈ right.top?, rank top ≤ rank operator

/-- The first operand of a tree. -/
def first : OperatorTree → Token
  | operand token => token
  | binary left _ _ => left.first

/-- The operators of a tree, each with the operand behind it. -/
def links : OperatorTree → List (Token × Token)
  | operand _ => []
  | binary left operator right => left.links ++ (operator, right.first) :: right.links

variable {rank : Token → Nat}

theorem mem_inorder_of_top? {tree : OperatorTree} {top : Token} (h : tree.top? = some top) :
    top ∈ tree.inorder := by
  cases tree with
  | operand token => cases h
  | binary left operator right =>
      obtain rfl : operator = top := Option.some.inj h
      exact List.mem_append_right _ List.mem_cons_self

/-- A tree reads as a chain. -/
theorem inorder_eq_chain (tree : OperatorTree) : tree.inorder = chain tree.first tree.links := by
  induction tree with
  | operand token => rfl
  | binary left operator right ihLeft ihRight =>
      rw [inorder, ihLeft, ihRight, first, links, chain_append]

/-- The operator at the top has the highest rank. -/
theorem Ordered.le_top {tree : OperatorTree} (h : tree.Ordered rank) {top : Token}
    (htop : tree.top? = some top) : ∀ link ∈ tree.links, rank link.1 ≤ rank top := by
  induction tree generalizing top with
  | operand token => cases htop
  | binary left operator right ihLeft ihRight =>
      obtain ⟨hleft, hright, hltop, hrtop⟩ := h
      obtain rfl : operator = top := Option.some.inj htop
      intro link hlink
      rcases List.mem_append.mp hlink with hlink | hlink
      · cases left with
        | operand token => cases hlink
        | binary l o r =>
            exact Nat.le_trans (ihLeft hleft rfl link hlink) (Nat.le_of_lt (hltop o rfl))
      · rcases List.mem_cons.mp hlink with rfl | hlink
        · exact le_rfl
        · cases right with
          | operand token => cases hlink
          | binary l o r => exact Nat.le_trans (ihRight hright rfl link hlink) (hrtop o rfl)

theorem Ordered.left_lt {left right : OperatorTree} {operator : Token}
    (h : (binary left operator right).Ordered rank) :
    ∀ link ∈ left.links, rank link.1 < rank operator := by
  obtain ⟨hleft, -, hltop, -⟩ := h
  intro link hlink
  cases left with
  | operand token => cases hlink
  | binary l o r => exact Nat.lt_of_le_of_lt (hleft.le_top rfl link hlink) (hltop o rfl)

theorem Ordered.right_le {left right : OperatorTree} {operator : Token}
    (h : (binary left operator right).Ordered rank) :
    ∀ link ∈ right.links, rank link.1 ≤ rank operator := by
  intro link hlink
  exact h.le_top rfl link (List.mem_append_right _ (List.mem_cons_of_mem _ hlink))

/-- Ordered trees with the same operators have the same one at the top. -/
theorem Ordered.split_unique {l r l' r' : OperatorTree} {o o' : Token}
    (h : (binary l o r).Ordered rank) (h' : (binary l' o' r').Ordered rank)
    (hlinks : (binary l o r).links = (binary l' o' r').links) :
    l.links = l'.links ∧ (o, r.first) = (o', r'.first) ∧ r.links = r'.links := by
  -- if one operator were left of the other one, it would rank below it and not below it
  have hnot : ∀ {l r l' r' : OperatorTree} {o o' : Token} {between : List (Token × Token)}
      {link : Token × Token}, (binary l o r).Ordered rank → (binary l' o' r').Ordered rank →
        l'.links = l.links ++ link :: between →
          (o, r.first) :: r.links = link :: between ++ (o', r'.first) :: r'.links → False := by
    intro l r l' r' o o' between link h h' hleft hright
    obtain ⟨rfl, hrest⟩ := List.cons.inj hright
    have hlt := h'.left_lt (o, r.first) (by rw [hleft]; simp)
    have hle := h.right_le (o', r'.first) (by rw [hrest]; simp)
    exact Nat.lt_irrefl _ (Nat.lt_of_lt_of_le hlt hle)
  rcases List.append_eq_append_iff.mp hlinks with
    ⟨between, hleft, hright⟩ | ⟨between, hleft, hright⟩
  · cases between with
    | nil =>
        obtain ⟨hlink, hrest⟩ := List.cons.inj hright
        exact ⟨by simpa using hleft.symm, hlink, hrest⟩
    | cons link between => exact (hnot h h' hleft hright).elim
  · cases between with
    | nil =>
        obtain ⟨hlink, hrest⟩ := List.cons.inj hright
        exact ⟨by simpa using hleft, hlink.symm, hrest.symm⟩
    | cons link between => exact (hnot h' h hleft hright).elim

theorem Ordered.eq_of_links {s t : OperatorTree} (hs : s.Ordered rank) (ht : t.Ordered rank)
    (hfirst : s.first = t.first) (hlinks : s.links = t.links) : s = t := by
  induction s generalizing t with
  | operand token =>
      cases t with
      | operand token' => exact congrArg operand hfirst
      | binary l' o' r' => simp [links] at hlinks
  | binary l o r ihLeft ihRight =>
      cases t with
      | operand token' => simp [links] at hlinks
      | binary l' o' r' =>
          obtain ⟨hleft, hlink, hright⟩ := hs.split_unique ht hlinks
          obtain ⟨rfl, hrfirst⟩ := Prod.mk.inj hlink
          obtain ⟨hsl, hsr, -⟩ := hs
          obtain ⟨htl, htr, -⟩ := ht
          rw [ihLeft hsl htl hfirst hleft, ihRight hsr htr hrfirst hright]

/-- Ordered trees that read the same are equal. -/
theorem Ordered.unique {s t : OperatorTree} (hs : s.Ordered rank) (ht : t.Ordered rank)
    (h : s.inorder = t.inorder) : s = t := by
  rw [inorder_eq_chain, inorder_eq_chain] at h
  obtain ⟨hfirst, hlinks⟩ := chain_injective h
  exact hs.eq_of_links ht hfirst hlinks

end OperatorTree
end ExprLang
