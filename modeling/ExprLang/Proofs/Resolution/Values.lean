import ExprLang.Resolution.Basic
import ExprLang.Value.Operation

/-!
# What values are made of

A list holds other values, down to any depth. Operators give plain values only, and what a
context makes of its items holds nothing but them. So a kind of value that is neither plain
nor a list comes out of them only if it went in.

Main results:
* `isPlain_of_binary`: the result of a binary operator is plain;
* `lacks_simplify`: what a context makes of its items holds nothing else.
-/

namespace ExprLang
namespace Value

/-- Does the value wait for its arguments? -/
def isInvocation : Value → Bool
  | invocation _ _ => true
  | _ => false

/-- Is it null, a boolean, a number or a string? -/
def isPlain : Value → Bool
  | null | bool _ | int _ | float _ | str _ => true
  | _ => false

/-- A value occurs in itself, and in the lists with an item in which it occurs. -/
inductive Occurs (part : Value) : Value → Prop
  | here : Occurs part part
  | item {item : Value} {items : List Value} (hmem : item ∈ items) (h : Occurs part item) :
      Occurs part (list items)

/-- No value of a kind occurs in a value. -/
def Lacks (kind : Value → Bool) (value : Value) : Prop :=
  ∀ part, Occurs part value → kind part = false

/-- A kind of value that is neither plain nor a list. -/
structure IsSpecial (kind : Value → Bool) : Prop where
  plain : ∀ value, value.isPlain = true → kind value = false
  list : ∀ items, kind (.list items) = false

theorem isSpecial_isInvocation : IsSpecial isInvocation where
  plain := by
    intro value h
    cases value <;> simp_all [isPlain, isInvocation]
  list := fun _ => rfl

theorem isSpecial_isUnresolved : IsSpecial isUnresolved where
  plain := by
    intro value h
    cases value <;> simp_all [isPlain, isUnresolved]
  list := fun _ => rfl

section Parts

variable {kind : Value → Bool} {value : Value}

theorem Lacks.self (h : value.Lacks kind) : kind value = false :=
  h value .here

theorem not_lacks_of_isUnresolved (h : value.isUnresolved = true) :
    ¬ value.Lacks isUnresolved := by
  intro hlacks
  rw [hlacks.self] at h
  cases h

/-- A value other than a list has no parts but itself. -/
theorem lacks_of_forall_ne_list (hvalue : ∀ items, value ≠ list items)
    (hkind : kind value = false) : value.Lacks kind := by
  intro part h
  cases h with
  | here => exact hkind
  | item hmem _ => exact absurd rfl (hvalue _)

theorem lacks_list_iff {items : List Value} :
    (list items).Lacks kind ↔ kind (list items) = false ∧ ∀ item ∈ items, item.Lacks kind := by
  constructor
  · intro h
    exact ⟨h.self, fun item hitem part hpart => h part (.item hitem hpart)⟩
  · rintro ⟨hself, hitems⟩ part h
    cases h with
    | here => exact hself
    | item hmem hpart => exact hitems _ hmem part hpart

section Special

variable (hkind : IsSpecial kind)

include hkind

theorem IsSpecial.lacks_plain (hvalue : value.isPlain = true) : value.Lacks kind := by
  refine lacks_of_forall_ne_list ?_ (hkind.plain value hvalue)
  rintro items rfl
  cases hvalue

theorem IsSpecial.lacks_list {items : List Value} (h : ∀ item ∈ items, item.Lacks kind) :
    (Value.list items).Lacks kind :=
  lacks_list_iff.mpr ⟨hkind.list items, h⟩

theorem IsSpecial.lacks_collapse {values : List Value} (h : ∀ value ∈ values, value.Lacks kind) :
    (collapse values).Lacks kind := by
  match values with
  | [] => exact hkind.lacks_plain rfl
  | [value] => exact h value List.mem_cons_self
  | _ :: _ :: _ => exact hkind.lacks_list h

theorem IsSpecial.lacks_negate (h : value.Lacks kind) : (Operation.negate value).Lacks kind := by
  cases value with
  | bool b => exact hkind.lacks_plain rfl
  | _ => exact h

end Special

end Parts

section Literals

theorem isPlain_ofLiteral (literal : Literal) : (ofLiteral literal).isPlain = true := by
  cases literal <;> rfl

theorem isPlain_of_ofInt? {n : Int} {value : Value} (h : ofInt? n = some value) :
    value.isPlain = true := by
  obtain ⟨_, -, rfl⟩ := Option.map_eq_some_iff.mp h
  rfl

end Literals

end Value

namespace Operation

open Value

variable {op : Operator} {left right value : Value}

/-- A string made of a result is plain. -/
theorem isPlain_of_map_str {result : Except ResolveError String}
    (h : result.map Value.str = .ok value) : value.isPlain = true := by
  cases result with
  | error e => cases h
  | ok s =>
      obtain rfl := Except.ok.inj h
      rfl

section Arithmetic

theorem isPlain_of_power? {base : Int} {exponent : Nat} (h : power? base exponent = some value) :
    value.isPlain = true := by
  unfold power? at h
  split at h
  · exact isPlain_of_ofInt? h
  · split at h
    · exact isPlain_of_ofInt? h
    · cases h

theorem isPlain_of_onIntegers? {a b : Int} (h : onIntegers? op a b = some value) :
    value.isPlain = true := by
  unfold onIntegers? at h
  split at h
  · exact isPlain_of_ofInt? h
  · exact isPlain_of_ofInt? h
  · exact isPlain_of_ofInt? h
  · split at h
    · cases h
    · exact isPlain_of_ofInt? h
  · split at h
    · exact isPlain_of_power? h
    · cases h
  · cases h

theorem isPlain_of_onFloats {zero : Bool} {x y : Float} (h : onFloats op zero x y = .ok value) :
    value.isPlain = true := by
  have hfloat : ∀ z : Float, Except.ok (Value.float z) = (.ok value : Except ResolveError Value) →
      value.isPlain = true := by
    rintro z hz
    rw [← Except.ok.inj hz]
    rfl
  unfold onFloats at h
  split at h
  · exact hfloat _ h
  · exact hfloat _ h
  · exact hfloat _ h
  · split at h
    · cases h
    · exact hfloat _ h
  · split at h
    · cases h
    · exact hfloat _ h
  · exact hfloat _ h
  · cases h

theorem isPlain_of_arithmetic {a b : Number} (h : arithmetic op a b = .ok value) :
    value.isPlain = true := by
  unfold arithmetic at h
  simp only at h
  split at h
  · rename_i exact hexact
    obtain rfl := Except.ok.inj h
    split at hexact
    · exact isPlain_of_onIntegers? hexact
    · cases hexact
  · exact isPlain_of_onFloats h

theorem isPlain_of_numeric (h : numeric op left right = .ok value) : value.isPlain = true := by
  unfold numeric at h
  cases hnumbers : numbers op left right with
  | error e =>
      rw [hnumbers] at h
      cases h
  | ok pair =>
      rw [hnumbers] at h
      exact isPlain_of_arithmetic h

end Arithmetic

theorem isPlain_of_repeatBy {s : String} {count : Value}
    (h : repeatBy s count left right = .ok value) : value.isPlain = true := by
  unfold repeatBy at h
  split at h
  · cases h
  · exact isPlain_of_map_str h

theorem isPlain_of_add (h : add left right = .ok value) : value.isPlain = true := by
  unfold add at h
  split at h
  · exact isPlain_of_arithmetic h
  · split at h
    · rw [← Except.ok.inj h]
      rfl
    · rw [← Except.ok.inj h]
      rfl
    · cases h

theorem isPlain_of_multiply (h : multiply left right = .ok value) : value.isPlain = true := by
  unfold multiply at h
  split at h
  · exact isPlain_of_repeatBy h
  · exact isPlain_of_repeatBy h
  · exact isPlain_of_numeric h

theorem isPlain_of_modulus (h : modulus left right = .ok value) : value.isPlain = true := by
  unfold modulus at h
  split at h
  · exact isPlain_of_map_str h
  · exact isPlain_of_numeric h

theorem isPlain_of_comparison (h : comparison op left right = .ok value) :
    value.isPlain = true := by
  unfold comparison at h
  cases horder : order op left right with
  | error e =>
      rw [horder] at h
      cases h
  | ok result =>
      rw [horder] at h
      rw [← Except.ok.inj h]
      rfl

/-- The result of a binary operator is plain. -/
theorem isPlain_of_binary (h : binary op left right = .ok value) : value.isPlain = true := by
  unfold binary at h
  split at h
  · exact isPlain_of_add h
  · exact isPlain_of_multiply h
  · exact isPlain_of_modulus h
  · exact isPlain_of_numeric h
  · exact isPlain_of_numeric h
  · exact isPlain_of_numeric h
  · rw [← Except.ok.inj h]
    rfl
  · rw [← Except.ok.inj h]
    rfl
  · split at h
    · exact isPlain_of_comparison h
    · cases h

end Operation

namespace Resolution

/-- What a context makes of its items holds nothing but them. -/
theorem lacks_simplify {σ : Type} (resolution : Resolution σ) {kind : Value → Bool}
    (hkind : Value.IsSpecial kind) (rules : RuleSetId) {values : List Value}
    (h : ∀ value ∈ values, value.Lacks kind) : (resolution.simplify rules values).Lacks kind := by
  unfold simplify
  split
  · exact hkind.lacks_collapse h
  · exact hkind.lacks_plain rfl
  · exact hkind.lacks_plain rfl
  · exact hkind.lacks_list h

end Resolution
end ExprLang
