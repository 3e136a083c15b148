/-!
# Kinds of context

A rule set says what kind of context it makes; a node keeps the kind of the rule
set that it was made for.
-/

namespace ExprLang

/-- One property of a context. -/
inductive ContextFlag where
  /-- The outermost list. -/
  | root
  /-- A pair of brackets. -/
  | enclosure
  /-- The body of a string or a character: its text is not a name. -/
  | textLiteral
  /-- A comment, which is no term. -/
  | comment
  /-- Ends with its line, and with the text. -/
  | lineComment
  /-- An operator with its operands. -/
  | operator
  deriving DecidableEq, Inhabited

/-- The properties, in the order in which they are listed. -/
def ContextFlag.all : List ContextFlag :=
  [.root, .enclosure, .textLiteral, .comment, .lineComment, .operator]

/-- The properties of a context. -/
structure ContextClass where
  has : ContextFlag → Bool

namespace ContextClass

/-- The context with these properties and no others. -/
def ofFlags (flags : List ContextFlag) : ContextClass :=
  ⟨fun flag => flags.contains flag⟩

/-- No property. -/
def empty : ContextClass :=
  ofFlags []

instance : Inhabited ContextClass :=
  ⟨empty⟩

/-- The properties that a context has, in order. -/
def flags (contextClass : ContextClass) : List ContextFlag :=
  ContextFlag.all.filter contextClass.has

@[simp]
theorem has_ofFlags (flags : List ContextFlag) (flag : ContextFlag) :
    (ofFlags flags).has flag = flags.contains flag := rfl

theorem mem_flags_iff (contextClass : ContextClass) (flag : ContextFlag) :
    flag ∈ contextClass.flags ↔ contextClass.has flag = true := by
  cases flag <;> simp [flags, ContextFlag.all]

/-- A context is made out by its properties. -/
theorem ofFlags_flags (contextClass : ContextClass) :
    ofFlags contextClass.flags = contextClass := by
  cases contextClass with
  | mk has =>
      simp only [ofFlags, mk.injEq]
      funext flag
      rw [Bool.eq_iff_iff]
      simpa using mem_flags_iff ⟨has⟩ flag

end ContextClass
end ExprLang
