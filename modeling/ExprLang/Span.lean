/-!
# Spans

A span is a half-open range of byte offsets into a text. Spans are merged to
the smallest span that covers both.
-/

namespace ExprLang

/-- The byte range from `start` up to, not including, `stop`. -/
structure Span where
  start : Nat
  stop : Nat
  deriving DecidableEq, Inhabited

namespace Span

/-- The span of `length` bytes from `start`. -/
def ofLength (start length : Nat) : Span :=
  ⟨start, start + length⟩

/-- Number of values an offset can take: offsets are kept in 32 bits. -/
def offsetCount : Nat := 0x100000000

/-- The span of `length` bytes from `start` with both ends reduced to 32 bits. -/
def ofWords (start length : Nat) : Span :=
  ⟨start % offsetCount, (start + length) % offsetCount⟩

/-- The empty span at an offset. -/
def point (offset : Nat) : Span :=
  ⟨offset, offset⟩

/-- Number of bytes covered. -/
def length (span : Span) : Nat :=
  span.stop - span.start

/-- Is no byte covered? -/
def isEmpty (span : Span) : Bool :=
  span.start == span.stop

/-- Is the byte at `offset` covered? -/
def contains (span : Span) (offset : Nat) : Bool :=
  span.start ≤ offset && offset < span.stop

/-- The smallest span that covers both. -/
def merge (a b : Span) : Span :=
  ⟨min a.start b.start, max a.stop b.stop⟩

/-- The written form: both ends, joined by two dots. -/
def render (span : Span) : String :=
  toString span.start ++ ".." ++ toString span.stop

section Lemmas

variable (a b : Span)

theorem merge_comm : a.merge b = b.merge a := by
  simp [merge, Nat.min_comm, Nat.max_comm]

@[simp]
theorem merge_self : a.merge a = a := by
  simp [merge]

@[simp]
theorem length_ofLength (start length : Nat) : (ofLength start length).length = length := by
  simp [ofLength, Span.length]

end Lemmas

end Span
end ExprLang
