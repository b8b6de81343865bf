import AnySome.Source.Text

/-!
# Spans of source text

A span is a half-open range of bytes of a source text. Nothing forces its
ends to be in order: a span whose end does not lie behind its start is
empty, and slicing by it gives the empty text.

The ends are natural numbers without a bound. In texts of fewer than 2^32
bytes they fit into 32 bits, and a pair of 32-bit offsets is the same span.
-/

namespace AnySome

/-- The half-open byte range from `start` up to `stop`. -/
structure Span where
  start : Nat
  stop : Nat
deriving DecidableEq, Repr, Inhabited

namespace Span

/-- Number of bytes covered. -/
def length (s : Span) : Nat := s.stop - s.start

/-- No byte is covered. -/
def isEmpty (s : Span) : Bool := s.stop ≤ s.start

/-- The covered part of `text`. -/
def slice (s : Span) (text : String) : String := Text.slice text s.start s.stop

/-- The smallest span that covers both. -/
def cover (s t : Span) : Span := ⟨min s.start t.start, max s.stop t.stop⟩

/-- A span is empty exactly when its length is zero. -/
theorem isEmpty_iff_length_eq_zero (s : Span) : s.isEmpty = true ↔ s.length = 0 := by
  simp [isEmpty, length]
  omega

/-- Covering does not depend on the order of the two spans. -/
theorem cover_comm (s t : Span) : s.cover t = t.cover s := by
  simp [cover, Nat.min_comm, Nat.max_comm]

end Span

end AnySome
