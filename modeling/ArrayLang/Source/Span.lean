/-!
# Source spans

A span is the byte range of the source line that an expression was read from. Nodes that were
built without a source carry the *dummy* span `0..0`, which never locates an error.
-/

namespace ArrayLang

/-- Byte range of an expression in its source line. -/
structure Span where
  start : Nat
  stop : Nat
deriving DecidableEq, Repr

namespace Span

/-- The span of a node that no source text stands behind. -/
def dummy : Span := ⟨0, 0⟩

/-- Only `0..0` counts as no location; an empty range elsewhere is a location. -/
def isDummy (s : Span) : Bool := s.start == 0 && s.stop == 0

/-- The smallest span that covers both. -/
def merge (a b : Span) : Span := ⟨min a.start b.start, max a.stop b.stop⟩

/-- A span is written as its two ends around two points. -/
def text (s : Span) : String := toString s.start ++ ".." ++ toString s.stop

/-- Only the dummy span counts as none. -/
theorem isDummy_iff (s : Span) : s.isDummy = true ↔ s = dummy := by
  cases s; simp [isDummy, dummy]

end Span

end ArrayLang
