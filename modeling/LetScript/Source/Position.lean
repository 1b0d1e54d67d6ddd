/-!
# Positions and spans

A position is a byte offset into a named source text. A span is a pair of positions, and
`Span.through` covers two spans and everything between them.

Offsets have no upper bound here. A program that keeps them in 32 bits, and gives `2 ^ 32 - 1` for
any greater one, has the same positions for every source text of less than `2 ^ 32` bytes. Beyond
that size its positions are no longer those of the tokens, and nothing is said about it.
-/

namespace LetScript

/-- A byte offset into the source text named `file`. -/
structure Position where
  file : String
  offset : Nat
  deriving DecidableEq

/-- The position given to the end of a token sequence that has no tokens at all. -/
def Position.nowhere : Position := ⟨"<null>", 0⟩

/-- The part of a source text from `start` up to, but not including, `stop`. -/
structure Span where
  start : Position
  stop : Position
  deriving DecidableEq

namespace Span

/-- The empty span at a position. -/
def empty (position : Position) : Span := ⟨position, position⟩

/-- The span from the start of the first span to the end of the second. -/
def through (first last : Span) : Span := ⟨first.start, last.stop⟩

/-- The number of bytes covered, which is zero for a span that ends before it starts. -/
def length (span : Span) : Nat := span.stop.offset - span.start.offset

/-- A span is empty if it covers no byte. -/
def isEmpty (span : Span) : Bool := span.length == 0

@[simp] theorem start_through (first last : Span) :
    (first.through last).start = first.start := rfl

@[simp] theorem stop_through (first last : Span) :
    (first.through last).stop = last.stop := rfl

@[simp] theorem through_self (span : Span) : span.through span = span := rfl

@[simp] theorem length_empty (position : Position) : (empty position).length = 0 :=
  Nat.sub_self _

end Span

end LetScript
