import GraphQL.Text.Bytes

/-!
Half-open intervals. A span of a source counts bytes; the grammar uses the
same type to count tokens before they are placed in the source.
-/

namespace GraphQL

/-- The interval from `start` up to but excluding `stop`. -/
structure Span where
  start : Nat
  stop : Nat
  deriving DecidableEq, Repr, Inhabited

namespace Span

/-- The empty span at a place. -/
def empty (place : Nat) : Span := ⟨place, place⟩

def length (s : Span) : Nat := s.stop - s.start

def isEmpty (s : Span) : Bool := s.start == s.stop

/-- Moves a span to the right. -/
def shift (s : Span) (n : Nat) : Span := ⟨s.start + n, s.stop + n⟩

/-- The text under a span. There is none when the span leaves the text or cuts
a character. -/
def slice (s : Span) (text : List Char) : Option (List Char) :=
  if s.start ≤ s.stop then do
    let (_, tail) ← Text.splitAtByte s.start text
    let (covered, _) ← Text.splitAtByte s.length tail
    pure covered
  else none

/-- The text under a span of a source. -/
def slice? (s : Span) (source : String) : Option String :=
  (s.slice source.toList).map String.ofList

end Span
end GraphQL
