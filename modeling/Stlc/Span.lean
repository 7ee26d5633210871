/-!
# Spans

A `Span` is the part of a source text that a node was read from, as a pair of byte offsets. Spans
are carried along for error reports and never influence what a node means.
-/

namespace Stlc

/-- The bytes of a source text from offset `start` up to, and not including, offset `stop`. -/
structure Span where
  start : Nat
  stop : Nat
deriving DecidableEq

namespace Span

/-- The span of a node that was not read from any text. -/
def nowhere : Span := ⟨0, 0⟩

def point (offset : Nat) : Span := ⟨offset, offset⟩

end Span

end Stlc
