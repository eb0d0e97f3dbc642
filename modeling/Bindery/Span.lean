/-!
Source spans.

A span is a half-open range of byte offsets. Offsets are 32-bit words; bounds
are compared and added as natural numbers, so no operation wraps on spans that
lie inside one text.
-/

namespace Bindery

/-- The bytes from `start` up to, not including, `start + length`. -/
structure Span where
  start : UInt32
  length : UInt32
deriving DecidableEq, Repr, Inhabited

namespace Span

def stop (s : Span) : Nat :=
  s.start.toNat + s.length.toNat

/-- The span from `start` up to, not including, `stop`. -/
def ofBounds (start stop : Nat) : Span :=
  ⟨.ofNat start, .ofNat (stop - start)⟩

def emptyAt (position : UInt32) : Span :=
  ⟨position, 0⟩

def isEmpty (s : Span) : Bool :=
  s.length == 0

def contains (s : Span) (position : UInt32) : Bool :=
  s.start.toNat ≤ position.toNat && position.toNat < s.stop

/-- The smallest span that covers both. -/
def union (s t : Span) : Span :=
  ofBounds (min s.start.toNat t.start.toNat) (max s.stop t.stop)

/-- The last byte of a span, such as the closing brace of a block. An empty span
has none and stays as it is. -/
def lastByte (s : Span) : Span :=
  if s.isEmpty then s else ⟨.ofNat (s.stop - 1), 1⟩

/-- A span as a half-open interval: `[3, 7)`. -/
def text (s : Span) : String :=
  "[" ++ toString s.start.toNat ++ ", " ++ toString s.stop ++ ")"

/-- A span as a range: `3..7`. -/
def rangeText (s : Span) : String :=
  toString s.start.toNat ++ ".." ++ toString s.stop

end Span

end Bindery
