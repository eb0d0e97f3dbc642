import Bindery.Span

/-!
Where a span lies in a source text, for reports.

What finds the place of a span when a report is shown is a `Locator`. It stands for a renderer
that is not part of the compiler. `Location.of` is one: lines and columns count from 1, and a
column is a byte. A line ends in a line feed, a carriage return or both.
`Location.breaksBeyond_of` says which spans a report fails on.
-/

namespace Bindery.Cli

inductive Location where
  | found (line column : Nat)
  /-- The span leads out of the text. A report leaves the place out. -/
  | outside
  /-- The span is empty and a byte past the end of the text. A report takes it for a
  place in the text, and breaks off when it gets there. -/
  | beyond
deriving DecidableEq, Repr, Inhabited

/-- What a report takes for the place of a span in a text. -/
abbrev Locator := String → Span → Location

/-- Reports break off at an empty span a byte behind the end of the text, and nowhere else. -/
def Locator.BreaksBeyond (locate : Locator) : Prop :=
  ∀ text span, locate text span = .beyond ↔
    span.length = 0 ∧ span.start.toNat = text.utf8ByteSize + 1

namespace Location

/-- The line and the column `distance` bytes further on. Both bytes at the end of a line
are in the column where the line ends. -/
def advance (line column : Nat) : Nat → List UInt8 → Nat × Nat
  | 0, _ | _, [] | 1, 13 :: 10 :: _ => (line, column)
  | distance + 2, 13 :: 10 :: rest => advance (line + 1) 1 distance rest
  | distance + 1, byte :: rest =>
    if byte = 10 ∨ byte = 13 then advance (line + 1) 1 distance rest
    else advance line (column + 1) distance rest

/-- The location of a span. The end of the text counts as one more byte of it. -/
def of (text : String) (span : Span) : Location :=
  if text.utf8ByteSize + 1 < span.stop then .outside
  else if text.utf8ByteSize < span.start.toNat then .beyond
  else
    let (line, column) := advance 1 1 span.start.toNat text.toUTF8.toList
    .found line column

/-- A span is beyond the text exactly if it is empty and leaves out one byte behind it. -/
theorem breaksBeyond_of : Locator.BreaksBeyond of := by
  intro text span
  have empty : span.length = 0 ↔ span.length.toNat = 0 := by
    rw [← UInt32.toNat_inj]
    rfl
  rw [of, empty, Span.stop]
  constructor
  · intro h
    split at h
    · cases h
    · split at h
      · omega
      · cases h
  · intro ⟨noBytes, behind⟩
    rw [if_neg (by omega), if_pos (by omega)]

end Location

end Bindery.Cli
