/-
Lines and columns.

A place is shown by its line and column, both counted from one, the column in bytes.  A
line ends with a carriage return, a line feed, or both in this order.  A span that
reaches beyond the end of the source has no position; an empty span may stand just
behind it.
-/
import ProtoSchema.Span

namespace ProtoSchema

/-- A line and a column, counted from one. -/
structure Position where
  line : Nat
  column : Nat
deriving DecidableEq, Repr

namespace Position

/--
Reads on from byte `offset`, which follows `line` line ends, `column` bytes behind the
last one.  Only what lies before `start` counts, and once `last` has been reached the
position is known.
-/
def locate (start last : Nat) : (offset line column : Nat) → List UInt8 → Option Position
  | offset, line, column, [] => if last ≤ offset then some ⟨line + 1, column + 1⟩ else none
  | offset, line, column, 13 :: 10 :: bs =>
    let (line, column) := if offset + 1 < start then (line + 1, 0) else (line, column)
    if last ≤ offset + 1 then some ⟨line + 1, column + 1⟩
    else locate start last (offset + 2) line column bs
  | offset, line, column, b :: bs =>
    let (line, column) :=
      if offset < start then
        if b = 13 ∨ b = 10 then (line + 1, 0) else (line, column + 1)
      else (line, column)
    if last ≤ offset then some ⟨line + 1, column + 1⟩
    else locate start last (offset + 1) line column bs

/-- The position of the start of a span in a source. -/
def ofSpan? (source : List UInt8) (span : Span) : Option Position :=
  locate span.start (span.start + (span.stop - span.start) - 1) 0 0 0 source

end Position

end ProtoSchema
