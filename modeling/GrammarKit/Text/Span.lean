/-
Stretches of a text. Offsets count bytes of UTF-8 from the start of the text; lines and columns count
from one, and a column counts characters. A span is always complete: what cannot name all six numbers
has no span.
-/
namespace GrammarKit

structure Span where
  start : Nat
  line : Nat
  column : Nat
  stop : Nat
  stopLine : Nat
  stopColumn : Nat
  deriving DecidableEq

/-- The least span that holds both: it starts with the earlier start and ends with the later end. -/
def Span.cover (a b : Span) : Span :=
  let (first, second) := if a.start ≤ b.start then (a, b) else (b, a)
  let last := if first.stop ≤ second.stop then second else first
  ⟨first.start, first.line, first.column, last.stop, last.stopLine, last.stopColumn⟩

end GrammarKit
