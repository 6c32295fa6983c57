/-
Lines of a text, found once, for places at any offset. A line starts at the beginning of the text and after
every line break; an offset lies in the last line that starts at or before it.
-/
import GrammarKit.Text.Position

namespace GrammarKit

structure LineTable where
  text : List Char
  /-- Byte offsets at which lines start, in ascending order. -/
  starts : List Nat

namespace LineTable

/-- The offsets after the line breaks of a text that begins at `offset`. -/
def startsAfter (offset : Nat) : List Char → List Nat
  | [] => []
  | c :: cs =>
    let next := offset + c.utf8Size
    if c = '\n' then next :: startsAfter next cs else startsAfter next cs

def ofText (text : List Char) : LineTable := ⟨text, 0 :: startsAfter 0 text⟩

/-- Line and column of a byte offset. -/
def place (t : LineTable) (offset : Nat) : Nat × Nat :=
  let upTo := t.starts.takeWhile (· ≤ offset)
  let inLine := match Text.cut3? t.text (upTo.getLastD 0) offset with
    | some (_, inside, _) => inside
    | none => []
  (upTo.length, inLine.length + 1)

/-- The span between two byte offsets. -/
def span (t : LineTable) (start stop : Nat) : Span :=
  let (line, column) := t.place start
  let (stopLine, stopColumn) := t.place stop
  ⟨start, line, column, stop, stopLine, stopColumn⟩

end LineTable

end GrammarKit
