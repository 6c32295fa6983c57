/-
Compact tables over all code points. A table is a text of entries, each a decimal length followed by
a label of letters; the entries stand for consecutive runs of code points, the first one from zero.
-/
namespace GrammarKit.Unicode

/-- A run of code points with one label. -/
structure Run where
  first : Nat
  last : Nat
  label : String

/-- Here `count` and `label` hold what has been read of the current entry, `start` where its run begins. -/
def readEntries (start count : Nat) (label : List Char) : List Char → List Run
  | [] => close start count label
  | c :: cs =>
    if c.isDigit then
      let digit := c.toNat - '0'.toNat
      if label.isEmpty then readEntries start (count * 10 + digit) [] cs
      else close start count label ++ readEntries (start + count) digit [] cs
    else readEntries start count (c :: label) cs
where
  close (start count : Nat) (label : List Char) : List Run :=
    if count = 0 then [] else [⟨start, start + count - 1, String.ofList label.reverse⟩]

/-- The runs that a table describes. -/
def readRuns (table : String) : List Run := readEntries 0 0 [] table.toList

/-- The ranges of code points whose label is wanted. -/
def labelled (keep : String → Bool) (runs : List Run) : List (Nat × Nat) :=
  runs.filterMap fun r => if keep r.label then some (r.first, r.last) else none

end GrammarKit.Unicode
