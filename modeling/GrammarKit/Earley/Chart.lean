/-
Charts: the columns of all positions, and the terminals that were recognised between them.
-/
import GrammarKit.Earley.Column
import GrammarKit.Scan.Source

namespace GrammarKit.Earley

/-- A terminal recognised between two positions. -/
structure Scan where
  start : Nat
  stop : Nat
  terminal : String
  token : Token

structure Chart where
  grammar : ChartRules
  columns : List Column
  scans : List Scan := []
  /-- By position, the earlier positions from which only skipped text leads there. -/
  gaps : List (Nat × List Nat) := []

namespace Chart

def column (c : Chart) (position : Nat) : Column := (c.columns[position]?).getD []

def last (c : Chart) : Column := c.columns.getLastD []

/-- The last position. -/
def stop (c : Chart) : Nat := c.columns.length - 1

def contains (c : Chart) (position : Nat) (i : Item) : Bool := (c.column position).contains i

def completed (c : Chart) (position : Nat) (name : String) (origin : Nat) : List Nat :=
  c.grammar.completed (c.column position) name origin

/-- The terminals that the last column waits for. -/
def expected (c : Chart) : List String := c.grammar.expected c.last

/-- The token of a terminal between two positions. -/
def token? (c : Chart) (start stop : Nat) (terminal : String) : Option Token :=
  (c.scans.find? fun s => s.start == start && s.stop == stop && s.terminal == terminal).map (·.token)

/-- Whether the start symbol is recognised up to the last position. -/
def accepts (c : Chart) (start : String) : Bool := !(c.completed c.stop start 0).isEmpty

/-! ## Recognising tokens -/

/-- Whether a token can stand for a terminal. A failure ends the parse. -/
abbrev TokenMatch := String → Token → Outcome Bool

/-- A token stands for the terminal it is named after. -/
def byName : TokenMatch := fun terminal t => .ok (t.kind == terminal)

/-- The chart before the first token. -/
def start (g : ChartRules) (name : String) : Outcome Chart := do
  return { grammar := g, columns := [g.column [] (← g.seeds name)] }

/-- The chart after one more token. -/
def scan (matches? : TokenMatch) (c : Chart) (t : Token) : Outcome Chart := do
  let taken ← (c.grammar.waiting c.last).filterM fun (_, terminal) => matches? terminal t
  if taken.isEmpty then throw (.parse (.atToken t c.expected))
  return { c with
    columns := c.columns ++ [c.grammar.column c.columns (taken.map fun (i, _) => i.advance)]
    scans := c.scans ++ taken.map fun (_, terminal) => ⟨c.stop, c.stop + 1, terminal, t⟩ }

variable {σ : Type} [TokenSource σ]

/-- The chart after every token of a source. -/
def scanAll (matches? : TokenMatch) (c : Chart) (source : σ) : Outcome Chart :=
  match h : TokenSource.pull source none with
  | (.error f, _) => .error f
  | (.ok none, _) => .ok c
  | (.ok (some t), rest) =>
    have hlt : TokenSource.size rest < TokenSource.size source := by
      have := TokenSource.size_pull_lt source none t (by rw [h])
      rwa [h] at this
    match c.scan matches? t with
    | .ok c => scanAll matches? c rest
    | .error f => .error f
termination_by TokenSource.size source

/-- The chart of a source's tokens as a start symbol, whether or not they are complete. -/
def ofTokens (g : ChartRules) (matches? : TokenMatch) (source : σ) (name : String) : Outcome Chart := do
  (← start g name).scanAll matches? source

end Chart

end GrammarKit.Earley
