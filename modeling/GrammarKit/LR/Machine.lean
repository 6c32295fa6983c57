/-
Shift-reduce parsing. A machine has a stack of states and a stack of values, the top first. A token is fed
by making the moves that the table gives for it: reductions replace the values of a rule by the value of
its node, until the token is shifted, the input is accepted or no move is left.

Nothing is undone when a token is refused: reductions that were made before it was stay made.
-/
import GrammarKit.Grammar.Basic
import GrammarKit.LR.Table

namespace GrammarKit.LR

structure Parser where
  table : Table
  actions : Actions

structure Machine where
  /-- States, the current one first. -/
  states : List Nat
  /-- Values of the symbols that led from state to state, the last one first. -/
  values : List Child := []
  /-- Span of the last shifted token that had one. -/
  lastSpan : Option Span := none

/-- What one move comes to. -/
inductive Step where
  | shifted (m : Machine)
  | reduced (m : Machine)
  | accepted (value : Option Child) (m : Machine)
  /-- The current state has no move for the token. -/
  | refused
  /-- A rule was reduced, and the state below has nowhere to go on after its origin. -/
  | stranded (rule : Rule) (m : Machine)

namespace Parser

def ofConfig (c : ParserConfig) (strict : Bool) : Outcome Parser := do
  return { table := ← Table.build c.rules c.start strict, actions := c.actions }

def report (p : Parser) : String :=
  Report.record "LalrParser"
    [("states", toString p.table.rows.length), ("rules", toString p.table.rules.length)]

end Parser

namespace Machine

/-- The machine that begins a start symbol. -/
def start (p : Parser) (name : String) : Outcome Machine :=
  match p.table.start? name with
  | some state => .ok { states := [state] }
  | none => .error (.configuration (.unknownStart name))

def current (m : Machine) : Nat := m.states.headD 0

/-- The end marker as a token, right after the last shifted token. -/
def endToken (m : Machine) : Token :=
  .ofText endMarker ""
    (m.lastSpan.map fun s => ⟨s.stop, s.stopLine, s.stopColumn, s.stop, s.stopLine, s.stopColumn⟩)

def shift (m : Machine) (state : Nat) (t : Token) : Machine :=
  { states := state :: m.states, values := .token t :: m.values, lastSpan := t.span.or m.lastSpan }

/-- Takes the states and values of a rule's symbols off the stacks. -/
def drop (m : Machine) (r : Rule) : Machine :=
  { m with states := m.states.drop r.parts.length, values := m.values.drop r.parts.length }

/-- The values of a rule's symbols, in the order of the symbols. -/
def children (m : Machine) (r : Rule) : List Child := (m.values.take r.parts.length).reverse

def reduce (p : Parser) (m : Machine) (r : Rule) : Step :=
  let below := m.drop r
  match p.table.goto? below.current r.origin with
  | some state =>
    .reduced { below with
      states := state :: below.states
      values := p.actions.apply r (m.children r) :: below.values }
  | none => .stranded r below

/-- The move for a token. -/
def step (p : Parser) (m : Machine) (t : Token) : Step :=
  match p.table.move? m.current t.kind with
  | none => .refused
  | some (.shift state) => .shifted (m.shift state t)
  | some .accept => .accepted m.values.head? { m with values := m.values.tail }
  | some (.reduce i) =>
    match p.table.rules[i]? with
    | some r => m.reduce p r
    | none => .refused

/-- More reductions in a row than this repeat themselves forever: while the stack does not fall below a
given height, it can rise above it by no more than the number of states before a state recurs there, and a
stack that recurs goes on as before. -/
def patience (p : Parser) (m : Machine) : Nat :=
  let n := p.table.rows.length + 1
  (m.states.length + 1) * Nat.pow n (n + 1)

/-- Feeds a token with a bounded number of moves. -/
def feedWithin (p : Parser) (t : Token) (atEnd : Bool) :
    (fuel : Nat) → Machine → Outcome (Option Child) × Machine
  | 0, m => (.error (.grammar (.endlessReduction t.kind)), m)
  | fuel + 1, m =>
    match m.step p t with
    | .shifted m => (.ok none, m)
    | .reduced m => feedWithin p t atEnd fuel m
    | .accepted value m => (.ok value, m)
    | .refused =>
      let expected := p.table.expected m.current
      (.error (.parse (if atEnd then .atEnd expected else .atToken t expected)), m)
    | .stranded r below => (.error (.grammar (.missingGoto r.origin below.current)), below)

/-- Feeds a token. There is a value only if the input is accepted. `atEnd` tells what a refusal means: the
end of the input or an unexpected token. -/
def feed (p : Parser) (m : Machine) (t : Token) (atEnd : Bool) : Outcome (Option Child) × Machine :=
  m.feedWithin p t atEnd (m.patience p + 1)

/-- Feeds the end of the input. -/
def finish (p : Parser) (m : Machine) : Outcome Child × Machine :=
  match m.feed p m.endToken true with
  | (.ok (some value), m) => (.ok value, m)
  | (.ok none, m) => (.error (.parse (.atEnd [])), m)
  | (.error f, m) => (.error f, m)

end Machine

end GrammarKit.LR
