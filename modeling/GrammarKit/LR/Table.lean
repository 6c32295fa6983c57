/-
Parse tables: what to do in a state when a terminal comes next, and where to go on after a nonterminal.

A state shifts a terminal that moves on from it, and reduces a complete rule before its followers. Where
both are possible it shifts, unless the table is strict. Of several rules that could be reduced the one
with the highest priority is; two of them are a conflict. Before the followers of a root rule the input
is accepted, whatever else is possible.
-/
import GrammarKit.LR.Lookahead

namespace GrammarKit.LR

inductive Move where
  | shift (state : Nat)
  /-- Replaces the symbols of the rule at a place by its origin. -/
  | reduce (rule : Nat)
  | accept
  deriving DecidableEq

/-- What a state does, by terminal, and where it goes on, by nonterminal. -/
structure Row where
  moves : List (String × Move)
  gotos : List (String × Nat)

structure Table where
  /-- The rules of the grammar and after them the root rules. -/
  rules : List Rule
  rows : List Row
  /-- The states in which start symbols are begun. -/
  starts : List (String × Nat)

/-- The rule to reduce among several, given by their places in ascending order. -/
def chooseReduction (rules : List Rule) (state : Nat) (terminal : String) (candidates : List Nat) :
    Outcome (Nat × Rule) :=
  let ranked := candidates.filterMap fun i => rules[i]?.map fun r => (i, r)
  match ranked.filter fun (_, r) => ranked.all fun (_, s) => s.priority ≤ r.priority with
  | [winner] => .ok winner
  | winners => .error (.grammar (.reduceReduce state terminal (winners.map (·.2))))

/-- Adds to the moves of a state what complete rules ask for before a terminal. -/
def addReduction (rules : List Rule) (isRoot : Nat → Bool) (strict : Bool) (state : Nat)
    (moves : List (String × Move)) (terminal : String) (candidates : List Nat) :
    Outcome (List (String × Move)) :=
  if candidates.any isRoot then .ok ((terminal, .accept) :: moves.filter (·.1 != terminal))
  else do
    let (i, r) ← chooseReduction rules state terminal candidates
    match moves.lookup terminal with
    | some (.shift _) => if strict then throw (.grammar (.shiftReduce terminal state r)) else return moves
    | _ => return (terminal, .reduce i) :: moves.filter (·.1 != terminal)

namespace Automaton

/-- The rules that are complete in a state, with their followers. -/
def completed (a : Automaton) (sets : GrammarSets) (facts : List Fact) (state : Nat) (k : Kernel) :
    List Entry :=
  let seeds := k.flatMap fun d => (followers facts state d).map fun f => ⟨d, f⟩
  (closeEntries sets seeds).filter (·.item.isComplete a.rules)

def row (a : Automaton) (sets : GrammarSets) (facts : List Fact) (strict : Bool) (state : Nat)
    (k : Kernel) : Outcome Row := do
  let out := (a.moves[state]?).getD []
  let shifts := out.filterMap fun (s, target) => match s with
    | .terminal n => some (n, Move.shift target)
    | .nonterminal _ => none
  let gotos := out.filterMap fun (s, target) => match s with
    | .terminal _ => none
    | .nonterminal n => some (n, target)
  let complete := a.completed sets facts state k
  let isRoot (i : Nat) : Bool := a.roots.any (·.2.2 == i)
  let moves ← (sortedNames (complete.map (·.follower))).foldlM (fun moves terminal =>
    let candidates := ((complete.filter (·.follower == terminal)).map (·.item.rule)).mergeSort (· ≤ ·)
    addReduction a.rules isRoot strict state moves terminal (fresh [] candidates)) shifts
  return { moves, gotos }

end Automaton

namespace Table

def build (rules : List Rule) (start : List String) (strict : Bool) : Outcome Table := do
  let a := Automaton.ofRules rules start
  let sets := GrammarSets.ofRules a.rules []
  let facts := a.facts sets
  let rows ← a.states.zipIdx.mapM fun (k, state) => a.row sets facts strict state k
  return { rules := a.rules, rows, starts := a.roots.reverse.map fun (name, state, _) => (name, state) }

def move? (t : Table) (state : Nat) (terminal : String) : Option Move := do
  (← t.rows[state]?).moves.lookup terminal

def goto? (t : Table) (state : Nat) (origin : String) : Option Nat := do
  (← t.rows[state]?).gotos.lookup origin

def start? (t : Table) (name : String) : Option Nat := t.starts.lookup name

/-- The terminals for which a state has a move. -/
def terminals (t : Table) (state : Nat) : List String :=
  match t.rows[state]? with
  | some row => row.moves.map (·.1)
  | none => []

/-- The terminals for which a state has a move, sorted. -/
def expected (t : Table) (state : Nat) : List String := sortedNames (t.terminals state)

/-- What a lexer may look for, by state: every terminal with a move except the end marker. -/
def accepted (t : Table) : List (List String) :=
  t.rows.map fun row => (row.moves.map (·.1)).filter (· != endMarker)

end Table

end GrammarKit.LR
