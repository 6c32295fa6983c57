/-
The automaton of a grammar's viable prefixes. A state is the list of dotted rules with which it is entered,
in order; it stands for all rules that these may lead to. For every start symbol a root rule is added at
the end of the rules, and its state comes first. The other states are numbered as they are found: states
in order, and the symbols that lead out of one state in the order of symbols.
-/
import GrammarKit.Grammar.Dotted

namespace GrammarKit.LR

/-- The dotted rules with which a state is entered. -/
abbrev Kernel := List DottedRule

/-- The rule that derives a start symbol and nothing else. -/
def rootRule (start : String) : Rule :=
  { origin := s!"$root_{start}", parts := [⟨.nonterminal start, false⟩], order := 0 }

/-- Dotted rules that begin where a dotted rule stands. -/
def begins (rules : List Rule) (d : DottedRule) : List DottedRule :=
  match d.next? rules with
  | some (.nonterminal n) => (rulesFor rules n).map fun i => ⟨i, 0⟩
  | _ => []

def closure (rules : List Rule) (k : Kernel) : List DottedRule :=
  reachable (begins rules) (k.length + dottedCount rules) k

/-- What the symbols after the dots of a state lead to. -/
def moves (rules : List Rule) (k : Kernel) : List (Symbol × Kernel) :=
  let closed := closure rules k
  let symbols := fresh [] ((closed.filterMap (·.next? rules)).mergeSort Symbol.le)
  symbols.map fun s =>
    (s, ((closed.filter (·.next? rules == some s)).map DottedRule.advance).mergeSort DottedRule.le)

structure Automaton where
  /-- The rules of the grammar and after them the root rules. -/
  rules : List Rule
  /-- Start symbols with their states and root rules. -/
  roots : List (String × Nat × Nat)
  states : List Kernel
  /-- Where the symbols lead, by state. -/
  moves : List (List (Symbol × Nat))

namespace Automaton

def ofRules (grammarRules : List Rule) (start : List String) : Automaton :=
  let rules := grammarRules ++ start.map rootRule
  let roots := start.zipIdx.map fun (name, i) => (name, i, grammarRules.length + i)
  let first : List Kernel := roots.map fun (_, _, root) => [⟨root, 0⟩]
  let states := reachable (fun k => (LR.moves rules k).map (·.2)) (Nat.pow 2 (dottedCount rules)) first
  { rules, roots, states
    moves := states.map fun k => (LR.moves rules k).map fun (s, target) => (s, states.idxOf target) }

/-- Where a symbol leads from a state. -/
def target? (a : Automaton) (state : Nat) (s : Symbol) : Option Nat := do
  (← a.moves[state]?).lookup s

/-- The state in which a start symbol is begun; of start symbols given twice the last one's. -/
def start? (a : Automaton) (name : String) : Option Nat :=
  (a.roots.reverse.find? (·.1 == name)).map (·.2.1)

end Automaton

end GrammarKit.LR
