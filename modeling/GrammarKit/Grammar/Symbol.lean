/-
Grammar symbols. A nonterminal and a terminal of one name are two symbols, and nonterminals come first
in the order of symbols. Whether a terminal's tokens are left out of the tree is a matter of where it
stands in a rule, so it belongs to the part of the rule and not to the symbol.
-/
namespace GrammarKit

inductive Symbol where
  | nonterminal (name : String)
  | terminal (name : String)
  deriving DecidableEq

namespace Symbol

def name : Symbol → String
  | nonterminal n => n
  | terminal n => n

def isTerminal : Symbol → Bool
  | nonterminal _ => false
  | terminal _ => true

/-- Nonterminals before terminals, and each by name. -/
def compare : Symbol → Symbol → Ordering
  | nonterminal a, nonterminal b => Ord.compare a b
  | terminal a, terminal b => Ord.compare a b
  | nonterminal _, terminal _ => .lt
  | terminal _, nonterminal _ => .gt

def le (a b : Symbol) : Bool := a.compare b != .gt

end Symbol

/-- A symbol where it stands in a rule. -/
structure Part where
  symbol : Symbol
  /-- Its tokens are left out of the tree, unless the rule keeps every token. -/
  hidden : Bool := false
  deriving DecidableEq

end GrammarKit
