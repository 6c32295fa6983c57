/-
Derivations in terms of a grammar's rules, before any node is built. `build` gives every node its value
from the values of its children.
-/
import GrammarKit.Grammar.Shaping

namespace GrammarKit

inductive Derivation where
  | token (t : Token)
  /-- A rule, by its place, over derivations of its symbols. -/
  | node (rule : Nat) (children : List Derivation)

namespace Derivation

mutual

/-- The value of a derivation; `act` gives the value of a node from those of its children. -/
def build (act : Nat → Action) : Derivation → Child
  | token t => .token t
  | node r ds => act r (buildAll act ds)

def buildAll (act : Nat → Action) : List Derivation → List Child
  | [] => []
  | d :: ds => build act d :: buildAll act ds

end

mutual

/-- The tokens of a derivation, from left to right. -/
def leaves : Derivation → List Token
  | token t => [t]
  | node _ ds => leavesAll ds

def leavesAll : List Derivation → List Token
  | [] => []
  | d :: ds => leaves d ++ leavesAll ds

end

end Derivation

end GrammarKit
