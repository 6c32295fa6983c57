/-
Building derivations without nesting, for derivations of any depth. The node at hand takes its children one
by one; the nodes above it wait on a stack, each with the children that it still has to take.
-/
import GrammarKit.Grammar.Derivation

namespace GrammarKit

namespace Derivation

mutual

/-- Number of steps that a derivation takes. -/
def weight : Derivation → Nat
  | token _ => 1
  | node _ ds => weightAll ds + 2

def weightAll : List Derivation → Nat
  | [] => 0
  | d :: ds => weight d + weightAll ds

end

end Derivation

/-- A node that is being built. -/
structure OpenNode where
  rule : Nat
  /-- Children still to be built. -/
  todo : List Derivation
  /-- Values of the children before them. -/
  built : List Child := []

namespace OpenNode

def weight (n : OpenNode) : Nat := Derivation.weightAll n.todo + 1

def weightAll : List OpenNode → Nat
  | [] => 0
  | n :: above => n.weight + weightAll above

/-- Builds the node at hand and those above it, and gives the value of the topmost. -/
@[specialize]
def close {m : Type → Type} [Monad m] (act : Nat → List Child → m Child) : OpenNode → List OpenNode → m Child
  | ⟨r, .token t :: rest, built⟩, above => close act ⟨r, rest, built ++ [.token t]⟩ above
  | ⟨r, .node s ds :: rest, built⟩, above => close act ⟨s, ds, []⟩ (⟨r, rest, built⟩ :: above)
  | ⟨r, [], built⟩, [] => act r built
  | ⟨r, [], built⟩, ⟨s, rest, before⟩ :: above => do
    let value ← act r built
    close act ⟨s, rest, before ++ [value]⟩ above
termination_by n above => n.weight + weightAll above
decreasing_by
  all_goals simp [weight, weightAll, Derivation.weightAll, Derivation.weight]
  all_goals omega

end OpenNode

namespace Derivation

/-- The value of a derivation; giving a node its value may have effects. -/
@[specialize]
def evaluateM {m : Type → Type} [Monad m] (act : Nat → List Child → m Child) : Derivation → m Child
  | token t => pure (.token t)
  | node r ds => OpenNode.close act { rule := r, todo := ds } []

/-- The value of a derivation. -/
def evaluate (act : Nat → Action) (d : Derivation) : Child := d.evaluateM (m := Id) act

end Derivation

end GrammarKit
