/-
Rules of a grammar. Two rules are the same production if they have the same origin and the same symbols;
their place among the alternatives, node label and options do not count.
-/
import GrammarKit.Grammar.Symbol

namespace GrammarKit

structure RuleOptions where
  keepAllTokens : Bool := false
  /-- A node with a single child is replaced by that child. -/
  expandSingle : Bool := false
  priority : Option Int := none
  /-- The rule was added so that trees can be spliced. -/
  forSplicing : Bool := false
  /-- Where optional symbols were left out. -/
  emptyIndices : List Bool := []
  deriving DecidableEq

structure Rule where
  origin : String
  parts : List Part
  /-- Place among the alternatives of the origin. -/
  order : Nat
  /-- Label of the nodes, where it is not the origin. -/
  nodeLabel : Option String := none
  options : RuleOptions := {}
  deriving DecidableEq

/-- What makes two rules the same production. -/
structure Production where
  origin : String
  symbols : List Symbol
  deriving DecidableEq

namespace Rule

def symbols (r : Rule) : List Symbol := r.parts.map (·.symbol)

def production (r : Rule) : Production := ⟨r.origin, r.symbols⟩

/-- The label of the nodes that the rule builds. -/
def label (r : Rule) : String := r.nodeLabel.getD r.origin

/-- Rules without a priority rank as zero. -/
def priority (r : Rule) : Int := r.options.priority.getD 0

def display (r : Rule) : String :=
  s!"<{r.origin} :" ++ String.join (r.symbols.map fun s => " " ++ s.name) ++ ">"

end Rule

/-- The first rule of each production, in order. -/
def distinctRules (rules : List Rule) : List Rule :=
  (rules.foldl (fun kept r => if kept.any (·.production == r.production) then kept else r :: kept) []).reverse

end GrammarKit
