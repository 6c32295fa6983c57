/-
Grammars that take trees for input. For every label of a rule there is a splice terminal, and the
rule's origin may also be a single token of that terminal, so a tree fits wherever its label does.

A splice terminal is named after its label; labels whose names fall together are numbered. Terminals and
rules that are there already are used as they are, so extending a grammar twice adds nothing.

The rules that are added go on from the orders of their origin. These are natural numbers here; with numbers of a
machine, the largest order and the number of rules have to fit together (`SplicedGrammar.order_lt_of_mem_extend`).
-/
import GrammarKit.Grammar.Shaping
import GrammarKit.Grammar.Terminal

namespace GrammarKit

/-- A grammar extended for splicing, and the splice terminal of each label. -/
structure SplicedGrammar where
  rules : List Rule
  terminals : List Terminal
  spliceTerminals : List (String × String) := []

/-- The origins of rules with the labels of their nodes, both in order of appearance; rules for splicing
do not count. -/
def labelsByOrigin (rules : List Rule) : List (String × List String) :=
  (rules.filter (!·.options.forSplicing)).foldl (fun groups r => add groups r.origin r.label) []
where
  add : List (String × List String) → String → String → List (String × List String)
    | [], origin, label => [(origin, [label])]
    | (o, labels) :: rest, origin, label =>
      if o = origin then (o, if label ∈ labels then labels else labels ++ [label]) :: rest
      else (o, labels) :: add rest origin label

namespace SplicedGrammar

/-- The splice terminal that already carries a label; of several the last. -/
def terminalOf? (g : SplicedGrammar) (label : String) : Option String :=
  (g.terminals.reverse.find? (·.pattern == .tree label)).map (·.name)

/-- The name itself or the first numbered name, from `suffix` on, that no terminal has. -/
def freshName (taken : List String) (base : String) : (fuel : Nat) → (suffix : Nat) → String → String
  | 0, _, name => name
  | fuel + 1, suffix, name =>
    if taken.contains name then freshName taken base fuel (suffix + 1) s!"{base}_{suffix}" else name

/-- The splice terminal of a label, declared if need be. -/
def declare (g : SplicedGrammar) (label : String) : String × SplicedGrammar :=
  match g.terminalOf? label with
  | some name => (name, g)
  | none =>
    let taken := g.terminals.map (·.name)
    let base := spliceTerminalName label
    let name := freshName taken base (taken.length + 1) 2 base
    (name, { g with terminals := g.terminals ++ [{ name, pattern := .tree label }] })

/-- The rule that makes an origin a single splice token. -/
def spliceRule (origin terminal : String) (order : Nat) : Rule :=
  { origin
    parts := [⟨.terminal terminal, false⟩]
    order
    options := { expandSingle := true, forSplicing := true, emptyIndices := [false] } }

/-- Lets trees with a label stand for an origin; `order` is the next free order of the origin. -/
def allow (origin : String) (state : SplicedGrammar × Nat) (label : String) : SplicedGrammar × Nat :=
  let (g, order) := state
  let (terminal, g) := g.declare label
  let g := if g.spliceTerminals.any (·.1 == label) then g
    else { g with spliceTerminals := g.spliceTerminals ++ [(label, terminal)] }
  let rule := spliceRule origin terminal order
  if g.rules.any (·.production == rule.production) then (g, order)
  else ({ g with rules := g.rules ++ [rule] }, order + 1)

/-- The order after the last one of an origin. -/
def nextOrder (rules : List Rule) (origin : String) : Nat :=
  ((rules.filter (·.origin == origin)).map (·.order + 1)).foldl max 0

/-- Extends a grammar for splicing. -/
def extend (rules : List Rule) (terminals : List Terminal) : SplicedGrammar :=
  (labelsByOrigin rules).foldl
    (fun g (origin, labels) => (labels.foldl (allow origin) (g, nextOrder rules origin)).1)
    { rules, terminals }

/-- The value of a splice rule is that of its token. -/
def passThrough : Action
  | [only] => only
  | children => .tree ⟨"_splice", children, none⟩

/-- Adds the actions of the rules for splicing. -/
def addActions (g : SplicedGrammar) (a : Actions) : Actions :=
  (g.rules.filter (·.options.forSplicing)).foldl (fun a r => a.insert r passThrough) a

end SplicedGrammar

end GrammarKit
