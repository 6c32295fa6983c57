/-
Rules that are partly recognised. The dot stands between the symbols that were found and those still to
come; a rule is named by its place in a list of rules.
-/
import GrammarKit.Grammar.Sets

namespace GrammarKit

structure DottedRule where
  rule : Nat
  /-- Number of symbols before the dot. -/
  dot : Nat
  deriving DecidableEq

namespace DottedRule

def compare (a b : DottedRule) : Ordering := (Ord.compare a.rule b.rule).then (Ord.compare a.dot b.dot)

def le (a b : DottedRule) : Bool := a.compare b != .gt

/-- The symbol after the dot. -/
def next? (rules : List Rule) (d : DottedRule) : Option Symbol := do
  let r ← rules[d.rule]?
  r.symbols[d.dot]?

/-- The symbols after the next one. -/
def rest (rules : List Rule) (d : DottedRule) : List Symbol :=
  match rules[d.rule]? with
  | some r => r.symbols.drop (d.dot + 1)
  | none => []

def isComplete (rules : List Rule) (d : DottedRule) : Bool :=
  match rules[d.rule]? with
  | some r => d.dot == r.parts.length
  | none => false

def advance (d : DottedRule) : DottedRule := { d with dot := d.dot + 1 }

end DottedRule

/-- The places of the rules of a nonterminal. -/
def rulesFor (rules : List Rule) (origin : String) : List Nat :=
  (rules.zipIdx.filter (·.1.origin == origin)).map (·.2)

/-- Number of dotted rules. -/
def dottedCount (rules : List Rule) : Nat := symbolCount rules + rules.length

end GrammarKit
