/-
From derivations to trees. A rule's action takes the values of the rule's symbols, in order, and gives
the value of the node. Values of hidden terminals are left out, nodes of rules whose name starts with an
underscore give way to their children, a node with one child may give way to it, and the rest becomes a
tree under the rule's label, unless a program has put an action of its own under that label.
-/
import GrammarKit.Grammar.Rule
import GrammarKit.Tree.Basic

namespace GrammarKit

/-- Gives the value of a rule from the values of its symbols. -/
abbrev Action := List Child → Child

/-- The tree of a rule without action. -/
def Rule.plain (r : Rule) : Action := fun children => .tree ⟨r.label, children, none⟩

/-! ## Actions by production -/

/-- Actions by production, each production once. -/
structure Actions where
  entries : List (Production × Action) := []

namespace Actions

def find? (a : Actions) (r : Rule) : Option Action := a.entries.lookup r.production

/-- Adds an action or replaces that of the same production. -/
def insert (a : Actions) (r : Rule) (action : Action) : Actions :=
  if a.entries.any (·.1 == r.production) then
    ⟨a.entries.map fun e => if e.1 == r.production then (e.1, action) else e⟩
  else ⟨a.entries ++ [(r.production, action)]⟩

def size (a : Actions) : Nat := a.entries.length

/-- The action of a rule, or else its plain tree. -/
def apply (a : Actions) (r : Rule) : Action := (a.find? r).getD r.plain

end Actions

/-! ## Shaping -/

/-- How the values of a rule's symbols become its node. -/
structure Shaping where
  /-- Nodes get the span of everything below them. -/
  propagatePositions : Bool := false
  /-- Hidden terminals are kept. -/
  keepAllTokens : Bool := false
  /-- Actions of the program by label; they get the children that the node would have. -/
  actions : List (String × Action) := []

def isInlined (name : String) : Bool := name.toList.head? == some '_'

/-- What becomes of the value at a part of a rule. -/
inductive Slot where
  | keep
  | drop
  /-- A tree of an inlined rule gives way to its children. -/
  | inline
  deriving DecidableEq

def Part.slot (keepAll : Bool) (p : Part) : Slot :=
  match p.symbol with
  | .terminal _ => if p.hidden && !keepAll then .drop else .keep
  | .nonterminal name => if isInlined name then .inline else .keep

/-- What a value contributes to the children of a node. -/
def Slot.contribution : Slot → Child → List Child
  | drop, _ => []
  | inline, .tree t => if isInlined t.label then t.children else [.tree t]
  | _, c => [c]

/-- The least span that holds the spans of all children that have one. -/
def coverAll (children : List Child) : Option Span :=
  match children.filterMap Child.span with
  | [] => none
  | s :: rest => some (rest.foldl Span.cover s)

namespace Shaping

/-- The children of a node; values past the last part are kept. -/
def contributions (keepAll : Bool) : List Part → List Child → List Child
  | _, [] => []
  | [], cs => cs
  | p :: ps, c :: cs => (p.slot keepAll).contribution c ++ contributions keepAll ps cs

def action (s : Shaping) (r : Rule) : Action := fun values =>
  let kept := contributions (s.keepAllTokens || r.options.keepAllTokens) r.parts values
  match s.actions.lookup r.label with
  | some f => f kept
  | none => match r.options.expandSingle, kept with
    | true, [only] => only
    | _, _ => .tree ⟨r.label, kept, if s.propagatePositions then coverAll values else none⟩

/-- The actions of all rules; of two rules with one production the later one's stands. -/
def ofRules (s : Shaping) (rules : List Rule) : Actions :=
  rules.foldl (fun a r => a.insert r (s.action r)) {}

end Shaping

end GrammarKit
