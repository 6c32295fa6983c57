/-
Columns of a chart. The column of a position lists the rules that are partly recognised there, each with
the position where it began, in the order in which they were found.

An item that waits for a nonterminal brings in the rules of that nonterminal, and moves on at once if the
nonterminal is nullable. A complete item moves on everything that waited for it in the column where it
began. Items are worked off in order, and complete items see what was found until then.
-/
import GrammarKit.Grammar.Dotted

namespace GrammarKit.Earley

structure Item where
  dotted : DottedRule
  /-- The position where the rule began. -/
  origin : Nat
  deriving DecidableEq

namespace Item

/-- The rule at a place, about to begin at a position. -/
def initial (position rule : Nat) : Item := ⟨⟨rule, 0⟩, position⟩

def advance (i : Item) : Item := { i with dotted := i.dotted.advance }

def next? (rules : List Rule) (i : Item) : Option Symbol := i.dotted.next? rules

def waitsFor (rules : List Rule) (s : Symbol) (i : Item) : Bool := i.next? rules == some s

def isComplete (rules : List Rule) (i : Item) : Bool := i.dotted.isComplete rules

end Item

abbrev Column := List Item

/-- Rules as a chart uses them. -/
structure ChartRules where
  rules : List Rule
  /-- Nonterminals that are stepped over as soon as they are waited for. -/
  nullable : List String

namespace ChartRules

def ofRules (rules : List Rule) : ChartRules := ⟨rules, nullableNames rules⟩

variable (g : ChartRules)

/-- The rules of a nonterminal, about to begin. -/
def predict (position : Nat) (name : String) : List Item :=
  (rulesFor g.rules name).map (.initial position)

/-- Items that waited for a nonterminal and have found it. -/
def complete (waiting : Column) (name : String) : List Item :=
  (waiting.filter (Item.waitsFor g.rules (.nonterminal name))).map Item.advance

/-- What an item leads to in the column of `position`, of which `found` is known so far. -/
def successors (before : List Column) (position : Nat) (found : Column) (i : Item) : List Item :=
  match i.next? g.rules with
  | some (.terminal _) => []
  | some (.nonterminal n) => g.predict position n ++ if g.nullable.contains n then [i.advance] else []
  | none =>
    match g.rules[i.dotted.rule]? with
    | some r => g.complete (if i.origin = position then found else (before[i.origin]?).getD []) r.origin
    | none => []

/-- The column of the position after `before` that begins with the given items. -/
def column (before : List Column) (seeds : List Item) : Column :=
  let position := before.length
  explore (g.successors before position)
    (seeds.length + (dottedCount g.rules + 1) * (position + 1)) [] (fresh [] seeds)

/-- The items of a column that wait for a terminal, with that terminal. -/
def waiting (c : Column) : List (Item × String) :=
  c.filterMap fun i => match i.next? g.rules with
    | some (.terminal n) => some (i, n)
    | _ => none

/-- The terminals that a column waits for. -/
def expected (c : Column) : List String := (g.waiting c).map (·.2)

/-- The places of the rules of `name` that are complete in a column and began at `origin`. -/
def completed (c : Column) (name : String) (origin : Nat) : List Nat :=
  c.filterMap fun i =>
    if i.origin = origin && i.isComplete g.rules then
      match g.rules[i.dotted.rule]? with
      | some r => if r.origin = name then some i.dotted.rule else none
      | none => none
    else none

/-- The items that begin a start symbol. -/
def seeds (start : String) : Outcome (List Item) :=
  match g.predict 0 start with
  | [] => .error (.configuration (.unknownStart start))
  | items => .ok items

end ChartRules

end GrammarKit.Earley
