/-
Reading derivations off a chart. A nonterminal is derived over a stretch if one of its rules is complete
at its end and began at its start. The symbols of a rule are placed from right to left: each ends where
the symbols after it begin, and begins where the chart holds the rule with the dot before it. Later symbols
take the shortest stretch that works.

Rules are tried by descending priority, then in order. A stretch that is being derived already is not
derived inside itself, and what was found for a stretch is kept for its other uses.
-/
import GrammarKit.Earley.Chart
import GrammarKit.Grammar.Shaping

namespace GrammarKit.Earley

/-- What becomes of stretches with several derivations. -/
inductive Ambiguity where
  /-- One is kept: of the rule with the highest priority, then the first. -/
  | resolve
  /-- All are kept, below a node that marks them as alternatives. -/
  | explicit
  /-- A packed forest would be returned; no parser here does. -/
  | forest
  deriving DecidableEq

namespace Ambiguity

def display : Ambiguity → String
  | resolve => "resolve"
  | explicit => "explicit"
  | forest => "forest"

def report : Ambiguity → String
  | resolve => "Resolve"
  | explicit => "Explicit"
  | forest => "Forest"

end Ambiguity

/-! ## Packed derivations -/

mutual

/-- A derivation in which a stretch may be derived in several ways. -/
inductive Packed where
  | token (t : Token)
  | node (ways : List Way)

/-- A rule over the derivations of its symbols. -/
inductive Way where
  | mk (rule : Rule) (parts : List Packed)

end

/-- The label of nodes whose children are alternatives. -/
def ambiguousLabel : String := "_ambig"

/-- The values without those that equal an earlier one. -/
def distinctChildren (values : List Child) : List Child :=
  values.foldl (fun kept v => if kept.any (·.same v) then kept else kept ++ [v]) []

/-- One value for the alternatives of a stretch. -/
def joinAlternatives (values : List Child) : Child :=
  match distinctChildren values with
  | [only] => only
  | several => .tree ⟨ambiguousLabel, several, none⟩

mutual

/-- The value of a packed derivation, built from the leaves up. -/
def Packed.build (a : Actions) : Packed → Child
  | .token t => .token t
  | .node ways => joinAlternatives (Way.buildAll a ways)

def Way.build (a : Actions) : Way → Child
  | .mk r parts => a.apply r (Packed.buildAll a parts)

def Way.buildAll (a : Actions) : List Way → List Child
  | [] => []
  | w :: ws => w.build a :: Way.buildAll a ws

def Packed.buildAll (a : Actions) : List Packed → List Child
  | [] => []
  | p :: ps => p.build a :: Packed.buildAll a ps

end

/-! ## The search -/

/-- A nonterminal over a stretch. -/
structure Goal where
  name : String
  start : Nat
  stop : Nat
  deriving DecidableEq

/-- What was found for goals; none is kept for goals without derivation. -/
abbrev Findings := List (Goal × Option Packed)

abbrev Search := StateM Findings

namespace Search

variable {m : Type → Type} [Monad m]

/-- Goes on with what is found, or else gives a result at once. -/
def onFound {α β : Type} (x : m (Option α)) (missing : β) (go : α → m β) : m β := do
  match ← x with
  | none => return missing
  | some a => go a

/-- The first result that is found. -/
def first {α β : Type} (f : α → m (Option β)) : List α → m (Option β)
  | [] => return none
  | a :: as => do
    match ← f a with
    | some b => return some b
    | none => first f as

/-- All results, in order. -/
def all {α β : Type} (f : α → m (List β)) : List α → m (List β)
  | [] => return []
  | a :: as => return (← f a) ++ (← all f as)

end Search

namespace Chart

/-- Where a symbol that is followed by something at `stop` may end: there, or before skipped text. -/
def ends (c : Chart) (stop : Nat) : List Nat := stop :: (c.gaps.lookup stop).getD []

/-- Whether nothing, or only skipped text, lies between two positions. -/
def joins (c : Chart) (start stop : Nat) : Bool := (c.ends stop).contains start

/-- The stretches that the symbol before the dot may take, shortest first, if the symbols up to the dot lie
between `origin` and `stop`. `previous` is the rule with the dot before the symbol. -/
def splits (c : Chart) (previous : Item) (stop : Nat) : List (Nat × Nat) :=
  (c.ends stop).flatMap fun e =>
    (((List.range (e + 1 - previous.origin)).map (previous.origin + ·)).reverse.filter
      (c.contains · previous)).map (·, e)

/-- Derives a symbol over a stretch; `solve` derives nonterminals. -/
def part (c : Chart) (solve : Goal → Search (Option Packed)) (s : Symbol) (start stop : Nat) :
    Search (Option Packed) :=
  match s with
  | .terminal n => return (c.token? start stop n).map .token
  | .nonterminal n => if (c.completed stop n start).isEmpty then return none else solve ⟨n, start, stop⟩

/-- The first derivation of the symbols before a dot, which are given from right to left. -/
def firstSequence {m : Type → Type} [Monad m] {π : Type} (c : Chart)
    (part : Symbol → Nat → Nat → m (Option π)) (rule origin : Nat) : List Symbol → Nat → m (Option (List π))
  | [], stop => return if c.joins origin stop then some [] else none
  | s :: before, stop =>
    Search.first (fun x => Search.onFound (part s x.1 x.2) none fun p =>
      return (← c.firstSequence part rule origin before x.1).map (· ++ [p]))
      (c.splits ⟨⟨rule, before.length⟩, origin⟩ stop)

/-- Every derivation of the symbols before a dot, which are given from right to left. -/
def allSequences {m : Type → Type} [Monad m] {π : Type} (c : Chart)
    (part : Symbol → Nat → Nat → m (Option π)) (rule origin : Nat) : List Symbol → Nat → m (List (List π))
  | [], stop => return if c.joins origin stop then [[]] else []
  | s :: before, stop =>
    Search.all (fun x => Search.onFound (part s x.1 x.2) [] fun p =>
      return (← c.allSequences part rule origin before x.1).map (· ++ [p]))
      (c.splits ⟨⟨rule, before.length⟩, origin⟩ stop)

/-- Higher priority first, then the lower order, then the earlier rule. -/
def ranksBefore (a b : Nat × Rule) : Bool :=
  ((compare b.2.priority a.2.priority).then ((compare a.2.order b.2.order).then (compare a.1 b.1))) != .gt

/-- The rules that cover a goal, best first. -/
def candidates (c : Chart) (g : Goal) : List (Nat × Rule) :=
  ((c.completed g.stop g.name g.start).filterMap fun i =>
    (c.grammar.rules[i]?).map fun r => (i, r)).mergeSort ranksBefore

/-- The ways to derive a goal that are kept. `part` derives the symbols, and `way` puts a rule over them. -/
def ways {m : Type → Type} [Monad m] {π ω : Type} (c : Chart) (a : Ambiguity)
    (part : Symbol → Nat → Nat → m (Option π)) (way : Nat × Rule → List π → ω) (g : Goal) : m (List ω) :=
  match a with
  | .explicit =>
    Search.all (fun x => do
      return (← c.allSequences part x.1 g.start x.2.symbols.reverse g.stop).map (way x)) (c.candidates g)
  | _ => do
    return (← Search.first (fun x => do
      return (← c.firstSequence part x.1 g.start x.2.symbols.reverse g.stop).map (way x))
      (c.candidates g)).toList

/-- Derives a goal; `active` are the goals that it is a part of. -/
def solve (c : Chart) (a : Ambiguity) : (fuel : Nat) → (active : List Goal) → Goal → Search (Option Packed)
  | 0, _, _ => return none
  | fuel + 1, active, g => do
    match (← get).lookup g with
    | some known => return known
    | none =>
      if active.contains g then return none
      let ways ← c.ways a (c.part (solve c a fuel (g :: active))) (fun x => .mk x.2) g
      let found := if ways.isEmpty then none else some (.node ways)
      modify ((g, found) :: ·)
      return found

/-- More goals than a chart can have one inside the other. -/
def goalCount (c : Chart) : Nat := c.grammar.rules.length * (c.columns.length * c.columns.length) + 1

/-- The derivation of a nonterminal over the whole chart. -/
def derivation? (c : Chart) (a : Ambiguity) (name : String) : Option Packed :=
  (c.solve a (c.goalCount + 1) [] ⟨name, 0, c.stop⟩ []).1

end Chart

end GrammarKit.Earley
