/-
Building the nodes of finished goals. Goals are built in the order in which they were finished, so that the
nodes of a rule's symbols are there before the rule's own. A node stays until the last way that refers to it
has taken it.
-/
import GrammarKit.Earley.Agenda

namespace GrammarKit.Earley

/-- The goal that a link refers to. -/
def Link.goal? : Link → Option Goal
  | .goal g => some g
  | .token .. => none

/-- The goals that a way refers to, with repetitions. -/
def LinkedWay.references (w : LinkedWay) : List Goal := w.links.filterMap Link.goal?

/-- The goals that the ways of a goal refer to, with repetitions. -/
def Finished.references (f : Finished) (g : Goal) : List Goal :=
  match f.lookup g with
  | some (some ways) => ways.flatMap LinkedWay.references
  | _ => []

/-- The action of a rule with the values that it is applied to, in a way of a goal. -/
structure Call where
  goal : Goal
  index : Nat
  rule : Rule
  children : List Child

def Call.value (actions : Actions) (c : Call) : Child := actions.apply c.rule c.children

/-- Nodes on their way to being built into others. -/
structure Assembly where
  built : List (Goal × Child) := []
  /-- How many references to a goal are still to be taken. -/
  uses : List (Goal × Nat)

namespace Assembly

variable (c : Chart)

/-- The value of a link. The last reference to a node takes it away. -/
def take : Link → StateM Assembly (Option Child)
  | .token start stop terminal => return (c.token? start stop terminal).map .token
  | .goal g => fun s =>
    match s.uses.lookup g with
    | none => (none, s)
    | some n =>
      (s.built.lookup g,
        { built := if n - 1 = 0 then s.built.filter (·.1 != g) else s.built
          uses := s.uses.map fun (h, m) => if h = g then (h, n - 1) else (h, m) })

/-- The values of links; one without a value is passed over. -/
def takeAll : List Link → StateM Assembly (List Child)
  | [] => return []
  | l :: ls => do
    let child ← take c l
    return child.toList ++ (← takeAll ls)

/-- Calls the actions of a goal's ways. -/
def callAll (g : Goal) : List LinkedWay → StateM Assembly (List Call)
  | [] => return []
  | w :: ws => do
    let children ← takeAll c w.links
    return ⟨g, w.index, w.rule, children⟩ :: (← callAll g ws)

/-- Builds the node of a goal, and gives the calls that were made for it. -/
def build (actions : Actions) (f : Finished) (g : Goal) : StateM Assembly (List Call) := do
  match f.lookup g with
  | some (some ways) =>
    let calls ← callAll c g ways
    modify fun s => { s with built := (g, joinAlternatives (calls.map (·.value actions))) :: s.built }
    return calls
  | _ => return []

/-- Builds the nodes of goals, one after the other. -/
def buildAll (actions : Actions) (f : Finished) : List Goal → StateM Assembly (List Call)
  | [] => return []
  | g :: gs => do
    let calls ← build c actions f g
    return calls ++ (← buildAll actions f gs)

end Assembly

namespace Agenda

/-- Builds a goal from what was finished for it. What it does not refer to, directly or through others, is
left out. -/
def assemble (c : Chart) (actions : Actions) (s : Agenda) (root : Goal) : List Call × Assembly :=
  let needed := reachable s.finished.references s.finished.length [root]
  let references := needed.flatMap s.finished.references
  Assembly.buildAll c actions s.finished (s.completed.filter needed.contains)
    { uses := (fresh [] references).map fun g => (g, references.count g) }

end Agenda

namespace Chart

variable (c : Chart) (a : Ambiguity) (actions : Actions) (name : String)

/-- A nonterminal over the whole chart. -/
def whole : Goal := ⟨name, 0, c.stop⟩

/-- The calls of actions that are made for a nonterminal over the whole chart, in order. -/
def calls : List Call := ((Agenda.ofGoal c a (c.whole name)).assemble c actions (c.whole name)).1

/-- The value of a nonterminal over the whole chart. -/
def derive : Option Child :=
  let s := Agenda.ofGoal c a (c.whole name)
  match s.finished.lookup (c.whole name) with
  | some (some _) => (s.assemble c actions (c.whole name)).2.built.lookup (c.whole name)
  | _ => none

end Chart

end GrammarKit.Earley
