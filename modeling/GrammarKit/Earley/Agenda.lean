/-
Deriving goals without nesting, for derivations of any depth. The goals that are being derived wait on an
agenda, the one at hand on top. A goal is searched for ways with the goals that are finished; where it needs
one that is not, its search is given up, the goal that it needs is put on top, and once that is finished the
search starts again.

A way refers to the goals of its symbols, so that a goal with several uses is derived only once.
-/
import GrammarKit.Closure
import GrammarKit.Earley.Forest

namespace GrammarKit.Earley

/-- What stands for a symbol of a rule. -/
inductive Link where
  /-- The token of a terminal between two positions. -/
  | token (start stop : Nat) (terminal : String)
  /-- What was found for a goal. -/
  | goal (g : Goal)

/-- The rule at a place over what stands for its symbols. -/
structure LinkedWay where
  index : Nat
  rule : Rule
  links : List Link

/-- The finished goals with what was found for them, the latest first; none is kept for goals without
derivation. -/
abbrev Finished := List (Goal × Option (List LinkedWay))

namespace Chart

/-- What stands for a symbol over a stretch. If this depends on a goal that is not finished, the goal is
thrown. A goal that is being derived gives nothing inside itself. -/
def link (c : Chart) (finished : Finished) (active : List Goal) (s : Symbol) (start stop : Nat) :
    Except Goal (Option Link) :=
  match s with
  | .terminal n => return if (c.token? start stop n).isSome then some (.token start stop n) else none
  | .nonterminal n =>
    if (c.completed stop n start).isEmpty then return none
    else
      match finished.lookup ⟨n, start, stop⟩ with
      | some (some _) => return some (.goal ⟨n, start, stop⟩)
      | some none => return none
      | none => if active.contains ⟨n, start, stop⟩ then return none else throw ⟨n, start, stop⟩

/-- The ways to derive a goal, as far as the finished goals tell. -/
def attempt (c : Chart) (a : Ambiguity) (finished : Finished) (active : List Goal) (g : Goal) :
    Except Goal (Option (List LinkedWay)) := do
  let ways ← c.ways a (c.link finished active) (fun x links => ⟨x.1, x.2, links⟩) g
  return if ways.isEmpty then none else some ways

end Chart

/-- Goals on their way to being derived. -/
structure Agenda where
  /-- The goal at hand, and then those that wait for it. -/
  pending : List Goal
  /-- The goals whose search has begun. -/
  active : List Goal := []
  finished : Finished := []
  /-- The goals with a derivation, in the order in which they were finished. -/
  completed : List Goal := []

namespace Agenda

variable (c : Chart) (a : Ambiguity)

/-- Attempts the goal at hand. -/
def step (s : Agenda) : Agenda :=
  match s.pending with
  | [] => s
  | g :: waiting =>
    if (s.finished.lookup g).isSome then { s with pending := waiting }
    else
      let active := s.active.insert g
      match c.attempt a s.finished active g with
      | .ok found =>
        { pending := waiting
          active := active.erase g
          finished := (g, found) :: s.finished
          completed := if found.isSome then s.completed ++ [g] else s.completed }
      | .error needed => { s with pending := needed :: g :: waiting, active }

/-- Takes a number of steps, or fewer if nothing is left to be done. -/
def run : Nat → Agenda → Agenda
  | 0, s => s
  | n + 1, s => if s.pending.isEmpty then s else run n (s.step c a)

/-- Derives a goal and everything that it depends on. Each goal is put on the agenda and finished once. -/
def ofGoal (root : Goal) : Agenda := run c a (2 * c.goalCount) { pending := [root] }

end Agenda

end GrammarKit.Earley
