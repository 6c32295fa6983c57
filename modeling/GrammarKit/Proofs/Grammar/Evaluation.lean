/-
Values of derivations. A derivation is evaluated without nesting: one node is at hand, and those above it wait until it
has its value. This comes to what recursion comes to, whatever effects there are when a node is given its value: its
children are evaluated before, from left to right, and nothing else is. So every node is given its value once, after the
nodes below it and from their values.
-/
import GrammarKit.Pipeline.Tabular

namespace GrammarKit

/-! ## Recursion with effects -/

namespace Derivation

variable {m : Type → Type} [Monad m]

mutual

/-- The value of a derivation, by recursion: a node is given its value from those of its children. -/
def buildM (act : Nat → List Child → m Child) : Derivation → m Child
  | token t => pure (.token t)
  | node r ds => do
    let values ← buildAllM act ds
    act r values

def buildAllM (act : Nat → List Child → m Child) : List Derivation → m (List Child)
  | [] => pure []
  | d :: ds => do
    let value ← buildM act d
    let values ← buildAllM act ds
    return value :: values

end

end Derivation

section Effects

variable {m : Type → Type} [Monad m] [LawfulMonad m]

/-- A node that is closed gives its value to the nodes above it, from the innermost to the topmost. -/
theorem OpenNode.close_eq (act : Nat → List Child → m Child) (n : OpenNode) (above : List OpenNode) :
    n.close act above = (do
      let values ← Derivation.buildAllM act n.todo
      let value ← act n.rule (n.built ++ values)
      above.foldlM (fun value k => do
        let values ← Derivation.buildAllM act k.todo
        act k.rule (k.built ++ value :: values)) value) := by
  fun_induction OpenNode.close act n above with
  | case1 r t rest built above ih =>
    rw [ih]
    simp [Derivation.buildAllM, Derivation.buildM]
  | case2 r s ds rest built above ih =>
    rw [ih]
    simp [Derivation.buildAllM, Derivation.buildM]
  | case3 r built => simp [Derivation.buildAllM]
  | case4 r built s rest before above ih => simp [Derivation.buildAllM, ih]

namespace Derivation

/-- Evaluation is recursion, with all effects in the same order. -/
theorem evaluateM_eq (act : Nat → List Child → m Child) (d : Derivation) : d.evaluateM act = d.buildM act := by
  cases d with
  | token t => rw [evaluateM, buildM]
  | node r ds =>
    rw [evaluateM, buildM, OpenNode.close_eq]
    simp

end Derivation

end Effects

/-! ## Nodes that are given values -/

namespace Derivation

variable (act : Nat → Action)

mutual

/-- The nodes of a derivation, each after those below it: a rule and the derivations of its symbols. -/
def nodes : Derivation → List (Nat × List Derivation)
  | token _ => []
  | node r ds => nodesAll ds ++ [(r, ds)]

def nodesAll : List Derivation → List (Nat × List Derivation)
  | [] => []
  | d :: ds => nodes d ++ nodesAll ds

end

/-- Actions that keep a list of what they are applied to. -/
def logged (r : Nat) (children : List Child) : StateM (List (Nat × List Child)) Child := do
  modify (· ++ [(r, children)])
  return act r children

/-- What the action of a node is applied to: its rule and the values of its children. -/
def application (n : Nat × List Derivation) : Nat × List Child := (n.1, buildAll act n.2)

mutual

/-- By recursion the actions are applied to the nodes in order. -/
theorem run_buildM_logged (log : List (Nat × List Child)) : ∀ d : Derivation,
    (d.buildM (logged act)).run log = pure (d.build act, log ++ d.nodes.map (application act))
  | token t => by simp [buildM, build, nodes]
  | node r ds => by
    have h := run_buildAllM_logged log ds
    simp only [buildM, StateT.run_bind, h]
    simp [build, nodes, logged, application]

theorem run_buildAllM_logged (log : List (Nat × List Child)) : ∀ ds : List Derivation,
    (buildAllM (logged act) ds).run log = pure (buildAll act ds, log ++ (nodesAll ds).map (application act))
  | [] => by simp [buildAllM, buildAll, nodesAll]
  | d :: ds => by
    have h := run_buildM_logged log d
    simp only [buildAllM, StateT.run_bind, h]
    simp [buildAll, nodesAll, run_buildAllM_logged]

end

mutual

theorem buildM_id : ∀ d : Derivation, d.buildM (m := Id) act = d.build act
  | token t => rfl
  | node r ds => by rw [buildM, buildAllM_id ds, build]; rfl

theorem buildAllM_id : ∀ ds : List Derivation, buildAllM (m := Id) act ds = buildAll act ds
  | [] => rfl
  | d :: ds => by rw [buildAllM, buildM_id d, buildAllM_id ds, buildAll]; rfl

end

theorem evaluate_eq (d : Derivation) : d.evaluate act = d.build act := by
  rw [evaluate, evaluateM_eq, buildM_id]

theorem buildAll_eq_map_evaluate : ∀ ds : List Derivation, buildAll act ds = ds.map (·.evaluate act)
  | [] => rfl
  | d :: ds => by rw [buildAll, buildAll_eq_map_evaluate ds, List.map_cons, evaluate_eq]

end Derivation

/-- A token is its own value, and a node has the value that its action gives it from the values of its children: the
action of its rule, or else the rule's plain tree. The actions are applied to every node once, after the nodes below
it. -/
theorem TabularPipeline.evaluate_folds (p : TabularPipeline) :
    (∀ i, p.act i = match p.parser.rules[i]? with
      | some r => (p.actions.find? r).getD fun children => .tree ⟨r.label, children, none⟩
      | none => fun children => .tree ⟨"", children, none⟩) ∧
    ∀ act : Nat → Action, (∀ t, (Derivation.token t).evaluate act = .token t) ∧
      (∀ i ds, (Derivation.node i ds).evaluate act = act i (ds.map (·.evaluate act))) ∧
      ∀ d : Derivation, ((d.evaluateM (Derivation.logged act)).run []).run =
        (d.evaluate act, d.nodes.map fun (i, ds) => (i, ds.map (·.evaluate act))) := by
  refine ⟨fun i => rfl, fun act => ⟨fun t => rfl, fun i ds => ?_, fun d => ?_⟩⟩
  · rw [Derivation.evaluate_eq, Derivation.build, Derivation.buildAll_eq_map_evaluate]
  · rw [Derivation.evaluateM_eq, Derivation.run_buildM_logged, Derivation.evaluate_eq]
    simp [Derivation.application, Derivation.buildAll_eq_map_evaluate]

/-- The nodes below a node come before it, those of its first child first. -/
example (t u : Token) : (Derivation.node 0 [.node 1 [.token t], .node 2 [.node 3 []], .token u]).nodes.map (·.1) =
    [1, 3, 2, 0] := rfl

end GrammarKit
