/-
Actions by the place of a rule, as derivations are built with them.
-/
import GrammarKit.Grammar.Shaping
import GrammarKit.Proofs.Grammar.Trees

namespace GrammarKit

/-- The action of the rule at a place. -/
def Actions.atPlace (a : Actions) (rules : List Rule) (i : Nat) : Action :=
  match rules[i]? with
  | some r => a.apply r
  | none => fun children => .tree ⟨"", children, none⟩

theorem Actions.atPlace_eq {a : Actions} {rules : List Rule} {i : Nat} {r : Rule} (h : rules[i]? = some r) :
    a.atPlace rules i = a.apply r := by
  rw [atPlace, h]

namespace Derivation

theorem buildAll_append (act : Nat → Action) : ∀ ds es : List Derivation,
    buildAll act (ds ++ es) = buildAll act ds ++ buildAll act es
  | [], _ => rfl
  | d :: ds, es => by simp [buildAll, buildAll_append act ds es]

theorem buildAll_eq_map (act : Nat → Action) : ∀ ds : List Derivation, buildAll act ds = ds.map (build act)
  | [] => rfl
  | d :: ds => by rw [buildAll, buildAll_eq_map act ds, List.map_cons]

end Derivation

/-- Only the actions of the rules in trees count. -/
theorem Trees.buildAll_congr {rules : List Rule} {stands : String → Token → Prop} {act act' : Nat → Action}
    (hact : ∀ i r, rules[i]? = some r → act i = act' i) {ss : List Symbol} {ts : List Token} {ds : List Derivation}
    (h : Trees rules stands ss ts ds) : Derivation.buildAll act ds = Derivation.buildAll act' ds := by
  induction h with
  | nil => rfl
  | token _ _ ih => rw [Derivation.buildAll, Derivation.buildAll, ih, Derivation.build, Derivation.build]
  | node h _ _ ih1 ih2 => rw [Derivation.buildAll, Derivation.buildAll, ih2, Derivation.build, Derivation.build,
      ih1, hact _ _ h]

theorem Trees.build_congr {rules : List Rule} {stands : String → Token → Prop} {act act' : Nat → Action}
    (hact : ∀ i r, rules[i]? = some r → act i = act' i) {s : Symbol} {ts : List Token} {d : Derivation}
    (h : Trees rules stands [s] ts [d]) : d.build act = d.build act' :=
  (List.cons.inj (h.buildAll_congr hact)).1

/-! ## Plain trees -/

/-- Values of symbols, one for each: tokens of the terminals, and of the nonterminals trees that are labelled by their
rules. -/
inductive PlainTrees (rules : List Rule) : List Symbol → List Token → List Child → Prop
  | nil : PlainTrees rules [] [] []
  | token {a : String} {t : Token} {ss : List Symbol} {ts : List Token} {cs : List Child} (h : IsNamed a t)
    (rest : PlainTrees rules ss ts cs) : PlainTrees rules (.terminal a :: ss) (t :: ts) (.token t :: cs)
  | node {r : Rule} {ss : List Symbol} {us ts : List Token} {bs cs : List Child} (h : r ∈ rules)
    (inner : PlainTrees rules r.symbols us bs) (rest : PlainTrees rules ss ts cs) :
    PlainTrees rules (.nonterminal r.origin :: ss) (us ++ ts) (.tree ⟨r.label, bs, none⟩ :: cs)

/-- Without actions derivation trees are built as plain trees. -/
theorem Trees.plain {rules : List Rule} {act : Nat → Action} (hact : ∀ i r, rules[i]? = some r → act i = r.plain)
    {ss : List Symbol} {ts : List Token} {ds : List Derivation} (h : Trees rules IsNamed ss ts ds) :
    PlainTrees rules ss ts (Derivation.buildAll act ds) := by
  induction h with
  | nil => exact .nil
  | token h _ ih => exact .token h ih
  | node h _ _ ih1 ih2 =>
    rw [Derivation.buildAll, Derivation.build, hact _ _ h]
    exact .node (List.mem_of_getElem? h) ih1 ih2

end GrammarKit
