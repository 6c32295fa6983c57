/-
Shaping nodes without actions of the program. A node is the only child that is kept, or it is a tree over the children
that are kept, and what is kept comes from the values in order: no token is kept twice. The spans of the values' nodes
have no part in it but for the span of the node.
-/
import GrammarKit.Proofs.Grammar.Actions
import GrammarKit.Proofs.Tree.Sameness
import Mathlib.Data.List.Induction
import Mathlib.Data.List.Nodup

namespace GrammarKit

/-! ## Actions of rules -/

namespace Actions

theorem lookup_overwrite (p x : Production) (f : Action) : ∀ l : List (Production × Action),
    (l.map fun e => if e.1 == p then (e.1, f) else e).lookup x =
      if x = p then (l.lookup x).map fun _ => f else l.lookup x
  | [] => by simp
  | (y, g) :: l => by
    have ih := lookup_overwrite p x f l
    rw [List.map_cons, List.lookup_cons]
    by_cases hy : y = p
    · subst hy
      rw [if_pos (by simp), List.lookup_cons, ih]
      by_cases hx : x = y
      · simp [hx]
      · simp [hx, beq_eq_false_iff_ne.2 hx]
    · rw [if_neg (by simpa using hy), List.lookup_cons, ih]
      by_cases hx : x = y
      · simp [hx, hy]
      · simp [beq_eq_false_iff_ne.2 hx]

theorem find?_insert (a : Actions) (r r' : Rule) (f : Action) :
    (a.insert r f).find? r' = if r'.production = r.production then some f else a.find? r' := by
  unfold insert find?
  split
  · rename_i hany
    obtain ⟨⟨p, g⟩, he, heq⟩ := List.any_eq_true.1 hany
    obtain rfl : p = r.production := by simpa using heq
    rw [lookup_overwrite]
    by_cases h : r'.production = r.production
    · rw [if_pos h, if_pos h, h]
      rcases hl : a.entries.lookup r.production with _ | v
      · exact absurd (List.lookup_eq_none_iff.1 hl _ he) (by simp)
      · rfl
    · rw [if_neg h, if_neg h]
  · rename_i hany
    rw [List.lookup_append]
    by_cases h : r'.production = r.production
    · have hnone : a.entries.lookup r'.production = none := List.lookup_eq_none_iff.2 fun e he => by
        rw [h, bne_iff_ne]
        exact fun heq => hany (List.any_eq_true.2 ⟨e, he, by simpa using heq.symm⟩)
      rw [if_pos h, hnone, h, List.lookup_cons_self, Option.none_or]
    · rw [if_neg h, List.lookup_cons, beq_eq_false_iff_ne.2 h]
      simp

end Actions

namespace Rule

/-- The rule whose action stands for all rules of a production: the last one of them. -/
def standing (rules : List Rule) (r : Rule) : Rule :=
  (rules.reverse.find? (·.production == r.production)).getD r

variable {rules : List Rule} {r : Rule}

theorem standing_concat {last : Rule} :
    r.standing (rules ++ [last]) = if r.production = last.production then last else r.standing rules := by
  rw [standing, List.reverse_append, List.reverse_singleton, List.singleton_append, List.find?_cons]
  by_cases hp : r.production = last.production
  · simp [hp]
  · rw [if_neg hp, beq_eq_false_iff_ne.2 (Ne.symm hp), standing]

theorem production_standing (rules : List Rule) (r : Rule) : (r.standing rules).production = r.production := by
  unfold standing
  cases h : rules.reverse.find? (·.production == r.production) with
  | none => rfl
  | some q => simpa using List.find?_some h

theorem standing_mem (hr : r ∈ rules) : r.standing rules ∈ rules := by
  unfold standing
  cases h : rules.reverse.find? (·.production == r.production) with
  | none => exact hr
  | some q => exact List.mem_reverse.1 (List.mem_of_find?_eq_some h)

/-- Where productions are distinct, every rule stands for itself. -/
theorem standing_eq_self (hrules : (rules.map (·.production)).Nodup) (hr : r ∈ rules) : r.standing rules = r :=
  List.inj_on_of_nodup_map hrules (standing_mem hr) hr (production_standing rules r)

end Rule

namespace Shaping

variable (s : Shaping)

/-- The action of a rule is that of the rule that stands for its production. -/
theorem apply_ofRules_standing {rules : List Rule} {r : Rule} (hr : r ∈ rules) :
    (s.ofRules rules).apply r = s.action (r.standing rules) := by
  suffices h : (s.ofRules rules).find? r = some (s.action (r.standing rules)) by
    rw [Actions.apply, h, Option.getD_some]
  induction rules using List.reverseRecOn with
  | nil => cases hr
  | append_singleton rules last ih =>
    rw [ofRules, List.foldl_append, List.foldl_cons, List.foldl_nil, Actions.find?_insert, Rule.standing_concat]
    by_cases hp : r.production = last.production
    · rw [if_pos hp, if_pos hp]
    · rw [if_neg hp, if_neg hp]
      rcases List.mem_append.1 hr with hr | hr
      · exact ih hr
      · exact absurd (by rw [List.mem_singleton.1 hr]) hp

/-- A rule's action is the one that the last rule of its production was given. -/
theorem apply_ofRules {rules : List Rule} {r : Rule} (hr : r ∈ rules) :
    ∃ r' ∈ rules, r'.production = r.production ∧ (s.ofRules rules).apply r = s.action r' :=
  ⟨_, Rule.standing_mem hr, Rule.production_standing rules r, s.apply_ofRules_standing hr⟩

/-! ## Children -/

/-- The children of a rule's node. -/
def kept (r : Rule) (values : List Child) : List Child :=
  contributions (s.keepAllTokens || r.options.keepAllTokens) r.parts values

end Shaping

theorem Slot.map_contribution {φ : Child → Child} (hφ : Child.Strips φ) (slot : Slot) (c : Child) :
    (slot.contribution c).map φ = slot.contribution (φ c) := by
  cases slot with
  | keep => rfl
  | drop => rfl
  | inline =>
    cases c with
    | token t =>
      obtain ⟨s, ht⟩ := hφ.token t
      rw [ht]
      exact congrArg (fun c => [c]) ht
    | tree t =>
      obtain ⟨l, cs, span⟩ := t
      rw [hφ.tree, contribution, contribution]
      split
      · rfl
      · rw [List.map_singleton, hφ.tree]

theorem Slot.tokensOf_contribution (slot : Slot) (c : Child) :
    (Child.tokensOf (slot.contribution c)).Sublist c.tokens := by
  cases slot with
  | keep => simp [contribution, Child.tokensOf]
  | drop => simp [contribution, Child.tokensOf]
  | inline =>
    cases c with
    | token t => simp [contribution, Child.tokensOf]
    | tree t =>
      obtain ⟨l, cs, span⟩ := t
      rw [contribution]
      split
      · rw [Child.tokens, Tree.tokens]
      · simp [Child.tokensOf]

theorem Child.tokensOf_append : ∀ cs ds : List Child, tokensOf (cs ++ ds) = tokensOf cs ++ tokensOf ds
  | [], _ => rfl
  | c :: cs, ds => by rw [List.cons_append, tokensOf, tokensOf, tokensOf_append cs ds, List.append_assoc]

namespace Shaping

theorem map_contributions {φ : Child → Child} (hφ : Child.Strips φ) (keepAll : Bool) :
    ∀ (ps : List Part) (vs : List Child),
      (contributions keepAll ps vs).map φ = contributions keepAll ps (vs.map φ)
  | _, [] => by simp [contributions]
  | [], _ :: _ => by simp [contributions]
  | p :: ps, v :: vs => by
    rw [contributions, List.map_append, Slot.map_contribution hφ, map_contributions hφ keepAll ps vs, List.map_cons,
      contributions]

theorem tokensOf_contributions (keepAll : Bool) : ∀ (ps : List Part) (vs : List Child),
    (Child.tokensOf (contributions keepAll ps vs)).Sublist (Child.tokensOf vs)
  | _, [] => by simp [contributions, Child.tokensOf]
  | [], _ :: _ => by simp [contributions]
  | p :: ps, v :: vs => by
    rw [contributions, Child.tokensOf_append, Child.tokensOf]
    exact (Slot.tokensOf_contribution _ v).append (tokensOf_contributions keepAll ps vs)

/-! ## Nodes -/

section Action

variable {s : Shaping} (hs : s.actions = []) {r : Rule} {vs : List Child}
include hs

/-- A single child may take the place of its node. -/
theorem action_eq_only (hr : r.options.expandSingle = true) {only : Child} (hk : s.kept r vs = [only]) :
    s.action r vs = only := by
  rw [kept] at hk
  simp [action, hs, hr, hk]

/-- In all other cases there is a node. -/
theorem action_eq_tree (h : ¬ (r.options.expandSingle = true ∧ (s.kept r vs).length = 1)) :
    s.action r vs = .tree ⟨r.label, s.kept r vs, if s.propagatePositions then coverAll vs else none⟩ := by
  rw [kept] at h ⊢
  simp only [action, hs, List.lookup_nil]
  split
  · rename_i hr hk
    exact absurd ⟨hr, by rw [hk]; rfl⟩ h
  · rfl

theorem action_eq_node (h : ¬ (r.options.expandSingle = true ∧ (s.kept r vs).length = 1)) :
    ∃ span, s.action r vs = .tree ⟨r.label, s.kept r vs, span⟩ :=
  ⟨_, action_eq_tree hs h⟩

/-- Values that differ in spans give nodes that differ in spans. -/
theorem action_congr {φ : Child → Child} (hφ : Child.Strips φ) {us : List Child} (h : us.map φ = vs.map φ) :
    φ (s.action r us) = φ (s.action r vs) := by
  have hkept : (s.kept r us).map φ = (s.kept r vs).map φ := by
    rw [kept, kept, map_contributions hφ, map_contributions hφ, h]
  have hlen : (s.kept r us).length = (s.kept r vs).length := by simpa using congrArg List.length hkept
  by_cases hone : r.options.expandSingle = true ∧ (s.kept r vs).length = 1
  · obtain ⟨hr, hv⟩ := hone
    obtain ⟨u, hu⟩ := List.length_eq_one_iff.1 (hlen.trans hv)
    obtain ⟨v, hv⟩ := List.length_eq_one_iff.1 hv
    rw [action_eq_only hs hr hu, action_eq_only hs hr hv]
    simpa [hu, hv] using hkept
  · obtain ⟨span, hv⟩ := action_eq_node hs hone
    obtain ⟨span', hu⟩ := action_eq_node hs (by rwa [hlen] : ¬ (_ ∧ (s.kept r us).length = 1))
    rw [hu, hv, hφ.tree, hφ.tree, hkept]

/-- A node has the tokens of its children. -/
theorem tokens_action_eq : (s.action r vs).tokens = Child.tokensOf (s.kept r vs) := by
  by_cases hone : r.options.expandSingle = true ∧ (s.kept r vs).length = 1
  · obtain ⟨hr, hv⟩ := hone
    obtain ⟨v, hv⟩ := List.length_eq_one_iff.1 hv
    rw [action_eq_only hs hr hv, hv, Child.tokensOf, Child.tokensOf, List.append_nil]
  · obtain ⟨span, hv⟩ := action_eq_node hs hone
    rw [hv, Child.tokens, Tree.tokens]

/-- A node has no tokens but those of the values, each once at most. -/
theorem tokens_action : (s.action r vs).tokens.Sublist (Child.tokensOf vs) := by
  rw [tokens_action_eq hs]
  exact tokensOf_contributions ..

end Action

/-! ## Values of derivations -/

mutual

/-- A shaped tree has no tokens but those of its derivation, each once at most. -/
theorem tokens_build {s : Shaping} (hs : s.actions = []) (rules : List Rule) : ∀ d : Derivation,
    (d.build ((s.ofRules rules).atPlace rules)).tokens.Sublist d.leaves
  | .token t => List.Sublist.refl _
  | .node i ds => by
    rw [Derivation.build, Derivation.leaves]
    refine List.Sublist.trans ?_ (tokensOf_build hs rules ds)
    rcases hr : rules[i]? with _ | r
    · rw [Actions.atPlace, hr, Child.tokens, Tree.tokens]
    · obtain ⟨r', -, -, hact⟩ := s.apply_ofRules (List.mem_of_getElem? hr)
      rw [Actions.atPlace_eq hr, hact]
      exact tokens_action hs

theorem tokensOf_build {s : Shaping} (hs : s.actions = []) (rules : List Rule) : ∀ ds : List Derivation,
    (Child.tokensOf (Derivation.buildAll ((s.ofRules rules).atPlace rules) ds)).Sublist (Derivation.leavesAll ds)
  | [] => List.Sublist.refl _
  | d :: ds => by
    rw [Derivation.buildAll, Child.tokensOf, Derivation.leavesAll]
    exact (tokens_build hs rules d).append (tokensOf_build hs rules ds)

end

end Shaping

end GrammarKit
