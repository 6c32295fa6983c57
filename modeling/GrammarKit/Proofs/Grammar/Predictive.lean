/-
Rules that the first token tells apart. If no two rules of a nonterminal can begin with the same terminal, tokens have
one tree at most, and no list of tokens begins another one with a tree.
-/
import GrammarKit.Proofs.Grammar.Sets
import GrammarKit.Proofs.Grammar.Verdict

namespace GrammarKit

/-- The terminals that can come first in symbols. -/
def firstTerminals (rules : List Rule) (symbols : List Symbol) : List String :=
  ((GrammarSets.ofRules rules []).firstOfSequence symbols).1

/-- No two rules of a nonterminal begin with the same terminal. -/
def Predictive (rules : List Rule) : Prop :=
  ∀ i j : Fin rules.length, rules[i].origin = rules[j].origin →
    (∃ a ∈ firstTerminals rules rules[i].symbols, a ∈ firstTerminals rules rules[j].symbols) → i = j

instance (rules : List Rule) : Decidable (Predictive rules) :=
  inferInstanceAs (Decidable (∀ _ _ : Fin rules.length, _ → _ → _))

namespace Predictive

variable {rules : List Rule}

theorem eq_of_first (h : Predictive rules) {i j : Nat} {r s : Rule} {a : String} (hr : rules[i]? = some r)
    (hs : rules[j]? = some s) (ho : r.origin = s.origin) (ha : a ∈ firstTerminals rules r.symbols)
    (hb : a ∈ firstTerminals rules s.symbols) : i = j := by
  obtain ⟨hi, rfl⟩ := List.getElem?_eq_some_iff.1 hr
  obtain ⟨hj, rfl⟩ := List.getElem?_eq_some_iff.1 hs
  exact congrArg Fin.val (h ⟨i, hi⟩ ⟨j, hj⟩ ho ⟨a, ha, hb⟩)

theorem first_of_trees {ss : List Symbol} {t : Token} {ts : List Token} {ds : List Derivation}
    (h : Trees rules IsNamed ss (t :: ts) ds) : t.kind ∈ firstTerminals rules ss := by
  have hd := yields_isNamed_iff.1 h.yields
  have hy : Yields rules Eq ss ((t :: ts).map Token.kind) :=
    yields_iff_derives.2 ⟨_, hd, List.forall₂_same.2 fun _ _ => rfl⟩
  exact GrammarSets.first_of_yields hy rfl

/-- Trees of the same symbols over the beginning of the same tokens are the same trees. -/
theorem trees_unique (h : Predictive rules) (hne : NoEmptyRule rules) {ss : List Symbol} {us : List Token}
    {ds : List Derivation} (hd : Trees rules IsNamed ss us ds) :
    ∀ {vs : List Token} {es : List Derivation} {x y : List Token},
      Trees rules IsNamed ss vs es → us ++ x = vs ++ y → us = vs ∧ ds = es := by
  induction hd with
  | nil =>
    intro vs es x y he _
    cases he
    exact ⟨rfl, rfl⟩
  | token _ _ ih =>
    intro vs es x y he heq
    cases he with
    | token _ rest' =>
      rw [List.cons_append, List.cons_append] at heq
      obtain ⟨rfl, htail⟩ := List.cons.inj heq
      obtain ⟨rfl, rfl⟩ := ih rest' htail
      exact ⟨rfl, rfl⟩
  | @node i r ss us ts cs ds hr inner rest ih1 ih2 =>
    intro vs es x y he heq
    generalize hform : Symbol.nonterminal r.origin :: ss = form at he
    cases he with
    | nil | token => cases hform
    | @node j s _ us' ts' cs' ds' hs inner' rest' =>
      obtain ⟨ho, rfl⟩ := List.cons.inj hform
      rw [List.append_assoc, List.append_assoc] at heq
      -- neither rule is over nothing, so both begin with the same token
      have hsame : i = j := by
        cases us with
        | nil => exact absurd (hne.eq_nil inner.yields rfl) (hne r (List.mem_of_getElem? hr))
        | cons t us =>
          cases us' with
          | nil => exact absurd (hne.eq_nil inner'.yields rfl) (hne s (List.mem_of_getElem? hs))
          | cons t' us' =>
            obtain ⟨rfl, -⟩ := List.cons.inj heq
            exact h.eq_of_first hr hs (Symbol.nonterminal.inj ho) (first_of_trees inner) (first_of_trees inner')
      subst hsame
      obtain rfl := Option.some.inj (hr.symm.trans hs)
      obtain ⟨rfl, rfl⟩ := ih1 inner' heq
      obtain ⟨rfl, rfl⟩ := ih2 rest' (List.append_cancel_left heq)
      exact ⟨rfl, rfl⟩

/-- Tokens have one tree at most. -/
theorem unambiguous (h : Predictive rules) (hne : NoEmptyRule rules) (start : String) : Unambiguous rules start := by
  intro tokens d e hd he
  have hsame := (h.trees_unique hne hd he (rfl : tokens ++ [] = tokens ++ [])).2
  exact (List.cons.inj hsame).1

end Predictive

end GrammarKit
