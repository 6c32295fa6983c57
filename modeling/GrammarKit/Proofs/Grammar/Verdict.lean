/-
What a parse has to come to. A sentence is given the value of one of its trees. Of other token lists the first token is
refused up to which no leftmost form of the start symbol reaches, or the end of the list if there is none. Where
sentences have one tree each, this leaves no choice but the names that are reported.
-/
import GrammarKit.Failure
import GrammarKit.Proofs.Grammar.Actions
import GrammarKit.Proofs.Grammar.Continuation

namespace GrammarKit

/-- Outcomes that are right for a token list; `act` gives the values of nodes. -/
inductive Verdict (rules : List Rule) (start : String) (act : Nat → Action) (tokens : List Token) : Outcome Child → Prop
  | value {d : Derivation} (h : Trees rules IsNamed [.nonterminal start] tokens [d]) :
    Verdict rules start act tokens (.ok (d.build act))
  | refused {u v : List Token} {t : Token} {names : List String} (hs : tokens = u ++ t :: v)
    (hu : Viable rules IsNamed start u) (ht : ¬ Viable rules IsNamed start (u ++ [t])) :
    Verdict rules start act tokens (.error (.parse (.atToken t names)))
  | ended {names : List String} (hv : Viable rules IsNamed start tokens)
    (hn : ¬ Yields rules IsNamed [.nonterminal start] tokens) :
    Verdict rules start act tokens (.error (.parse (.atEnd names)))

/-- No token list has two trees of the start symbol. -/
def Unambiguous (rules : List Rule) (start : String) : Prop :=
  ∀ tokens d e, Trees rules IsNamed [.nonterminal start] tokens [d] →
    Trees rules IsNamed [.nonterminal start] tokens [e] → d = e

namespace Verdict

variable {rules : List Rule} {start : String} {act : Nat → Action} {tokens : List Token} {o : Outcome Child}

theorem congr {act' : Nat → Action} (hact : ∀ i r, rules[i]? = some r → act i = act' i)
    (h : Verdict rules start act tokens o) : Verdict rules start act' tokens o := by
  cases h with
  | value h =>
    rw [h.build_congr hact]
    exact .value h
  | refused hs hu ht => exact .refused hs hu ht
  | ended hv hn => exact .ended hv hn

theorem eq_value (h : Verdict rules start act tokens o) (hone : Unambiguous rules start) {d : Derivation}
    (hd : Trees rules IsNamed [.nonterminal start] tokens [d]) : o = .ok (d.build act) := by
  cases h with
  | value h => rw [hone tokens _ _ h hd]
  | @refused u v t names hs hu ht =>
    have hv := viable_of_yields hd.yields
    rw [hs, List.append_cons] at hv
    exact absurd hv.of_append ht
  | ended _ hn => exact absurd hd.yields hn

theorem eq_refused (h : Verdict rules start act tokens o) {u v : List Token} {t : Token} (hs : tokens = u ++ t :: v)
    (hu : Viable rules IsNamed start u) (ht : ¬ Viable rules IsNamed start (u ++ [t])) :
    ∃ names, o = .error (.parse (.atToken t names)) := by
  have hnv : ¬ Viable rules IsNamed start tokens := by
    intro hv
    rw [hs, List.append_cons] at hv
    exact ht hv.of_append
  cases h with
  | value h => exact absurd (viable_of_yields h.yields) hnv
  | @refused u' v' t' names hs' hu' ht' =>
    -- both refused tokens come right after the longest viable prefix
    have hlen : u.length = u'.length := by
      have hpre : u <+: u' ++ t' :: v' := ⟨t :: v, by rw [← hs, hs']⟩
      have hpre' : u' <+: u ++ t :: v := ⟨t' :: v', by rw [← hs', hs]⟩
      have := (viable_prefix_iff hu ht hpre').1 hu'
      have := (viable_prefix_iff hu' ht' hpre).1 hu
      omega
    obtain ⟨-, htail⟩ := List.append_inj (hs.symm.trans hs') hlen
    obtain ⟨rfl, -⟩ := List.cons.inj htail
    exact ⟨names, rfl⟩
  | ended hv _ => exact absurd hv hnv

theorem eq_ended (h : Verdict rules start act tokens o) (hv : Viable rules IsNamed start tokens)
    (hn : ¬ Yields rules IsNamed [.nonterminal start] tokens) : ∃ names, o = .error (.parse (.atEnd names)) := by
  cases h with
  | value h => exact absurd h.yields hn
  | @refused u v t names hs hu ht =>
    rw [hs, List.append_cons] at hv
    exact absurd hv.of_append ht
  | ended _ _ => exact ⟨_, rfl⟩

end Verdict

end GrammarKit
