/-
Parses by chart come to the right end: a sentence is given the value of one of its trees, and the token or the end that
is refused is the first one up to which no leftmost form of the start symbol reaches.
-/
import GrammarKit.Proofs.Earley.Assembly
import GrammarKit.Proofs.Earley.Completeness
import GrammarKit.Proofs.Earley.Recognition
import GrammarKit.Proofs.Grammar.Verdict

namespace GrammarKit

/-- Without empty rules no nonterminals lead into each other over nothing. -/
theorem NoEmptyRule.noEmptyCycle {rules : List Rule} (hne : NoEmptyRule rules) : NoEmptyCycle rules := by
  intro x y hxy _
  rcases Relation.ReflTransGen.cases_head hxy with h | ⟨z, ⟨r, hr, -, -, hn⟩, -⟩
  · exact h
  · have hy : Yields rules (fun a (t : String) => a = t) r.symbols [] := allNullable_nullableNames_iff.1 hn
    exact absurd (hne.eq_nil hy rfl) (hne r hr)

namespace Earley

theorem stands_byName : Chart.byName.Stands = IsNamed := by
  funext a t
  simp [Chart.TokenMatch.Stands, Chart.byName, IsNamed]

/-- A parse that keeps one derivation comes to the right end. -/
theorem parse_verdict {c : ParserConfig} {o : Options} (ho : o.ambiguity = .resolve) (hac : NoEmptyCycle c.rules)
    {start : String} (hs : ∃ r ∈ c.rules, r.origin = start) :
    ∃ p, Parser.ofConfig c Chart.byName o = .ok p ∧ ∀ tokens : List Token,
      Verdict c.rules start (c.actions.atPlace c.rules) tokens (p.parse (Listed.ofTokens tokens) start) := by
  refine ⟨⟨.ofRules c.rules, c.actions, Chart.byName, o⟩,
    by rw [Parser.ofConfig, if_neg (by rw [ho]; exact Ambiguity.noConfusion)], ?_⟩
  intro tokens
  have hg : (ChartRules.ofRules c.rules).Exact Chart.byName.Stands := ChartRules.exact_ofRules _
  rw [parse_eq]
  rcases ofTokens_outcome hg (fun _ _ => ⟨_, rfl⟩) hs tokens with
    ⟨chart, hc, hr, hv⟩ | ⟨u, t, v, chart, rfl, -, hv, hnv, hc⟩
  · rw [hc]
    have hacc := hr.accepts_iff hg
    rw [stands_byName] at hr hg hacc hv
    by_cases ha : chart.accepts start = true
    · have hcovers : chart.Covers ⟨start, 0, chart.stop⟩ := by
        rwa [Chart.accepts, Bool.not_eq_true', List.isEmpty_eq_false_iff] at ha
      obtain ⟨d, hd⟩ := Option.isSome_iff_exists.1 (hr.derivation?_isSome hg hac o.ambiguity hcovers)
      obtain ⟨x, hx, hbuild⟩ := hr.derivation?_sound (by rw [ho]; exact Ambiguity.noConfusion) hd
      simp only [if_pos ha, Chart.value_eq, hd, hbuild]
      exact .value hx
    · simp only [if_neg ha]
      exact .ended hv (fun hy => ha (hacc.2 hy))
  · rw [hc]
    rw [stands_byName] at hv hnv
    exact .refused rfl hv hnv

end Earley

end GrammarKit
