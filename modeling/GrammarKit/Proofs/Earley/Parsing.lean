/-
Parsing by chart succeeds exactly on the tokens that the start symbol derives, in every mode, for all rules
without a cycle of nullable symbols. With such a cycle the search can lose the only derivation: what it gives up
while a goal is active stays given up when the goal is closed.
-/
import GrammarKit.Proofs.Earley.Assembly
import GrammarKit.Proofs.Earley.Completeness
import GrammarKit.Proofs.Earley.Recognition
import Mathlib

namespace GrammarKit.Earley

/-- A chart that recognises the start symbol has a derivation of it, whether one is kept or all are, and a parse
succeeds exactly if the start symbol derives terminals that the tokens stand for. -/
theorem parse_complete {conf : ParserConfig} {matches? : Chart.TokenMatch} {o : Options} {p : Parser}
    (hp : Parser.ofConfig conf matches? o = .ok p) {start : String} (hs : ∃ r ∈ conf.rules, r.origin = start)
    (hm : ∀ a t, ∃ b, matches? a t = .ok b) (hac : NoEmptyCycle conf.rules) (tokens : List Token) :
    (∀ c : Chart, Chart.ofTokens p.grammar p.matches? (Listed.ofTokens tokens) start = .ok c →
      c.completed tokens.length start 0 ≠ [] → ∀ a : Ambiguity, (c.derivation? a start).isSome = true) ∧
    ((∃ value, p.parse (Listed.ofTokens tokens) start = .ok value) ↔
      ∃ word, Derives conf.rules [.nonterminal start] (word.map .terminal) ∧
        List.Forall₂ matches?.Stands word tokens) := by
  obtain ⟨rfl, -⟩ := ofConfig_eq_ok hp
  have hg : (ChartRules.ofRules conf.rules).Exact matches?.Stands := ChartRules.exact_ofRules _
  simp only [← yields_iff_derives, parse_eq]
  rcases ofTokens_outcome hg hm hs tokens with ⟨c, hc, hr, -⟩ | ⟨u, t, v, c, rfl, hr, -, hnv, hc⟩
  · rw [hc]
    have hderive : ∀ a, c.completed tokens.length start 0 ≠ [] → (c.derivation? a start).isSome = true :=
      fun a hne => hr.derivation?_isSome hg hac a (by rw [Chart.Covers, hr.stop_eq]; exact hne)
    refine ⟨fun c' h hne a => (by cases h; exact hderive a hne), ?_⟩
    rw [← show _ ↔ Yields conf.rules _ _ _ from hr.accepts_iff hg]
    by_cases ha : c.accepts start = true
    · have hne := ha
      rw [Chart.accepts, hr.stop_eq, Bool.not_eq_true', List.isEmpty_eq_false_iff] at hne
      obtain ⟨d, hd⟩ := Option.isSome_iff_exists.1 (hderive o.ambiguity hne)
      refine ⟨fun _ => ha, fun _ => ⟨d.build conf.actions, ?_⟩⟩
      show (if c.accepts start = true then _ else _) = _
      rw [if_pos ha, Chart.value_eq, hd]
    · refine ⟨?_, fun h => absurd h ha⟩
      rintro ⟨value, h⟩
      simp only [if_neg ha] at h
      cases h
  · rw [hc]
    refine ⟨fun c' h => (by cases h), by rintro ⟨value, ⟨⟩⟩, fun hy => ?_⟩
    have hvy : Viable conf.rules matches?.Stands start (u ++ [t] ++ v) := by simpa using viable_of_yields hy
    exact absurd hvy.of_append hnv

/-- Rules in which two nonterminals lead into each other over a letter, but not over nothing. -/
def letterCycle : List Rule :=
  [⟨"a", [⟨.nonterminal "b", false⟩], 0, none, {}⟩, ⟨"a", [⟨.terminal "x", false⟩], 1, none, {}⟩,
   ⟨"b", [⟨.nonterminal "a", false⟩], 0, none, {}⟩]

/-- A letter is parsed although two nonterminals lead into each other over it, with all derivations kept. -/
theorem parse_letterCycle : ∃ (p : Parser) (value : Child),
    Parser.ofConfig ⟨letterCycle, {}, ["b"], false⟩ Chart.byName { ambiguity := .explicit } = .ok p ∧
      p.parse (Listed.ofTokens [.ofText "x" "x"]) "b" = .ok value := by
  have hac : NoEmptyCycle letterCycle := by
    intro x y hxy _
    rcases Relation.ReflTransGen.cases_head hxy with h | ⟨z, ⟨r, hr, -, -, hn⟩, -⟩
    · exact h
    · -- no symbol of the rules is nullable
      have hall : ∀ r ∈ letterCycle, allNullable (nullableNames letterCycle) r.symbols = false := by decide +kernel
      rw [hall r hr] at hn
      cases hn
  have hd : Derives letterCycle [.nonterminal "b"] [.terminal "x"] :=
    .tail (.single (.mk [] [] (r := letterCycle[2]) (by simp [letterCycle])))
      (.mk [] [] (r := letterCycle[1]) (by simp [letterCycle]))
  have hp : Parser.ofConfig ⟨letterCycle, {}, ["b"], false⟩ Chart.byName { ambiguity := .explicit } =
      .ok ⟨.ofRules letterCycle, {}, Chart.byName, { ambiguity := .explicit }⟩ := rfl
  have h := parse_complete hp ⟨letterCycle[2], by simp [letterCycle], rfl⟩ (fun a t => ⟨_, rfl⟩) hac [.ofText "x" "x"]
  obtain ⟨value, hv⟩ := h.2.2 ⟨["x"], hd, .cons rfl .nil⟩
  exact ⟨_, value, hp, hv⟩

/-! ## Cycles of nullable symbols -/

/-- Rules in which `y` and `a` lead into each other over nothing, and `y` is derived again after `a`. -/
def emptyCycle : List Rule :=
  [⟨"start", [⟨.nonterminal "y", false⟩, ⟨.nonterminal "a", false⟩], 0, none, {}⟩,
   ⟨"y", [⟨.nonterminal "a", false⟩], 0, none, {}⟩, ⟨"a", [⟨.nonterminal "y", false⟩], 0, none, {}⟩,
   ⟨"a", [], 1, none, {}⟩]

/-- The chart of no tokens recognises the start symbol, and the search finds no derivation of it. -/
theorem emptyCycle_underived : ∃ c : Chart,
    Chart.ofTokens (.ofRules emptyCycle) Chart.byName (Listed.ofTokens []) "start" = .ok c ∧
      c.completed 0 "start" 0 ≠ [] ∧ c.derivation? .resolve "start" = none ∧
      c.derivation? .explicit "start" = none := by
  have hs : ∃ r ∈ (ChartRules.ofRules emptyCycle).rules, r.origin = "start" :=
    ⟨emptyCycle[0], by simp [ChartRules.ofRules, emptyCycle], rfl⟩
  refine ⟨{ grammar := .ofRules emptyCycle,
            columns := [(ChartRules.ofRules emptyCycle).column []
              ((ChartRules.ofRules emptyCycle).predict 0 "start")] }, ?_, ?_, ?_, ?_⟩
  · rw [Chart.ofTokens, start_ok hs]
    exact scanAll_nil _
  · decide +kernel
  · rw [← Option.isNone_iff_eq_none]; cbv
  · rw [← Option.isNone_iff_eq_none]; cbv

end GrammarKit.Earley
