/-
The three algorithms agree. On rules that all of them take, with one tree for a sentence and one candidate for a move,
the verdict on a token list leaves one outcome only: shift-reduce parsing, the chart and the table of all stretches
give the same value, or they fail at the same token, or they fail at the end.
-/
import GrammarKit.Proofs.Cyk.Parsing
import GrammarKit.Proofs.Grammar.Predictive
import GrammarKit.Proofs.LR.Parsing
import Mathlib

namespace GrammarKit

/-- Outcomes that agree on a token list: all give one value, all fail at the first token with which no sentence goes on,
or all fail at the end. -/
inductive Agree (rules : List Rule) (start : String) (tokens : List Token) (outcomes : List (Outcome Child)) : Prop
  | value (c : Child) (h : ∀ o ∈ outcomes, o = .ok c)
  | refused (u v : List Token) (t : Token) (hs : tokens = u ++ t :: v)
    (hu : ∃ xs, Yields rules IsNamed [.nonterminal start] (u ++ xs))
    (ht : ∀ xs, ¬ Yields rules IsNamed [.nonterminal start] (u ++ t :: xs))
    (h : ∀ o ∈ outcomes, ∃ names, o = .error (.parse (.atToken t names)))
  | ended (h : ∀ o ∈ outcomes, ∃ names, o = .error (.parse (.atEnd names)))

variable {rules : List Rule} {start : String}

theorem Verdict.agree (hp : Productive rules) (hs : ∃ r ∈ rules, r.origin = start) (hone : Unambiguous rules start)
    (act : Nat → Action) {tokens : List Token} {o : Outcome Child} {os : List (Outcome Child)}
    (h : ∀ x ∈ o :: os, Verdict rules start act tokens x) : Agree rules start tokens (o :: os) := by
  cases h o (List.mem_cons_self ..) with
  | value hd => exact .value _ fun x hx => (h x hx).eq_value hone hd
  | @refused u v t names htokens hu ht =>
    have hnone : ∀ xs, ¬ Yields rules IsNamed [.nonterminal start] (u ++ t :: xs) := by
      intro xs hy
      have hv := viable_of_yields hy
      rw [List.append_cons] at hv
      exact ht hv.of_append
    exact .refused u v t htokens (hu.exists_sentence hp hs) hnone fun x hx => (h x hx).eq_refused htokens hu ht
  | ended hv hn => exact .ended fun x hx => (h x hx).eq_ended hv hn

/-- The three algorithms agree on rules none of which is empty, whose names are free, whose nonterminals all derive some
word, whose sentences have one tree each, and which leave shift-reduce parsing one candidate for every move. -/
theorem parses_agree (c : ParserConfig) (strict : Bool) (o : Earley.Options) (ho : o.ambiguity = .resolve)
    (hne : NoEmptyRule c.rules) (hp : Productive c.rules) (hu : LR.Unreserved c.rules c.start)
    (hplain : Cyk.Plain c.rules) (hone : Unambiguous c.rules start) (hd : LR.Deterministic c.rules c.start)
    (hn : start ∈ c.start) (hs : ∃ r ∈ c.rules, r.origin = start) :
    ∃ lr earley cyk, LR.Parser.ofConfig c strict = .ok lr ∧
      Earley.Parser.ofConfig c Earley.Chart.byName o = .ok earley ∧ Cyk.Parser.ofRules c.rules = .ok cyk ∧
      ∀ tokens : List Token, (∀ t ∈ tokens, t.kind ≠ endMarker) → Agree c.rules start tokens
        [(lr.parse (Listed.ofTokens tokens) start none).result, earley.parse (Listed.ofTokens tokens) start,
         cyk.parse c.actions tokens start] := by
  obtain ⟨lr, hlr, hlrv⟩ := LR.parse_verdict hu hp hd hn hs strict
  obtain ⟨earley, hearley, hearleyv⟩ := Earley.parse_verdict ho hne.noEmptyCycle hs
  obtain ⟨cyk, hcyk, hcykv⟩ := Cyk.parse_verdict hne hplain hs
  refine ⟨lr, earley, cyk, hlr, hearley, hcyk, fun tokens hend => ?_⟩
  refine Verdict.agree hp hs hone (c.actions.atPlace c.rules) fun x hx => ?_
  simp only [List.mem_cons, List.not_mem_nil, or_false] at hx
  rcases hx with rfl | rfl | rfl
  · exact hlrv tokens hend
  · exact hearleyv tokens
  · exact hcykv tokens

/-- One letter in parentheses, at least one pair of them. -/
def nestedLetter : List Rule :=
  [⟨"s", [⟨.terminal "(", false⟩, ⟨.nonterminal "t", false⟩, ⟨.terminal ")", false⟩], 0, none, {}⟩,
   ⟨"t", [⟨.nonterminal "s", false⟩], 0, none, {}⟩, ⟨"t", [⟨.terminal "x", false⟩], 1, none, {}⟩]

/-- A letter in two pairs of parentheses. -/
def doublyNested : List Token := ["(", "(", "x", ")", ")"].map fun a => .ofText a a

set_option maxRecDepth 4000 in
theorem parses_agree_nestedLetter : ∃ lr earley cyk,
    LR.Parser.ofConfig ⟨nestedLetter, {}, ["s"], false⟩ true = .ok lr ∧
      Earley.Parser.ofConfig ⟨nestedLetter, {}, ["s"], false⟩ Earley.Chart.byName {} = .ok earley ∧
      Cyk.Parser.ofRules nestedLetter = .ok cyk ∧
      Agree nestedLetter "s" doublyNested [(lr.parse (Listed.ofTokens doublyNested) "s" none).result,
        earley.parse (Listed.ofTokens doublyNested) "s", cyk.parse {} doublyNested "s"] := by
  have hne : NoEmptyRule nestedLetter := by
    unfold NoEmptyRule
    decide
  have hplain : Cyk.Plain nestedLetter := by
    unfold Cyk.Plain
    decide
  have hpredictive : Predictive nestedLetter := by decide +kernel
  have hu : LR.Unreserved nestedLetter ["s"] := by
    refine ⟨?_, ?_, ?_⟩ <;> simp [nestedLetter, LR.reserved_iff, Rule.symbols, Symbol.name]
  have hd : LR.Deterministic nestedLetter ["s"] := by
    rw [← LR.Automaton.settled_iff]
    cbv
  have ht : Derives nestedLetter [.nonterminal "t"] [.terminal "x"] :=
    .single (.mk [] [] (r := nestedLetter[2]) (by simp [nestedLetter]))
  have hs : Derives nestedLetter [.nonterminal "s"] [.terminal "(", .terminal "x", .terminal ")"] :=
    .head (.mk [] [] (r := nestedLetter[0]) (by simp [nestedLetter]))
      ((ht.append_right [.terminal ")"]).append_left [.terminal "("])
  have hp : Productive nestedLetter := by
    rintro n ⟨r, hr, hn⟩
    have hname : n = "s" ∨ n = "t" := by
      simp only [nestedLetter, List.mem_cons, List.not_mem_nil, or_false] at hr
      rcases hr with rfl | rfl | rfl <;> simp [Rule.symbols] at hn <;> tauto
    rcases hname with rfl | rfl
    · exact ⟨["(", "x", ")"], hs⟩
    · exact ⟨["x"], ht⟩
  obtain ⟨lr, earley, cyk, hlr, hearley, hcyk, h⟩ :=
    parses_agree ⟨nestedLetter, {}, ["s"], false⟩ true {} rfl hne hp hu hplain
      (hpredictive.unambiguous hne "s") hd (List.mem_singleton_self "s") ⟨nestedLetter[0], by simp [nestedLetter], rfl⟩
  exact ⟨lr, earley, cyk, hlr, hearley, hcyk, h doublyNested (by decide)⟩

end GrammarKit
