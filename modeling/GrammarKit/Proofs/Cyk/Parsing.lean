/-
Parses by the table of all stretches come to the right end. The table's last cell tells whether the tokens are a
sentence, and what it holds is restored to one of the sentence's trees. Tokens that are no sentence are run through a
chart, which refuses the first one up to which no sentence reaches.
-/
import GrammarKit.Pipeline.Tabular
import GrammarKit.Proofs.Grammar.Evaluation
import GrammarKit.Proofs.Cyk.Table
import GrammarKit.Proofs.Earley.Verdict

namespace GrammarKit

/-- Derives tokens and builds the derivation with actions. -/
def Cyk.Parser.parse (p : Cyk.Parser) (a : Actions) (tokens : List Token) (start : String) : Outcome Child := do
  return (← p.derive tokens start).evaluate (a.atPlace p.rules)

/-- A tabular pipeline parses the tokens that it has read. -/
theorem TabularPipeline.parse_eq (p : TabularPipeline) (w : Window) (start : Option String) : p.parse w start = (do
    let name ← chooseStart p.start start
    p.parser.parse p.actions (← p.tokens w) name) := rfl

namespace Cyk

variable {rules : List Rule}

theorem NormalForm.ofRules_eq (hne : NoEmptyRule rules) :
    NormalForm.ofRules rules = .ok ⟨eliminateUnits (shorten rules)⟩ := by
  have hfind : rules.find? (·.parts.isEmpty) = none := by
    rw [List.find?_eq_none]
    intro r hr hparts
    exact hne r hr (by rw [Rule.symbols, List.isEmpty_iff.1 hparts]; rfl)
  rw [ofRules, hfind]

namespace Parser

theorem ofRules_eq (hne : NoEmptyRule rules) : ofRules rules = .ok ⟨rules, ⟨eliminateUnits (shorten rules)⟩⟩ := by
  rw [ofRules, NormalForm.ofRules_eq hne]
  rfl

theorem exists_rule_of_derive {p : Parser} {tokens : List Token} {start : String} {d : Derivation}
    (h : p.derive tokens start = .ok d) : ∃ r ∈ p.rules, r.origin = start := by
  by_contra hno
  have hunknown : (p.rules.filter (·.origin == start)).isEmpty = true := by
    rw [List.isEmpty_iff, List.filter_eq_nil_iff]
    exact fun r hr ho => hno ⟨r, hr, by simpa using ho⟩
  unfold derive at h
  rw [if_pos hunknown] at h
  cases h

/-- The columns that the search for a failure goes through are those of a chart. -/
theorem replay_eq : ∀ (tokens : List Token) (c : Earley.Chart), Failure.parse (replay c.grammar c.columns tokens) =
    match c.scanAll Earley.Chart.byName (Listed.ofTokens tokens) with
    | .error f => f
    | .ok c => .parse (.atEnd c.expected)
  | [], c => by
    rw [Earley.scanAll_nil]
    rfl
  | t :: rest, c => by
    have hp : ∀ a, Earley.Chart.byName a t = .ok (a == t.kind) := fun a => congrArg Except.ok Bool.beq_comm
    rw [Earley.scanAll_cons, Earley.scan_eq hp, replay]
    have hread := replay_eq rest (c.read (· == t.kind) t)
    split
    · rename_i htaking
      rw [show c.taking (· == t.kind) = [] from htaking]
      rfl
    · rename_i hne
      rw [show (c.taking (· == t.kind)).isEmpty = false from Bool.eq_false_iff.2 (mt List.isEmpty_iff.1 hne)]
      exact hread

theorem failure_eq (p : Parser) (tokens : List Token) (start : String) : p.failure tokens start =
    match Earley.Chart.ofTokens p.recognizer Earley.Chart.byName (Listed.ofTokens tokens) start with
    | .error f => f
    | .ok c => .parse (.atEnd c.expected) := by
  rw [failure, Earley.Chart.ofTokens, Earley.Chart.start]
  cases p.recognizer.seeds start with
  | error f => rfl
  | ok seeds => exact replay_eq tokens { grammar := p.recognizer, columns := [p.recognizer.column [] seeds] }

theorem parse_eq (p : Parser) (a : Actions) (tokens : List Token) (start : String) :
    p.parse a tokens start = (p.derive tokens start).map (·.build (a.atPlace p.rules)) := by
  unfold parse
  cases p.derive tokens start with
  | error f => rfl
  | ok d => exact congrArg Except.ok (d.evaluate_eq _)

/-- The search for a failure stops where the sentences do: at the end, or at the first token up to which none reaches. -/
theorem failure_cases (hne : NoEmptyRule rules) (normal : NormalForm) {start : String}
    (hs : ∃ r ∈ rules, r.origin = start) (tokens : List Token) :
    (Viable rules IsNamed start tokens ∧
      ∃ names, (⟨rules, normal⟩ : Parser).failure tokens start = .parse (.atEnd names)) ∨
    ∃ u t v names, tokens = u ++ t :: v ∧ Viable rules IsNamed start u ∧ ¬ Viable rules IsNamed start (u ++ [t]) ∧
      (⟨rules, normal⟩ : Parser).failure tokens start = .parse (.atToken t names) := by
  have hplain : (⟨rules, normal⟩ : Parser).recognizer = .ofRules rules := by
    rw [recognizer, Earley.ChartRules.ofRules, hne.nullableNames_eq]
  have hg : (Earley.ChartRules.ofRules rules).Exact Earley.Chart.byName.Stands := Earley.ChartRules.exact_ofRules _
  rw [failure_eq, hplain]
  rcases Earley.ofTokens_outcome hg (fun _ _ => ⟨_, rfl⟩) hs tokens with
    ⟨chart, hc, -, hv⟩ | ⟨u, t, v, chart, heq, -, hv, hnv, hc⟩
  · rw [Earley.stands_byName] at hv
    rw [hc]
    exact .inl ⟨hv, _, rfl⟩
  · rw [Earley.stands_byName] at hv hnv
    rw [hc]
    exact .inr ⟨u, t, v, _, heq, hv, hnv, rfl⟩

/-- Tokens that are no sentence fail as they have to. -/
theorem failure_verdict (hne : NoEmptyRule rules) (normal : NormalForm) {start : String}
    (hs : ∃ r ∈ rules, r.origin = start)
    {tokens : List Token} (hn : ¬ Yields rules IsNamed [.nonterminal start] tokens) (act : Nat → Action) :
    Verdict rules start act tokens (.error ((⟨rules, normal⟩ : Parser).failure tokens start)) := by
  rcases failure_cases hne normal hs tokens with ⟨hv, names, hf⟩ | ⟨u, t, v, names, heq, hv, hnv, hf⟩
  · rw [hf]
    exact .ended hv hn
  · rw [hf]
    exact .refused heq hv hnv

/-- A sentence is derived by the tree of a chosen binary derivation, anything else fails. -/
theorem derive_cases (hne : NoEmptyRule rules) (hplain : Plain rules) {start : String}
    (hs : ∃ r ∈ rules, r.origin = start) (tokens : List Token) :
    (∃ (b : Binary) (d : Derivation),
      (⟨rules, ⟨eliminateUnits (shorten rules)⟩⟩ : Parser).derive tokens start = .ok d ∧
      b.Chosen rules ⟨eliminateUnits (shorten rules)⟩ start tokens ∧ b.restore? = some d ∧
      Trees rules IsNamed [.nonterminal start] tokens [d]) ∨
    ¬ Yields rules IsNamed [.nonterminal start] tokens ∧
      (⟨rules, ⟨eliminateUnits (shorten rules)⟩⟩ : Parser).derive tokens start =
        .error ((⟨rules, ⟨eliminateUnits (shorten rules)⟩⟩ : Parser).failure tokens start) := by
  obtain ⟨r, hr, rfl⟩ := hs
  have hown := (hplain r hr).1
  have hknown : (rules.filter (·.origin == r.origin)).isEmpty = false := by
    rw [List.isEmpty_eq_false_iff]
    exact List.ne_nil_of_mem (List.mem_filter.2 ⟨hr, beq_self_eq_true _⟩)
  unfold derive
  rw [if_neg (by rw [hknown]; exact Bool.false_ne_true)]
  split
  · refine .inr ⟨fun hy => ?_, rfl⟩
    cases hne.eq_nil hy rfl
  · rename_i hnil
    have hrec := Table.whole_records rules ⟨eliminateUnits (shorten rules)⟩ hnil
    by_cases hy : Yields rules IsNamed [.nonterminal r.origin] tokens
    · obtain ⟨b, hb⟩ := exists_derives hplain hne rfl hy
      obtain ⟨b', hwhole⟩ := hrec.complete _ b hb
      have hchosen := hrec.sound _ b' hwhole
      obtain ⟨d, hd, htrees⟩ := hchosen.derives.restore? hplain hne rfl hown
      rw [Table.whole?, hwhole]
      simp only [hd]
      exact .inl ⟨b', d, rfl, hchosen, hd, htrees⟩
    · have hnone : (Table.ofTokens rules ⟨eliminateUnits (shorten rules)⟩ tokens).whole? r.origin = none := by
        rw [Table.whole?, Option.eq_none_iff_forall_ne_some]
        intro b hb
        obtain ⟨d, -, htrees⟩ := (hrec.sound _ b hb).derives.restore? hplain hne rfl hown
        exact hy htrees.yields
      simp only [hnone]
      exact .inr ⟨hy, trivial⟩

theorem derive_verdict (hne : NoEmptyRule rules) (hplain : Plain rules) {start : String}
    (hs : ∃ r ∈ rules, r.origin = start) (tokens : List Token) (act : Nat → Action) : Verdict rules start act tokens
      (((⟨rules, ⟨eliminateUnits (shorten rules)⟩⟩ : Parser).derive tokens start).map (·.build act)) := by
  rcases derive_cases hne hplain hs tokens with ⟨-, d, hd, -, -, htrees⟩ | ⟨hn, hf⟩
  · rw [hd]
    exact .value htrees
  · rw [hf]
    exact failure_verdict hne _ hs hn act

end Parser

/-- A parse by the table of all stretches comes to the right end. -/
theorem parse_verdict {c : ParserConfig} (hne : NoEmptyRule c.rules) (hplain : Plain c.rules) {start : String}
    (hs : ∃ r ∈ c.rules, r.origin = start) : ∃ p, Parser.ofRules c.rules = .ok p ∧ ∀ tokens : List Token,
      Verdict c.rules start (c.actions.atPlace c.rules) tokens (p.parse c.actions tokens start) := by
  refine ⟨⟨c.rules, ⟨eliminateUnits (shorten c.rules)⟩⟩, Parser.ofRules_eq hne, ?_⟩
  intro tokens
  rw [Parser.parse_eq]
  exact Parser.derive_verdict hne hplain hs tokens _

/-- Exactly the sentences are derived, and what comes back is a tree of the grammar's own rules. -/
theorem derive_exact {rules : List Rule} (hne : NoEmptyRule rules) (hplain : Plain rules) {start : String}
    (hs : ∃ r ∈ rules, r.origin = start) : ∃ p, Parser.ofRules rules = .ok p ∧ ∀ tokens : List Token,
      ((∃ d, p.derive tokens start = .ok d) ↔
        Derives rules [.nonterminal start] ((tokens.map Token.kind).map .terminal)) ∧
      ∀ d, p.derive tokens start = .ok d → Trees rules IsNamed [.nonterminal start] tokens [d] := by
  refine ⟨⟨rules, ⟨eliminateUnits (shorten rules)⟩⟩, Parser.ofRules_eq hne, ?_⟩
  intro tokens
  rw [← yields_isNamed_iff]
  rcases Parser.derive_cases hne hplain hs tokens with ⟨-, d, hd, -, -, htrees⟩ | ⟨hn, hf⟩
  · refine ⟨iff_of_true ⟨d, hd⟩ htrees.yields, fun d' hd' => ?_⟩
    obtain rfl := Except.ok.inj (hd.symm.trans hd')
    exact htrees
  · rw [hf]
    exact ⟨iff_of_false (by rintro ⟨d, hd⟩; cases hd) hn, fun d hd => by cases hd⟩

/-- A list of letters in parentheses: a rule of three symbols with its terminals, and a chain of single nonterminals. -/
def enclosedLetters : List Rule :=
  [⟨"s", [⟨.nonterminal "t", false⟩], 0, none, {}⟩, ⟨"t", [⟨.nonterminal "u", false⟩], 0, none, {}⟩,
   ⟨"u", [⟨.terminal "(", false⟩, ⟨.nonterminal "v", false⟩, ⟨.terminal ")", false⟩], 0, none, {}⟩,
   ⟨"v", [⟨.terminal "x", false⟩], 0, none, {}⟩, ⟨"v", [⟨.nonterminal "v", false⟩, ⟨.terminal "x", false⟩], 1, none, {}⟩]

theorem derive_enclosedLetters : ∃ p d, Parser.ofRules enclosedLetters = .ok p ∧
    p.derive (["(", "x", ")"].map fun a => .ofText a a) "s" = .ok d ∧
      Trees enclosedLetters IsNamed [.nonterminal "s"] (["(", "x", ")"].map fun a => .ofText a a) [d] := by
  have hne : NoEmptyRule enclosedLetters := by
    unfold NoEmptyRule
    decide
  have hplain : Plain enclosedLetters := by
    unfold Plain
    decide
  obtain ⟨p, hp, h⟩ := derive_exact hne hplain ⟨enclosedLetters[0], by simp [enclosedLetters], rfl⟩
  obtain ⟨hiff, htree⟩ := h (["(", "x", ")"].map fun a => .ofText a a)
  obtain ⟨d, hd⟩ := hiff.2 (by
    have h1 : Rewrites enclosedLetters [.nonterminal "s"] [.nonterminal "t"] :=
      .mk [] [] (r := enclosedLetters[0]) (by simp [enclosedLetters])
    have h2 : Rewrites enclosedLetters [.nonterminal "t"] [.nonterminal "u"] :=
      .mk [] [] (r := enclosedLetters[1]) (by simp [enclosedLetters])
    have h3 : Rewrites enclosedLetters [.nonterminal "u"] [.terminal "(", .nonterminal "v", .terminal ")"] :=
      .mk [] [] (r := enclosedLetters[2]) (by simp [enclosedLetters])
    have h4 : Rewrites enclosedLetters [.terminal "(", .nonterminal "v", .terminal ")"]
        [.terminal "(", .terminal "x", .terminal ")"] :=
      .mk [.terminal "("] [.terminal ")"] (r := enclosedLetters[3]) (by simp [enclosedLetters])
    exact .head h1 (.head h2 (.head h3 (.single h4))))
  exact ⟨p, d, hp, hd, htree d hd⟩

end Cyk

end GrammarKit
