/-
Token lists that are no sentences are refused alike by the table of all stretches and by the chart. The table tells only
that no tree covers all tokens, and then asks a chart of its own why, one that steps over no nonterminal. Without empty
rules there is none to step over, so both charts are the same: they stop at the same token, or find the same end, and
name the same terminals. Sentences have their tree in the table, so that nothing asks why they fail.
-/
import GrammarKit.Proofs.Cyk.Parsing

namespace GrammarKit

/-- The failures of tokens that are no sentence: at the first token up to which no leftmost form of the start symbol
reaches, or at the end if there is none, with the terminals that may come instead. -/
inductive Refusal (rules : List Rule) (start : String) (tokens : List Token) : ParseFailure → Prop
  | token {u v : List Token} {t : Token} {names : List String} (htokens : tokens = u ++ t :: v)
    (hu : Viable rules IsNamed start u) (ht : ¬ Viable rules IsNamed start (u ++ [t]))
    (hnames : NextTerminals rules IsNamed start u names) : Refusal rules start tokens (.unexpectedToken t names none)
  | ending {names : List String} (hv : Viable rules IsNamed start tokens)
    (hnames : NextTerminals rules IsNamed start tokens names) : Refusal rules start tokens (.unexpectedEnd names)

variable {rules : List Rule} {start : String} {tokens : List Token}

/-- A chart of tokens that are no sentence stops at a token, or comes to the end and does not accept. -/
theorem Earley.ofTokens_refusal (hs : ∃ r ∈ rules, r.origin = start)
    (hn : ¬ Yields rules IsNamed [.nonterminal start] tokens) : ∃ f, Refusal rules start tokens f ∧
      (Chart.ofTokens (.ofRules rules) Chart.byName (Listed.ofTokens tokens) start = .error (.parse f) ∨
        ∃ c, Chart.ofTokens (.ofRules rules) Chart.byName (Listed.ofTokens tokens) start = .ok c ∧
          c.accepts start = false ∧ f = .atEnd c.expected) := by
  have hg : (ChartRules.ofRules rules).Exact Chart.byName.Stands := ChartRules.exact_ofRules _
  rcases ofTokens_outcome hg (fun _ _ => ⟨_, rfl⟩) hs tokens with
    ⟨c, hc, hrec, hv⟩ | ⟨u, t, v, c, htokens, hrec, hu, ht, hc⟩
  · have hnames := nextTerminals_expected hg hrec
    have haccepts := hrec.accepts_iff hg
    rw [stands_byName] at hv hnames haccepts
    exact ⟨_, .ending hv hnames, .inr ⟨c, hc, Bool.eq_false_iff.2 fun ha => hn (haccepts.1 ha), rfl⟩⟩
  · have hnames := nextTerminals_expected hg hrec
    rw [stands_byName] at hu ht hnames
    exact ⟨_, .token htokens hu ht hnames, .inl hc⟩

/-- Rules none of which is empty are charted without a nonterminal to step over. -/
theorem Earley.ChartRules.ofRules_eq (hne : NoEmptyRule rules) : ChartRules.ofRules rules = ⟨rules, []⟩ := by
  rw [ChartRules.ofRules, hne.nullableNames_eq]

/-- On rules none of which is empty, and whose names are free, every token list that is no sentence is refused by the
table of all stretches and by the chart with one failure: the same token or the end, and the same names. Every sentence
is derived, so the table's search for a failure is never begun. -/
theorem refusals_agree {c : ParserConfig} {o : Earley.Options} (ho : o.ambiguity ≠ .forest) (hne : NoEmptyRule c.rules)
    (hplain : Cyk.Plain c.rules) (hs : ∃ r ∈ c.rules, r.origin = start) :
    ∃ cyk earley, Cyk.Parser.ofRules c.rules = .ok cyk ∧
      Earley.Parser.ofConfig c Earley.Chart.byName o = .ok earley ∧ ∀ tokens : List Token,
        (¬ Derives c.rules [.nonterminal start] ((tokens.map Token.kind).map .terminal) →
          ∃ f, Refusal c.rules start tokens f ∧ cyk.derive tokens start = .error (.parse f) ∧
            earley.parse (Listed.ofTokens tokens) start = .error (.parse f)) ∧
        (Derives c.rules [.nonterminal start] ((tokens.map Token.kind).map .terminal) →
          ∃ d, cyk.derive tokens start = .ok d) := by
  refine ⟨_, ⟨.ofRules c.rules, c.actions, Earley.Chart.byName, o⟩, Cyk.Parser.ofRules_eq hne,
    by rw [Earley.Parser.ofConfig, if_neg ho], fun tokens => ?_⟩
  rw [← yields_isNamed_iff]
  rcases Cyk.Parser.derive_cases hne hplain hs tokens with ⟨-, d, hd, -, -, htrees⟩ | ⟨hn, hf⟩
  · exact ⟨fun hn => absurd htrees.yields hn, fun _ => ⟨d, hd⟩⟩
  · refine ⟨fun _ => ?_, fun hy => absurd hy hn⟩
    rw [hf, Earley.parse_eq]
    -- the table asks the grammar's own chart why the tokens fail
    simp only [Cyk.Parser.failure_eq, Cyk.Parser.recognizer, ← Earley.ChartRules.ofRules_eq hne]
    obtain ⟨f, href, hc | ⟨chart, hc, haccepts, rfl⟩⟩ := Earley.ofTokens_refusal hs hn
    · exact ⟨f, href, by simp only [hc], by simp only [hc]⟩
    · exact ⟨_, href, by simp only [hc], by simp only [hc, haccepts, Bool.false_eq_true, if_false]⟩

/-- Pairs of two letters in a row, cut into smaller rows in every way. -/
def letterRows : List Rule :=
  [⟨"s", [⟨.nonterminal "s", false⟩], 0, none, {}⟩,
   ⟨"s", [⟨.nonterminal "s", false⟩, ⟨.nonterminal "s", false⟩], 1, none, {}⟩,
   ⟨"s", [⟨.terminal "a", false⟩, ⟨.terminal "b", false⟩], 2, none, {}⟩]

/-- The second pair breaks off, in a grammar that is ambiguous and has a cycle. -/
theorem refusals_agree_letterRows : ∃ cyk earley f, Cyk.Parser.ofRules letterRows = .ok cyk ∧
    Earley.Parser.ofConfig ⟨letterRows, {}, ["s"], false⟩ Earley.Chart.byName {} = .ok earley ∧
      cyk.derive (["a", "b", "a", "a"].map fun a => .ofText a a) "s" = .error (.parse f) ∧
      earley.parse (Listed.ofTokens (["a", "b", "a", "a"].map fun a => .ofText a a)) "s" = .error (.parse f) := by
  have hne : NoEmptyRule letterRows := by
    unfold NoEmptyRule
    decide
  have hplain : Cyk.Plain letterRows := by
    unfold Cyk.Plain
    decide
  -- a form has as many letters of one kind as of the other
  have hpaired : ∀ form, Derives letterRows [.nonterminal "s"] form →
      form.count (.terminal "a") = form.count (.terminal "b") := by
    intro form h
    induction h with
    | refl => decide
    | tail _ hstep ih =>
      obtain ⟨before, after, hr⟩ := hstep
      simp only [letterRows, List.mem_cons, List.not_mem_nil, or_false] at hr
      rcases hr with rfl | rfl | rfl <;> simp [Rule.symbols] at ih ⊢ <;> omega
  have hs : ∃ r ∈ letterRows, r.origin = "s" := ⟨letterRows[0], by simp [letterRows], rfl⟩
  obtain ⟨cyk, earley, hcyk, hearley, h⟩ :=
    refusals_agree (c := ⟨letterRows, {}, ["s"], false⟩) (o := {}) (by decide) hne hplain hs
  obtain ⟨f, -, hderive, hparse⟩ := (h (["a", "b", "a", "a"].map fun a => .ofText a a)).1
    fun hd => absurd (hpaired _ hd) (by decide)
  exact ⟨cyk, earley, f, hcyk, hearley, hderive, hparse⟩

end GrammarKit
