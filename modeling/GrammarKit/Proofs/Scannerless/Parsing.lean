/-
Parsing text without a lexer is exact. Where no nonterminal derives itself, a text is parsed exactly if it can be cut
into tokens and skipped text such that the start symbol derives the terminals of the tokens, and what is built without
actions has the tokens of such a cutting as its leaves.
-/
import GrammarKit.Proofs.Earley.Alternatives
import GrammarKit.Proofs.Scan.Lexed
import GrammarKit.Proofs.Scannerless.Extraction
import Mathlib

namespace GrammarKit.Earley.Scannerless

variable {l : LexerConfig} {p : ParserConfig} {o : Options} {s : Scannerless} {text : List Char} {start : String}

theorem ofConfig_eq_ok (hs : ofConfig l p o = .ok s) :
    matchers l (usedNames l p) = .ok s.terminals ∧ s.grammar = .ofRules p.rules ∧ s.actions = p.actions ∧
      s.options = o := by
  rw [ofConfig] at hs
  by_cases hforest : o.ambiguity = .forest
  · rw [if_pos hforest] at hs
    cases hs
  by_cases hcallbacks : (!l.callbacks.isEmpty) = true
  · rw [if_neg hforest, if_pos hcallbacks] at hs
    cases hs
  rw [if_neg hforest, if_neg hcallbacks] at hs
  obtain ⟨terminals, hready, hs⟩ := bind_eq_ok.1 hs
  split at hs
  · cases hs
  · cases hs
    exact ⟨hready, rfl, rfl, rfl⟩

theorem parse_eq_ok_iff {v : Child} : s.parse text start = .ok v ↔ ∃ c d, s.chartOf text start = .ok c ∧
    c.Covers (c.whole start) ∧ c.derivation? s.options.ambiguity start = some d ∧ v = d.build s.actions := by
  have haccepts : ∀ c : Chart, c.accepts start = true ↔ c.Covers (c.whole start) := fun c => by
    rw [Chart.accepts, Bool.not_eq_true', List.isEmpty_eq_false_iff]
    rfl
  have hparse : s.parse text start = s.chartOf text start >>= fun c =>
      if c.accepts start = true then c.value s.options.ambiguity s.actions start
      else .error (.parse (.atEnd (lastExpected c))) := by
    rw [parse]
    congr
    funext c
    cases c.accepts start <;> rfl
  rw [hparse]
  constructor
  · intro h
    cases hc : s.chartOf text start with
    | error f =>
      rw [hc] at h
      cases h
    | ok c =>
      rw [hc] at h
      change (if c.accepts start = true then _ else _) = _ at h
      split at h
      · rename_i ha
        rw [Chart.value_eq] at h
        split at h
        · rename_i d hd
          cases h
          exact ⟨c, d, rfl, (haccepts c).1 ha, hd, rfl⟩
        · cases h
      · cases h
  · rintro ⟨c, d, hc, ha, hd, rfl⟩
    rw [hc]
    change (if c.accepts start = true then _ else _) = _
    rw [if_pos ((haccepts c).2 ha), Chart.value_eq, hd]

/-- The end of the text is reached by the start symbol exactly if the text is cut into what it derives. -/
theorem covers_text_iff (hg : s.grammar.Exact IsNamed) : s.Covers text start ⟨start, 0, text.length⟩ ↔
    ∃ ps, Cut s text ps ∧ Derives s.grammar.rules [.nonterminal start] ((Piece.word ps).map .terminal) := by
  rw [covers_start_iff hg]
  constructor
  · rintro ⟨ts, hts, hy⟩
    obtain ⟨ps, hps, rfl⟩ := spans_iff_exists_cut.1 hts
    exact ⟨ps, hps, by rw [← kinds_tokens]; exact yields_isNamed_iff.1 hy⟩
  · rintro ⟨ps, hps, hd⟩
    exact ⟨_, spans_iff_exists_cut.2 ⟨ps, hps, rfl⟩, yields_isNamed_iff.2 (by rwa [kinds_tokens])⟩

/-- A text is parsed exactly if it can be cut into tokens and skipped text such that the start symbol derives the
terminals of the tokens. Where one derivation is kept and no actions are given, the leaves of the value are the tokens
of such a cutting: each has the text of its span, and ends before the next one begins. -/
theorem parse_exact (hs : ofConfig l p o = .ok s) (hself : ∀ n, ¬ DerivesItself p.rules n) (text : List Char)
    (hstart : ∃ r ∈ p.rules, r.origin = start) :
    ((∃ v, s.parse text start = .ok v) ↔
      ∃ ps, Cut s text ps ∧ Derives p.rules [.nonterminal start] ((Piece.word ps).map .terminal)) ∧
    ∀ v, s.parse text start = .ok v → o.ambiguity = .resolve → p.actions = {} →
      ∃ ps, Cut s text ps ∧ Derives p.rules [.nonterminal start] ((Piece.word ps).map .terminal) ∧
        v.tokens = Piece.tokens (.ofText text) 0 ps ∧ (∀ t ∈ v.tokens, t.StandsIn text) ∧
        v.tokens.Pairwise Token.Precedes := by
  obtain ⟨-, hgrammar, hactions, hoptions⟩ := ofConfig_eq_ok hs
  have hrules : s.grammar.rules = p.rules := by rw [hgrammar]; rfl
  have hg : s.grammar.Exact IsNamed := hgrammar ▸ ChartRules.exact_ofRules _
  have hchart : ∀ {c}, s.chartOf text start = .ok c → s.Charts text start c := fun {c} hc => by
    rcases chartOf_outcome hg (hrules ▸ hstart) text with ⟨c', hc', hcharts⟩ | ⟨⟨f, hf⟩, -⟩
    · rw [hc] at hc'
      cases hc'
      exact hcharts
    · rw [hc] at hf
      cases hf
  rw [← hrules] at hself ⊢
  refine ⟨?_, fun v hv ha hplain => ?_⟩
  · rw [← covers_text_iff hg]
    constructor
    · rintro ⟨v, hv⟩
      obtain ⟨c, d, hc, hcov, -⟩ := parse_eq_ok_iff.1 hv
      have h := hchart hc
      exact h.stop_eq ▸ (h.covers_iff.1 hcov).2
    · intro hcov
      rcases chartOf_outcome hg (hrules ▸ hstart) text with ⟨c, hc, h⟩ | ⟨-, hnone⟩
      · have hwhole : c.Covers (c.whole start) :=
          h.covers_iff.2 ⟨Nat.le_of_eq h.stop_eq, by rwa [Chart.whole, h.stop_eq]⟩
        obtain ⟨d, hd⟩ := h.derivation?_ne_none hg hself s.options.ambiguity hwhole
        exact ⟨_, parse_eq_ok_iff.2 ⟨c, d, hc, hwhole, hd, rfl⟩⟩
      · obtain ⟨_, _, -, -, hfound⟩ := hcov
        exact absurd hfound (hnone _)
  · obtain ⟨c, d, hc, -, hd, rfl⟩ := parse_eq_ok_iff.1 hv
    rw [hoptions, ha] at hd
    obtain ⟨ts, t, hts, htree, hbuild⟩ := (hchart hc).derivation?_packs (by decide) hd
    obtain ⟨ps, hps, rfl⟩ := spans_iff_exists_cut.1 hts
    have htokens : (d.build s.actions).tokens = Piece.tokens (.ofText text) 0 ps := by
      rw [hbuild, hactions, hplain, tokens_plain]
      simpa [Derivation.leavesAll] using htree.leaves_eq
    refine ⟨ps, hps, ?_, htokens, ?_, ?_⟩
    · rw [← kinds_tokens]
      exact yields_isNamed_iff.1 htree.yields
    · rw [htokens]
      exact hps.standsIn (List.nil_append text).symm
    · rw [htokens]
      exact (Piece.tokens_precede _ 0 ps).2

/-- Words of one letter and more. -/
def letters : List Rule :=
  [⟨"word", [⟨.terminal "LETTER", false⟩, ⟨.nonterminal "word", false⟩], 0, none, {}⟩,
   ⟨"word", [⟨.terminal "LETTER", false⟩], 1, none, {}⟩]

/-- Letters with spaces anywhere. -/
def spacedLetters : LexerConfig where
  terminals := [{ name := "LETTER", pattern := .literal "a" "" }, { name := "SPACE", pattern := .literal " " "" }]
  ignore := ["SPACE"]

/-- What matching comes to in a letter, a space and a letter. -/
theorem exists_spacedLetters : ∃ s, ofConfig spacedLetters ⟨letters, {}, ["word"], false⟩ {} = .ok s ∧
    s.lengths "LETTER" ['a', ' ', 'a'] = [1] ∧ s.lengths "LETTER" ['a'] = [1] ∧
      (s.terminals.lookup "SPACE").bind (taken? · [' ', 'a']) = some 1 ∧ s.ignore = ["SPACE"] := by
  have h : (ofConfig spacedLetters ⟨letters, {}, ["word"], false⟩ {}).map (fun s =>
      (s.lengths "LETTER" ['a', ' ', 'a'], s.lengths "LETTER" ['a'],
        (s.terminals.lookup "SPACE").bind (taken? · [' ', 'a']), s.ignore)) =
      .ok ([1], [1], some 1, ["SPACE"]) := by cbv
  obtain ⟨s, hs, hfacts⟩ := map_eq_ok.1 h
  simp only [Prod.mk.injEq] at hfacts
  exact ⟨s, hs, hfacts⟩

/-- A letter, a space and a letter are parsed, and the leaves are the tokens of a cutting. -/
theorem parse_spacedLetters : ∃ (s : Scannerless) (v : Child) (ps : List Piece),
    ofConfig spacedLetters ⟨letters, {}, ["word"], false⟩ {} = .ok s ∧ s.parse ['a', ' ', 'a'] "word" = .ok v ∧
      Cut s ['a', ' ', 'a'] ps ∧ v.tokens = Piece.tokens (.ofText ['a', ' ', 'a']) 0 ps ∧
      v.tokens.Pairwise Token.Precedes := by
  obtain ⟨s, hs, hfirst, hlast, hspace, hignore⟩ := exists_spacedLetters
  have hself : ∀ n, ¬ DerivesItself letters n := not_derivesItself_of_single (by decide) (by decide)
  have hstart : ∃ r ∈ letters, r.origin = "word" := ⟨letters[0], by simp [letters], rfl⟩
  obtain ⟨hiff, hvalue⟩ := parse_exact hs hself ['a', ' ', 'a'] hstart
  have hletter : (Piece.token "LETTER" ['a']).Fits s ['a'] := List.mem_of_elem_eq_true (hlast ▸ rfl)
  have hgap : (Piece.skipped [' ']).Fits s [' ', 'a'] := ⟨"SPACE", by simp [hignore], hspace⟩
  have hletters : (Piece.token "LETTER" ['a']).Fits s ['a', ' ', 'a'] := List.mem_of_elem_eq_true (hfirst ▸ rfl)
  have hcut : Cut s ['a', ' ', 'a'] [.token "LETTER" ['a'], .skipped [' '], .token "LETTER" ['a']] :=
    @Cut.cons s (.token "LETTER" ['a']) [' ', 'a'] _ hletters <| @Cut.cons s (.skipped [' ']) ['a'] _ hgap <|
      @Cut.cons s (.token "LETTER" ['a']) [] _ hletter .nil
  have hderives : Derives letters [.nonterminal "word"] [.terminal "LETTER", .terminal "LETTER"] :=
    .tail (.single (.mk [] [] (r := letters[0]) (by simp [letters])))
      (.mk [.terminal "LETTER"] [] (r := letters[1]) (by simp [letters]))
  obtain ⟨v, hv⟩ := hiff.2 ⟨_, hcut, hderives⟩
  obtain ⟨ps, hps, -, htokens, -, hpairwise⟩ := hvalue v hv rfl rfl
  exact ⟨s, v, ps, hs, hv, hps, htokens, hpairwise⟩

end GrammarKit.Earley.Scannerless
