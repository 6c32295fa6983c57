/-
Which templates are parsed. If the start symbol derives the tokens of a template in the extended grammar, the template
is parsed, unless a typed placeholder that rejects a host value may come where the value stands: then the parse ends
with the mismatch, whether or not another terminal takes the value there.
-/
import GrammarKit.Proofs.Earley.Assembly
import GrammarKit.Proofs.Earley.Source
import GrammarKit.Proofs.Grammar.Restless
import GrammarKit.Proofs.Template.Reading
import GrammarKit.Proofs.Template.Standing
import Mathlib

namespace GrammarKit

/-! ## Cycles in extended grammars -/

section Cycles

variable {rules rules' : List Rule}

theorem Rewrites.terminal_mem {x y : List Symbol} (h : Rewrites rules x y) {a : String} (ha : .terminal a ∈ x) :
    .terminal a ∈ y := by
  cases h with
  | mk before after hr =>
    simp only [List.mem_append, List.mem_cons, reduceCtorEq, false_or] at ha ⊢
    tauto

/-- Rules with a terminal have no part in the derivation of a form without terminals. -/
theorem transGen_rewrites_of_no_terminal (hadded : ∀ r ∈ rules', r ∈ rules ∨ ∃ a, .terminal a ∈ r.symbols)
    {x y : List Symbol} (h : Relation.TransGen (Rewrites rules') x y) :
    (∀ a, .terminal a ∉ y) → Relation.TransGen (Rewrites rules) x y := by
  have hstep : ∀ {x y}, Rewrites rules' x y → (∀ a, .terminal a ∉ y) → Rewrites rules x y := by
    intro x y hxy hy
    cases hxy with
    | mk before after hr =>
      rcases hadded _ hr with hr | ⟨a, ha⟩
      · exact .mk before after hr
      · exact absurd (by simp [ha]) (hy a)
  induction h with
  | single h => exact fun hy => .single (hstep h hy)
  | tail h hyz ih =>
    exact fun hz => .tail (ih fun a ha => hz a (hyz.terminal_mem ha)) (hstep hyz hz)

/-- The rules for splicing let no nonterminal derive itself. -/
theorem not_derivesItself_extend (terminals : List Terminal) (hself : ∀ n, ¬ DerivesItself rules n) (n : String) :
    ¬ DerivesItself (SplicedGrammar.extend rules terminals).rules n := by
  intro h
  refine hself n (transGen_rewrites_of_no_terminal (fun r hr => ?_) h (by simp))
  obtain ⟨added, hadded, hnew⟩ := (SplicedGrammar.extend_extends rules terminals).1.rules
  rw [hadded] at hr
  refine (List.mem_append.1 hr).imp_right fun hr => ?_
  obtain ⟨origin, label, terminal, order, rfl, -⟩ := (hnew r hr).1
  exact ⟨terminal, by simp [SplicedGrammar.spliceRule, Rule.symbols]⟩

theorem EmptyStep.derives {x y : String} (h : EmptyStep rules x y) :
    Relation.TransGen (Rewrites rules) [.nonterminal x] [.nonterminal y] := by
  obtain ⟨r, hr, rfl, hy, hnull⟩ := h
  obtain ⟨before, after, hsyms⟩ := List.append_of_mem hy
  have hempty : Yields rules IsNamed (before ++ .nonterminal y :: after) [] :=
    hsyms ▸ allNullable_nullableNames_iff.1 hnull
  obtain ⟨us, vs, hnil, hbefore, hrest⟩ := hempty.split
  obtain ⟨rfl, rfl⟩ := List.append_eq_nil_iff.1 hnil.symm
  obtain ⟨us, vs, hnil, -, hafter⟩ := (show Yields rules IsNamed ([.nonterminal y] ++ after) [] from hrest).split
  obtain ⟨rfl, rfl⟩ := List.append_eq_nil_iff.1 hnil.symm
  have hrule := Rewrites.of_rule hr
  rw [hsyms] at hrule
  exact .head' hrule (hbefore.derives_nil.append (hafter.derives_nil.append_left [.nonterminal y]))

/-- Where no nonterminal derives itself, no two lead into each other over nothing. -/
theorem noEmptyCycle_of_not_derivesItself (hself : ∀ n, ¬ DerivesItself rules n) : NoEmptyCycle rules := by
  intro x y hxy hyx
  by_contra hne
  have hlift : ∀ {x y}, Relation.ReflTransGen (EmptyStep rules) x y →
      Derives rules [.nonterminal x] [.nonterminal y] := by
    intro x y h
    induction h with
    | refl => exact .refl
    | tail _ h ih => exact ih.trans h.derives.to_reflTransGen
  rcases Relation.ReflTransGen.cases_head hxy with h | ⟨z, hxz, hzy⟩
  · exact hne h
  · exact hself x (.trans_left hxz.derives ((hlift hzy).trans (hlift hyx)))

end Cycles

/-! ## Derived tokens -/

/-- Tokens that the start symbol derives are parsed if the match fails for no terminal that may come where a token
stands. Otherwise the parse fails as the match does for such a terminal. -/
theorem Earley.parse_of_yields {conf : ParserConfig} {matches? : Chart.TokenMatch} {o : Options} {p : Parser}
    (hp : Parser.ofConfig conf matches? o = .ok p) (hac : NoEmptyCycle conf.rules) {start : String} {tokens : List Token}
    (hy : Yields conf.rules matches?.Stands [.nonterminal start] tokens) :
    ((∃ v, p.parse (Listed.ofTokens tokens) start = .ok v) ∧
      ∀ u t v a, tokens = u ++ t :: v → Continues conf.rules matches?.Stands start u (.terminal a) →
        ∃ b, matches? a t = .ok b) ∨
    ∃ u t v a f, tokens = u ++ t :: v ∧ Continues conf.rules matches?.Stands start u (.terminal a) ∧
      matches? a t = .error f ∧ p.parse (Listed.ofTokens tokens) start = .error f := by
  obtain ⟨rfl, hforest⟩ := ofConfig_eq_ok hp
  obtain ⟨r, hr, horigin, -⟩ := yields_nonterminal_iff.1 hy
  -- the match that decides finds a derivation of the tokens
  have hdecided : Parser.ofConfig conf matches?.decided o =
      .ok ⟨.ofRules conf.rules, conf.actions, matches?.decided, o⟩ := if_neg hforest
  have hy' : Yields conf.rules matches?.decided.Stands [.nonterminal start] tokens := by
    rwa [Chart.TokenMatch.stands_decided_eq]
  obtain ⟨v, hv⟩ := exists_parse_eq_ok hdecided (fun a t => Chart.TokenMatch.decided_decides a t) hac hy'
  rcases Parser.parse_decided ⟨.ofRules conf.rules, conf.actions, matches?, o⟩ (ChartRules.exact_ofRules _)
    ⟨r, hr, horigin⟩ (viable_of_yields hy) with ⟨heq, hall⟩ | hfails
  · exact .inl ⟨⟨v, heq.trans hv⟩, hall⟩
  · exact .inr hfails

/-! ## Derived templates -/

/-- Where a host value stands, a typed placeholder that rejects it may come. -/
def MayReject (rules : List Rule) (terminals : List Terminal) (types : List (String × HostType)) (start : String)
    (tokens : List Token) (key : String) (type : HostType) (v : HostValue) : Prop :=
  ∃ u t rest a d, tokens = u ++ t :: rest ∧ namedTerminal? terminals a = some d ∧ d.Rejects types t key type v ∧
    Continues rules (StandsAmong terminals types) start u (.terminal a)

namespace TemplatePipeline

variable {lexing : LexerConfig} {parsing : ParserConfig} {o : PipelineOptions} {p : TemplatePipeline}

theorem parse_template_eq {start : Option String} {name : String} (hstart : chooseStart p.start start = .ok name)
    {t : Template} (htokens : (TokenSource.drain (p.tokens t)).2.1 = none) :
    (∀ v, p.parser.parse (Listed.ofTokens (TokenSource.drain (p.tokens t)).1) name = .ok v →
      p.parse (.template t) start = .ok v.splice) ∧
    ∀ key expected found, p.parser.parse (Listed.ofTokens (TokenSource.drain (p.tokens t)).1) name =
      .error (.typeMismatch key expected found) →
        p.parse (.template t) start = .error (.typeMismatch key expected found) := by
  have heq : p.parser.parse (p.tokens t) name = _ := p.parser.parse_drain htokens
  refine ⟨fun v hv => ?_, fun key expected found he => ?_⟩
  · rw [parse, hstart]
    simp only [bind, Except.bind, heq, hv]
    rfl
  · rw [parse, hstart]
    simp only [bind, Except.bind, heq, he]
    rfl

/-- A pipeline in whose grammar no nonterminal derives itself parses every template whose tokens are derived, if its
labels are known and its segments can be read: unless a typed placeholder may come, after the tokens before, where a
host value stands that is not of its type. Then the parse ends with such a mismatch. -/
theorem parse_derived_template (hp : ofConfig lexing parsing o = .ok p)
    (hself : ∀ n, ¬ DerivesItself parsing.rules n) {t : Template}
    (htokens : (TokenSource.drain (p.tokens t)).2.1 = none) {start : Option String} {name : String}
    (hstart : chooseStart parsing.start start = .ok name)
    (hderives : ∃ word,
      Derives (SplicedGrammar.extend parsing.rules lexing.terminals).rules [.nonterminal name] (word.map .terminal) ∧
      List.Forall₂ (StandsAmong (SplicedGrammar.extend parsing.rules lexing.terminals).terminals o.placeholderTypes)
        word (TokenSource.drain (p.tokens t)).1) :
    let spliced := SplicedGrammar.extend parsing.rules lexing.terminals
    let tokens := (TokenSource.drain (p.tokens t)).1
    ((∃ v, p.parse (.template t) start = .ok v) ↔
      ¬ ∃ key type v, MayReject spliced.rules spliced.terminals o.placeholderTypes name tokens key type v) ∧
    ∀ f, p.parse (.template t) start = .error f → ∃ key type v,
      MayReject spliced.rules spliced.terminals o.placeholderTypes name tokens key type v ∧
        f = .typeMismatch key type.shortName v.shortName := by
  intro spliced tokens
  obtain ⟨-, hparser, hs, -⟩ := ofConfig_eq_ok hp
  obtain ⟨hparseOk, hparseError⟩ := parse_template_eq (hs ▸ hstart) htokens
  have hac : NoEmptyCycle spliced.rules :=
    noEmptyCycle_of_not_derivesItself (not_derivesItself_extend lexing.terminals hself)
  have hy := yields_iff_derives.2 hderives
  rw [← TerminalPatterns.stands_matches?] at hy
  have hcases := Earley.parse_of_yields hparser hac hy
  rw [TerminalPatterns.stands_matches?] at hcases
  rcases hcases with ⟨⟨v, hv⟩, hall⟩ | ⟨u, x, rest, a, f, hx, hc, hf, he⟩
  · have hparse := hparseOk v hv
    refine ⟨⟨fun _ ⟨key, type, v, u, x, rest, a, d, hx, hd, hrej, hc⟩ => ?_, fun _ => ⟨_, hparse⟩⟩, fun f hf => ?_⟩
    · -- the match would fail for the placeholder
      obtain ⟨b, hb⟩ := hall u x rest a hx hc
      obtain ⟨f, hf⟩ := TerminalPatterns.matches?_of_rejects hd hrej
      exact absurd (hf.symm.trans hb) (by simp)
    · rw [hparse] at hf
      cases hf
  · obtain ⟨d, hd, key, v, hpat, hval, hnone | ⟨type, hrej, rfl⟩⟩ := TerminalPatterns.matches?_eq_error hf
    · obtain ⟨type, htype⟩ := exists_type hp (namedTerminal?_eq_some hd).1 hpat
      rw [hnone] at htype
      cases htype
    · have hmay : MayReject spliced.rules spliced.terminals o.placeholderTypes name tokens key type v :=
        ⟨u, x, rest, a, d, hx, hd, hrej, hc⟩
      have hparse := hparseError _ _ _ he
      refine ⟨⟨fun ⟨v, hv⟩ => ?_, fun hno => absurd ⟨key, type, v, hmay⟩ hno⟩, fun f hf => ⟨key, type, v, hmay, ?_⟩⟩
      · rw [hparse] at hv
        cases hv
      · rw [hparse] at hf
        exact (Except.error.inj hf).symm

end TemplatePipeline

/-! ## A number or any value -/

/-- A number, or else any value. -/
def numberOrAny : Grammar where
  terminals := [{ name := "PLACEHOLDER__NUM", pattern := .placeholder (some "num") },
    { name := "PLACEHOLDER", pattern := .placeholder none }]
  rules :=
    [⟨"start", [⟨.terminal "PLACEHOLDER__NUM", false⟩], 0, none, { emptyIndices := [false] }⟩,
     ⟨"start", [⟨.terminal "PLACEHOLDER", false⟩], 1, none, { emptyIndices := [false] }⟩]
  start := ["start"]
  ignore := []

namespace numberOrAny

def options : PipelineOptions := { placeholderTypes := [("num", ⟨"i64"⟩)] }

def extended : SplicedGrammar where
  rules := numberOrAny.rules ++ [SplicedGrammar.spliceRule "start" "TREE__START" 2]
  terminals := numberOrAny.terminals ++ [{ name := "TREE__START", pattern := .tree "start" }]
  spliceTerminals := [("start", "TREE__START")]

theorem extend_eq : SplicedGrammar.extend numberOrAny.rules numberOrAny.terminals = extended :=
  SplicedGrammar.eq_of_parts (by decide +kernel) (by decide +kernel) (by decide +kernel)

/-- No rule has a nonterminal to derive itself by. -/
theorem no_cycle : ∀ n, ¬ DerivesItself numberOrAny.rules n := not_derivesItself_of_single (by decide) (by decide)

def reader : TemplateReader where
  lexicon := ⟨[], [], []⟩
  spliceTerminals := extended.spliceTerminals
  placeholders := [("PLACEHOLDER__NUM", ⟨"i64"⟩)]

theorem exists_pipeline : ∃ p, TemplatePipeline.ofConfig numberOrAny.lexerConfig (numberOrAny.parserConfig {}) options =
    .ok p ∧ p.reader = reader ∧ p.parser.grammar = .ofRules extended.rules ∧
      p.parser.matches? = (TerminalPatterns.ofTerminals extended.terminals options.placeholderTypes).matches? ∧
      p.start = ["start"] := by
  have hmissing : TemplatePipeline.missingTypes numberOrAny.lexerConfig options = [] := by cbv
  have hreader : ∀ {placeholders}, placeholders = reader.placeholders →
      ({ lexicon := ⟨[], [], []⟩, spliceTerminals := extended.spliceTerminals, placeholders } : TemplateReader) =
        reader := by
    rintro _ rfl
    rfl
  unfold TemplatePipeline.ofConfig
  rw [hmissing]
  simp only [Grammar.parserConfig, Grammar.lexerConfig, extend_eq]
  rw [Lexicon.ofConfig_eq_empty (by decide +kernel), Lexicon.ofConfig_eq_empty (by decide +kernel)]
  exact ⟨_, rfl, hreader (by decide +kernel), rfl, rfl, rfl⟩

theorem lookup_types {key : String} {type : HostType} (h : options.placeholderTypes.lookup key = some type) :
    type = ⟨"i64"⟩ := by
  simp only [options, List.lookup] at h
  split at h <;> cases h
  rfl

/-- A template of one value. -/
def single (v : HostValue) : Template := { head := "", tail := [(.host v, "")] }

theorem drain_single (r : TemplateReader) {v : HostValue} {t : Token} (ht : r.valueToken (.host v) none = .ok t) :
    (TokenSource.drain (r.tokens (single v))).1 = [t] ∧ (TokenSource.drain (r.tokens (single v))).2.1 = none := by
  have hdrained : TokenSource.drained (r.tokens (single v)) =
      .concat [r.readText "", r.readValue (.host v), r.readText ""] := TemplateTokens.drained_unplaced rfl
  rw [r.readText_empty, TemplateReader.readValue, ht] at hdrained
  exact Drained.ext_iff.1 hdrained

def seven : HostValue := ⟨0, "i64", some "7"⟩

def someText : HostValue := ⟨0, "alloc::string::String", some "x"⟩

/-- Both rules derive a template of one value, if their placeholder takes it. -/
theorem derives_single {kind : String} (a : String) (order : Nat)
    (hr : ⟨"start", [⟨.terminal a, false⟩], order, none, { emptyIndices := [false] }⟩ ∈ extended.rules) {v : HostValue}
    (hv : StandsAmong extended.terminals options.placeholderTypes a ⟨kind, .host v, none⟩) :
    ∃ word, Derives (SplicedGrammar.extend numberOrAny.rules numberOrAny.terminals).rules [.nonterminal "start"]
        (word.map .terminal) ∧
      List.Forall₂ (StandsAmong (SplicedGrammar.extend numberOrAny.rules numberOrAny.terminals).terminals
        options.placeholderTypes) word [⟨kind, .host v, none⟩] := by
  rw [extend_eq]
  exact ⟨[a], .single (Rewrites.of_rule hr), .cons hv .nil⟩

end numberOrAny

open numberOrAny

theorem parse_numberOrAny_seven : ∃ p v,
    TemplatePipeline.ofConfig numberOrAny.lexerConfig (numberOrAny.parserConfig {}) numberOrAny.options = .ok p ∧
      p.parse (.template (single seven)) none = .ok v := by
  obtain ⟨p, hp, hr, -, -, hs⟩ := exists_pipeline
  have hsource : p.tokens (single seven) = reader.tokens (single seven) := by rw [← hr]; rfl
  obtain ⟨htokens, hend⟩ := drain_single reader (v := seven) (t := ⟨"PLACEHOLDER__NUM", .host seven, none⟩) rfl
  rw [← hsource] at htokens hend
  have hstart : chooseStart (numberOrAny.parserConfig {}).start none = .ok "start" := rfl
  obtain ⟨v, hv⟩ := (TemplatePipeline.parse_derived_template hp no_cycle hend hstart
    (htokens ▸ derives_single "PLACEHOLDER__NUM" 0 (by decide) ⟨⟨"i64"⟩, rfl, rfl⟩)).1.2 (by
      rintro ⟨key, type, v, u, t, rest, a, d, hsplit, hd, ⟨hpat, hval, htype, hrej⟩, -⟩
      -- the type of numbers takes the value
      have ht : t = ⟨"PLACEHOLDER__NUM", .host seven, none⟩ :=
        List.mem_singleton.1 (htokens ▸ hsplit ▸ List.mem_append_right _ (List.mem_cons_self ..))
      rw [ht] at hval
      cases hval
      rw [lookup_types htype] at hrej
      cases hrej)
  exact ⟨p, v, hp, hv⟩

/-- Any value fits where a number may stand too, but a text is not parsed there. -/
theorem parse_numberOrAny_text : ∃ p,
    TemplatePipeline.ofConfig numberOrAny.lexerConfig (numberOrAny.parserConfig {}) numberOrAny.options = .ok p ∧
      (∀ n, ¬ DerivesItself numberOrAny.rules n) ∧ (TokenSource.drain (p.tokens (single someText))).2.1 = none ∧
      (∃ word, Derives (SplicedGrammar.extend numberOrAny.rules numberOrAny.terminals).rules [.nonterminal "start"]
          (word.map .terminal) ∧
        List.Forall₂ (StandsAmong (SplicedGrammar.extend numberOrAny.rules numberOrAny.terminals).terminals
          numberOrAny.options.placeholderTypes) word (TokenSource.drain (p.tokens (single someText))).1) ∧
      p.parse (.template (single someText)) none = .error (.typeMismatch "num" "i64" "String") := by
  obtain ⟨p, hp, hr, hrules, hm, hs⟩ := exists_pipeline
  have hsource : p.tokens (single someText) = reader.tokens (single someText) := by rw [← hr]; rfl
  obtain ⟨htokens, hend⟩ := drain_single reader (v := someText) (t := ⟨"PLACEHOLDER", .host someText, none⟩) rfl
  rw [← hsource] at htokens hend
  refine ⟨p, hp, no_cycle, hend, ?_, ?_⟩
  · rw [htokens]
    exact derives_single "PLACEHOLDER" 1 (by decide) trivial
  · refine (TemplatePipeline.parse_template_eq (by rw [hs]; rfl) hend).2 _ _ _ ?_
    have hscan : ((Earley.Chart.start (.ofRules extended.rules) "start").bind fun c => c.scan
        (TerminalPatterns.ofTerminals extended.terminals options.placeholderTypes).matches?
        ⟨"PLACEHOLDER", .host someText, none⟩) = .error (.typeMismatch "num" "i64" "String") := rfl
    rw [htokens, Earley.Parser.parse, Earley.Chart.ofTokens, hrules, hm]
    obtain ⟨c, hc⟩ : ∃ c, Earley.Chart.start (.ofRules extended.rules) "start" = .ok c := ⟨_, rfl⟩
    rw [hc] at hscan ⊢
    simp only [bind, Except.bind] at hscan ⊢
    rw [Earley.scanAll_cons, hscan]

end GrammarKit
