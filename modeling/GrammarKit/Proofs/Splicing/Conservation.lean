/-
Extending a grammar for splicing changes nothing for text. The tokens of a text are named after terminals for text,
which no splice terminal is. So the rules for splicing never come, each token stands for the terminal of its name as it
does in the grammar itself, and as the values are made of text alone, nothing is spliced into them.

The names of literals are the exception. A literal may be given the name of a terminal of trees, and then it is taken
for such a tree.
-/
import GrammarKit.Pipeline.Basic
import GrammarKit.Proofs.Earley.Idle
import GrammarKit.Proofs.Earley.Shaping
import GrammarKit.Proofs.Grammar.Drafted
import GrammarKit.Proofs.Splicing.Substitution
import GrammarKit.Proofs.Template.Standing
import Mathlib

namespace GrammarKit

/-! ## Tokens of text in the extended grammar -/

/-- No terminal of trees has the name of a terminal for text. -/
def TreesApart (terminals : List Terminal) : Prop :=
  ∀ t ∈ terminals, ∀ label, t.pattern = .tree label → ¬ Lexicon.NamesText terminals t.name

section Extended

variable {rules : List Rule} {terminals : List Terminal} {types : List (String × HostType)}

/-- The name of a terminal for text means one. -/
theorem NamedApart.exists_named {name : String} (hapart : NamedApart terminals)
    (hname : Lexicon.NamesText terminals name) :
    ∃ d, namedTerminal? terminals name = some d ∧ d.pattern.isText = true := by
  induction terminals using List.reverseRecOn with
  | nil =>
    obtain ⟨t, ht, -⟩ := hname
    cases ht
  | append_singleton ts d ih =>
    obtain ⟨t, ht, htext, rfl⟩ := hname
    rw [namedTerminal?, List.reverse_append, List.reverse_singleton, List.singleton_append, List.find?_cons]
    by_cases hd : d.name = t.name
    · rw [beq_iff_eq.2 hd]
      refine ⟨d, rfl, ?_⟩
      rcases List.mem_append.1 ht with ht | ht
      · exact (List.pairwise_append.1 hapart).2.2 t ht d (List.mem_singleton_self d) hd.symm
      · rwa [← List.mem_singleton.1 ht]
    · rw [beq_eq_false_iff_ne.2 hd]
      refine ih (List.pairwise_append.1 hapart).1 ⟨t, (List.mem_append.1 ht).resolve_right fun h => ?_, htext, rfl⟩
      exact hd (congrArg Terminal.name (List.mem_singleton.1 h)).symm

variable (htrees : TreesApart terminals)
include htrees

/-- Neither have the splice terminals of the extended grammar. -/
theorem TreesApart.extend {t : Terminal} (ht : t ∈ (SplicedGrammar.extend rules terminals).terminals) {label : String}
    (hp : t.pattern = .tree label) : ¬ Lexicon.NamesText terminals t.name := by
  rcases (SplicedGrammar.extend_extends rules terminals).1.fresh t ht with ht | hfresh
  · exact htrees t ht label hp
  · exact fun ⟨s, hs, _, hname⟩ => hfresh s hs hname

theorem namedTerminal?_extend (rules : List Rule) {name : String} (hapart : NamedApart terminals)
    (hname : Lexicon.NamesText terminals name) :
    ∃ d, namedTerminal? (SplicedGrammar.extend rules terminals).terminals name = some d ∧ d.pattern.isText = true := by
  obtain ⟨added, hadded, htree⟩ := (SplicedGrammar.extend_extends rules terminals).1.terminals
  obtain ⟨d, hd, htext⟩ := hapart.exists_named hname
  refine ⟨d, ?_, htext⟩
  have hnone : added.reverse.find? (·.name == name) = none := by
    refine List.find?_eq_none.2 fun t ht h => ?_
    obtain rfl : t.name = name := by simpa using h
    obtain ⟨label, hp⟩ := htree t (List.mem_reverse.1 ht)
    have ht : t ∈ (SplicedGrammar.extend rules terminals).terminals := by simp [hadded, List.mem_reverse.1 ht]
    exact htrees.extend ht hp hname
  rw [show (SplicedGrammar.extend rules terminals).terminals = terminals ++ added from hadded, namedTerminal?,
    List.reverse_append, List.find?_append, hnone, Option.none_or]
  exact hd

/-- A token of text stands for the terminal of its name. -/
theorem matches?_extend_eq_byName (hapart : NamedApart terminals) {t : Token} (ht : Lexicon.IsText terminals t)
    (a : String) :
    (TerminalPatterns.ofTerminals (SplicedGrammar.extend rules terminals).terminals types).matches? a t =
      Earley.Chart.byName a t := by
  obtain ⟨htext, hname⟩ := ht
  obtain ⟨d, hd, hdtext⟩ := namedTerminal?_extend htrees rules hapart hname
  obtain ⟨kind, value, span⟩ := t
  cases value with
  | tree _ => cases htext
  | host _ => cases htext
  | text s =>
    -- a terminal of another kind is not the one that the token is named after
    have hother : ∀ d', namedTerminal? (SplicedGrammar.extend rules terminals).terminals a = some d' →
        d'.pattern.isText = false → (kind == a) = false := fun d' hd' hno => by
      rw [beq_eq_false_iff_ne]
      rintro rfl
      rw [Option.some.inj (hd'.symm.trans hd), hdtext] at hno
      cases hno
    unfold TerminalPatterns.matches? Earley.Chart.byName
    rw [TerminalPatterns.lookup_ofTerminals]
    cases ha : namedTerminal? (SplicedGrammar.extend rules terminals).terminals a with
    | none => rfl
    | some d' =>
      rw [Option.map_some]
      cases hp : d'.pattern with
      | literal _ _ => rfl
      | regex _ _ => rfl
      | placeholder key =>
        have := hother d' ha (by rw [hp]; rfl)
        cases key <;> simp [this]
      | tree label => simp [hother d' ha (by rw [hp]; rfl)]

/-- The rules that are added are idle over text. -/
theorem exists_idle_extend (rules : List Rule) {tokens : List Token}
    (htokens : ∀ t ∈ tokens, Lexicon.IsText terminals t) :
    ∃ added, (SplicedGrammar.extend rules terminals).rules = rules ++ added ∧
      Idle added Earley.Chart.byName.Stands tokens := by
  obtain ⟨added, hadded, hnew⟩ := (SplicedGrammar.extend_extends rules terminals).1.rules
  refine ⟨added, hadded, fun r hr => ?_⟩
  obtain ⟨origin, label, terminal, order, rfl, hterminal⟩ := (hnew r hr).1
  refine ⟨terminal, [], rfl, fun t ht hstands => ?_⟩
  obtain ⟨d, hd, rfl, hp⟩ := SplicedGrammar.terminalOf?_eq_some hterminal
  have hkind : t.kind = d.name := by simpa [Earley.Chart.TokenMatch.Stands, Earley.Chart.byName] using hstands
  exact htrees.extend hd hp (hkind ▸ (htokens t ht).2)

end Extended

/-! ## Values of text -/

theorem Child.mem_tokensOf {u : Token} {cs : List Child} : u ∈ Child.tokensOf cs ↔ ∃ c ∈ cs, u ∈ c.tokens := by
  induction cs with
  | nil => simp [Child.tokensOf]
  | cons c cs ih =>
    rw [Child.tokensOf, List.mem_append, ih]
    simp

namespace Earley

theorem tokens_joinAlternatives {values : List Child} {u : Token} (h : u ∈ (joinAlternatives values).tokens) :
    ∃ v ∈ values, u ∈ v.tokens := by
  unfold joinAlternatives at h
  split at h
  · rename_i only heq
    exact ⟨only, distinctChildren_subset values only (by rw [heq]; simp), h⟩
  · rw [Child.tokens, Tree.tokens, Child.mem_tokensOf] at h
    obtain ⟨v, hv, hu⟩ := h
    exact ⟨v, distinctChildren_subset values v hv, hu⟩

variable {rules : List Rule} {stands : String → Token → Prop} {w : List Token} {s : Shaping}

mutual

/-- The tokens of a derivation's value are some of those that are read. -/
theorem Packs.tokens_subset (hs : s.actions = []) {x : Symbol} {j k : Nat} {p : Packed} :
    Packs rules stands w x j k p → (p.build (s.ofRules rules)).tokens ⊆ w
  | .token ht _ => by
    rw [Packed.build, Child.tokens]
    exact List.cons_subset.2 ⟨List.mem_of_getElem? ht, List.nil_subset _⟩
  | @Packs.node _ _ _ _ _ _ ways _ hrule _ hparts => by
    intro u hu
    rw [Packed.build, Way.buildAll_eq_map] at hu
    obtain ⟨v, hv, hu⟩ := tokens_joinAlternatives hu
    obtain ⟨⟨r, parts⟩, hway, rfl⟩ := List.mem_map.1 hv
    obtain ⟨r', -, -, haction⟩ := s.apply_ofRules (hrule r parts hway)
    rw [Way.build, haction] at hu
    exact (hparts r parts hway).tokensOf_subset hs ((Shaping.tokens_action hs).subset hu)

theorem PacksAll.tokensOf_subset (hs : s.actions = []) {xs : List Symbol} {j k : Nat} {ps : List Packed} :
    PacksAll rules stands w xs j k ps → Child.tokensOf (Packed.buildAll (s.ofRules rules) ps) ⊆ w
  | .nil => List.nil_subset _
  | .cons _ _ first rest => by
    rw [Packed.buildAll, Child.tokensOf]
    exact List.append_subset.2 ⟨first.tokens_subset hs, rest.tokensOf_subset hs⟩

end

/-- Nothing is spliced into what is built of text. -/
theorem splice_parse_eq_self {matches? : Chart.TokenMatch} (hm : ∀ a t, ∃ b, matches? a t = .ok b)
    (hs : s.actions = []) {tokens : List Token} (htext : ∀ t ∈ tokens, t.text?.isSome = true) {start : String}
    {o : Options} {v : Child}
    (h : (⟨.ofRules rules, s.ofRules rules, matches?, o⟩ : Parser).parse (Listed.ofTokens tokens) start = .ok v) :
    v.splice = v := by
  obtain ⟨c, p, hc, -, hp, rfl⟩ := parse_eq_ok_iff.1 h
  have hrec := records_of_ofTokens (ChartRules.exact_ofRules rules) hm hc
  exact Child.splice_eq_self fun u hu => Token.tree?_eq_none <| htext u ((hrec.derivation?_packs hp).tokens_subset hs hu)

end Earley

/-! ## Pipelines -/

section Pipelines

variable {lexing : LexerConfig} {parsing : ParserConfig} {o : PipelineOptions} {w : Window} {start : Option String}
  {v : Child}

theorem Pipeline.template_parse_iff : (∃ p, Pipeline.ofConfig .earley .template lexing parsing o = .ok p ∧
    (p.parse (.text w) start).result = .ok v) ↔
      ∃ p, TemplatePipeline.ofConfig lexing parsing o = .ok p ∧ p.parse (.text w) start = .ok v := by
  rw [Pipeline.ofConfig]
  cases TemplatePipeline.ofConfig lexing parsing o <;> simp [Functor.map, Except.map, Pipeline.parse]

theorem Pipeline.basic_parse_iff : (∃ p, Pipeline.ofConfig .earley .basic lexing parsing o = .ok p ∧
    (p.parse (.text w) start).result = .ok v) ↔
      ∃ q, TextPipeline.ofConfig .earley .basic lexing parsing o = .ok q ∧ (q.parse w start none).result = .ok v := by
  rw [Pipeline.ofConfig]
  cases TextPipeline.ofConfig .earley .basic lexing parsing o <;> simp [Functor.map, Except.map, Pipeline.parse]

/-- A pipeline that parses by chart, with the lexicon of all terminals. -/
theorem TextPipeline.ofConfig_basic_eq_ok_iff {q : TextPipeline} :
    TextPipeline.ofConfig .earley .basic lexing parsing o = .ok q ↔ o.ambiguity ≠ .forest ∧
      ∃ l, Lexicon.ofConfig lexing = .ok l ∧ q = ⟨some (.basic l), lexing.postLexer, .earley ⟨.ofRules parsing.rules,
        parsing.actions, Earley.Chart.byName, { ambiguity := o.ambiguity }⟩, parsing.start⟩ := by
  by_cases hforest : o.ambiguity = .forest
  · refine ⟨fun h => ?_, fun h => absurd hforest h.1⟩
    obtain ⟨b, hb, -⟩ := bind_eq_ok.1 h
    rw [TextPipeline.backendFor, Earley.Parser.ofConfig, if_pos hforest] at hb
    · cases hb
    · exact fun h => (nomatch h)
    · exact fun h => (nomatch h)
  · rw [and_iff_right hforest]
    cases hl : Lexicon.ofConfig lexing <;>
      simp [TextPipeline.ofConfig, TextPipeline.backendFor, TextPipeline.lexerFor, Earley.Parser.ofConfig, hforest, hl,
        Functor.map, Except.map, bind, Except.bind, pure, Except.pure, eq_comm]

/-- What parsing by chart and by the lexicon of all terminals comes to. -/
theorem TextPipeline.parse_eq_ok_iff (hpost : lexing.postLexer = none) :
    (∃ q, TextPipeline.ofConfig .earley .basic lexing parsing o = .ok q ∧ (q.parse w start none).result = .ok v) ↔
      o.ambiguity ≠ .forest ∧ ∃ l name, Lexicon.ofConfig lexing = .ok l ∧ chooseStart parsing.start start = .ok name ∧
        (⟨.ofRules parsing.rules, parsing.actions, Earley.Chart.byName, { ambiguity := o.ambiguity }⟩ :
          Earley.Parser).parse (Scanner.start (.basic l) w) name = .ok v := by
  -- the hook that stands in for a missing one has no part in what is read
  have hhook : ∀ (b : Earley.Parser) (l : Lexicon) name, b.parse ((Lexer.basic l).stream none w) name = .ok v ↔
      b.parse (Scanner.start (.basic l) w) name = .ok v := fun b l name => by
    obtain ⟨htokens, hfailure⟩ := TokenSource.drain_passing (Scanner.start (.basic l) w)
      (h := (Lexer.basic l).stream none w) rfl rfl rfl
    rw [b.parse_source_eq_ok, htokens, hfailure, ← b.parse_source_eq_ok]
  have hparse : ∀ l (b : Earley.Parser),
      ((⟨some (.basic l), none, .earley b, parsing.start⟩ : TextPipeline).parse w start none).result = .ok v ↔
        ∃ name, chooseStart parsing.start start = .ok name ∧
          b.parse (Scanner.start (.basic l) w) name = .ok v := fun l b => by
    rw [TextPipeline.parse]
    cases chooseStart parsing.start start with
    | error f => exact ⟨fun h => (nomatch h), fun ⟨_, h, _⟩ => (nomatch h)⟩
    | ok name =>
      refine (hhook b l name).trans ⟨fun h => ⟨name, rfl, h⟩, fun ⟨_, hname, h⟩ => ?_⟩
      cases hname
      exact h
  constructor
  · rintro ⟨q, hq, hv⟩
    obtain ⟨hforest, l, hl, rfl⟩ := TextPipeline.ofConfig_basic_eq_ok_iff.1 hq
    rw [hpost] at hv
    obtain ⟨name, hname, hv⟩ := (hparse l _).1 hv
    exact ⟨hforest, l, name, hl, hname, hv⟩
  · rintro ⟨hforest, l, name, hl, hname, hv⟩
    refine ⟨_, TextPipeline.ofConfig_basic_eq_ok_iff.2 ⟨hforest, l, hl, rfl⟩, ?_⟩
    rw [hpost]
    exact (hparse l _).2 ⟨name, hname, hv⟩

theorem TemplatePipeline.parse_text_eq_ok_iff {p : TemplatePipeline} : p.parse (.text w) start = .ok v ↔
    ∃ name, chooseStart p.start start = .ok name ∧
      ∃ v', p.parser.parse (Scanner.start (.basic p.lexicon) w) name = .ok v' ∧ v = v'.splice := by
  rw [TemplatePipeline.parse, bind_eq_ok]
  refine exists_congr fun name => and_congr_right fun _ => ?_
  dsimp only
  cases p.parser.parse (Scanner.start (.basic p.lexicon) w) name with
  | error f => exact ⟨fun h => (nomatch h), fun ⟨_, h, _⟩ => (nomatch h)⟩
  | ok v' =>
    refine ⟨fun h => ⟨v', rfl, (Except.ok.inj h).symm⟩, fun ⟨_, h, hv⟩ => ?_⟩
    cases h
    rw [hv]
    rfl

/-- What parsing a text as a template comes to. -/
theorem TemplatePipeline.parse_eq_ok_iff (hmissing : TemplatePipeline.missingTypes lexing o = []) :
    (∃ p, TemplatePipeline.ofConfig lexing parsing o = .ok p ∧ p.parse (.text w) start = .ok v) ↔
      o.ambiguity ≠ .forest ∧ ∃ l name, Lexicon.ofConfig lexing = .ok l ∧ chooseStart parsing.start start = .ok name ∧
        ∃ v', (⟨.ofRules (SplicedGrammar.extend parsing.rules lexing.terminals).rules,
          (SplicedGrammar.extend parsing.rules lexing.terminals).addActions parsing.actions,
          (TerminalPatterns.ofTerminals (SplicedGrammar.extend parsing.rules lexing.terminals).terminals
            o.placeholderTypes).matches?, { ambiguity := o.ambiguity }⟩ :
              Earley.Parser).parse (Scanner.start (.basic l) w) name = .ok v' ∧ v = v'.splice := by
  -- the terminals that are added are not for text
  have hlexicon : Lexicon.ofConfig { lexing with
      terminals := (SplicedGrammar.extend parsing.rules lexing.terminals).terminals, postLexer := none } =
        Lexicon.ofConfig lexing := by
    obtain ⟨added, hadded, htree⟩ := (SplicedGrammar.extend_extends parsing.rules lexing.terminals).1.terminals
    refine Lexicon.ofConfig_congr ?_ rfl rfl rfl rfl rfl
    have hnone : added.filter (·.pattern.isText) = [] := List.filter_eq_nil_iff.2 fun t ht => by
      obtain ⟨label, hp⟩ := htree t ht
      rw [hp]
      exact Bool.false_ne_true
    rw [hadded, List.filter_append, hnone, List.append_nil]
  constructor
  · rintro ⟨p, hp, hv⟩
    obtain ⟨-, hparser, hs, hl⟩ := TemplatePipeline.ofConfig_eq_ok hp
    obtain ⟨hparser, hforest⟩ := Earley.ofConfig_eq_ok hparser
    obtain ⟨name, hname, v', hv', rfl⟩ := TemplatePipeline.parse_text_eq_ok_iff.1 hv
    exact ⟨hforest, p.lexicon, name, hlexicon ▸ hl, hs ▸ hname, v', hparser ▸ hv', rfl⟩
  · rintro ⟨hforest, l, name, hl, hname, v', hv', rfl⟩
    rw [← hlexicon] at hl
    obtain ⟨p, hp⟩ := TemplatePipeline.exists_ofConfig_eq_ok hmissing hforest hl
    obtain ⟨-, hparser, hs, hl'⟩ := TemplatePipeline.ofConfig_eq_ok hp
    obtain ⟨hparser, -⟩ := Earley.ofConfig_eq_ok hparser
    obtain rfl := Except.ok.inj (hl.symm.trans hl')
    exact ⟨p, hp, TemplatePipeline.parse_text_eq_ok_iff.2 ⟨name, hs ▸ hname, v', hparser ▸ hv', rfl⟩⟩

/-- With the rules for splicing, the tokens of a text are parsed to the same value. -/
theorem parse_extend_iff (hm : ∀ r ∈ parsing.rules, r.options.forSplicing = false) {s : Shaping} (hs : s.actions = [])
    (hactions : parsing.actions = s.ofRules parsing.rules) {terminals : List Terminal} (hapart : NamedApart terminals)
    (htrees : TreesApart terminals) (types : List (String × HostType)) {tokens : List Token}
    (htokens : ∀ t ∈ tokens, Lexicon.IsText terminals t) {options : Earley.Options} {name : String} :
    (∃ v', (⟨.ofRules (SplicedGrammar.extend parsing.rules terminals).rules,
      (SplicedGrammar.extend parsing.rules terminals).addActions parsing.actions,
      (TerminalPatterns.ofTerminals (SplicedGrammar.extend parsing.rules terminals).terminals types).matches?,
      options⟩ : Earley.Parser).parse (Listed.ofTokens tokens) name = .ok v' ∧ v = v'.splice) ↔
      (⟨.ofRules parsing.rules, parsing.actions, Earley.Chart.byName, options⟩ : Earley.Parser).parse
        (Listed.ofTokens tokens) name = .ok v := by
  obtain ⟨added, hadded, hidle⟩ := exists_idle_extend htrees parsing.rules htokens
  have hdecides : ∀ a t, ∃ b, Earley.Chart.byName a t = .ok b := fun a t => ⟨_, rfl⟩
  have hsplice : ∀ {v : Child}, (⟨.ofRules parsing.rules, parsing.actions, Earley.Chart.byName, options⟩ :
      Earley.Parser).parse (Listed.ofTokens tokens) name = .ok v → v.splice = v := fun hv =>
    Earley.splice_parse_eq_self hdecides hs (fun t ht => (htokens t ht).1) (hactions ▸ hv)
  have hiff := Earley.parse_append_idle hdecides hidle (A := parsing.actions)
    (fun r hr => SplicedGrammar.apply_addActions_extend terminals parsing.actions hm hr) options name
  rw [Earley.Parser.parse_congr _ fun t ht a => matches?_extend_eq_byName htrees hapart (htokens t ht) a, hadded]
  constructor
  · rintro ⟨v', hv', rfl⟩
    have hv := (hiff v').1 hv'
    rwa [hsplice hv]
  · exact fun hv => ⟨v, (hiff v).2 hv, (hsplice hv).symm⟩

/-- A text is parsed by chart as it is parsed in a template's place, if no terminal of trees has the name of a terminal
for text. -/
theorem Pipeline.parse_text_conserved {d : GrammarDraft} {g : Grammar} (hb : d.build = .ok g)
    (hm : ∀ r ∈ g.rules, r.options.forSplicing = false) (htrees : TreesApart g.terminals)
    (hs : o.shaping.actions = []) (hterminals : lexing.terminals = g.terminals) (hcallbacks : lexing.callbacks = [])
    (hpost : lexing.postLexer = none) (hmissing : TemplatePipeline.missingTypes lexing o = []) (w : Window)
    (start : Option String) (v : Child) :
    (∃ p, Pipeline.ofConfig .earley .template lexing (g.parserConfig o.shaping) o = .ok p ∧
        (p.parse (.text w) start).result = .ok v) ↔
      ∃ p, Pipeline.ofConfig .earley .basic lexing (g.parserConfig o.shaping) o = .ok p ∧
        (p.parse (.text w) start).result = .ok v := by
  rw [Pipeline.template_parse_iff, Pipeline.basic_parse_iff, TemplatePipeline.parse_eq_ok_iff hmissing,
    TextPipeline.parse_eq_ok_iff hpost]
  refine and_congr_right fun _ => exists_congr fun l => exists_congr fun name => and_congr_right fun hl =>
    and_congr_right fun _ => ?_
  have htokens : ∀ t ∈ (TokenSource.drain (Scanner.start (.basic l) w)).1, Lexicon.IsText g.terminals t :=
    TokenSource.forall_mem_drain (I := fun s => s.lexer = .basic l) (fun ⟨_, cursor⟩ h => by
      cases h
      exact ⟨rfl, fun t ht => hterminals ▸ Lexicon.isText_of_pull hl hcallbacks cursor ht⟩) _ rfl
  rw [hterminals, Earley.Parser.parse_source_eq_ok, ← parse_extend_iff hm hs rfl
    (GrammarDraft.namedApart_build hb) htrees o.placeholderTypes htokens]
  exact ⟨fun ⟨v', hv', h⟩ => ⟨((Earley.Parser.parse_source_eq_ok _).1 hv').1, v',
      ((Earley.Parser.parse_source_eq_ok _).1 hv').2, h⟩,
    fun ⟨hfailure, v', hv', h⟩ => ⟨v', (Earley.Parser.parse_source_eq_ok _).2 ⟨hfailure, hv'⟩, h⟩⟩

end Pipelines

/-! ## Two zeros -/

/-- Two zeros, where terminals may be declared. -/
def twoZeros (declared : List Terminal) : GrammarDraft where
  terminals := declared
  rules := [{ origin := "start", items := ["\"0\"", "\"0\""] }]

namespace twoZeros

/-- The grammar of the draft. -/
def grammar (declared : List Terminal) : Grammar where
  terminals := declared ++ [{ name := "__ANON_0", pattern := .literal "0" "" }]
  rules := [⟨"start", [⟨.terminal "__ANON_0", true⟩, ⟨.terminal "__ANON_0", true⟩], 0, none,
    { emptyIndices := [false, false] }⟩]
  start := ["start"]
  ignore := []

/-- A terminal of trees that is named as the first literal without a name of its own. -/
def likeLiteral : Terminal := { name := "__ANON_0", pattern := .tree "start" }

theorem exists_matcher : ∃ m, Matcher.ofTerminal { name := "__ANON_0", pattern := .literal "0" "" } "" = .ok m ∧
    m.minWidth = 1 ∧ m.length? ['0'] = some 1 ∧ m.length? ['0', '0'] = some 1 := by
  have h : (Matcher.ofTerminal { name := "__ANON_0", pattern := .literal "0" "" } "").map
      (fun m => (m.minWidth, m.length? ['0'], m.length? ['0', '0'])) = .ok (1, some 1, some 1) := by cbv
  obtain ⟨m, hm, hfacts⟩ := map_eq_ok.1 h
  simp only [Prod.mk.injEq] at hfacts
  exact ⟨m, hm, hfacts⟩

def lexicon (m : Matcher) : Lexicon := ⟨[⟨"__ANON_0", m, []⟩], [], []⟩

theorem exists_lexicon (declared : List Terminal) (h : declared.filter (·.pattern.isText) = []) :
    ∃ m, Lexicon.ofConfig (grammar declared).lexerConfig = .ok (lexicon m) ∧
      m.length? ['0'] = some 1 ∧ m.length? ['0', '0'] = some 1 := by
  obtain ⟨m, hm, hwidth, h1, h2⟩ := exists_matcher
  refine ⟨m, Lexicon.ofConfig_eq_single (t := { name := "__ANON_0", pattern := .literal "0" "" }) ?_ (by simp [hwidth]),
    h1, h2⟩
  rw [← hm, LexerConfig.prepared]
  change ((declared ++ [_]).filter _).map _ = _
  rw [List.filter_append, h]
  rfl

/-- The token of the zero at an offset of the line. -/
def zero (offset : Nat) : Token :=
  .ofText "__ANON_0" "0" (some ⟨offset, 1, offset + 1, offset + 1, 1, offset + 2⟩)

theorem match?_lexicon {m : Matcher} {text : List Char} (h : m.length? text = some 1) :
    (lexicon m).match? text = some ("__ANON_0", 1) := by
  simp [Lexicon.match?, lexicon, h]

variable {m : Matcher} (h1 : m.length? ['0'] = some 1)
include h1

theorem drain_last {cursor : Cursor} (h : cursor.ahead = ['0']) :
    (TokenSource.drain (⟨.basic (lexicon m), cursor⟩ : Scanner)).1 = [Lexicon.tokenAt cursor "__ANON_0" 1] ∧
      (TokenSource.drain (⟨.basic (lexicon m), cursor⟩ : Scanner)).2.1 = none := by
  have hend : ({ cursor.advance 1 with last := some (Lexicon.tokenAt cursor "__ANON_0" 1) } : Cursor).ahead = [] := by
    simp [Cursor.advance, h]
  obtain ⟨htokens, hfailure⟩ := Scanner.drain_at_end (l := lexicon m) hend
  rw [Scanner.drain_match (n := 0) (by simp [h]) (h ▸ match?_lexicon h1) rfl rfl]
  exact ⟨congrArg (Lexicon.tokenAt cursor "__ANON_0" 1 :: ·) htokens, hfailure⟩

theorem drain_zero : (TokenSource.drain (Scanner.start (.basic (lexicon m)) (.whole ['0']))).1 = [zero 0] ∧
    (TokenSource.drain (Scanner.start (.basic (lexicon m)) (.whole ['0']))).2.1 = none :=
  drain_last h1 rfl

theorem drain_zeros (h2 : m.length? ['0', '0'] = some 1) :
    (TokenSource.drain (Scanner.start (.basic (lexicon m)) (.whole ['0', '0']))).1 = [zero 0, zero 1] ∧
      (TokenSource.drain (Scanner.start (.basic (lexicon m)) (.whole ['0', '0']))).2.1 = none := by
  have hone : ({ (Cursor.ofWindow (.whole ['0', '0'])).advance 1 with last := some (zero 0) } : Cursor).ahead = ['0'] :=
    rfl
  obtain ⟨htokens, hfailure⟩ := drain_last h1 hone
  have hahead : (Cursor.ofWindow (.whole ['0', '0'])).ahead ≠ [] := by simp [Cursor.ofWindow, Window.whole]
  have hfirst := Scanner.drain_match (l := lexicon m) (n := 0) hahead (match?_lexicon h2) rfl rfl
  rw [Scanner.start, Lexer.openWindow, hfirst]
  · exact ⟨congrArg (zero 0 :: ·) htokens, hfailure⟩
  · intro s h
    cases h

omit h1

/-- The grammar takes the terminal of trees for that of the literal. -/
def extended : SplicedGrammar where
  rules := (grammar [likeLiteral]).rules ++ [SplicedGrammar.spliceRule "start" "__ANON_0" 1]
  terminals := (grammar [likeLiteral]).terminals
  spliceTerminals := [("start", "__ANON_0")]

theorem extend_eq :
    SplicedGrammar.extend (grammar [likeLiteral]).rules (grammar [likeLiteral]).terminals = extended :=
  SplicedGrammar.eq_of_parts (by decide +kernel) (by decide +kernel) (by decide +kernel)

end twoZeros

open twoZeros

/-- Two zeros are two zeros in a template's place too. -/
theorem parse_twoZeros : ∃ p,
    Pipeline.ofConfig .earley .template (grammar []).lexerConfig ((grammar []).parserConfig {}) {} = .ok p ∧
      (p.parse (.text (.whole ['0', '0'])) none).result = .ok (.tree ⟨"start", [], none⟩) := by
  obtain ⟨m, hl, h1, h2⟩ := exists_lexicon [] rfl
  refine (Pipeline.parse_text_conserved (d := twoZeros []) (by cbv) (by decide) (fun t ht label hp => ?_) rfl rfl rfl
    rfl (by cbv) _ _ _).2 ?_
  · rw [List.mem_singleton.1 ht] at hp
    cases hp
  · rw [Pipeline.basic_parse_iff, TextPipeline.parse_eq_ok_iff rfl]
    refine ⟨by decide, _, "start", hl, rfl, (Earley.Parser.parse_source_eq_ok _).2 ⟨(drain_zeros h1 h2).2, ?_⟩⟩
    rw [(drain_zeros h1 h2).1]
    cbv

/-- A single zero is no two zeros. But where a terminal of trees is named as the literal is, it is taken for a tree in a
template's place. -/
theorem parse_twoZeros_single : (twoZeros [likeLiteral]).build = .ok (grammar [likeLiteral]) ∧
    TemplatePipeline.missingTypes (grammar [likeLiteral]).lexerConfig {} = [] ∧
    (∃ p, Pipeline.ofConfig .earley .template (grammar [likeLiteral]).lexerConfig
        ((grammar [likeLiteral]).parserConfig {}) {} = .ok p ∧
      (p.parse (.text (.whole ['0'])) none).result = .ok (.token (zero 0))) ∧
    ¬ ∃ v p, Pipeline.ofConfig .earley .basic (grammar [likeLiteral]).lexerConfig
        ((grammar [likeLiteral]).parserConfig {}) {} = .ok p ∧
      (p.parse (.text (.whole ['0'])) none).result = .ok v := by
  have hmissing : TemplatePipeline.missingTypes (grammar [likeLiteral]).lexerConfig {} = [] := by cbv
  obtain ⟨m, hl, h1, -⟩ := exists_lexicon [likeLiteral] rfl
  refine ⟨by cbv, hmissing, ?_, ?_⟩
  · rw [Pipeline.template_parse_iff, TemplatePipeline.parse_eq_ok_iff hmissing]
    refine ⟨by decide, _, "start", hl, rfl, .token (zero 0),
      (Earley.Parser.parse_source_eq_ok _).2 ⟨(drain_zero h1).2, ?_⟩, rfl⟩
    rw [(drain_zero h1).1]
    simp only [Grammar.lexerConfig, Grammar.parserConfig, extend_eq]
    cbv
  · rintro ⟨v, hv⟩
    rw [Pipeline.basic_parse_iff, TextPipeline.parse_eq_ok_iff rfl] at hv
    obtain ⟨-, l, name, hl', hname, hv⟩ := hv
    obtain rfl := Except.ok.inj (hl.symm.trans hl')
    obtain rfl := Except.ok.inj (show Except.ok "start" = Except.ok name from hname)
    have hv := ((Earley.Parser.parse_source_eq_ok _).1 hv).2
    rw [(drain_zero h1).1] at hv
    have herror : (⟨.ofRules (grammar [likeLiteral]).rules, ((grammar [likeLiteral]).parserConfig {}).actions,
        Earley.Chart.byName, {}⟩ : Earley.Parser).parse (Listed.ofTokens [zero 0]) "start" =
          .error (.parse (.atEnd ["__ANON_0"])) := by cbv
    cases herror.symm.trans hv

end GrammarKit
