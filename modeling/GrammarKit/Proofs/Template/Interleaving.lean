/-
Templates without places, as they come out of lists, parts and other templates. Their tokens are those of the segments,
each lexed by itself, with one token for every value between them. A tree has the splice terminal of its label. A host
value has the first typed placeholder, in the order of the keys, whose type takes it, or else the placeholder of any
value: as long as the names of typed placeholders are given to these alone, for a pipeline finds them by their names.
-/
import GrammarKit.Proofs.Splicing.Conservation
import GrammarKit.Proofs.Template.Acceptance
import GrammarKit.Proofs.Template.Reading
import Mathlib

namespace GrammarKit

open TokenSource

/-- Lists with single elements between them. -/
def interleave {α : Type} : List (List α) → List α → List α
  | xs :: rest, v :: vs => xs ++ v :: interleave rest vs
  | rest, vs => rest.flatten ++ vs

/-! ## Templates without places -/

namespace Template

/-- A template that is put together of segments and values, part by part, or of two templates. -/
inductive Built : Template → Prop
  | ofLists {segments : List String} {values : List Interpolation} {t : Template}
      (h : Template.ofLists segments values = .ok t) : Built t
  | ofParts (parts : List Part) : Built (Template.ofParts parts)
  | join (a b : Template) : Built (a.join b)

theorem source_ofLists {segments : List String} {values : List Interpolation} {t : Template}
    (h : ofLists segments values = .ok t) : t.source = none := by
  cases segments with
  | nil => cases h
  | cons head rest =>
    rw [ofLists] at h
    split at h <;> cases h
    rfl

theorem source_ofParts : ∀ parts : List Part, (ofParts parts).source = none
  | [] => rfl
  | .text _ :: parts => source_ofParts parts
  | .value _ :: _ => rfl

theorem source_joinAfter (b : Template) (head : String) (tail : List (Interpolation × String)) :
    (joinAfter b head tail).source = none := by
  cases tail <;> rfl

theorem Built.source_eq_none {t : Template} (h : t.Built) : t.source = none := by
  cases h with
  | ofLists h => exact source_ofLists h
  | ofParts parts => exact source_ofParts parts
  | join a b => exact source_joinAfter ..

end Template

/-- Where every value has a token and every segment is lexed, the tokens are interleaved. -/
theorem TemplateReader.concat_read (r : TemplateReader) : ∀ (head : String) (tail : List (Interpolation × String)),
    (∀ x ∈ tail, ∃ t, r.valueToken x.1 none = .ok t) →
    (∀ text ∈ head :: tail.map (·.2), (r.own (.whole text.toList)).failure = none) →
    ∃ values, List.Forall₂ (fun v t => r.valueToken v none = .ok t) (tail.map (·.1)) values ∧
      Drained.concat (r.readText head :: tail.flatMap fun x => [r.readValue x.1, r.readText x.2]) =
        ⟨interleave ((head :: tail.map (·.2)).map fun text =>
          (r.own (.whole text.toList)).tokens.map Token.unplaced) values, none⟩
  | head, [], _, hlexed => by
    have hhead := (r.failure_readText head).trans (hlexed head (List.mem_cons_self ..))
    refine ⟨[], .nil, ?_⟩
    rw [List.flatMap_nil, Drained.concat_cons, Drained.andThen_of_none hhead]
    simp [interleave, Drained.map, readText]
  | head, (v, text) :: tail, hvalues, hlexed => by
    have hhead := (r.failure_readText head).trans (hlexed head (List.mem_cons_self ..))
    obtain ⟨t, ht⟩ := hvalues (v, text) (List.mem_cons_self ..)
    obtain ⟨values, hall, hrest⟩ := concat_read r text tail (fun x hx => hvalues x (List.mem_cons_of_mem _ hx))
      fun text' h => hlexed text' (List.mem_cons_of_mem _ h)
    refine ⟨t :: values, .cons ht hall, ?_⟩
    change (r.readText head).andThen ((r.readValue v).andThen (.concat (r.readText text :: tail.flatMap _))) = _
    rw [hrest, readValue, ht, Drained.andThen_of_none hhead]
    rfl

/-! ## Tokens of values -/

/-- A typed placeholder that takes a value, by the type that is registered for its key. -/
def Terminal.Takes (types : List (String × HostType)) (d : Terminal) (v : HostValue) (key : String) : Prop :=
  d.pattern = .placeholder (some key) ∧ ∃ type, types.lookup key = some type ∧ type.accepts v = true

/-- The kind of a host value: the typed placeholder that takes it, of several the one with the least key, or else the
placeholder of any value. -/
def FirstTaking (terminals : List Terminal) (types : List (String × HostType)) (v : HostValue) (kind : String) : Prop :=
  (∃ d ∈ terminals, d.name = kind ∧ ∃ key, d.Takes types v key ∧ ∀ d' ∈ terminals, ∀ key', d'.Takes types v key' →
    key ≤ key') ∨
  (kind = placeholderName ∧ ∀ d ∈ terminals, ∀ key, ¬ d.Takes types v key)

/-- The terminals that are named as the placeholder of a key are the placeholders of that key. -/
def NamedByKey (terminals : List Terminal) (key : String) : Prop :=
  ∀ d ∈ terminals, d.name = placeholderTerminalName (some key) ↔ d.pattern = .placeholder (some key)

/-- The token that a value becomes. -/
def Interpolation.Becomes (g : SplicedGrammar) (types : List (String × HostType)) : Interpolation → Token → Prop
  | .tree u, t => ∃ d ∈ g.terminals, d.pattern = .tree u.label ∧ g.spliceTerminals.lookup u.label = some d.name ∧
      t = ⟨d.name, .tree u, u.span⟩
  | .host v, t => ∃ kind, t = ⟨kind, .host v, none⟩ ∧
      ((∀ x ∈ types, x.2.accepts v = true → NamedByKey g.terminals x.1) → FirstTaking g.terminals types v kind)

/-- The kind that a pipeline finds for a host value among the placeholders that it has names for. -/
def namedPlaceholders (terminals : List Terminal) (types : List (String × HostType)) : List (String × HostType) :=
  (types.map fun (key, type) => (placeholderTerminalName (some key), type)).filter fun (name, _) =>
    ((TerminalPatterns.ofTerminals terminals types).patterns.lookup name).isSome

section Kinds

variable {terminals : List Terminal} {types : List (String × HostType)} {v : HostValue}

/-- A registered key whose placeholder has a name in the grammar, with a type that accepts the value. -/
def found (terminals : List Terminal) (v : HostValue) (x : String × HostType) : Bool :=
  terminals.any (·.name == placeholderTerminalName (some x.1)) && x.2.accepts v

theorem found_iff {x : String × HostType} : found terminals v x = true ↔
    (∃ d ∈ terminals, d.name = placeholderTerminalName (some x.1)) ∧ x.2.accepts v = true := by
  simp [found]

/-- Searching the placeholders that have names is searching the registered keys. -/
theorem find?_namedPlaceholders : (namedPlaceholders terminals types).find? (·.2.accepts v) =
    (types.find? (found terminals v)).map fun x => (placeholderTerminalName (some x.1), x.2) := by
  have hnames : ∀ a, ((TerminalPatterns.ofTerminals terminals types).patterns.lookup a).isSome =
      terminals.any (·.name == a) := fun a => by
    rw [TerminalPatterns.lookup_ofTerminals, Option.isSome_map, namedTerminal?, Bool.eq_iff_iff, List.find?_isSome]
    simp
  simp only [namedPlaceholders, hnames, List.find?_filter, List.find?_map]
  congr 2
  funext x
  refine Bool.eq_iff_iff.2 ?_
  simp [found]

theorem firstTaking_find? (hsorted : types.Pairwise (·.1 < ·.1))
    (hnamed : ∀ x ∈ types, x.2.accepts v = true → NamedByKey terminals x.1) :
    FirstTaking terminals types v
      ((((namedPlaceholders terminals types).find? (·.2.accepts v)).map (·.1)).getD placeholderName) := by
  have hkeys : (types.map (·.1)).Nodup := (List.pairwise_map.2 hsorted).imp fun h => h.ne
  -- whatever placeholder takes the value, its key is found
  have hfound : ∀ d ∈ terminals, ∀ key, d.Takes types v key → ∃ type, (key, type) ∈ types ∧
      found terminals v (key, type) = true := by
    rintro d hd key ⟨hpattern, type, htype, haccepts⟩
    obtain ⟨before, after, rfl, -⟩ := List.lookup_eq_some_iff.1 htype
    have hmem : (key, type) ∈ before ++ (key, type) :: after := List.mem_append_right _ (List.mem_cons_self ..)
    exact ⟨type, hmem, found_iff.2 ⟨⟨d, hd, (hnamed _ hmem haccepts d hd).2 hpattern⟩, haccepts⟩⟩
  rw [find?_namedPlaceholders]
  cases hfind : types.find? (found terminals v) with
  | none =>
    refine .inr ⟨rfl, fun d hd key htakes => ?_⟩
    obtain ⟨type, hmem, hx⟩ := hfound d hd key htakes
    exact List.find?_eq_none.1 hfind _ hmem hx
  | some x =>
    obtain ⟨key, type⟩ := x
    obtain ⟨hx, before, after, htypes, hbefore⟩ := List.find?_eq_some_iff_append.1 hfind
    obtain ⟨⟨d, hd, hname⟩, haccepts⟩ := found_iff.1 hx
    have hmem : (key, type) ∈ types := htypes ▸ List.mem_append_right _ (List.mem_cons_self ..)
    have hpattern := (hnamed _ hmem haccepts d hd).1 hname
    refine .inl ⟨d, hd, hname, key, ⟨hpattern, type, lookup_of_mem hkeys hmem, haccepts⟩, fun d' hd' key' htakes => ?_⟩
    obtain ⟨type', hmem', hx'⟩ := hfound d' hd' key' htakes
    rw [htypes] at hmem' hsorted
    rcases List.mem_append.1 hmem' with hmem' | hmem'
    · exact absurd hx' (by simpa using hbefore _ hmem')
    · rcases List.mem_cons.1 hmem' with he | hmem'
      · cases he
        exact le_refl key
      · exact le_of_lt ((List.pairwise_cons.1 (List.pairwise_append.1 hsorted).2.1).1 _ hmem')

end Kinds

/-! ## Pipelines -/

namespace TemplatePipeline

variable {lexing : LexerConfig} {parsing : ParserConfig} {o : PipelineOptions} {p : TemplatePipeline}

theorem reader_tables (hp : ofConfig lexing parsing o = .ok p) :
    p.reader.spliceTerminals = (SplicedGrammar.extend parsing.rules lexing.terminals).spliceTerminals ∧
    p.reader.placeholders = namedPlaceholders (SplicedGrammar.extend parsing.rules lexing.terminals).terminals
      o.placeholderTypes := by
  have hmissing := (ofConfig_eq_ok hp).1
  rw [ofConfig, hmissing] at hp
  obtain ⟨parser, -, hp⟩ := bind_eq_ok.1 hp
  obtain ⟨segments, -, hp⟩ := bind_eq_ok.1 hp
  obtain ⟨lexicon, -, hp⟩ := bind_eq_ok.1 hp
  cases hp
  exact ⟨rfl, rfl⟩

/-- A value becomes the token that is made for it. -/
theorem becomes_of_valueToken (hp : ofConfig lexing parsing o = .ok p)
    (hsorted : o.placeholderTypes.Pairwise (·.1 < ·.1)) {v : Interpolation} {t : Token}
    (h : p.reader.valueToken v none = .ok t) :
    Interpolation.Becomes (SplicedGrammar.extend parsing.rules lexing.terminals) o.placeholderTypes v t := by
  obtain ⟨hsplice, hplaceholders⟩ := reader_tables hp
  cases v with
  | tree u =>
    simp only [TemplateReader.valueToken, hsplice] at h
    split at h
    · rename_i kind hkind
      cases h
      have hconsistent := (SplicedGrammar.extend_extends parsing.rules lexing.terminals).2
      obtain ⟨d, hd, rfl, hpattern⟩ := SplicedGrammar.terminalOf?_eq_some (hconsistent _ _ hkind)
      exact ⟨d, hd, hpattern, hkind, rfl⟩
    · cases h
  | host v =>
    simp only [TemplateReader.valueToken, hplaceholders] at h
    cases h
    exact ⟨_, rfl, firstTaking_find? hsorted⟩

/-- The tokens of a template whose labels are known and whose segments can be lexed are those of the segments, each by
itself, with the tokens of the values between them, and when they have been handed out, there is never another. -/
theorem drain_tokens_interleave (hp : ofConfig lexing parsing o = .ok p)
    (hsorted : o.placeholderTypes.Pairwise (·.1 < ·.1)) {t : Template} (ht : t.Built)
    (hlabels : ∀ u, .tree u ∈ t.interpolations → (p.spliceTerminals.lookup u.label).isSome)
    (hlexed : ∀ text ∈ t.segments, (p.reader.own (.whole text.toList)).failure = none) :
    (∃ values, List.Forall₂ (Interpolation.Becomes (SplicedGrammar.extend parsing.rules lexing.terminals)
        o.placeholderTypes) t.interpolations values ∧
      (drain (p.tokens t)).1 = interleave
        (t.segments.map fun text => (p.reader.own (.whole text.toList)).tokens.map Token.unplaced) values) ∧
    (drain (p.tokens t)).2.1 = none ∧ Exhausted (drain (p.tokens t)).2.2 := by
  have hvalues : ∀ x ∈ t.tail, ∃ token, p.reader.valueToken x.1 none = .ok token := by
    rintro ⟨v | v, text⟩ hx
    · obtain ⟨kind, hkind⟩ := Option.isSome_iff_exists.1 (hlabels v (List.mem_map_of_mem hx))
      exact ⟨_, p.reader.valueToken_tree hkind none⟩
    · exact ⟨_, rfl⟩
  obtain ⟨values, hall, hconcat⟩ := p.reader.concat_read t.head t.tail hvalues hlexed
  have hdrained : drained (p.tokens t) = _ := TemplateTokens.drained_unplaced ht.source_eq_none
  rw [Template.parts_const, hconcat, Drained.ext_iff] at hdrained
  exact ⟨⟨values, hall.imp fun _ _ => becomes_of_valueToken hp hsorted, hdrained.1⟩, hdrained.2,
    TemplateTokens.exhausted_drain _ hdrained.2⟩

/-! ## Two zeros with a tree and a number between them -/

def numberPlaceholder : Terminal := { name := "PLACEHOLDER__NUM", pattern := .placeholder (some "num") }

/-- Two zeros, in a grammar with a placeholder for numbers. -/
def zerosAndNumber : Grammar := twoZeros.grammar [numberPlaceholder]

def extendedNumber : SplicedGrammar where
  rules := zerosAndNumber.rules ++ [SplicedGrammar.spliceRule "start" "TREE__START" 1]
  terminals := zerosAndNumber.terminals ++ [{ name := "TREE__START", pattern := .tree "start" }]
  spliceTerminals := [("start", "TREE__START")]

theorem extend_number : SplicedGrammar.extend zerosAndNumber.rules zerosAndNumber.terminals = extendedNumber :=
  SplicedGrammar.eq_of_parts (by decide +kernel) (by decide +kernel) (by decide +kernel)

theorem exists_zerosAndNumber : ∃ p m,
    ofConfig zerosAndNumber.lexerConfig (zerosAndNumber.parserConfig {}) numberOrAny.options = .ok p ∧
    p.reader.lexicon = twoZeros.lexicon m ∧ p.spliceTerminals = extendedNumber.spliceTerminals ∧
    m.length? ['0'] = some 1 := by
  obtain ⟨m, hl, h1, -⟩ := twoZeros.exists_lexicon [numberPlaceholder] rfl
  have hmissing : missingTypes zerosAndNumber.lexerConfig numberOrAny.options = [] := by cbv
  have htext : Lexicon.ofConfig { zerosAndNumber.lexerConfig with
      terminals := (SplicedGrammar.extend zerosAndNumber.rules zerosAndNumber.terminals).terminals
      postLexer := none } = .ok (twoZeros.lexicon m) := by
    rw [extend_number, ← hl]
    exact Lexicon.ofConfig_congr rfl rfl rfl rfl rfl rfl
  obtain ⟨p, hp⟩ : ∃ p, ofConfig zerosAndNumber.lexerConfig (zerosAndNumber.parserConfig {}) numberOrAny.options =
      .ok p := exists_ofConfig_eq_ok hmissing (by decide) htext
  exact ⟨p, m, hp, (reader_lexicon_eq hp).trans (Except.ok.inj ((ofConfig_eq_ok hp).2.2.2.symm.trans htext)),
    (reader_tables hp).1.trans (congrArg (·.spliceTerminals) extend_number), h1⟩

def zeroTree : Tree := ⟨"start", [], none⟩

/-- A tree and a number between two zeros, with nothing between the two. -/
def fourParts : Template := .ofParts [.text "0", .value (.tree zeroTree), .value (.host numberOrAny.seven), .text "0"]

theorem drain_tokens_fourParts : ∃ p,
    ofConfig zerosAndNumber.lexerConfig (zerosAndNumber.parserConfig {}) numberOrAny.options = .ok p ∧
    numberOrAny.options.placeholderTypes.Pairwise (·.1 < ·.1) ∧ fourParts.Built ∧
    (∀ u, .tree u ∈ fourParts.interpolations → (p.spliceTerminals.lookup u.label).isSome) ∧
    (∀ text ∈ fourParts.segments, (p.reader.own (.whole text.toList)).failure = none) ∧
    (∃ values, List.Forall₂ (Interpolation.Becomes extendedNumber numberOrAny.options.placeholderTypes)
        fourParts.interpolations values ∧
      (drain (p.tokens fourParts)).1 = interleave
        (fourParts.segments.map fun text => (p.reader.own (.whole text.toList)).tokens.map Token.unplaced) values) ∧
    (drain (p.tokens fourParts)).2.1 = none ∧ Exhausted (drain (p.tokens fourParts)).2.2 := by
  obtain ⟨p, m, hp, hlexicon, hsplice, h1⟩ := exists_zerosAndNumber
  have hsorted : numberOrAny.options.placeholderTypes.Pairwise (·.1 < ·.1) := List.pairwise_singleton ..
  have hlabels : ∀ u, .tree u ∈ fourParts.interpolations → (p.spliceTerminals.lookup u.label).isSome := by
    intro u hu
    have hu : Interpolation.tree u ∈ [.tree zeroTree, .host numberOrAny.seven] := hu
    have hu : u = zeroTree := by simpa using hu
    rw [hsplice, hu]
    rfl
  have hlexed : ∀ text ∈ fourParts.segments, (p.reader.own (.whole text.toList)).failure = none := by
    intro text htext
    have htext : text ∈ ["0", "", "0"] := htext
    have hzero : (p.reader.own (.whole ['0'])).failure = none := by
      rw [TemplateReader.own, hlexicon]
      exact (twoZeros.drain_zero h1).2
    have hempty : (p.reader.own (.whole [])).failure = none := by rw [p.reader.own_nil]
    rcases List.mem_cons.1 htext with rfl | htext
    · exact hzero
    · rcases List.mem_cons.1 htext with rfl | htext
      · exact hempty
      · rw [List.mem_singleton.1 htext]
        exact hzero
  have hbuilt : fourParts.Built := .ofParts _
  exact ⟨p, hp, hsorted, hbuilt, hlabels, hlexed,
    extend_number ▸ drain_tokens_interleave hp hsorted hbuilt hlabels hlexed⟩

/-! ## A letter that is named as a placeholder -/

/-- Any value, beside a literal that has the name of a placeholder for numbers. -/
def misnamed : Grammar where
  terminals := [{ name := "PLACEHOLDER__NUM", pattern := .literal "a" "" },
    { name := "PLACEHOLDER", pattern := .placeholder none }]
  rules := [⟨"start", [⟨.terminal "PLACEHOLDER", false⟩], 0, none, { emptyIndices := [false] }⟩]
  start := ["start"]
  ignore := []

def extendedMisnamed : SplicedGrammar where
  rules := misnamed.rules ++ [SplicedGrammar.spliceRule "start" "TREE__START" 1]
  terminals := misnamed.terminals ++ [{ name := "TREE__START", pattern := .tree "start" }]
  spliceTerminals := [("start", "TREE__START")]

theorem extend_misnamed : SplicedGrammar.extend misnamed.rules misnamed.terminals = extendedMisnamed :=
  SplicedGrammar.eq_of_parts (by decide +kernel) (by decide +kernel) (by decide +kernel)

/-- A number gets the name of a typed placeholder if a literal has it, though no typed placeholder takes numbers. -/
theorem drain_tokens_misnamed : ∃ p,
    ofConfig misnamed.lexerConfig (misnamed.parserConfig {}) numberOrAny.options = .ok p ∧
    (drain (p.tokens (numberOrAny.single numberOrAny.seven))).1 =
      [⟨"PLACEHOLDER__NUM", .host numberOrAny.seven, none⟩] ∧
    ∀ kind, FirstTaking extendedMisnamed.terminals numberOrAny.options.placeholderTypes numberOrAny.seven kind →
      kind = "PLACEHOLDER" := by
  have hmissing : missingTypes misnamed.lexerConfig numberOrAny.options = [] := by cbv
  have hmatcher : (Matcher.ofTerminal { name := "PLACEHOLDER__NUM", pattern := .literal "a" "" } "").map (·.minWidth) =
      .ok 1 := by cbv
  obtain ⟨m, hm, hwidth⟩ := map_eq_ok.1 hmatcher
  have htext : Lexicon.ofConfig { misnamed.lexerConfig with
      terminals := (SplicedGrammar.extend misnamed.rules misnamed.terminals).terminals, postLexer := none } =
        .ok ⟨[⟨"PLACEHOLDER__NUM", m, []⟩], [], []⟩ := by
    rw [extend_misnamed]
    refine Lexicon.ofConfig_eq_single (t := { name := "PLACEHOLDER__NUM", pattern := .literal "a" "" }) ?_
      (by simp [hwidth])
    rw [← hm]
    rfl
  obtain ⟨p, hp⟩ : ∃ p, ofConfig misnamed.lexerConfig (misnamed.parserConfig {}) numberOrAny.options = .ok p :=
    exists_ofConfig_eq_ok hmissing (by decide) htext
  refine ⟨p, hp, (numberOrAny.drain_single p.reader ?_).1, ?_⟩
  · have hplaceholders : p.reader.placeholders = [("PLACEHOLDER__NUM", ⟨"i64"⟩)] := by
      rw [(reader_tables hp).2]
      simp only [Grammar.lexerConfig, Grammar.parserConfig, extend_misnamed]
      decide +kernel
    simp only [TemplateReader.valueToken, hplaceholders]
    rfl
  · rintro kind (⟨d, hd, rfl, key, ⟨hpattern, -⟩, -⟩ | ⟨rfl, -⟩)
    · have hnone : ∀ d ∈ extendedMisnamed.terminals, ∀ key, d.pattern ≠ .placeholder (some key) := by
        simp [extendedMisnamed, misnamed]
      exact absurd hpattern (hnone d hd key)
    · rfl

end TemplatePipeline

end GrammarKit
