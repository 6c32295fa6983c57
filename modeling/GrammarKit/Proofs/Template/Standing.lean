/-
What tokens stand for in a pipeline for templates. A token is matched exactly by the terminals that it stands for: a
placeholder takes host values, a typed placeholder those of its type, and all other terminals take tokens of their own
name, with a tree or with text as their pattern has it. The match fails only for a host value before a typed
placeholder whose type does not accept it. If several terminals have one name, the last of them is meant.
-/
import GrammarKit.Pipeline.Template
import GrammarKit.Proofs.Scan.Lexed
import GrammarKit.Proofs.Splicing.Extension

namespace GrammarKit

/-! ## Tokens of terminals -/

/-- A token that a terminal can be recognised as, if host values are checked against the registered types. -/
def Terminal.StandsFor (types : List (String × HostType)) (d : Terminal) (t : Token) : Prop :=
  match d.pattern, t.value with
  | .placeholder none, .host _ => True
  | .placeholder (some key), .host v => ∃ type, types.lookup key = some type ∧ type.accepts v = true
  | .tree _, .tree _ | .literal .., .text _ | .regex .., .text _ => t.kind = d.name
  | _, _ => False

/-- The terminal that a name means, the last one of that name. -/
def namedTerminal? (terminals : List Terminal) (a : String) : Option Terminal :=
  terminals.reverse.find? (·.name == a)

theorem namedTerminal?_eq_some {terminals : List Terminal} {a : String} {d : Terminal}
    (h : namedTerminal? terminals a = some d) : d ∈ terminals ∧ d.name = a :=
  ⟨List.mem_reverse.1 (List.mem_of_find?_eq_some h), by simpa using List.find?_some h⟩

/-- A token that the terminal of a name can be recognised as. A name without terminal stands for text of its name. -/
def StandsAmong (terminals : List Terminal) (types : List (String × HostType)) (a : String) (t : Token) : Prop :=
  match namedTerminal? terminals a with
  | some d => d.StandsFor types t
  | none => t.text?.isSome = true ∧ t.kind = a

/-- A typed placeholder before a host value that is not of its type. -/
def Terminal.Rejects (types : List (String × HostType)) (d : Terminal) (t : Token) (key : String) (type : HostType)
    (v : HostValue) : Prop :=
  d.pattern = .placeholder (some key) ∧ t.value = .host v ∧ types.lookup key = some type ∧ type.accepts v = false

namespace TerminalPatterns

variable {terminals : List Terminal} {types : List (String × HostType)} {a : String} {t : Token}

theorem lookup_ofTerminals :
    (ofTerminals terminals types).patterns.lookup a = (namedTerminal? terminals a).map (·.pattern) := by
  unfold ofTerminals namedTerminal?
  generalize terminals.reverse = l
  induction l with
  | nil => rfl
  | cons d l ih =>
    rw [List.map_cons, List.lookup_cons, List.find?_cons]
    by_cases h : a = d.name
    · simp [h]
    · rw [beq_eq_false_iff_ne.2 h, beq_eq_false_iff_ne.2 (Ne.symm h)]
      exact ih

/-- A token is matched by the terminals that it stands for. -/
theorem stands_matches? : (ofTerminals terminals types).matches?.Stands = StandsAmong terminals types := by
  funext a t
  unfold Earley.Chart.TokenMatch.Stands matches? StandsAmong
  rw [lookup_ofTerminals]
  rcases h : namedTerminal? terminals a with _ | d
  · rcases hv : t.value with _ | _ | _ <;> simp [Token.text?, hv]
  · obtain rfl := (namedTerminal?_eq_some h).2
    unfold Terminal.StandsFor
    rcases hp : d.pattern with _ | _ | (_ | key) | _ <;> rcases hv : t.value with _ | _ | v <;>
      simp [hp]
    -- a host value before a typed placeholder
    rw [show (ofTerminals terminals types).types = types from rfl]
    rcases types.lookup key with _ | type
    · simp
    · by_cases ha : type.accepts v = true <;> simp [ha]

/-- The match fails for a host value before a typed placeholder that rejects it, or has no type. -/
theorem matches?_eq_error {f : Failure} (h : (ofTerminals terminals types).matches? a t = .error f) :
    ∃ d, namedTerminal? terminals a = some d ∧ ∃ key v, d.pattern = .placeholder (some key) ∧ t.value = .host v ∧
      (types.lookup key = none ∨ ∃ type, d.Rejects types t key type v ∧
        f = .typeMismatch key type.shortName v.shortName) := by
  unfold matches? at h
  rw [lookup_ofTerminals] at h
  rcases hd : namedTerminal? terminals a with _ | d
  · rcases hv : t.value with _ | _ | v <;> simp [hd, hv] at h
  · refine ⟨d, rfl, ?_⟩
    rcases hp : d.pattern with _ | _ | (_ | key) | _ <;> rcases hv : t.value with _ | _ | v <;> simp [hd, hp, hv] at h
    rw [show (ofTerminals terminals types).types = types from rfl] at h
    refine ⟨key, v, rfl, rfl, ?_⟩
    rcases ht : types.lookup key with _ | type
    · exact .inl rfl
    · rw [ht] at h
      simp only at h
      split at h
      · cases h
      · rename_i ha
        exact .inr ⟨type, ⟨hp, hv, ht, by simpa using ha⟩, (Except.error.inj h).symm⟩

theorem matches?_of_rejects {d : Terminal} (hd : namedTerminal? terminals a = some d) {key : String}
    {type : HostType} {v : HostValue} (h : d.Rejects types t key type v) :
    ∃ f, (ofTerminals terminals types).matches? a t = .error f := by
  obtain ⟨hp, hv, ht, ha⟩ := h
  unfold matches?
  rw [lookup_ofTerminals, hd, hv, show (ofTerminals terminals types).types = types from rfl]
  simp [hp, ht, ha]

end TerminalPatterns

/-! ## Pipelines -/

namespace TemplatePipeline

variable {lexing : LexerConfig} {parsing : ParserConfig} {o : PipelineOptions} {p : TemplatePipeline}

/-- What a pipeline is made of. -/
theorem ofConfig_eq_ok (hp : ofConfig lexing parsing o = .ok p) : missingTypes lexing o = [] ∧
    Earley.Parser.ofConfig
      { rules := (SplicedGrammar.extend parsing.rules lexing.terminals).rules
        actions := (SplicedGrammar.extend parsing.rules lexing.terminals).addActions parsing.actions
        start := parsing.start, augmented := true }
      (TerminalPatterns.ofTerminals (SplicedGrammar.extend parsing.rules lexing.terminals).terminals
        o.placeholderTypes).matches? { ambiguity := o.ambiguity } = .ok p.parser ∧
    p.start = parsing.start ∧ Lexicon.ofConfig { lexing with
      terminals := (SplicedGrammar.extend parsing.rules lexing.terminals).terminals, postLexer := none } =
        .ok p.lexicon := by
  rcases hm : missingTypes lexing o with _ | ⟨key, keys⟩
  · rw [ofConfig, hm] at hp
    obtain ⟨parser, hparser, hp⟩ := bind_eq_ok.1 hp
    obtain ⟨segments, -, hp⟩ := bind_eq_ok.1 hp
    obtain ⟨lexicon, hlexicon, hp⟩ := bind_eq_ok.1 hp
    cases hp
    exact ⟨rfl, hparser, rfl, hlexicon⟩
  · rw [ofConfig, hm] at hp
    cases hp

/-- Where types are registered and the lexicon for text can be made, there is a pipeline. -/
theorem exists_ofConfig_eq_ok (hmissing : missingTypes lexing o = []) (hforest : o.ambiguity ≠ .forest) {l : Lexicon}
    (hl : Lexicon.ofConfig { lexing with
      terminals := (SplicedGrammar.extend parsing.rules lexing.terminals).terminals, postLexer := none } = .ok l) :
    ∃ p, ofConfig lexing parsing o = .ok p := by
  have hsegments := Lexicon.ofConfig_skipValidation hl
  rw [ofConfig, hmissing]
  refine ⟨_, bind_eq_ok.2 ⟨_, if_neg hforest, bind_eq_ok.2 ⟨l, hsegments, bind_eq_ok.2 ⟨l, hl, rfl⟩⟩⟩⟩

/-- Segments are read as text is. -/
theorem reader_lexicon_eq (hp : ofConfig lexing parsing o = .ok p) : p.reader.lexicon = p.lexicon := by
  have hmissing := (ofConfig_eq_ok hp).1
  rw [ofConfig, hmissing] at hp
  obtain ⟨parser, -, hp⟩ := bind_eq_ok.1 hp
  obtain ⟨segments, hsegments, hp⟩ := bind_eq_ok.1 hp
  obtain ⟨lexicon, hlexicon, hp⟩ := bind_eq_ok.1 hp
  cases hp
  exact Except.ok.inj (hsegments.symm.trans (Lexicon.ofConfig_skipValidation hlexicon))

/-- Every typed placeholder of a pipeline has a registered type. -/
theorem exists_type (hp : ofConfig lexing parsing o = .ok p) {d : Terminal}
    (hd : d ∈ (SplicedGrammar.extend parsing.rules lexing.terminals).terminals) {key : String}
    (hk : d.pattern = .placeholder (some key)) : ∃ type, o.placeholderTypes.lookup key = some type := by
  obtain ⟨added, hadded, htree⟩ := (SplicedGrammar.extend_extends parsing.rules lexing.terminals).1.terminals
  rw [hadded] at hd
  rcases List.mem_append.1 hd with hd | hd
  · have hmissing := (ofConfig_eq_ok hp).1
    rw [missingTypes, List.filterMap_eq_nil_iff] at hmissing
    have := hmissing d hd
    rw [hk] at this
    simpa [Option.isSome_iff_exists] using this
  · obtain ⟨label, hlabel⟩ := htree d hd
    rw [hk] at hlabel
    cases hlabel

end TemplatePipeline

end GrammarKit
