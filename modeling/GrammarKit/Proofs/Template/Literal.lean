/-
Templates without values. The only segment of such a template is lexed as its text is, and its tokens differ from those
of the text in their places alone. As places do not count, the template is parsed as the text is.
-/
import GrammarKit.Proofs.Earley.Places
import GrammarKit.Proofs.Splicing.Conservation
import GrammarKit.Proofs.Template.Reading
import GrammarKit.Proofs.Template.Standing
import Mathlib

namespace GrammarKit

/-! ## Tokens of a segment -/

/-- A template without values has the tokens of its text, without their places. -/
theorem TemplateTokens.drain_literal (r : TemplateReader) (text : String) :
    (TokenSource.drain (r.tokens (.literal text))).1 =
      (TokenSource.drain (Scanner.start (.basic r.lexicon) (.whole text.toList))).1.map Token.unplaced ∧
    (TokenSource.drain (r.tokens (.literal text))).2.1 =
      (TokenSource.drain (Scanner.start (.basic r.lexicon) (.whole text.toList))).2.1 := by
  have hdrained : TokenSource.drained (r.tokens (.literal text)) =
      ((r.own (.whole text.toList)).map Token.unplaced id).andThen ⟨[], none⟩ := drained_unplaced rfl
  rw [Drained.andThen_nil, Drained.map_id] at hdrained
  exact Drained.ext_iff.1 hdrained

/-! ## Splicing -/

mutual

theorem Tree.unplaced_splice : ∀ t : Tree, t.splice.unplaced = t.unplaced.splice.unplaced
  | ⟨l, cs, s⟩ => by
    rw [Tree.splice, Tree.unplaced, Tree.unplaced, Tree.splice, Tree.unplaced, Child.unplacedAll_spliceAll cs]

/-- Trees are put in place wherever the tokens are from that carry them. -/
theorem Child.unplaced_splice : ∀ c : Child, c.splice.unplaced = c.unplaced.splice.unplaced
  | .tree t => by rw [Child.splice, Child.unplaced, Child.unplaced, Child.splice, Child.unplaced, t.unplaced_splice]
  | .token ⟨k, .tree t, s⟩ => by
    rw [Child.splice, Child.unplaced, Child.unplaced, Token.unplaced, Child.splice, Child.unplaced]
  | .token ⟨k, .text t, s⟩ => by
    rw [Child.splice, Child.unplaced, Token.unplaced, Child.splice, Child.unplaced, Token.unplaced]
  | .token ⟨k, .host v, s⟩ => by
    rw [Child.splice, Child.unplaced, Token.unplaced, Child.splice, Child.unplaced, Token.unplaced]

theorem Child.unplacedAll_spliceAll : ∀ cs : List Child, Child.unplacedAll (Child.spliceAll cs) =
    Child.unplacedAll (Child.spliceAll (Child.unplacedAll cs))
  | [] => by rw [Child.spliceAll, Child.unplacedAll, Child.spliceAll, Child.unplacedAll]
  | c :: cs => by
    rw [Child.spliceAll, Child.unplacedAll, Child.unplacedAll, Child.spliceAll, Child.unplacedAll,
      c.unplaced_splice, Child.unplacedAll_spliceAll cs]

end

theorem map_unplaced_splice {x y : Option Child} (h : x.map Child.unplaced = y.map Child.unplaced) :
    (x.map Child.splice).map Child.unplaced = (y.map Child.splice).map Child.unplaced := by
  have hsplice : ∀ z : Option Child,
      (z.map Child.splice).map Child.unplaced = ((z.map Child.unplaced).map Child.splice).map Child.unplaced := by
    rintro (_ | c)
    · rfl
    · exact congrArg some c.unplaced_splice
  rw [hsplice x, hsplice y, h]

/-! ## Pipelines -/

namespace TemplatePipeline

variable {p : TemplatePipeline} {start : Option String} {name : String}

theorem toOption_parse_text (hname : chooseStart p.start start = .ok name) (w : Window) :
    (p.parse (.text w) start).toOption =
      (p.parser.parse (Scanner.start (.basic p.lexicon) w) name).toOption.map Child.splice := by
  rw [parse, hname]
  simp only [bind, Except.bind]
  cases p.parser.parse (Scanner.start (.basic p.lexicon) w) name <;> rfl

theorem toOption_parse_template (hname : chooseStart p.start start = .ok name) (t : Template) :
    (p.parse (.template t) start).toOption = (p.parser.parse (p.tokens t) name).toOption.map Child.splice := by
  rw [parse, hname]
  simp only [bind, Except.bind]
  cases p.parser.parse (p.tokens t) name <;> rfl

variable {lexing : LexerConfig} {g : Grammar} {o : PipelineOptions}

/-- A template without values is parsed as its text is, places apart. -/
theorem unplaced_parse_literal (hp : ofConfig lexing (g.parserConfig o.shaping) o = .ok p)
    (hs : o.shaping.actions = []) (text : String) (start : Option String) :
    (p.parse (.template (.literal text)) start).toOption.map Child.unplaced =
      (p.parse (.text (.whole text.toList)) start).toOption.map Child.unplaced := by
  cases hname : chooseStart p.start start with
  | error f =>
    have hnone : ∀ input, (p.parse input start).toOption = none := fun input => by
      rw [parse, hname]
      rfl
    rw [hnone, hnone]
  | ok name =>
    obtain ⟨-, hparser, -⟩ := ofConfig_eq_ok hp
    obtain ⟨hparser, -⟩ := Earley.ofConfig_eq_ok hparser
    have hunseen : Earley.Unseen Child.unplaced Token.unplaced p.parser.actions := by
      refine ⟨Child.strips_unplaced, fun t => by rw [Child.unplaced, Child.unplaced]; rfl, ?_⟩
      rw [hparser]
      exact Actions.respect_extended Child.strips_unplaced hs _ _
    have hmatch : ∀ a t, p.parser.matches? a t.unplaced = p.parser.matches? a t := fun a t => by
      rw [hparser]
      rfl
    obtain ⟨htokens, hend⟩ := TemplateTokens.drain_literal p.reader text
    rw [reader_lexicon_eq hp] at htokens hend
    have hparse : (p.parser.parse (p.tokens (.literal text)) name).toOption.map Child.unplaced =
        (p.parser.parse (Scanner.start (.basic p.lexicon) (.whole text.toList)) name).toOption.map Child.unplaced :=
      Earley.Parser.strip_parse_source hunseen rfl hmatch htokens hend
    rw [toOption_parse_text hname, toOption_parse_template hname]
    exact map_unplaced_splice hparse

/-- A template without values is parsed exactly if its text is, and to the same value. -/
theorem parse_literal (hp : ofConfig lexing (g.parserConfig o.shaping) o = .ok p) (hs : o.shaping.actions = [])
    (text : String) (start : Option String) :
    ((∃ v, p.parse (.template (.literal text)) start = .ok v) ↔
      ∃ v, p.parse (.text (.whole text.toList)) start = .ok v) ∧
    ∀ v w, p.parse (.template (.literal text)) start = .ok v → p.parse (.text (.whole text.toList)) start = .ok w →
      v.same w = true := by
  have h := unplaced_parse_literal hp hs text start
  cases hv : p.parse (.template (.literal text)) start with
  | error e =>
    cases hw : p.parse (.text (.whole text.toList)) start with
    | error e' => exact ⟨⟨fun ⟨_, hv⟩ => (nomatch hv), fun ⟨_, hw⟩ => (nomatch hw)⟩, fun _ _ hv => (nomatch hv)⟩
    | ok w =>
      rw [hv, hw] at h
      cases h
  | ok v =>
    cases hw : p.parse (.text (.whole text.toList)) start with
    | error e' =>
      rw [hv, hw] at h
      cases h
    | ok w =>
      rw [hv, hw] at h
      refine ⟨⟨fun _ => ⟨w, rfl⟩, fun _ => ⟨v, rfl⟩⟩, fun v' w' hv' hw' => ?_⟩
      cases hv'
      cases hw'
      exact Child.strips_unplaced.same_of_eq (Option.some.inj h)

/-! ## Two zeros with their tokens -/

open twoZeros

/-- Every token is kept. -/
def keepingTokens : PipelineOptions := { shaping := { keepAllTokens := true } }

def extendedZeros : SplicedGrammar where
  rules := (grammar []).rules ++ [SplicedGrammar.spliceRule "start" "TREE__START" 1]
  terminals := (grammar []).terminals ++ [{ name := "TREE__START", pattern := .tree "start" }]
  spliceTerminals := [("start", "TREE__START")]

theorem extend_zeros : SplicedGrammar.extend (grammar []).rules (grammar []).terminals = extendedZeros :=
  SplicedGrammar.eq_of_parts (by decide +kernel) (by decide +kernel) (by decide +kernel)

/-- As a template, two zeros are parsed to what they are parsed to as a text. -/
theorem parse_literal_zeros : ∃ p,
    ofConfig (grammar []).lexerConfig ((grammar []).parserConfig keepingTokens.shaping) keepingTokens = .ok p ∧
      ∃ v, p.parse (.template (.literal "00")) none = .ok v ∧
        v.same (.tree ⟨"start", [.token (zero 0), .token (zero 1)], none⟩) = true := by
  obtain ⟨m, hl, h1, h2⟩ := exists_lexicon [] rfl
  have hmissing : missingTypes (grammar []).lexerConfig keepingTokens = [] := by cbv
  have htext : ∃ p,
      ofConfig (grammar []).lexerConfig ((grammar []).parserConfig keepingTokens.shaping) keepingTokens = .ok p ∧
        p.parse (.text (.whole ['0', '0'])) none = .ok (.tree ⟨"start", [.token (zero 0), .token (zero 1)], none⟩) := by
    refine (parse_eq_ok_iff hmissing).2 ⟨by decide, _, "start", hl, rfl,
      .tree ⟨"start", [.token (zero 0), .token (zero 1)], none⟩,
      (Earley.Parser.parse_source_eq_ok _).2 ⟨(drain_zeros h1 h2).2, ?_⟩, by cbv⟩
    rw [(drain_zeros h1 h2).1]
    simp only [Grammar.lexerConfig, Grammar.parserConfig, extend_zeros]
    cbv
  obtain ⟨p, hp, htext⟩ := htext
  obtain ⟨hiff, hsame⟩ := parse_literal hp rfl "00" none
  obtain ⟨v, hv⟩ := hiff.2 ⟨_, htext⟩
  exact ⟨p, hp, v, hv, hsame v _ hv htext⟩

end TemplatePipeline

end GrammarKit
