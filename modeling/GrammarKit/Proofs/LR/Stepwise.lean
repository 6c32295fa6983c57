/-
Parsing step by step and parsing at once. A session that has a scanner pulls tokens in the states that a parse pulls
them in, so resuming it comes to what the parse comes to. A session that is fed the tokens of a source one by one, and
then the end, comes to what the parse of the source comes to, and the end stands right behind the last token that has
a span.

A pipeline without lexer has no tokens for either. There a parse says so, but a session is begun as if there were no
text, and fails for want of input when it is resumed.
-/
import GrammarKit.Pipeline.Text
import GrammarKit.Proofs.LR.Parsing
import GrammarKit.Proofs.LR.Recovery
import GrammarKit.Proofs.LR.Session
import GrammarKit.Proofs.Scan.Lexed
import Mathlib

namespace GrammarKit

/-- A source that has given tokens, whatever states it was asked in, and then no more. -/
def TokenSource.Gives {σ : Type} [TokenSource σ] : σ → List Token → Prop
  | s, [] => ∀ state, (pull s state).1 = .ok none
  | s, t :: ts => ∀ state, (pull s state).1 = .ok (some t) ∧ Gives (pull s state).2 ts

theorem Listed.gives_ofTokens : ∀ ts : List Token, TokenSource.Gives (ofTokens ts) ts
  | [] => fun _ => rfl
  | _ :: ts => fun _ => ⟨rfl, gives_ofTokens ts⟩

namespace LR

/-! ## Sessions with a scanner -/

namespace Session

/-- Feeding what a scanner gives, and then the end, comes to what the scanner's parse comes to. -/
theorem drainInto_finish (p : Parser) (m : Machine) (source : Scanner) (fed : List Token) :
    ∀ {h : Hooked Scanner}, h.hook.update = some → h.appended = [] → h.inner = source →
      (match drainInto p m source fed with
        | (.ok _, m, _) => (m.finish p).1
        | (.error f, _, _) => .error f) = (m.run p none h []).result := by
  fun_induction drainInto p m source fed with
  | case1 m source fed rest hp =>
    rintro h hupdate happended rfl
    have hpull := TokenSource.pull_passing hupdate happended (some m.current)
    rw [hp] at hpull
    rw [Machine.run_stop hpull]
  | case2 m source fed t rest hp _ value m' hf ih =>
    rintro h hupdate happended rfl
    have hpull := TokenSource.pull_passing hupdate happended (some m.current)
    rw [hp] at hpull
    rw [Machine.run_next hpull, hf]
    exact ih hupdate happended rfl
  | case3 m source fed t rest hp _ f m' hf =>
    rintro h hupdate happended rfl
    have hpull := TokenSource.pull_passing hupdate happended (some m.current)
    rw [hp] at hpull
    rw [Machine.run_next hpull, hf]
  | case4 m source fed f rest hp =>
    rintro h hupdate happended rfl
    have hpull := TokenSource.pull_passing hupdate happended (some m.current)
    rw [hp] at hpull
    rw [Machine.run_failing hpull]

/-- Resuming a session comes to what the parse of its scanner comes to. -/
theorem resume_eq {s : Session} {source : Scanner} (hs : s.scanner = some source) {hook : PostLexer}
    (hupdate : hook.update = some) (happended : hook.appended = []) :
    s.resume = (s.machine.run s.parser none (Hooked.start hook source) []).result := by
  have hfinish := drainInto_finish s.parser s.machine source [] (h := Hooked.start hook source) hupdate happended rfl
  rw [← hfinish, resume, exhaust, hs]
  dsimp only
  rcases drainInto s.parser s.machine source [] with ⟨f | fed, m, rest⟩ <;> rfl

/-! ## Sessions that are fed -/

/-- Feeds tokens one by one, up to the first that is refused, and then the end. -/
def feedAll (s : Session) : List Token → Outcome Child
  | [] => s.finish.1
  | t :: ts =>
    match s.feed t with
    | (.ok _, s) => s.feedAll ts
    | (.error f, _) => .error f

/-- Feeding the tokens that a source gives comes to what the parse of the source comes to. -/
theorem feedAll_eq {σ : Type} [TokenSource σ] : ∀ {ts : List Token} {s : Session} {source : σ},
    (∀ t ∈ ts, t.kind ≠ endMarker) → TokenSource.Gives source ts →
      s.feedAll ts = (s.machine.run s.parser none source []).result
  | [], s, source, _, hgives => by
    rw [feedAll, Machine.run_stop (Prod.ext (hgives _) rfl)]
    rfl
  | t :: ts, s, source, hend, hgives => by
    obtain ⟨hpull, hrest⟩ := hgives (some s.machine.current)
    have hkind : (t.kind == endMarker) = false := beq_eq_false_iff_ne.2 (hend t (List.mem_cons_self ..))
    rw [feedAll, Machine.run_next (Prod.ext hpull rfl), feed_eq, hkind]
    rcases s.machine.feed s.parser t false with ⟨f | value, m⟩
    · rfl
    · exact feedAll_eq (fun t ht => hend t (List.mem_cons_of_mem _ ht)) hrest

/-- When all tokens were fed, the end is what is left. -/
theorem Fed.feedAll_append {s s' : Session} {ts : List Token} (h : Fed s ts s') :
    ∀ us : List Token, s.feedAll (ts ++ us) = s'.feedAll us := by
  induction h with
  | nil => exact fun us => rfl
  | snoc _ ht ih =>
    intro us
    rw [List.append_assoc, ih, List.singleton_append, feedAll, ht]

end Session

/-! ## The end of the input -/

/-- The end marker, right behind the last token that has a span. -/
def endBehind (ts : List Token) : Token :=
  .ofText endMarker ""
    ((ts.filterMap (·.span)).getLast?.map fun a => ⟨a.stop, a.stopLine, a.stopColumn, a.stop, a.stopLine, a.stopColumn⟩)

/-- A run remembers the span of the last token that has one. -/
theorem Machine.Runs.lastSpan_eq {p : Parser} {last : String} {n : Nat} {m m' : Machine} {ts : List Token}
    (h : Runs p last n m ts m') : m'.lastSpan = (ts.filterMap (·.span)).getLast?.or m.lastSpan := by
  induction h with
  | done => rfl
  | @shift n m m' t ts state _ _ ih =>
    rw [ih, Machine.shift]
    cases hspan : t.span with
    | none => rw [List.filterMap_cons_none hspan, Option.none_or]
    | some a =>
      rw [List.filterMap_cons_some hspan, List.getLast?_cons]
      cases (ts.filterMap (·.span)).getLast? <;> rfl
  | @reduce n i m m1 m' ts r _ _ hm _ ih =>
    rw [ih]
    rw [Machine.reduce] at hm
    split at hm
    · cases hm
      rfl
    · cases hm

theorem Machine.HasRead.endToken_eq {p : Parser} {first : Nat} {m : Machine} {ts : List Token}
    (h : m.HasRead p first ts) : m.endToken = endBehind ts := by
  obtain ⟨n, hn⟩ := h
  rw [Machine.endToken, (hn endMarker).lastSpan_eq, Option.or_none]
  rfl

end LR

/-! ## Pipelines -/

namespace TextPipeline

open LR

variable {l : LexerChoice} {lexing : LexerConfig} {parsing : ParserConfig} {o : PipelineOptions} {p : TextPipeline}
  {b : Parser}

theorem backend_of_lalr (hp : ofConfig .lalr l lexing parsing o = .ok p) : p.hook = lexing.postLexer ∧
    ∃ b, p.backend = .lalr b ∧ Parser.ofConfig parsing o.strict = .ok b := by
  obtain ⟨backend, hbackend, hp⟩ := bind_eq_ok.1 hp
  obtain ⟨lexer, -, hp⟩ := bind_eq_ok.1 hp
  cases hp
  have hbackend : (Parser.ofConfig parsing o.strict).map Backend.lalr = .ok backend := hbackend
  obtain ⟨b, hb, rfl⟩ := map_eq_ok.1 hbackend
  exact ⟨rfl, b, rfl, hb⟩

/-- A session on a scanner comes to what the parse of the scanner comes to. -/
theorem resume_start_eq (b : Parser) (lexer : Lexer) (w : Window) (name : String) :
    (Session.start b (some (Scanner.start lexer w)) name >>= Session.resume) =
      (b.parse (lexer.stream none w) name none).result := by
  rw [Session.start, Parser.parse]
  cases Machine.start b name with
  | error f => rfl
  | ok m => exact Session.resume_eq (s := ⟨b, m, some (Scanner.start lexer w)⟩) rfl rfl rfl

theorem resume_start_none_ne (b : Parser) (name : String) :
    (Session.start b none name >>= Session.resume) ≠ .error (.configuration .noLexer) := by
  rw [Session.start]
  unfold Machine.start
  cases b.table.start? name with
  | none => rintro ⟨⟩
  | some state => rintro ⟨⟩

/-- A text is parsed step by step as it is parsed at once, except where there is no lexer for it. -/
theorem resume_interact_iff (hb : p.backend = .lalr b) (hhook : p.hook = none) (text : List Char)
    (start : Option String) :
    (p.interact (some text) start >>= Session.resume) = (p.parse (.whole text) start none).result ↔
      p.lexer.isSome = true ∨ ∃ f, chooseStart p.start start = .error f := by
  unfold interact parse
  cases hname : chooseStart p.start start with
  | error f =>
    simp only [hb]
    exact ⟨fun _ => .inr ⟨f, rfl⟩, fun _ => rfl⟩
  | ok name =>
    cases hl : p.lexer with
    | none =>
      have hstream : p.stream (.whole text) = .error (.configuration .noLexer) := by simp only [stream, hl]
      simp only [hb, hstream]
      refine ⟨fun h => absurd h (resume_start_none_ne b name), ?_⟩
      rintro (h | ⟨f, h⟩) <;> cases h
    | some lexer =>
      have hstream : p.stream (.whole text) = .ok (lexer.stream none (.whole text)) := by simp only [stream, hl, hhook]
      simp only [hb, hstream]
      exact ⟨fun _ => .inl rfl, fun _ => resume_start_eq b lexer _ name⟩

/-- Parsing by table, step by step and at once, comes to the same. A text comes to the same exactly if there is a lexer
for it, or if no start symbol can be chosen. A session that is fed the tokens of a source and then the end comes to what
the parse of the source comes to, and if no name is reserved, the end marker that is fed last stands right behind the
last token that has a span. -/
theorem stepwise_eq_parse (hp : ofConfig .lalr l lexing parsing o = .ok p) (hhook : lexing.postLexer = none) :
    (∀ text start, (p.interact (some text) start >>= Session.resume) = (p.parse (.whole text) start none).result ↔
      p.lexer.isSome = true ∨ ∃ f, chooseStart p.start start = .error f) ∧
    ∃ b, p.backend = .lalr b ∧ ∀ {σ : Type} [TokenSource σ] (source : σ) (ts : List Token),
      (∀ t ∈ ts, t.kind ≠ endMarker) → TokenSource.Gives source ts → ∀ name,
        (Session.start b none name >>= fun s => s.feedAll ts) = (b.parse source name none).result ∧
        (Unreserved parsing.rules parsing.start → ∀ s s', Session.start b none name = .ok s → s.Fed ts s' →
          (b.parse source name none).result = s'.finish.1 ∧ s'.machine.endToken = endBehind ts) := by
  obtain ⟨hpHook, b, hb, hparser⟩ := backend_of_lalr hp
  refine ⟨resume_interact_iff hb (hpHook.trans hhook), b, hb, fun source ts hend hgives name => ?_⟩
  have hfeed : ∀ m, Machine.start b name = .ok m →
      (Session.mk b m none).feedAll ts = (b.parse source name none).result := fun m hm => by
    rw [Session.feedAll_eq hend hgives, Parser.parse, hm]
  refine ⟨?_, fun hu s s' hs hfed => ?_⟩
  · rw [Session.start]
    cases hm : Machine.start b name with
    | error f => rw [Parser.parse, hm]; rfl
    | ok m => exact hfeed m hm
  · rw [Session.start] at hs
    cases hm : Machine.start b name with
    | error f => rw [hm] at hs; cases hs
    | ok m =>
      rw [hm] at hs
      cases hs
      have hall := hfed.feedAll_append []
      rw [List.append_nil] at hall
      refine ⟨(hfeed m hm).symm.trans hall, ?_⟩
      have ht := Table.realizes_of_build (Parser.ofConfig_eq_ok hparser).1
      cases hstart : b.table.start? name with
      | none => rw [Machine.start, hstart] at hm; cases hm
      | some first =>
        rw [Machine.start, hstart] at hm
        obtain ⟨-, hread⟩ := hfed.hasRead hu ht (ht.start name ▸ hstart) rfl
          (Except.ok.inj hm).symm hend
        exact hread.endToken_eq

/-! ## One letter -/

def oneLetter : Grammar where
  terminals := [{ name := "A", pattern := .literal "a" "" }]
  rules := [⟨"start", [⟨.terminal "A", false⟩], 0, none, { emptyIndices := [false] }⟩]
  start := ["start"]
  ignore := []

theorem deterministic_oneLetter : Deterministic oneLetter.rules oneLetter.start := by
  rw [← Automaton.settled_iff]
  cbv

theorem stepwise_oneLetter : ∃ p,
    ofConfig .lalr .basic oneLetter.lexerConfig (oneLetter.parserConfig {}) {} = .ok p ∧
    oneLetter.lexerConfig.postLexer = none ∧
    (p.interact (some ['a']) none >>= Session.resume) = (p.parse (.whole ['a']) none none).result ∧
    ∃ b, p.backend = .lalr b ∧ Unreserved oneLetter.rules oneLetter.start ∧
      (Session.start b none "start" >>= fun s => s.feedAll [.ofText "A" "a"]) =
        (b.parse (Listed.ofTokens [.ofText "A" "a"]) "start" none).result := by
  obtain ⟨b, hb, -⟩ := Parser.exists_ofConfig (c := oneLetter.parserConfig {}) deterministic_oneLetter false
  have hmatcher : (Matcher.ofTerminal { name := "A", pattern := .literal "a" "" } "").map (·.minWidth) = .ok 1 := by cbv
  obtain ⟨m, hm, hwidth⟩ := map_eq_ok.1 hmatcher
  have hlexicon : Lexicon.ofConfig oneLetter.lexerConfig = .ok ⟨[⟨"A", m, []⟩], [], []⟩ := by
    refine Lexicon.ofConfig_eq_single (t := { name := "A", pattern := .literal "a" "" }) ?_ (by simp [hwidth])
    rw [← hm]
    rfl
  have hp : ofConfig .lalr .basic oneLetter.lexerConfig (oneLetter.parserConfig {}) {} =
      .ok ⟨some (.basic ⟨[⟨"A", m, []⟩], [], []⟩), none, .lalr b, ["start"]⟩ := by
    rw [ofConfig, backendFor, hb]
    simp only [lexerFor, hlexicon]
    rfl
  obtain ⟨htext, b', hb', hfed⟩ := stepwise_eq_parse hp rfl
  have hunreserved : Unreserved oneLetter.rules oneLetter.start := by
    refine ⟨?_, ?_, ?_⟩ <;> simp [oneLetter, reserved_iff, Rule.symbols, Symbol.name]
  exact ⟨_, hp, rfl, (htext ['a'] none).2 (.inl rfl), b', hb', hunreserved,
    (hfed _ _ (by simp [Token.ofText, endMarker]) (Listed.gives_ofTokens _) "start").1⟩

/-- Without lexer a text is refused at once for want of a lexer, but step by step for want of input. -/
theorem resume_oneLetter_ne : ∃ p,
    ofConfig .lalr .dynamic oneLetter.lexerConfig (oneLetter.parserConfig {}) {} = .ok p ∧
    (p.interact (some ['a']) none >>= Session.resume) = .error (.usage .noInput) ∧
    (p.parse (.whole ['a']) none none).result = .error (.configuration .noLexer) := by
  obtain ⟨b, hb, -, ht⟩ := Parser.exists_ofConfig (c := oneLetter.parserConfig {}) deterministic_oneLetter false
  obtain ⟨first, hfirst⟩ : ∃ i, (Automaton.ofRules (oneLetter.parserConfig {}).rules
      (oneLetter.parserConfig {}).start).start? "start" = some i :=
    Automaton.exists_start (List.mem_singleton_self "start")
  have hp : ofConfig .lalr .dynamic oneLetter.lexerConfig (oneLetter.parserConfig {}) {} =
      .ok ⟨none, none, .lalr b, ["start"]⟩ := by
    rw [ofConfig, backendFor, hb]
    rfl
  refine ⟨_, hp, ?_, rfl⟩
  change (Session.start b none "start" >>= Session.resume) = _
  have hstart : Machine.start b "start" = .ok { states := [first] } := by
    rw [Machine.start, ht.start, hfirst]
  rw [Session.start, hstart]
  rfl

end TextPipeline

end GrammarKit
