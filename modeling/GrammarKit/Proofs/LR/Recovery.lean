/-
Parses that go on after failures. A parse is a list of rounds: in each of them a token is pulled and fed, or something
is left out because the program says to go on. A machine that refuses a token has made reductions before, and these are
not taken back, but they are right whatever comes next; so through all rounds the machine holds trees over the tokens
that it was fed. At the end the value is the tree of these tokens, and never is a machine stranded. None of this needs
that the candidates of a state are unique.
-/
import GrammarKit.LR.Recovery
import GrammarKit.Proofs.LR.Machine
import Mathlib

namespace GrammarKit.LR

/-! ## Rounds -/

section Rounds

variable {σ : Type} [TokenSource σ]

/-- What a source may turn into. -/
inductive Later (source : σ) : σ → Prop
  | here : Later source source
  | pull {s : σ} (h : Later source s) (state : Option Nat) : Later source (TokenSource.pull s state).2
  | skipChar {s s' : σ} (h : Later source s) (hs : TokenSource.skipChar s = some s') : Later source s'
  | skipTo {s s' : σ} {n : Nat} (h : Later source s) (hs : TokenSource.skipTo s n = some s') : Later source s'

theorem Later.of_pull {source s rest : σ} {state : Option Nat} {result : Outcome (Option Token)}
    (h : Later source s) (hp : TokenSource.pull s state = (result, rest)) : Later source rest := by
  have := h.pull state
  rwa [hp] at this

theorem Later.of_skipFailed {source s s' : σ} {f : ParseFailure} (h : Later source s) (hs : skipFailed s f = some s') :
    Later source s' := by
  unfold skipFailed at hs
  split at hs
  · split at hs
    · exact h.skipTo hs
    · exact h.skipChar hs
  · exact h.skipChar hs
  · cases hs

/-- A list of tokens hands out none but these. -/
theorem mem_of_later {ts : List Token} {s rest : Listed} {state : Option Nat} {t : Token}
    (h : Later (Listed.ofTokens ts) s) (hp : TokenSource.pull s state = (.ok (some t), rest)) : t ∈ ts := by
  have hitems : ∀ x ∈ s.items, x ∈ ts.map Except.ok := by
    clear hp
    induction h with
    | here => exact fun x hx => hx
    | @pull s _ state ih =>
      obtain ⟨_ | ⟨_ | t, items⟩⟩ := s
      · exact ih
      · exact fun x hx => ih x (List.mem_cons_of_mem _ hx)
      · exact fun x hx => ih x (List.mem_cons_of_mem _ hx)
    | skipChar _ hs _ => cases hs
    | skipTo _ hs _ => cases hs
  obtain ⟨_ | ⟨_ | t', items⟩⟩ := s
  · cases hp
  · cases hp
  · cases hp
    simpa using hitems _ (List.mem_cons_self ..)

/-- How far a parse has come. -/
structure Progress (σ : Type) where
  machine : Machine
  source : σ
  /-- The failures that the program was asked about. -/
  asked : List ParseFailure

/-- A token is pulled and fed, or something is left out because the program says to go on. -/
inductive Round (p : Parser) (recovery : Option Recovery) : Progress σ → List Token → Progress σ → Prop
  | fed {m m' : Machine} {source rest : σ} {asked : List ParseFailure} {t : Token} {value : Option Child}
    (hp : TokenSource.pull source (some m.current) = (.ok (some t), rest)) (hf : m.feed p t false = (.ok value, m')) :
    Round p recovery ⟨m, source, asked⟩ [t] ⟨m', rest, asked⟩
  | refused {m m' : Machine} {source rest : σ} {asked asked' : List ParseFailure} {t : Token} {f : ParseFailure}
    (hp : TokenSource.pull source (some m.current) = (.ok (some t), rest))
    (hf : m.feed p t false = (.error (.parse f), m')) (ha : Recovery.ask recovery asked f = (true, asked')) :
    Round p recovery ⟨m, source, asked⟩ [] ⟨m', rest, asked'⟩
  | skipped {m : Machine} {source rest rest' : σ} {asked asked' : List ParseFailure} {f : ParseFailure}
    (hp : TokenSource.pull source (some m.current) = (.error (.parse f), rest))
    (ha : Recovery.ask recovery asked f = (true, asked')) (hs : skipFailed rest f = some rest') :
    Round p recovery ⟨m, source, asked⟩ [] ⟨m, rest', asked'⟩

/-- Rounds one after the other, and the tokens that were fed in them. -/
inductive Rounds (p : Parser) (recovery : Option Recovery) : Progress σ → List Token → Progress σ → Prop
  | nil {q : Progress σ} : Rounds p recovery q [] q
  | cons {q q' q'' : Progress σ} {ts us : List Token} (h : Round p recovery q ts q')
    (rest : Rounds p recovery q' us q'') : Rounds p recovery q (ts ++ us) q''

/-- How a parse ends: the source has no more tokens, or a failure is not passed over. -/
inductive Ends (p : Parser) (q : Progress σ) : Outcome Child → Prop
  | finished {rest : σ} (hp : TokenSource.pull q.source (some q.machine.current) = (.ok none, rest)) :
    Ends p q (q.machine.finish p).1
  | failed {rest : σ} {f : Failure} (hp : TokenSource.pull q.source (some q.machine.current) = (.error f, rest)) :
    Ends p q (.error f)
  | refused {rest : σ} {t : Token} {f : Failure} {m' : Machine}
    (hp : TokenSource.pull q.source (some q.machine.current) = (.ok (some t), rest))
    (hf : q.machine.feed p t false = (.error f, m')) : Ends p q (.error f)

/-- Every parse is a list of rounds and an end. -/
theorem Machine.run_rounds (p : Parser) (recovery : Option Recovery) (m : Machine) (source : σ)
    (asked : List ParseFailure) : ∃ ts q, Rounds p recovery ⟨m, source, asked⟩ ts q ∧
      Ends p q (m.run p recovery source asked).result := by
  fun_induction Machine.run p recovery m source asked with
  | case1 m source asked rest hp => exact ⟨[], _, .nil, .finished hp⟩
  | case2 m source asked t rest hp _ value m' hf ih =>
    obtain ⟨ts, q, hrounds, hend⟩ := ih
    exact ⟨_, q, .cons (.fed hp hf) hrounds, hend⟩
  | case3 m source asked t rest hp _ f m' hf asked' ha ih =>
    obtain ⟨ts, q, hrounds, hend⟩ := ih
    exact ⟨_, q, .cons (.refused hp hf ha) hrounds, hend⟩
  | case4 m source asked t rest hp _ f m' hf => exact ⟨[], _, .nil, .refused hp hf⟩
  | case5 m source asked t rest hp _ f m' _ hf => exact ⟨[], _, .nil, .refused hp hf⟩
  | case6 m source asked f rest hp _ asked' ha rest' hs _ ih =>
    obtain ⟨ts, q, hrounds, hend⟩ := ih
    exact ⟨_, q, .cons (.skipped hp ha hs) hrounds, hend⟩
  | case7 m source asked f rest hp => exact ⟨[], _, .nil, .failed hp⟩
  | case8 m source asked f rest hp => exact ⟨[], _, .nil, .failed hp⟩
  | case9 m source asked f rest _ hp => exact ⟨[], _, .nil, .failed hp⟩

end Rounds

/-! ## What feeding keeps -/

/-- What becomes of a machine that holds trees over some tokens when it is fed one more. -/
inductive Machine.FedTo (p : Parser) (rules : List Rule) (start : List String) (name : String) (first : Nat)
    (ts : List Token) (t : Token) : Outcome (Option Child) × Machine → Prop
  | shifted {m' : Machine} {ds : List Derivation}
    (h : m'.Holds p (Automaton.ofRules rules start) first ds (ts ++ [t])) :
    FedTo p rules start name first ts t (.ok none, m')
  | accepted {m' : Machine} {d : Derivation} (ht : t.kind = endMarker)
    (h : Trees rules IsNamed [.nonterminal name] ts [d]) :
    FedTo p rules start name first ts t (.ok (some (d.build (p.actions.atPlace p.table.rules))), m')
  | refused {m' : Machine} {f : Failure} {ds : List Derivation} (hf : ∀ n i, f ≠ .grammar (.missingGoto n i))
    (h : m'.Holds p (Automaton.ofRules rules start) first ds ts) :
    FedTo p rules start name first ts t (.error f, m')

section Sound

variable {rules : List Rule} {start : List String} {name : String} {first : Nat} {p : Parser}
  (hu : Unreserved rules start) (ht : p.table.Realizes (Automaton.ofRules rules start))
  (hf : (Automaton.ofRules rules start).start? name = some first)
include hu ht hf

theorem Machine.Holds.feedWithin {ts : List Token} (t : Token) (atEnd : Bool) : ∀ (fuel : Nat) {m : Machine}
    {ds : List Derivation}, m.Holds p (Automaton.ofRules rules start) first ds ts →
    FedTo p rules start name first ts t (m.feedWithin p t atEnd fuel)
  | 0, _, _, h => .refused (fun _ _ hf => by cases hf) h
  | fuel + 1, m, ds, h => by
    rw [Machine.feedWithin, Machine.step]
    cases hm : p.table.move? m.current t.kind with
    | none => exact .refused (fun _ _ hf => by cases hf) h
    | some move =>
      cases move with
      | shift j => exact .shifted (h.shift ht hm)
      | accept =>
        obtain ⟨hend, d, rfl, htree⟩ := h.accept ht hf hu hm
        have hvalue : m.values.head? = some (d.build (p.actions.atPlace p.table.rules)) := by
          rw [h.values]
          rfl
        simp only [hvalue]
        exact .accepted hend htree
      | reduce i =>
        obtain ⟨r, m', ds', hr, hstep, hholds, -⟩ := h.reduce ht hf hm
        simp only [hr, hstep]
        exact hholds.feedWithin t atEnd fuel

/-- A machine that holds trees holds trees after a round, with those tokens more that it was fed. -/
theorem Round.holds {σ : Type} [TokenSource σ] {recovery : Option Recovery} {q q' : Progress σ} {ts us : List Token}
    (h : Round p recovery q us q')
    (hend : ∀ state t rest, TokenSource.pull q.source state = (.ok (some t), rest) → t.kind ≠ endMarker)
    (hh : ∃ ds, q.machine.Holds p (Automaton.ofRules rules start) first ds ts) :
    ∃ ds, q'.machine.Holds p (Automaton.ofRules rules start) first ds (ts ++ us) := by
  obtain ⟨ds, hh⟩ := hh
  cases h with
  | @fed m m' source rest asked t value hp hfeed =>
    have hto := hh.feedWithin hu ht hf t false (m.patience p + 1)
    rw [show m.feedWithin p t false (m.patience p + 1) = _ from hfeed] at hto
    cases hto with
    | shifted h => exact ⟨_, h⟩
    | accepted hkind _ => exact absurd hkind (hend _ t rest hp)
  | @refused m m' source rest asked asked' t f hp hfeed ha =>
    have hto := hh.feedWithin hu ht hf t false (m.patience p + 1)
    rw [show m.feedWithin p t false (m.patience p + 1) = _ from hfeed] at hto
    rw [List.append_nil]
    cases hto with
    | refused _ h => exact ⟨_, h⟩
  | skipped hp ha hs =>
    rw [List.append_nil]
    exact ⟨ds, hh⟩

omit hu ht hf in
theorem Round.later {σ : Type} [TokenSource σ] {recovery : Option Recovery} {q q' : Progress σ} {us : List Token}
    {source : σ} (h : Round p recovery q us q') (hl : Later source q.source) : Later source q'.source := by
  cases h with
  | fed hp _ => exact hl.of_pull hp
  | refused hp _ _ => exact hl.of_pull hp
  | skipped hp _ hs => exact (hl.of_pull hp).of_skipFailed hs

theorem Rounds.holds {σ : Type} [TokenSource σ] {recovery : Option Recovery} {q q' : Progress σ} {us : List Token}
    {source : σ} (h : Rounds p recovery q us q')
    (hend : ∀ s state t rest, Later source s → TokenSource.pull s state = (.ok (some t), rest) → t.kind ≠ endMarker) :
    ∀ {ts : List Token}, Later source q.source →
    (∃ ds, q.machine.Holds p (Automaton.ofRules rules start) first ds ts) →
      Later source q'.source ∧ ∃ ds, q'.machine.Holds p (Automaton.ofRules rules start) first ds (ts ++ us) := by
  induction h with
  | nil =>
    intro ts hl hh
    rw [List.append_nil]
    exact ⟨hl, hh⟩
  | @cons q q' q'' us vs h _ ih =>
    intro ts hl hh
    rw [← List.append_assoc]
    exact ih (h.later hl) (h.holds hu ht hf (fun state t rest => hend _ state t rest hl) hh)

end Sound

/-! ## Soundness -/

theorem Parser.ofConfig_eq_ok {c : ParserConfig} {strict : Bool} {p : Parser} (h : Parser.ofConfig c strict = .ok p) :
    Table.build c.rules c.start strict = .ok p.table ∧ p.actions = c.actions := by
  unfold Parser.ofConfig at h
  cases ht : Table.build c.rules c.start strict with
  | error f => rw [ht] at h; cases h
  | ok t => rw [ht] at h; cases h; exact ⟨rfl, rfl⟩

/-- The end is accepted with a tree of the tokens that were read, or it is refused. -/
theorem Machine.Holds.finish {rules : List Rule} {start : List String} {name : String} {first : Nat} {p : Parser}
    {m : Machine} {ds : List Derivation} {ts : List Token} (hu : Unreserved rules start)
    (ht : p.table.Realizes (Automaton.ofRules rules start))
    (hf : (Automaton.ofRules rules start).start? name = some first)
    (h : m.Holds p (Automaton.ofRules rules start) first ds ts) :
    (∃ d, (m.finish p).1 = .ok (d.build (p.actions.atPlace p.table.rules)) ∧
      Trees rules IsNamed [.nonterminal name] ts [d]) ∨
    ∃ f, (m.finish p).1 = .error f ∧ ∀ n i, f ≠ .grammar (.missingGoto n i) := by
  have hto : FedTo p rules start name first ts m.endToken (m.feed p m.endToken true) := h.feedWithin hu ht hf _ _ _
  unfold Machine.finish
  generalize m.feed p m.endToken true = result at hto
  cases hto with
  | shifted _ => exact .inr ⟨_, rfl, fun _ _ hf => by cases hf⟩
  | accepted _ htree => exact .inl ⟨_, rfl, htree⟩
  | refused hfail _ => exact .inr ⟨_, rfl, hfail⟩

/-- Whatever table is built and whatever the program says to failures: where a parse has a value, it is a plain tree of
the start symbol over exactly the tokens that were fed on the way to the end of the source, and a parse fails for want
of a place to go on only if the source itself fails like that. -/
theorem parse_sound {σ : Type} [TokenSource σ] {c : ParserConfig} {strict : Bool} {p : Parser}
    (hu : Unreserved c.rules c.start) (hact : c.actions = {}) (hp : Parser.ofConfig c strict = .ok p) (source : σ)
    (name : String) (recovery : Option Recovery)
    (hend : ∀ s state t rest, Later source s → TokenSource.pull s state = (.ok (some t), rest) →
      t.kind ≠ endMarker) :
    (∀ v, (p.parse source name recovery).result = .ok v → ∃ m ts q rest, Machine.start p name = .ok m ∧
      Rounds p recovery ⟨m, source, []⟩ ts q ∧
      TokenSource.pull q.source (some q.machine.current) = (.ok none, rest) ∧
      PlainTrees c.rules [.nonterminal name] ts [v]) ∧
    ∀ n i, (p.parse source name recovery).result = .error (.grammar (.missingGoto n i)) →
      ∃ s state rest, Later source s ∧
        TokenSource.pull s state = (.error (.grammar (.missingGoto n i)), rest) := by
  obtain ⟨hbuild, hactions⟩ := Parser.ofConfig_eq_ok hp
  have ht := Table.realizes_of_build hbuild
  rw [Parser.parse]
  cases hf : p.table.start? name with
  | none =>
    rw [Machine.start, hf]
    exact ⟨fun _ hv => (nomatch hv), fun _ _ hv => (nomatch hv)⟩
  | some first =>
    rw [Machine.start, hf]
    rw [ht.start] at hf
    dsimp only
    obtain ⟨ts, q, hrounds, hends⟩ := Machine.run_rounds p recovery { states := [first] } source []
    obtain ⟨hl, ds, hh⟩ := hrounds.holds hu ht hf hend .here ⟨[], .of_start⟩
    rw [List.nil_append] at hh
    generalize (({ states := [first] } : Machine).run p recovery source []).result = result at hends ⊢
    cases hends with
    | failed hpull =>
      refine ⟨fun v hv => (nomatch hv), fun n i hv => ?_⟩
      cases hv
      exact ⟨_, _, _, hl, hpull⟩
    | @refused rest t f m' hpull hfeed =>
      have hto := hh.feedWithin hu ht hf t false (q.machine.patience p + 1)
      rw [show q.machine.feedWithin p t false (q.machine.patience p + 1) = _ from hfeed] at hto
      cases hto with
      | refused hfail _ =>
        refine ⟨fun v hv => (nomatch hv), fun n i hv => ?_⟩
        exact absurd (Except.error.inj hv) (hfail n i)
    | finished hpull =>
      rcases hh.finish hu ht hf with ⟨d, hd, htree⟩ | ⟨f, hfinish, hfail⟩
      · rw [hd]
        refine ⟨fun v hv => ?_, fun n i hv => (nomatch hv)⟩
        cases hv
        refine ⟨_, ts, q, _, rfl, hrounds, hpull, ?_⟩
        -- root rules do not stand in trees
        have hplain : ∀ i r, c.rules[i]? = some r → p.actions.atPlace p.table.rules i = r.plain := by
          intro i r hr
          rw [Actions.atPlace_eq (by rw [ht.rules]; exact Automaton.getElem?_of_rule hr), hactions, hact]
          rfl
        exact htree.plain hplain
      · rw [hfinish]
        exact ⟨fun v hv => (nomatch hv), fun n i hv => absurd (Except.error.inj hv) (hfail n i)⟩

/-- One letter, and a rule that changes nothing: before the end marker a letter is accepted or that rule is reduced. -/
def oneLetter : List Rule :=
  [⟨"s", [⟨.terminal "a", false⟩], 0, none, {}⟩, ⟨"s", [⟨.nonterminal "s", false⟩], 1, none, {}⟩]

set_option maxRecDepth 4000 in
/-- A second letter is refused and left out. -/
theorem parse_oneLetter : ∃ p ts, Parser.ofConfig ⟨oneLetter, {}, ["s"], false⟩ false = .ok p ∧
    (p.parse (Listed.ofTokens [.ofText "a" "1", .ofText "a" "2"]) "s" (some (.upTo 1))).result =
      .ok (.tree ⟨"s", [.token (.ofText "a" "1")], none⟩) ∧
    PlainTrees oneLetter [.nonterminal "s"] ts [.tree ⟨"s", [.token (.ofText "a" "1")], none⟩] := by
  have hu : Unreserved oneLetter ["s"] := by
    refine ⟨?_, ?_, ?_⟩ <;> simp [oneLetter, reserved_iff, Rule.symbols, Symbol.name]
  have hresult : ((Parser.ofConfig ⟨oneLetter, {}, ["s"], false⟩ false).bind fun p =>
      (p.parse (Listed.ofTokens [.ofText "a" "1", .ofText "a" "2"]) "s" (some (.upTo 1))).result) =
      .ok (.tree ⟨"s", [.token (.ofText "a" "1")], none⟩) := by
    cbv
  cases hp : Parser.ofConfig ⟨oneLetter, {}, ["s"], false⟩ false with
  | error f => rw [hp] at hresult; cases hresult
  | ok p =>
    rw [hp] at hresult
    obtain ⟨hvalue, -⟩ := parse_sound hu rfl hp (Listed.ofTokens [.ofText "a" "1", .ofText "a" "2"]) "s"
      (some (.upTo 1)) fun s state t rest hl hpull => by
        have ht := mem_of_later hl hpull
        simp only [List.mem_cons, List.not_mem_nil, or_false] at ht
        rcases ht with rfl | rfl <;> decide
    obtain ⟨m, ts, q, rest, -, -, -, htrees⟩ := hvalue _ hresult
    exact ⟨p, ts, rfl, hresult, htrees⟩

end GrammarKit.LR
