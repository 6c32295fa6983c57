/-
Tokens that are refused. A machine that refuses a token stays as it was exactly if the current state has no move for the
token: then no rule was reduced before. A token that is refused like that can be left out. Where the program says to go
on after every failure, a parse comes to the same as if its source had never had the token.

Where rules are reduced before the refusal, they stay reduced, and a rule that would have had a longer alternative is
not found any more.
-/
import GrammarKit.Proofs.LR.Reached

namespace GrammarKit.LR

/-! ## Parses that always go on -/

/-- Every failure is passed over. -/
def Recovery.Always (r : Recovery) : Prop := ∀ before f, r.goOn before f = true

theorem Recovery.Always.ask {r : Recovery} (h : r.Always) (asked : List ParseFailure) (f : ParseFailure) :
    Recovery.ask (some r) asked f = (true, asked ++ [f]) := by
  rw [Recovery.ask, h]

namespace Machine

section Run

variable {σ : Type} [TokenSource σ] {p : Parser} {r : Recovery} {m : Machine} {source rest : σ}

theorem run_of_none (h : TokenSource.pull source (some m.current) = (.ok none, rest)) (asked : List ParseFailure) :
    m.run p (some r) source asked = ⟨(m.finish p).1, asked⟩ := by
  rw [run]
  split <;> rename_i h' <;> cases h'.symm.trans h
  rfl

variable (hr : r.Always)
include hr

theorem run_of_token {t : Token} (h : TokenSource.pull source (some m.current) = (.ok (some t), rest))
    (asked : List ParseFailure) : m.run p (some r) source asked = match m.feed p t false with
      | (.ok _, m) => m.run p (some r) rest asked
      | (.error (.parse f), m) => m.run p (some r) rest (asked ++ [f])
      | (.error f, _) => ⟨.error f, asked⟩ := by
  rw [run]
  split <;> rename_i h' <;> cases h'.symm.trans h
  rcases m.feed p t false with ⟨f | value, m'⟩
  · cases f <;> simp only [hr.ask]
  · rfl

theorem run_of_failed {f : ParseFailure} (h : TokenSource.pull source (some m.current) = (.error (.parse f), rest))
    (asked : List ParseFailure) : m.run p (some r) source asked = match skipFailed rest f with
      | some rest => m.run p (some r) rest (asked ++ [f])
      | none => ⟨.error (.parse f), asked ++ [f]⟩ := by
  rw [run]
  split <;> rename_i h' <;> cases h'.symm.trans h
  · simp only [hr.ask]
    split <;> rename_i hs <;> rw [hs]
  · rename_i hne
    exact absurd rfl (hne f)

omit hr in
theorem run_of_error {f : Failure} (h : TokenSource.pull source (some m.current) = (.error f, rest))
    (hf : ∀ g, f ≠ .parse g) (asked : List ParseFailure) : m.run p (some r) source asked = ⟨.error f, asked⟩ := by
  rw [run]
  split <;> rename_i h' <;> cases h'.symm.trans h
  · exact absurd rfl (hf _)
  · rfl

/-- What comes of a parse does not depend on what the program was asked before. -/
theorem result_run_asked (m : Machine) (source : σ) (asked : List ParseFailure) : ∀ asked' : List ParseFailure,
    (m.run p (some r) source asked).result = (m.run p (some r) source asked').result := by
  fun_induction Machine.run p (some r) m source asked with
  | case1 m source asked rest hp => exact fun asked' => by rw [run_of_none hp]
  | case2 m source asked t rest hp _ value m' hf ih =>
    intro asked'
    rw [run_of_token hr hp, hf]
    exact ih asked'
  | case3 m source asked t rest hp _ f m' hf asked1 ha ih =>
    intro asked'
    rw [run_of_token hr hp, hf]
    exact ih _
  | case4 m source asked t rest hp _ f m' hf asked1 ha =>
    rw [hr.ask] at ha
    cases ha
  | case5 m source asked t rest hp _ f m' hne hf =>
    intro asked'
    rw [run_of_token hr hp, hf]
    split <;> rename_i h <;> cases h
    · exact absurd rfl (hne _)
    · rfl
  | case6 m source asked f rest hp _ asked1 ha rest' hs _ ih =>
    intro asked'
    rw [run_of_failed hr hp, hs]
    exact ih _
  | case7 m source asked f rest hp _ asked1 ha hs =>
    intro asked'
    rw [run_of_failed hr hp, hs]
  | case8 m source asked f rest hp _ asked1 ha =>
    rw [hr.ask] at ha
    cases ha
  | case9 m source asked f rest hne hp =>
    intro asked'
    rw [run_of_error hp hne]

/-- A parse comes to the same as what is left of it after some rounds. -/
theorem run_of_rounds {q q' : Progress σ} {ts : List Token} (h : Rounds p (some r) q ts q') :
    q.machine.run p (some r) q.source q.asked = q'.machine.run p (some r) q'.source q'.asked := by
  induction h with
  | nil => rfl
  | cons h _ ih =>
    rw [← ih]
    cases h with
    | fed hp hf =>
      dsimp only
      rw [run_of_token hr hp, hf]
    | refused hp hf ha =>
      rw [hr.ask] at ha
      cases ha
      dsimp only
      rw [run_of_token hr hp, hf]
    | skipped hp ha hs =>
      rw [hr.ask] at ha
      cases ha
      dsimp only
      rw [run_of_failed hr hp, hs]

omit hr in
/-- Without a move for a token a machine refuses it at once. -/
theorem feed_of_no_move {t : Token} (h : p.table.move? m.current t.kind = none) (atEnd : Bool) :
    m.feed p t atEnd = (.error (.parse (if atEnd then .atEnd (p.table.expected m.current)
      else .atToken t (p.table.expected m.current))), m) := by
  rw [feed, feedWithin, step, h]

/-- A token that is refused at once is left out. -/
theorem result_run_of_no_move {t : Token} (h : TokenSource.pull source (some m.current) = (.ok (some t), rest))
    (hm : p.table.move? m.current t.kind = none) (asked asked' : List ParseFailure) :
    (m.run p (some r) source asked).result = (m.run p (some r) rest asked').result := by
  rw [run_of_token hr h, feed_of_no_move hm]
  exact result_run_asked hr ..

end Run

/-- The machine that tokens make of a machine which is fed all of them, those that it refuses included. -/
def readOn (p : Parser) : Machine → List Token → Outcome Machine
  | m, [] => .ok m
  | m, t :: ts => match m.feed p t false with
    | (.ok _, m) => m.readOn p ts
    | (.error (.parse _), m) => m.readOn p ts
    | (.error f, _) => .error f

theorem readOn_append {p : Parser} {vs : List Token} : ∀ {us : List Token} {m : Machine},
    m.readOn p (us ++ vs) = (m.readOn p us).bind fun m => m.readOn p vs
  | [], _ => rfl
  | t :: us, m => by
    rw [List.cons_append, readOn, readOn]
    split
    · exact readOn_append
    · exact readOn_append
    · rfl

/-- A parse of a list that always goes on reads the whole list. -/
theorem result_run_ofTokens {p : Parser} {r : Recovery} (hr : r.Always) : ∀ {us : List Token} {m : Machine}
    (asked : List ParseFailure), (m.run p (some r) (Listed.ofTokens us) asked).result =
      (m.readOn p us).bind fun m => (m.finish p).1
  | [], _, asked => by
    rw [run_of_none rfl]
    rfl
  | t :: us, m, asked => by
    have hpull : TokenSource.pull (Listed.ofTokens (t :: us)) (some m.current) =
      (.ok (some t), Listed.ofTokens us) := rfl
    rw [run_of_token hr hpull, readOn]
    split
    · exact result_run_ofTokens hr _
    · exact result_run_ofTokens hr _
    · rfl

end Machine

/-! ## Refusals -/

/-- Where reductions come to an end, a machine that refuses a token stays as it was exactly if there were none. -/
theorem Stacked.untouched_iff {rules : List Rule} {start : List String} {name : String} {first : Nat} {p : Parser}
    (ht : p.table.Realizes (Automaton.ofRules rules start))
    (hf : (Automaton.ofRules rules start).start? name = some first) {m m' : Machine} {ds : List Derivation}
    {ts : List Token} (h : Stacked (Automaton.ofRules rules start) first m.states ds ts) {t : Token} {atEnd : Bool}
    {f : Failure} (hfeed : m.feed p t atEnd = (.error f, m')) (hne : f ≠ .grammar (.endlessReduction t.kind)) :
    (m'.states = m.states ∧ m'.values = m.values) ↔ p.table.move? m.current t.kind = none := by
  rcases h.feed_cases ht hf t atEnd with ⟨n, m1, hr, hans⟩ | ⟨-, n, m1, -, hend⟩
  · rw [hfeed] at hans
    cases hans with
    | refused hm =>
      have hrest : p.reduceStates t.kind m'.states = none :=
        Machine.reduceStates_eq_none fun i hi => by rw [hm] at hi; cases hi
      constructor
      · rintro ⟨hstates, -⟩
        -- the same states make the same reductions, so there were none
        have hhalts := hr.halts hrest
        rw [← hstates] at hhalts
        obtain rfl := hhalts.unique (.done hrest)
        cases hr
        exact hm
      · intro hm0
        obtain rfl := hr.eq_zero fun i hi => by rw [hm0] at hi; cases hi
        cases hr
        exact ⟨rfl, rfl⟩
  · rw [hfeed] at hend
    cases hend
    exact absurd rfl hne

/-- A machine that refuses a token stays as it was exactly if the current state has no move for the token. Where the
program says to go on after every failure, such a token does not count: after any rounds, the parse comes to the same as
going on with the source that is left after the token, and a list of tokens to the same as the list without it. -/
theorem Parser.parse_without_refused {c : ParserConfig} {strict : Bool} {p : Parser}
    (hp : Parser.ofConfig c strict = .ok p) :
    (∀ (name : String) (m m' : Machine) (t : Token) (atEnd : Bool) (f : Failure), m.Reached p name →
      m.feed p t atEnd = (.error f, m') → f ≠ .grammar (.endlessReduction t.kind) →
      ((m'.states = m.states ∧ m'.values = m.values) ↔ p.table.move? m.current t.kind = none)) ∧
    ∀ (r : Recovery), r.Always → ∀ (name : String) (m0 : Machine), Machine.start p name = .ok m0 →
      (∀ (σ : Type) [TokenSource σ] (source : σ) (ts : List Token) (q : Progress σ) (t : Token) (rest : σ),
        Rounds p (some r) ⟨m0, source, []⟩ ts q →
        TokenSource.pull q.source (some q.machine.current) = (.ok (some t), rest) →
        p.table.move? q.machine.current t.kind = none →
        (p.parse source name (some r)).result = (q.machine.run p (some r) rest []).result) ∧
      ∀ (us : List Token) (t : Token) (vs : List Token),
        (∀ m, m0.readOn p us = .ok m → p.table.move? m.current t.kind = none) →
        (p.parse (Listed.ofTokens (us ++ t :: vs)) name (some r)).result =
          (p.parse (Listed.ofTokens (us ++ vs)) name (some r)).result := by
  have ht := Table.realizes_of_build (Parser.ofConfig_eq_ok hp).1
  refine ⟨fun name m m' t atEnd f hm hfeed hne => ?_, fun r hr name m0 hm0 => ⟨?_, ?_⟩⟩
  · obtain ⟨first, hf, ds, ts, h⟩ := hm.stacked hp
    exact h.untouched_iff ht hf hfeed hne
  · intro σ _ source ts q t rest hrounds hpull hm
    rw [Parser.parse, hm0]
    dsimp only
    rw [Machine.run_of_rounds hr hrounds]
    exact Machine.result_run_of_no_move hr hpull hm _ _
  · intro us t vs hm
    rw [Parser.parse, Parser.parse, hm0]
    dsimp only
    rw [Machine.result_run_ofTokens hr, Machine.result_run_ofTokens hr, Machine.readOn_append, Machine.readOn_append]
    cases hread : m0.readOn p us with
    | error f => rfl
    | ok m =>
      show Except.bind (m.readOn p (t :: vs)) _ = Except.bind (m.readOn p vs) _
      rw [Machine.readOn, Machine.feed_of_no_move (hm m hread)]

/-- A word of one letter or of two, between a letter and its end, or before another letter. -/
def framedWord : List Rule :=
  [⟨"s", [⟨.terminal "X", false⟩, ⟨.nonterminal "a", false⟩], 0, none, {}⟩,
    ⟨"s", [⟨.nonterminal "a", false⟩, ⟨.terminal "W", false⟩], 1, none, {}⟩,
    ⟨"a", [⟨.terminal "N", false⟩], 0, none, {}⟩, ⟨"a", [⟨.terminal "N", false⟩, ⟨.terminal "Y", false⟩], 1, none, {}⟩]

def framedWordTable : Table where
  rules := framedWord ++ [rootRule "s"]
  rows := [
    ⟨[("N", .shift 3), ("X", .shift 4)], [("a", 1), ("s", 2)]⟩,
    ⟨[("W", .shift 5)], []⟩,
    ⟨[(endMarker, .accept)], []⟩,
    ⟨[("W", .reduce 2), (endMarker, .reduce 2), ("Y", .shift 6)], []⟩,
    ⟨[("N", .shift 3)], [("a", 7)]⟩,
    ⟨[(endMarker, .reduce 1)], []⟩,
    ⟨[("W", .reduce 3), (endMarker, .reduce 3)], []⟩,
    ⟨[(endMarker, .reduce 0)], []⟩]
  starts := [("s", 0)]

set_option maxRecDepth 20000 in
theorem build_framedWord : Table.build framedWord ["s"] true = .ok framedWordTable := by cbv

def framedWordParser : Parser := { table := framedWordTable, actions := {} }

theorem ofConfig_framedWord : Parser.ofConfig ⟨framedWord, {}, ["s"], false⟩ true = .ok framedWordParser := by
  rw [Parser.ofConfig, build_framedWord]
  rfl

/-- After a letter the letter itself is refused at once, and a list with two of them is read like one with one. -/
theorem parse_framedWord_twice : Parser.ofConfig ⟨framedWord, {}, ["s"], false⟩ true = .ok framedWordParser ∧
    (framedWordParser.parse (Listed.ofTokens [.ofText "X" "x", .ofText "X" "x", .ofText "N" "n"]) "s"
      (some ⟨fun _ _ => true⟩)).result =
    (framedWordParser.parse (Listed.ofTokens [.ofText "X" "x", .ofText "N" "n"]) "s"
      (some ⟨fun _ _ => true⟩)).result := by
  have hm0 : Machine.start framedWordParser "s" = .ok { states := [0] } := rfl
  refine ⟨ofConfig_framedWord, ((Parser.parse_without_refused ofConfig_framedWord).2 ⟨fun _ _ => true⟩ (fun _ _ => rfl)
    "s" _ hm0).2 [.ofText "X" "x"] (.ofText "X" "x") [.ofText "N" "n"] fun m hm => ?_⟩
  cases hm
  rfl

/-- Before the letter that is refused the word is closed, though its second letter is to come: it stays closed, and with
the refused letter the parse does not come to what it comes to without it. -/
theorem parse_with_refused : Parser.ofConfig ⟨framedWord, {}, ["s"], false⟩ true = .ok framedWordParser ∧
    (∃ (m m' : Machine) (f : Failure), m.Reached framedWordParser "s" ∧
      m.feed framedWordParser (.ofText "W" "w") false = (.error f, m') ∧ m.states = [3, 4, 0] ∧ m'.states = [7, 4, 0]) ∧
    (framedWordParser.parse (Listed.ofTokens [.ofText "X" "x", .ofText "N" "n", .ofText "W" "w", .ofText "Y" "y"]) "s"
      (some ⟨fun _ _ => true⟩)).result ≠
    (framedWordParser.parse (Listed.ofTokens [.ofText "X" "x", .ofText "N" "n", .ofText "Y" "y"]) "s"
      (some ⟨fun _ _ => true⟩)).result := by
  have hm0 : Machine.start framedWordParser "s" = .ok { states := [0] } := rfl
  refine ⟨ofConfig_framedWord,
    ⟨_, _, _, .feed (.feed (.start hm0) (.ofText "X" "x") false) (.ofText "N" "n") false, rfl, rfl, rfl⟩, ?_⟩
  rw [Parser.parse, Parser.parse, hm0]
  dsimp only
  rw [Machine.result_run_ofTokens fun _ _ => rfl, Machine.result_run_ofTokens fun _ _ => rfl]
  intro h
  cases h

end GrammarKit.LR
