/-
The stacks of a session, whatever is called. Every call feeds tokens to the machine, one after the other. As long as
none of them gave a value, the machine holds trees: there is one state more than there are values, before every move
that is made, and a rule's action gets one child for each symbol of the rule. The first value is the end of that. It is
taken off its stack while the states stay where they are, so from then on there is a value too few, and a session that
is fed on reduces rules over the values that are left.
-/
import GrammarKit.LR.Session
import GrammarKit.Proofs.LR.Reached

namespace GrammarKit.LR

/-! ## Feedings -/

/-- One state more than there are values. -/
def Machine.Consistent (m : Machine) : Prop := m.states.length = m.values.length + 1

instance (m : Machine) : Decidable m.Consistent := inferInstanceAs (Decidable (_ = _))

/-- A token that a machine is fed. -/
structure Feeding where
  machine : Machine
  token : Token
  atEnd : Bool

namespace Feeding

def outcome (p : Parser) (f : Feeding) : Outcome (Option Child) × Machine := f.machine.feed p f.token f.atEnd

/-- The input is accepted. -/
def GivesValue (p : Parser) (f : Feeding) : Prop := ∃ value, (f.outcome p).1 = .ok (some value)

instance (p : Parser) (f : Feeding) : Decidable (f.GivesValue p) :=
  match h : (f.outcome p).1 with
  | .ok (some value) => .isTrue ⟨value, h⟩
  | .ok none => .isFalse fun ⟨_, hv⟩ => by rw [h] at hv; cases hv
  | .error _ => .isFalse fun ⟨_, hv⟩ => by rw [h] at hv; cases hv

/-- A machine that the token finds on its way, before one of the moves for it. -/
def Meets (p : Parser) (f : Feeding) (m : Machine) : Prop := ∃ n, f.machine.Runs p f.token.kind n [] m

/-- The action of a rule is applied to children. -/
def Applies (p : Parser) (f : Feeding) (r : Rule) (children : List Child) : Prop :=
  ∃ m i, f.Meets p m ∧ p.table.move? m.current f.token.kind = some (.reduce i) ∧ p.table.rules[i]? = some r ∧
    children = m.children r

/-- Feedings one after the other, each of the machine that the one before it left. -/
def Chained (p : Parser) : Machine → List Feeding → Machine → Prop
  | m, [], m' => m = m'
  | m, f :: fs, m' => f.machine = m ∧ Chained p (f.outcome p).2 fs m'

theorem Chained.append {p : Parser} {m1 m2 : Machine} {gs : List Feeding} (k : Chained p m1 gs m2) :
    ∀ {m : Machine} {fs : List Feeding}, Chained p m fs m1 → Chained p m (fs ++ gs) m2
  | _, [], h => by
    rw [Chained] at h
    exact h ▸ k
  | _, _ :: _, h => ⟨h.1, Chained.append k h.2⟩

end Feeding

/-! ## Calls -/

namespace Session

inductive Call where
  | feed (t : Token)
  | finish
  | exhaust

/-- The session after a call, whatever the call came to. -/
def after (s : Session) : Call → Session
  | .feed t => (s.feed t).2
  | .finish => s.finish.2
  | .exhaust => s.exhaust.2

def run (s : Session) (calls : List Call) : Session := calls.foldl after s

/-- The feedings in which the tokens of a scanner are fed. -/
def drained (p : Parser) (m : Machine) (source : Scanner) : List Feeding :=
  match h : TokenSource.pull source (some m.current) with
  | (.ok (some t), rest) =>
    have hlt : TokenSource.size rest < TokenSource.size source := by
      have := TokenSource.size_pull_lt source (some m.current) t (by rw [h])
      rwa [h] at this
    ⟨m, t, false⟩ :: match m.feed p t false with
      | (.ok _, m) => drained p m rest
      | (.error _, _) => []
  | _ => []
termination_by TokenSource.size source

/-- The feedings of a call. -/
def fedBy (s : Session) : Call → List Feeding
  | .feed t => [⟨s.machine, t, t.kind == endMarker⟩]
  | .finish => [⟨s.machine, s.machine.endToken, true⟩]
  | .exhaust => match s.scanner with
    | some source => drained s.parser s.machine source
    | none => []

/-- The feedings of calls one after the other. -/
def feedings (s : Session) : List Call → List Feeding
  | [] => []
  | c :: calls => s.fedBy c ++ (s.after c).feedings calls

theorem drained_of_token {p : Parser} {m : Machine} {source rest : Scanner} {t : Token}
    (h : TokenSource.pull source (some m.current) = (.ok (some t), rest)) : drained p m source =
      ⟨m, t, false⟩ :: match m.feed p t false with
        | (.ok _, m) => drained p m rest
        | (.error _, _) => [] := by
  rw [drained]
  split
  · rename_i t' rest' h'
    cases h'.symm.trans h
    rfl
  · rename_i hne
    exact absurd h (hne t rest)

theorem drained_of_none {p : Parser} {m : Machine} {source : Scanner}
    (h : ∀ t rest, TokenSource.pull source (some m.current) ≠ (.ok (some t), rest)) : drained p m source = [] := by
  rw [drained]
  split
  · rename_i t rest h'
    exact absurd h' (h t rest)
  · rfl

theorem chained_drained (p : Parser) (m : Machine) (source : Scanner) (fed : List Token) :
    Feeding.Chained p m (drained p m source) (drainInto p m source fed).2.1 := by
  fun_induction drainInto p m source fed with
  | case1 m source fed rest hp =>
    rw [drained_of_none fun t rest h => by rw [hp] at h; cases h]
    exact rfl
  | case2 m source fed t rest hp _ value m' hf ih =>
    rw [drained_of_token hp, hf]
    refine ⟨rfl, ?_⟩
    rw [Feeding.outcome, hf]
    exact ih
  | case3 m source fed t rest hp _ f m' hf =>
    rw [drained_of_token hp, hf]
    refine ⟨rfl, ?_⟩
    rw [Feeding.outcome, hf]
    exact rfl
  | case4 m source fed f rest hp =>
    rw [drained_of_none fun t rest h => by rw [hp] at h; cases h]
    exact rfl

theorem chained_fedBy (s : Session) (c : Call) :
    (s.after c).parser = s.parser ∧ Feeding.Chained s.parser s.machine (s.fedBy c) (s.after c).machine := by
  cases c with
  | feed t => exact ⟨rfl, rfl, rfl⟩
  | finish =>
    refine ⟨rfl, rfl, ?_⟩
    show (s.machine.feed s.parser s.machine.endToken true).2 = (s.machine.finish s.parser).2
    unfold Machine.finish
    split <;> simp_all
  | exhaust =>
    simp only [after, fedBy, exhaust]
    cases s.scanner with
    | none => exact ⟨rfl, rfl⟩
    | some source => exact ⟨rfl, chained_drained ..⟩

theorem chained_feedings : ∀ (calls : List Call) (s : Session),
    Feeding.Chained s.parser s.machine (s.feedings calls) (s.run calls).machine
  | [], _ => rfl
  | c :: calls, s => by
    obtain ⟨hp, hc⟩ := chained_fedBy s c
    have hrest := chained_feedings calls (s.after c)
    rw [hp] at hrest
    exact hrest.append hc

end Session

/-! ## Stacks of trees -/

theorem Stacked.length_eq {a : Automaton} {first : Nat} {states : List Nat} {ds : List Derivation} {ts : List Token}
    (h : Stacked a first states ds ts) : states.length = ds.length + 1 := by
  induction h with
  | start => rfl
  | push _ _ _ ih => simpa using ih

theorem Machine.Holds.consistent {p : Parser} {a : Automaton} {first : Nat} {m : Machine} {ds : List Derivation}
    {ts : List Token} (h : m.Holds p a first ds ts) : m.Consistent := by
  rw [Consistent, h.values, Derivation.buildAll_eq_map, List.length_map]
  exact h.states.length_eq

section Holds

variable {rules : List Rule} {start : List String} {name : String} {first : Nat} {p : Parser}
  (ht : p.table.Realizes (Automaton.ofRules rules start))
  (hf : (Automaton.ofRules rules start).start? name = some first)
include ht hf

/-- Where the input is accepted, something was read. -/
theorem Stacked.ne_nil_of_accept {m : Machine} {ds : List Derivation} {ts : List Token}
    (h : Stacked (Automaton.ofRules rules start) first m.states ds ts) {terminal : String}
    (hm : p.table.move? m.current terminal = some .accept) : ds ≠ [] := by
  obtain ⟨i, below, hst⟩ := h.exists_cons
  rw [Machine.current, hst, List.headD_cons] at hm
  cases ht.sound _ _ _ hm with
  | @accept d he hd hroot =>
    obtain ⟨k, hk, hmem⟩ := he.mem_closure
    obtain ⟨r, hr, hdot⟩ := DottedRule.isComplete_iff.1 hd
    obtain ⟨-, -, -, us, -, -, -, -, htrees, -, -⟩ := (hst ▸ h).pop hf hk hmem hr
    have hone : r.symbols.length = 1 := by
      rcases Automaton.getElem?_rules hr with ⟨hno, -⟩ | ⟨-, n, -, rfl⟩
      · rw [hroot] at hno
        cases hno
      · rfl
    rintro rfl
    have hlen := htrees.length_eq
    rw [List.length_take, hdot, hone] at hlen
    simp at hlen

namespace Feeding

variable {f : Feeding} {ds : List Derivation} {ts : List Token}
  (h : f.machine.Holds p (Automaton.ofRules rules start) first ds ts)
include h

theorem Meets.holds {m : Machine} (hm : f.Meets p m) :
    ∃ ds, m.Holds p (Automaton.ofRules rules start) first ds ts := by
  obtain ⟨n, hr⟩ := hm
  obtain ⟨ds', h', -⟩ := h.runs ht hf hr
  rw [List.append_nil] at h'
  exact ⟨ds', h'⟩

/-- An action is applied to one child for each symbol of the rule. -/
theorem Applies.length_eq {r : Rule} {children : List Child} (ha : f.Applies p r children) :
    children.length = r.parts.length := by
  obtain ⟨m, i, hmeet, hm, hr, rfl⟩ := ha
  obtain ⟨ds1, h1⟩ := hmeet.holds ht hf h
  obtain ⟨r', m', ds2, hr', hs, h2, -⟩ := h1.reduce ht hf hm
  obtain rfl := Option.some.inj (hr.symm.trans hr')
  -- as many values are taken as states, and both stacks fit before and after
  have hbefore := h1.consistent
  have hafter := h2.consistent
  unfold Machine.reduce at hs
  dsimp only at hs
  split at hs
  · cases hs
    simp only [Machine.Consistent, Machine.drop, List.length_cons, List.length_drop] at hbefore hafter
    rw [Machine.children, List.length_reverse, List.length_take]
    omega
  · cases hs

/-- Without a value trees are held on, and with a value there are too few values. -/
theorem outcome_cases : ((∃ ds ts, (f.outcome p).2.Holds p (Automaton.ofRules rules start) first ds ts) ∧
      ¬ f.GivesValue p) ∨ (¬ (f.outcome p).2.Consistent ∧ f.GivesValue p) := by
  unfold GivesValue outcome
  rcases h.states.feed_cases ht hf f.token f.atEnd with ⟨n, m1, hr, hans⟩ | ⟨-, n, m1, hr, hfeed⟩
  · obtain ⟨ds1, h1⟩ := Meets.holds ht hf h ⟨n, hr⟩
    generalize f.machine.feed p f.token f.atEnd = result at hans
    cases hans with
    | shifted hm => exact .inl ⟨⟨_, _, h1.shift ht hm⟩, fun ⟨v, hv⟩ => by cases hv⟩
    | refused _ => exact .inl ⟨⟨ds1, ts, h1⟩, fun ⟨v, hv⟩ => by cases hv⟩
    | accepted hm =>
      have hne := h1.states.ne_nil_of_accept ht hf hm
      have hcons := h1.consistent
      rw [Machine.Consistent] at hcons
      -- the value that is given is one that the states still count
      obtain ⟨v, vs, hvs⟩ : ∃ v vs, m1.values = v :: vs := by
        rw [h1.values, Derivation.buildAll_eq_map]
        exact List.ne_nil_iff_exists_cons.1 (mt List.map_eq_nil_iff.1 hne)
      rw [hvs, List.length_cons] at hcons
      refine .inr ⟨fun hafter => ?_, v, by rw [hvs]; rfl⟩
      have hafter : m1.states.length = vs.length + 1 := by simpa [Machine.Consistent, hvs] using hafter
      omega
  · obtain ⟨ds1, h1⟩ := Meets.holds ht hf h ⟨n, hr⟩
    rw [hfeed]
    exact .inl ⟨⟨ds1, ts, h1⟩, fun ⟨v, hv⟩ => by cases hv⟩

omit h in
/-- Up to the first value trees are held. -/
theorem Chained.exists_holds {rest : List Feeding} {m' : Machine} : ∀ {earlier : List Feeding} {m : Machine}
    {ds : List Derivation} {ts : List Token}, m.Holds p (Automaton.ofRules rules start) first ds ts →
    Chained p m (earlier ++ rest) m' → (∀ g ∈ earlier, ¬ g.GivesValue p) →
    ∃ m1 ds ts, m1.Holds p (Automaton.ofRules rules start) first ds ts ∧ Chained p m1 rest m'
  | [], m, ds, ts, h, hc, _ => ⟨m, ds, ts, h, hc⟩
  | g :: earlier, m, ds, ts, h, hc, hno => by
    obtain ⟨rfl, hc⟩ := hc
    have hg := hno g (List.mem_cons_self ..)
    rcases outcome_cases ht hf h with ⟨⟨ds1, ts1, h1⟩, -⟩ | ⟨-, hv⟩
    · exact Chained.exists_holds h1 hc fun x hx => hno x (List.mem_cons_of_mem _ hx)
    · exact absurd hv hg

end Feeding

end Holds

/-- Whatever calls are made of a session, and whatever they come to: until one of them gives a value, there is one state
more than there are values, before each move and after it, and every action is applied to one child for each symbol of
its rule. The call that gives the first value leaves too few values behind. -/
theorem Session.consistent_until_value {c : ParserConfig} {strict : Bool} {p : Parser} {scanner : Option Scanner}
    {name : String} {s : Session} (hp : Parser.ofConfig c strict = .ok p) (hs : Session.start p scanner name = .ok s)
    (calls : List Call) : Feeding.Chained p s.machine (s.feedings calls) (s.run calls).machine ∧
    (∀ earlier f later, s.feedings calls = earlier ++ f :: later → (∀ g ∈ earlier, ¬ g.GivesValue p) →
      (∀ m, f.Meets p m → m.Consistent) ∧
      (∀ r children, f.Applies p r children → children.length = r.parts.length) ∧
      ((f.outcome p).2.Consistent ↔ ¬ f.GivesValue p)) ∧
    ((∀ f ∈ s.feedings calls, ¬ f.GivesValue p) → (s.run calls).machine.Consistent) := by
  have ht := Table.realizes_of_build (Parser.ofConfig_eq_ok hp).1
  obtain ⟨first, hf, hparser, hmachine⟩ : ∃ first, (Automaton.ofRules c.rules c.start).start? name = some first ∧
      s.parser = p ∧ s.machine = { states := [first] } := by
    unfold Session.start at hs
    cases hm : Machine.start p name with
    | error f => rw [hm] at hs; cases hs
    | ok m =>
      rw [hm] at hs
      cases hs
      obtain ⟨first, hf, rfl⟩ := Machine.start_eq_ok hm
      exact ⟨first, by rw [← ht.start]; exact hf, rfl, rfl⟩
  have hholds : s.machine.Holds p (Automaton.ofRules c.rules c.start) first [] [] := hmachine ▸ .of_start
  have hchained := chained_feedings calls s
  rw [hparser] at hchained
  refine ⟨hchained, fun earlier f later he hno => ?_, fun hno => ?_⟩
  · rw [he] at hchained
    obtain ⟨m1, ds, ts, h1, hfm, -⟩ := Feeding.Chained.exists_holds ht hf hholds hchained hno
    rw [← hfm] at h1
    refine ⟨fun m hm => ?_, fun r children ha => ha.length_eq ht hf h1, ?_⟩
    · obtain ⟨ds', h'⟩ := hm.holds ht hf h1
      exact h'.consistent
    · rcases Feeding.outcome_cases ht hf h1 with ⟨⟨ds', ts', h'⟩, hv⟩ | ⟨hc, hv⟩
      · exact ⟨fun _ => hv, fun _ => h'.consistent⟩
      · exact ⟨fun h => absurd h hc, fun h => absurd hv h⟩
  · rw [← List.append_nil (s.feedings calls)] at hchained
    obtain ⟨m1, ds, ts, h1, hm1⟩ := Feeding.Chained.exists_holds ht hf hholds hchained hno
    rw [← hm1]
    exact h1.consistent

/-- Sums of numbers. -/
def sums : List Rule :=
  [⟨"sum", [⟨.nonterminal "sum", false⟩, ⟨.terminal "PLUS", false⟩, ⟨.terminal "NUMBER", false⟩], 0, none, {}⟩,
    ⟨"sum", [⟨.terminal "NUMBER", false⟩], 1, none, {}⟩]

def sumsTable : Table where
  rules := sums ++ [rootRule "sum"]
  rows := [
    ⟨[("NUMBER", .shift 2)], [("sum", 1)]⟩,
    ⟨[(endMarker, .accept), ("PLUS", .shift 3)], []⟩,
    ⟨[("PLUS", .reduce 1), (endMarker, .reduce 1)], []⟩,
    ⟨[("NUMBER", .shift 4)], []⟩,
    ⟨[("PLUS", .reduce 0), (endMarker, .reduce 0)], []⟩]
  starts := [("sum", 0)]

set_option maxRecDepth 4000 in
theorem build_sums : Table.build sums ["sum"] true = .ok sumsTable := by cbv

def sumsParser : Parser := { table := sumsTable, actions := {} }

def sumsSession : Session := { parser := sumsParser, machine := { states := [0] } }

theorem ofConfig_sums : Parser.ofConfig ⟨sums, {}, ["sum"], false⟩ true = .ok sumsParser := by
  rw [Parser.ofConfig, build_sums]
  rfl

/-- While a sum of two numbers is read, nothing has a value. -/
theorem Session.consistent_sums : Parser.ofConfig ⟨sums, {}, ["sum"], false⟩ true = .ok sumsParser ∧
    Session.start sumsParser none "sum" = .ok sumsSession ∧
    (sumsSession.run [.feed (.ofText "NUMBER" "1"), .feed (.ofText "PLUS" "+")]).machine.Consistent := by
  have hs : Session.start sumsParser none "sum" = .ok sumsSession := rfl
  exact ⟨ofConfig_sums, hs, (consistent_until_value ofConfig_sums hs _).2.2 (by decide)⟩

/-- A sum that was given its value and is fed on: a sum of three symbols is made of two children. -/
theorem Session.inconsistent_after_value :
    Parser.ofConfig ⟨sums, {}, ["sum"], false⟩ true = .ok sumsParser ∧
    Session.start sumsParser none "sum" = .ok sumsSession ∧
    ¬ (sumsSession.run [.feed (.ofText "NUMBER" "1"), .finish]).machine.Consistent ∧
    ∃ f ∈ sumsSession.feedings [.feed (.ofText "NUMBER" "1"), .finish, .feed (.ofText "PLUS" "+"),
        .feed (.ofText "NUMBER" "2"), .finish],
      f.Applies sumsParser sums[0] [.token (.ofText "PLUS" "+"), .token (.ofText "NUMBER" "2")] ∧
      sums[0].parts.length = 3 := by
  refine ⟨ofConfig_sums, rfl, by decide, ?_⟩
  let m : Machine := { states := [4, 3, 1, 0], values := [.token (.ofText "NUMBER" "2"), .token (.ofText "PLUS" "+")] }
  refine ⟨⟨m, m.endToken, true⟩, ?_, ⟨m, 0, ⟨0, .done⟩, rfl, rfl, rfl⟩, rfl⟩
  exact List.mem_of_getElem? (i := 4) rfl

end GrammarKit.LR
