/-
Machines that were fed whatever came. Some tokens were shifted, others refused after reductions, and some machines were
fed on after their input had been accepted, where the values are not those of the states any more. But the states do not
look at the values: they are a path along the symbols of trees all the same, a reduction always has somewhere to go on,
and puts these trees under one node more. So feeding a token either comes to a machine that has no reduction for it and
answers at once, or the reductions never end.
-/
import GrammarKit.Proofs.LR.Feeding
import GrammarKit.Proofs.LR.Recovery

namespace GrammarKit.LR

namespace Machine

/-- A machine that the one of a start symbol has become by being fed tokens, whatever became of each of them. -/
inductive Reached (p : Parser) (name : String) : Machine → Prop
  | start {m : Machine} (h : Machine.start p name = .ok m) : Reached p name m
  | feed {m : Machine} (h : Reached p name m) (t : Token) (atEnd : Bool) : Reached p name (m.feed p t atEnd).2

/-- No rule is reduced before a terminal. -/
def AtRest (p : Parser) (terminal : String) (m : Machine) : Prop :=
  ∀ i, p.table.move? m.current terminal ≠ some (.reduce i)

/-- What a machine at rest answers to a token. -/
inductive Answers (p : Parser) (t : Token) (atEnd : Bool) (m : Machine) : Outcome (Option Child) × Machine → Prop
  | shifted {j : Nat} (h : p.table.move? m.current t.kind = some (.shift j)) :
    Answers p t atEnd m (.ok none, m.shift j t)
  | accepted (h : p.table.move? m.current t.kind = some .accept) :
    Answers p t atEnd m (.ok m.values.head?, { m with values := m.values.tail })
  | refused (h : p.table.move? m.current t.kind = none) : Answers p t atEnd m (.error (.parse
      (if atEnd then .atEnd (p.table.expected m.current) else .atToken t (p.table.expected m.current))), m)

variable {p : Parser}

theorem Answers.atRest {t : Token} {atEnd : Bool} {m : Machine} {result : Outcome (Option Child) × Machine}
    (h : m.Answers p t atEnd result) : m.AtRest p t.kind := by
  intro i hi
  cases h with
  | shifted h => cases h.symm.trans hi
  | accepted h => cases h.symm.trans hi
  | refused h => cases h.symm.trans hi

theorem start_eq_ok {name : String} {m : Machine} (h : Machine.start p name = .ok m) :
    ∃ first, p.table.start? name = some first ∧ m = { states := [first] } := by
  unfold Machine.start at h
  split at h
  · rename_i first hf
    cases h
    exact ⟨first, hf, rfl⟩
  · cases h

/-! ## States without values -/

/-- Where a rule is reduced, it is with any other values. -/
theorem reduce_values {m m' : Machine} {r : Rule} (h : m.reduce p r = .reduced m') (values : List Child) :
    ∃ values', Machine.reduce p { m with values } r = .reduced { m' with values := values' } := by
  unfold Machine.reduce at h
  dsimp only at h
  split at h
  · rename_i j hj
    cases h
    refine ⟨p.actions.apply r (values.take r.parts.length).reverse :: values.drop r.parts.length, ?_⟩
    unfold Machine.reduce
    dsimp only
    rw [show p.table.goto? (Machine.drop { m with values } r).current r.origin = some j from hj]
    rfl
  · cases h

theorem Runs.values {last : String} {n : Nat} {m m' : Machine} {us : List Token} (h : Runs p last n m us m') :
    ∀ values : List Child, ∃ values', Runs p last n { m with values } us { m' with values := values' } := by
  induction h with
  | done => exact fun values => ⟨values, .done⟩
  | @shift n m m' t ts state hm _ ih =>
    intro values
    obtain ⟨values', hr⟩ := ih (.token t :: values)
    exact ⟨values', .shift hm hr⟩
  | reduce hm hr hs _ ih =>
    intro values
    obtain ⟨values1, hs⟩ := reduce_values hs values
    obtain ⟨values', hrun⟩ := ih values1
    exact ⟨values', .reduce hm hr hs hrun⟩

end Machine

section Stacks

variable {rules : List Rule} {start : List String} {name : String} {first : Nat} {p : Parser}
  (ht : p.table.Realizes (Automaton.ofRules rules start))
  (hf : (Automaton.ofRules rules start).start? name = some first)
include ht hf

/-- A reduction has somewhere to go on, and puts the trees of the states under one node more. -/
theorem Stacked.reduce {m : Machine} {ds : List Derivation} {ts : List Token}
    (h : Stacked (Automaton.ofRules rules start) first m.states ds ts) {terminal : String} {q : Nat}
    (hm : p.table.move? m.current terminal = some (.reduce q)) : ∃ r m' ds', p.table.rules[q]? = some r ∧
      m.reduce p r = .reduced m' ∧ Stacked (Automaton.ofRules rules start) first m'.states ds' ts ∧
      Derivation.sizeAll ds' = Derivation.sizeAll ds + 1 := by
  have hholds : Machine.Holds p (Automaton.ofRules rules start) first
      { m with values := Derivation.buildAll (p.actions.atPlace p.table.rules) ds } ds ts := ⟨h, rfl⟩
  obtain ⟨r, m', ds', hr, hs, hm', hsize⟩ := hholds.reduce ht hf hm
  obtain ⟨values, hs⟩ := Machine.reduce_values hs m.values
  exact ⟨r, _, ds', hr, hs, hm'.states, hsize⟩

theorem Stacked.runs {m m' : Machine} {ds : List Derivation} {ts us : List Token} {last : String} {n : Nat}
    (h : Stacked (Automaton.ofRules rules start) first m.states ds ts) (hr : m.Runs p last n us m') :
    ∃ ds', Stacked (Automaton.ofRules rules start) first m'.states ds' (ts ++ us) ∧
      Derivation.sizeAll ds' = Derivation.sizeAll ds + n := by
  have hholds : Machine.Holds p (Automaton.ofRules rules start) first
      { m with values := Derivation.buildAll (p.actions.atPlace p.table.rules) ds } ds ts := ⟨h, rfl⟩
  obtain ⟨values, hr⟩ := hr.values (Derivation.buildAll (p.actions.atPlace p.table.rules) ds)
  obtain ⟨ds', hm', hsize⟩ := hholds.runs ht hf hr
  exact ⟨ds', hm'.states, hsize⟩

theorem Stacked.runs_or_endless (t : Token) (atEnd : Bool) : ∀ (fuel : Nat) {m : Machine} {ds : List Derivation}
    {ts : List Token}, Stacked (Automaton.ofRules rules start) first m.states ds ts →
    (∃ n m1, m.Runs p t.kind n [] m1 ∧ m1.Answers p t atEnd (m.feedWithin p t atEnd fuel)) ∨
    ∃ m1, m.Runs p t.kind fuel [] m1 ∧
      m.feedWithin p t atEnd fuel = (.error (.grammar (.endlessReduction t.kind)), m1)
  | 0, m, _, _, _ => .inr ⟨m, .done, rfl⟩
  | fuel + 1, m, ds, ts, h => by
    rw [Machine.feedWithin, Machine.step]
    cases hm : p.table.move? m.current t.kind with
    | none => exact .inl ⟨0, m, .done, .refused hm⟩
    | some move =>
      cases move with
      | shift j => exact .inl ⟨0, m, .done, .shifted hm⟩
      | accept => exact .inl ⟨0, m, .done, .accepted hm⟩
      | reduce i =>
        obtain ⟨r, m', ds', hr, hs, h', -⟩ := h.reduce ht hf hm
        simp only [hr, hs]
        rcases h'.runs_or_endless t atEnd fuel with ⟨n, m1, hrun, hans⟩ | ⟨m1, hrun, hend⟩
        · exact .inl ⟨n + 1, m1, .reduce hm hr hs hrun, hans⟩
        · exact .inr ⟨m1, .reduce hm hr hs hrun, hend⟩

/-- Reductions before a token come to an end, and feeding the token to what the machine answers there; or feeding it
fails because they come to no end. -/
theorem Stacked.feed_cases {m : Machine} {ds : List Derivation} {ts : List Token}
    (h : Stacked (Automaton.ofRules rules start) first m.states ds ts) (t : Token) (atEnd : Bool) :
    (∃ n m1, m.Runs p t.kind n [] m1 ∧ m1.Answers p t atEnd (m.feed p t atEnd)) ∨
    (∀ n m1, m.Runs p t.kind n [] m1 → ¬ m1.AtRest p t.kind) ∧
      ∃ n m1, m.Runs p t.kind n [] m1 ∧ m.feed p t atEnd = (.error (.grammar (.endlessReduction t.kind)), m1) := by
  rcases h.runs_or_endless ht hf t atEnd (m.patience p + 1) with hend | ⟨m2, hrun, hfeed⟩
  · exact .inl hend
  · refine .inr ⟨fun n m1 hrun1 hrest => ?_, _, m2, hrun, hfeed⟩
    have hlt := (hrun1.halts (Machine.reduceStates_eq_none hrest)).le_patience (Parser.lt_of_goto ht)
    have hle := hrun.le_of_end hrun1 hrest
    omega

theorem Stacked.feed {m : Machine} {ds : List Derivation} {ts : List Token}
    (h : Stacked (Automaton.ofRules rules start) first m.states ds ts) (t : Token) (atEnd : Bool) :
    ∃ ds' ts', Stacked (Automaton.ofRules rules start) first (m.feed p t atEnd).2.states ds' ts' := by
  rcases h.feed_cases ht hf t atEnd with ⟨n, m1, hrun, hans⟩ | ⟨-, n, m1, hrun, hfeed⟩
  · obtain ⟨ds1, h1, -⟩ := h.runs ht hf hrun
    rw [List.append_nil] at h1
    generalize m.feed p t atEnd = result at hans
    cases hans with
    | shifted hm =>
      -- only the states of the machine that is fed count
      have hholds : Machine.Holds p (Automaton.ofRules rules start) first
          { m1 with values := Derivation.buildAll (p.actions.atPlace p.table.rules) ds1 } ds1 ts := ⟨h1, rfl⟩
      exact ⟨_, _, (hholds.shift ht hm).states⟩
    | accepted _ => exact ⟨ds1, ts, h1⟩
    | refused _ => exact ⟨ds1, ts, h1⟩
  · obtain ⟨ds1, h1, -⟩ := h.runs ht hf hrun
    rw [hfeed]
    exact ⟨ds1, _, h1⟩

end Stacks

/-- The states of a machine that was fed whatever came are a path along the symbols of trees. -/
theorem Machine.Reached.stacked {c : ParserConfig} {strict : Bool} {p : Parser} {name : String} {m : Machine}
    (hp : Parser.ofConfig c strict = .ok p) (h : m.Reached p name) :
    ∃ first, (Automaton.ofRules c.rules c.start).start? name = some first ∧
      ∃ ds ts, Stacked (Automaton.ofRules c.rules c.start) first m.states ds ts := by
  have ht := Table.realizes_of_build (Parser.ofConfig_eq_ok hp).1
  induction h with
  | start hm =>
    obtain ⟨first, hf, rfl⟩ := start_eq_ok hm
    exact ⟨first, by rw [← ht.start]; exact hf, [], [], .start⟩
  | feed _ t atEnd ih =>
    obtain ⟨first, hf, ds, ts, h⟩ := ih
    exact ⟨first, hf, h.feed ht hf t atEnd⟩

end GrammarKit.LR
