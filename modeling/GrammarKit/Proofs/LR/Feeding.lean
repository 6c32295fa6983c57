/-
Feeding tokens. A token that is fed is met by a run of reductions and then by the move of the state that the run ends
in; since machines are patient, such a run is made to its end wherever it has one. So what feeding comes to is what
the run comes to: a token that was fed was shifted, or accepted if it marks the end.
-/
import GrammarKit.Proofs.LR.Patience
import GrammarKit.Proofs.LR.Run

namespace GrammarKit.LR

/-! ## Reductions before a token -/

theorem Parser.lt_of_goto {rules : List Rule} {start : List String} {p : Parser}
    (ht : p.table.Realizes (Automaton.ofRules rules start)) (state : Nat) (n : String) (j : Nat)
    (h : p.table.goto? state n = some j) : j < p.table.rows.length := by
  rw [ht.goto] at h
  rw [ht.length]
  exact Automaton.lt_length_of_target h

namespace Machine

variable {p : Parser} {last : String}

theorem reduce_cases (p : Parser) (m : Machine) (r : Rule) :
    (∃ m', m.reduce p r = .reduced m') ∨ ∃ r' below, m.reduce p r = .stranded r' below := by
  unfold Machine.reduce
  dsimp only
  split
  · exact .inl ⟨_, rfl⟩
  · exact .inr ⟨_, _, rfl⟩

theorem reduceStates_of_reduce {m m' : Machine} {i : Nat} {r : Rule}
    (hm : p.table.move? m.current last = some (.reduce i))
    (hr : p.table.rules[i]? = some r) (h : m.reduce p r = .reduced m') :
    p.reduceStates last m.states = some m'.states := by
  unfold Machine.reduce at h
  dsimp only at h
  split at h
  · rename_i j hj
    cases h
    exact Parser.reduceStates_eq_some_iff.2 ⟨i, r, j, hm, hr, hj, rfl⟩
  · cases h

theorem reduceStates_eq_none {m : Machine} (h : ∀ i, p.table.move? m.current last ≠ some (.reduce i)) :
    p.reduceStates last m.states = none := by
  rw [Option.eq_none_iff_forall_ne_some]
  intro s hs
  obtain ⟨i, -, -, hm, -⟩ := Parser.reduceStates_eq_some_iff.1 hs
  exact h i hm

theorem Runs.halts {n : Nat} {m m' : Machine} (h : Runs p last n m [] m') (hn : p.reduceStates last m'.states = none) :
    Halts (p.reduceStates last) n m.states := by
  generalize hts : ([] : List Token) = ts at h
  induction h with
  | done => exact .done hn
  | shift _ _ _ => cases hts
  | reduce hm hr hs _ ih =>
    subst hts
    exact .step (reduceStates_of_reduce hm hr hs) (ih hn rfl)

theorem Runs.feedWithin_eq {n : Nat} {m m' : Machine} {t : Token} (h : Runs p t.kind n m [] m')
    (atEnd : Bool) (k : Nat) : m.feedWithin p t atEnd (n + k) = m'.feedWithin p t atEnd k := by
  generalize hts : ([] : List Token) = ts at h
  induction h with
  | done => rw [Nat.zero_add]
  | shift _ _ _ => cases hts
  | @reduce n i m m1 m' ts r hm hr hs _ ih =>
    subst hts
    have hstep : m.step p t = .reduced m1 := by
      rw [Machine.step, show p.table.move? m.current t.kind = some (.reduce i) from hm]
      simp only [hr, hs]
    rw [Nat.add_right_comm, feedWithin, hstep]
    exact ih rfl

variable (hgoto : ∀ state n j, p.table.goto? state n = some j → j < p.table.rows.length)
include hgoto

/-- A run of reductions that comes to an end is made when a token is fed. -/
theorem Runs.feed_eq {n : Nat} {m m' : Machine} {t : Token} (h : Runs p t.kind n m [] m')
    (hn : p.reduceStates t.kind m'.states = none) (atEnd : Bool) :
    ∃ k, m.feed p t atEnd = m'.feedWithin p t atEnd (k + 1) := by
  have hlt := (h.halts hn).le_patience hgoto
  refine ⟨m.patience p - n, ?_⟩
  rw [← h.feedWithin_eq, feed]
  congr 1
  omega

theorem Runs.feed_of_shift {n j : Nat} {m m' : Machine} {t : Token} (h : Runs p t.kind n m [] m')
    (hm : p.table.move? m'.current t.kind = some (.shift j)) (atEnd : Bool) :
    m.feed p t atEnd = (.ok none, m'.shift j t) := by
  obtain ⟨k, hk⟩ := h.feed_eq hgoto (reduceStates_eq_none fun i hi => by rw [hm] at hi; cases hi) atEnd
  rw [hk, feedWithin, step, hm]

theorem Runs.feed_of_accept {n : Nat} {m m' : Machine} {t : Token} (h : Runs p t.kind n m [] m')
    (hm : p.table.move? m'.current t.kind = some .accept) (atEnd : Bool) :
    m.feed p t atEnd = (.ok m'.values.head?, { m' with values := m'.values.tail }) := by
  obtain ⟨k, hk⟩ := h.feed_eq hgoto (reduceStates_eq_none fun i hi => by rw [hm] at hi; cases hi) atEnd
  rw [hk, feedWithin, step, hm]

theorem Runs.feed_of_refused {n : Nat} {m m' : Machine} {t : Token} (h : Runs p t.kind n m [] m')
    (hm : p.table.move? m'.current t.kind = none) (atEnd : Bool) :
    m.feed p t atEnd = (.error (.parse (if atEnd then .atEnd (p.table.expected m'.current)
      else .atToken t (p.table.expected m'.current))), m') := by
  obtain ⟨k, hk⟩ := h.feed_eq hgoto (reduceStates_eq_none fun i hi => by rw [hm] at hi; cases hi) atEnd
  rw [hk, feedWithin, step, hm]

omit hgoto in
/-- A token that was fed was shifted or accepted, after a run of reductions. -/
theorem feedWithin_eq_ok {t : Token} {atEnd : Bool} {value : Option Child} : ∀ {fuel : Nat} {m m' : Machine},
    m.feedWithin p t atEnd fuel = (.ok value, m') → ∃ n m1, Runs p t.kind n m [] m1 ∧
      ((∃ j, p.table.move? m1.current t.kind = some (.shift j) ∧ m' = m1.shift j t) ∨
        p.table.move? m1.current t.kind = some .accept)
  | 0, _, _, h => by cases h
  | fuel + 1, m, m', h => by
    rw [feedWithin, step] at h
    cases hm : p.table.move? m.current t.kind with
    | none => rw [hm] at h; cases h
    | some move =>
      rw [hm] at h
      cases move with
      | shift j =>
        cases h
        exact ⟨0, m, .done, .inl ⟨j, hm, rfl⟩⟩
      | accept => exact ⟨0, m, .done, .inr hm⟩
      | reduce i =>
        dsimp only at h
        cases hr : p.table.rules[i]? with
        | none => rw [hr] at h; cases h
        | some r =>
          rw [hr] at h
          dsimp only at h
          rcases reduce_cases p m r with ⟨m2, hs⟩ | ⟨r', below, hs⟩
          · rw [hs] at h
            obtain ⟨n, m1, hrun, hend⟩ := feedWithin_eq_ok h
            exact ⟨n + 1, m1, .reduce hm hr hs hrun, hend⟩
          · rw [hs] at h
            cases h

end Machine

end GrammarKit.LR
