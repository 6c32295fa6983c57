/-
Runs over trees. With a table of unique candidates a machine follows every derivation tree: where a rule stands
whose next symbols have trees over the coming tokens, the machine reads these tokens, one move for each token and
each node, and has the values of the trees on its stack. So every rule that is on track is met by the run that
starts with the start symbol and sees the rule's follower coming, and every sentence is accepted.
-/
import GrammarKit.Proofs.LR.Machine

namespace GrammarKit.LR

/-! ## Runs -/

/-- A machine makes a number of moves that read tokens, if `last` is the name of what comes after them. -/
inductive Machine.Runs (p : Parser) (last : String) : Nat → Machine → List Token → Machine → Prop
  | done {m : Machine} : Runs p last 0 m [] m
  | shift {n : Nat} {m m' : Machine} {t : Token} {ts : List Token} {state : Nat}
    (h : p.table.move? m.current t.kind = some (.shift state)) (rest : Runs p last n (m.shift state t) ts m') :
    Runs p last (n + 1) m (t :: ts) m'
  | reduce {n i : Nat} {m m1 m' : Machine} {ts : List Token} {r : Rule}
    (h : p.table.move? m.current (lookahead last ts) = some (.reduce i)) (hr : p.table.rules[i]? = some r)
    (hm : m.reduce p r = .reduced m1) (rest : Runs p last n m1 ts m') : Runs p last (n + 1) m ts m'

namespace Machine.Runs

variable {p : Parser} {last : String}

theorem append {n k : Nat} {m m1 m2 : Machine} {ts us : List Token} (h : Runs p (lookahead last us) n m ts m1)
    (h' : Runs p last k m1 us m2) : Runs p last (n + k) m (ts ++ us) m2 := by
  induction h with
  | done => simpa using h'
  | shift hm _ ih =>
    rw [Nat.add_right_comm]
    exact .shift hm (ih h')
  | reduce hm hr hs _ ih =>
    rw [Nat.add_right_comm]
    exact .reduce (by rw [lookahead_append]; exact hm) hr hs (ih h')

/-- Of two runs over the same tokens the longer one continues the other. -/
theorem sub {n k : Nat} {m m1 m2 : Machine} {ts : List Token} (h : Runs p last n m ts m1)
    (h' : Runs p last (n + k) m ts m2) : Runs p last k m1 [] m2 := by
  induction h with
  | done => simpa using h'
  | @shift n m m' t ts state hm _ ih =>
    rw [Nat.add_right_comm] at h'
    cases h' with
    | shift hm' rest =>
      rw [hm] at hm'
      cases hm'
      exact ih rest
    | reduce hm' _ _ _ =>
      rw [show lookahead last (t :: ts) = t.kind from rfl, hm] at hm'
      cases hm'
  | @reduce n i m m1 m' ts r hm hr hs _ ih =>
    rw [Nat.add_right_comm] at h'
    cases h' with
    | shift hm' _ => cases hm'.symm.trans hm
    | reduce hm' hr' hs' rest =>
      rw [hm] at hm'
      cases hm'
      rw [hr] at hr'
      cases hr'
      rw [hs] at hs'
      cases hs'
      exact ih rest

theorem eq_zero {n : Nat} {m m' : Machine} (h : Runs p last n m [] m')
    (hm : ∀ i, p.table.move? m.current last ≠ some (.reduce i)) : n = 0 := by
  cases h with
  | done => rfl
  | reduce h _ _ _ => exact absurd h (hm _)

/-- A run that comes to the end of its reductions continues every other run over the same tokens. -/
theorem continues {n k : Nat} {m m1 m2 : Machine} {ts : List Token} (h : Runs p last n m ts m1)
    (h' : Runs p last k m ts m2)
    (hm : ∀ i, p.table.move? m2.current last ≠ some (.reduce i)) : ∃ j, Runs p last j m1 [] m2 := by
  rcases Nat.le_total n k with hk | hk
  · obtain ⟨j, rfl⟩ := Nat.exists_eq_add_of_le hk
    exact ⟨j, h.sub h'⟩
  · obtain ⟨j, rfl⟩ := Nat.exists_eq_add_of_le hk
    have hback := h'.sub h
    obtain rfl := hback.eq_zero hm
    cases hback
    exact ⟨0, .done⟩

theorem le_of_end {n k : Nat} {m m1 m2 : Machine} {ts : List Token} (h : Runs p last n m ts m1)
    (h' : Runs p last k m ts m2) (hm : ∀ i, p.table.move? m2.current last ≠ some (.reduce i)) : n ≤ k := by
  rcases Nat.le_total n k with hk | hk
  · exact hk
  · obtain ⟨j, rfl⟩ := Nat.exists_eq_add_of_le hk
    obtain rfl := (h'.sub h).eq_zero hm
    exact hk

/-- The last of several reductions is made from a machine that the others lead to. -/
theorem exists_last {n : Nat} {m m' : Machine} (h : Runs p last (n + 1) m [] m') :
    ∃ m1 i, Runs p last n m [] m1 ∧ p.table.move? m1.current last = some (.reduce i) := by
  induction n generalizing m with
  | zero =>
    cases h with
    | reduce hm _ _ _ => exact ⟨m, _, .done, hm⟩
  | succ n ih =>
    cases h with
    | reduce hm hr hs rest =>
      obtain ⟨m1, i, hrun, hi⟩ := ih rest
      exact ⟨m1, i, .reduce hm hr hs hrun, hi⟩

/-- A run over tokens comes to the point where one of them is shifted. -/
theorem split {n : Nat} {m m' : Machine} {ts us : List Token} {t : Token} (h : Runs p last n m (ts ++ t :: us) m') :
    ∃ k m1 state, Runs p t.kind k m ts m1 ∧ p.table.move? m1.current t.kind = some (.shift state) := by
  generalize hts : ts ++ t :: us = all at h
  induction h generalizing ts with
  | done => simp at hts
  | @shift n m m' x xs state hm _ ih =>
    cases ts with
    | nil =>
      obtain ⟨rfl, rfl⟩ := List.cons.inj hts
      exact ⟨0, m, state, .done, hm⟩
    | cons y ts =>
      obtain ⟨rfl, hts'⟩ := List.cons.inj hts
      obtain ⟨k, m1, s, hr, hs⟩ := ih hts'
      exact ⟨k + 1, m1, s, .shift hm hr, hs⟩
  | reduce hm hr hs _ ih =>
    obtain ⟨k, m1, s, hr', hs'⟩ := ih hts
    refine ⟨k + 1, m1, s, .reduce ?_ hr hs hr', hs'⟩
    rw [← hts, lookahead_append] at hm
    exact hm

end Machine.Runs

/-- A run adds a tree, or puts trees under a node, with every move. -/
theorem Machine.Holds.runs {rules : List Rule} {start : List String} {name : String} {first : Nat} {p : Parser}
    (ht : p.table.Realizes (Automaton.ofRules rules start))
    (hf : (Automaton.ofRules rules start).start? name = some first)
    {last : String} {n : Nat} {m m' : Machine} {us : List Token} (hr : Runs p last n m us m') :
    ∀ {ds : List Derivation} {ts : List Token}, m.Holds p (Automaton.ofRules rules start) first ds ts →
      ∃ ds', m'.Holds p (Automaton.ofRules rules start) first ds' (ts ++ us) ∧
        Derivation.sizeAll ds' = Derivation.sizeAll ds + n := by
  induction hr with
  | done => exact fun h => ⟨_, by rw [List.append_nil]; exact h, rfl⟩
  | @shift n m m' t us j hm _ ih =>
    intro ds ts h
    obtain ⟨ds', h', hsize⟩ := ih (h.shift ht hm)
    refine ⟨ds', by simpa using h', ?_⟩
    rw [hsize, Derivation.sizeAll, Derivation.size]
    omega
  | reduce hm hr hs _ ih =>
    intro ds ts h
    obtain ⟨r', m1', ds1, hr', hs', h1, hsize1⟩ := h.reduce ht hf hm
    obtain rfl := Option.some.inj (hr.symm.trans hr')
    rw [hs] at hs'
    cases hs'
    obtain ⟨ds', h', hsize⟩ := ih h1
    exact ⟨ds', h', by omega⟩

/-! ## Following trees -/

/-- The states along symbols. -/
def Automaton.walk (a : Automaton) : List Nat → List Symbol → Option (List Nat)
  | states, [] => some states
  | states, s :: ss => (a.target? (states.headD 0) s).bind fun j => a.walk (j :: states) ss

theorem Automaton.walk_drop {a : Automaton} : ∀ {ss : List Symbol} {states states' : List Nat},
    a.walk states ss = some states' → states'.drop ss.length = states
  | [], states, states', h => by cases h; rfl
  | s :: ss, states, states', h => by
    obtain ⟨j, -, h⟩ := Option.bind_eq_some_iff.1 h
    rw [List.length_cons, ← List.drop_drop, walk_drop h]
    rfl

theorem Automaton.walk_cons {a : Automaton} {s : Symbol} {ss : List Symbol} {states states' : List Nat} {j : Nat}
    (h : a.target? (states.headD 0) s = some j) (hw : a.walk (j :: states) ss = some states') :
    a.walk states (s :: ss) = some states' := by
  rw [walk, h]
  exact hw

/-- A run over tokens that are the leaves of trees of the symbols after a dot. The values of the trees come on the stack,
and in the end the dot stands after the symbols. -/
structure Machine.Follows (a : Automaton) (p : Parser) (d : DottedRule) (f : String) (v : List Token) (ss : List Symbol)
    (ts : List Token) (ds : List Derivation) (m m' : Machine) : Prop where
  runs : m.Runs p (lookahead f v) (Derivation.sizeAll ds) ts m'
  walk : a.walk m.states ss = some m'.states
  values : m'.values = (Derivation.buildAll (p.actions.atPlace p.table.rules) ds).reverse ++ m.values
  entered : a.Entered m'.current ⟨⟨d.rule, d.dot + ss.length⟩, f⟩

theorem Automaton.Entered.mem_closure {a : Automaton} {i : Nat} {e : Entry} (h : a.Entered i e) :
    ∃ k, a.states[i]? = some k ∧ e.item ∈ closure a.rules k := by
  obtain ⟨k, hk, he⟩ := h
  exact ⟨k, hk, mem_closure_of_closeEntries e he⟩

section Trees

variable {rules : List Rule} {start : List String} {p : Parser} (hu : Unreserved rules start)
  (hd : Deterministic rules start)
  (ht : p.table.Realizes (Automaton.ofRules rules start))
include hu hd ht

/-- Where a terminal comes after the dot, its token is shifted. -/
theorem exists_shift_of_entered {m : Machine} {d : DottedRule} {f a : String} {t : Token}
    (he : (Automaton.ofRules rules start).Entered m.current ⟨d, f⟩)
    (hn : d.next? (Automaton.ofRules rules start).rules = some (.terminal a)) (ha : IsNamed a t) :
    ∃ j, p.table.move? m.current t.kind = some (.shift j) ∧
      (Automaton.ofRules rules start).target? m.current (.terminal a) = some j ∧
      (Automaton.ofRules rules start).Entered j ⟨d.advance, f⟩ := by
  obtain ⟨k, hk, hmem⟩ := he.mem_closure
  obtain ⟨j, hj⟩ := Automaton.exists_target hk hmem hn
  refine ⟨j, ?_, hj, he.advance hu hn hj⟩
  rw [ht.move?_iff hd, show t.kind = a from ha]
  exact .shift hj

/-- Where the children of a node have been read, the node is reduced. -/
theorem exists_reduce_of_entered {m m1 : Machine} {d : DottedRule} {f g : String} {q : Nat} {r : Rule} {us : List Token}
    {cs : List Derivation} (he : (Automaton.ofRules rules start).Entered m.current ⟨d, f⟩)
    (hn : d.next? (Automaton.ofRules rules start).rules = some (.nonterminal r.origin))
    (hq : (Automaton.ofRules rules start).rules[q]? = some r) (hl : cs.length = r.parts.length)
    (h : m.Follows (Automaton.ofRules rules start) p ⟨q, 0⟩ g [] r.symbols us cs m1) :
    ∃ j, (Automaton.ofRules rules start).target? m.current (.nonterminal r.origin) = some j ∧
      (Automaton.ofRules rules start).Entered j ⟨d.advance, f⟩ ∧ p.table.move? m1.current g = some (.reduce q) ∧
      m1.reduce p r = .reduced { m1 with
        states := j :: m.states
        values := p.actions.apply r (Derivation.buildAll (p.actions.atPlace p.table.rules) cs) :: m.values } := by
  obtain ⟨k, hk, hmem⟩ := he.mem_closure
  obtain ⟨j, hj⟩ := Automaton.exists_target hk hmem hn
  have hroot := Automaton.isRoot_of_begins hu (mem_begins.2 ⟨r, q, hn, hq, rfl⟩)
  refine ⟨j, hj, he.advance hu hn hj, ?_, ?_⟩
  · rw [ht.move?_iff hd]
    exact .reduce h.entered (DottedRule.isComplete_iff.2 ⟨r, hq, Nat.zero_add _⟩) hroot
  · have hdrop : m1.states.drop r.parts.length = m.states := by
      rw [← Rule.length_symbols]
      exact Automaton.walk_drop h.walk
    have hlen : (Derivation.buildAll (p.actions.atPlace p.table.rules) cs).length = r.parts.length := by
      rw [Derivation.buildAll_eq_map, List.length_map, hl]
    exact Machine.reduce_eq hdrop h.values hlen (by rw [ht.goto]; exact hj)

/-- A machine follows the trees of the symbols after a dot. -/
theorem runs_of_trees {ss : List Symbol} {ts : List Token} {ds : List Derivation}
    (h : Trees (Automaton.ofRules rules start).rules IsNamed ss ts ds) :
    ∀ {m : Machine} {d : DottedRule} {f : String} {z : List Symbol} {v : List Token},
      (Automaton.ofRules rules start).Entered m.current ⟨d, f⟩ →
      d.ahead (Automaton.ofRules rules start).rules = ss ++ z →
      Yields (Automaton.ofRules rules start).rules IsNamed z v →
      ∃ m', m.Follows (Automaton.ofRules rules start) p d f v ss ts ds m' := by
  induction h with
  | nil => exact fun he _ _ => ⟨_, .done, rfl, rfl, he⟩
  | @token a t ss ts ds ha _ ih =>
    intro m d f z v he hah hv
    obtain ⟨hn, hah'⟩ := DottedRule.next?_of_ahead hah
    obtain ⟨j, hmove, hj, he'⟩ := exists_shift_of_entered hu hd ht he hn ha
    obtain ⟨m', h'⟩ := ih (m := m.shift j t) he' hah' hv
    refine ⟨m', ?_, ?_, ?_, ?_⟩
    · rw [Derivation.sizeAll, Derivation.size, Nat.add_comm]
      exact .shift hmove h'.runs
    · exact Automaton.walk_cons hj h'.walk
    · rw [h'.values]
      simp [Machine.shift, Derivation.buildAll, Derivation.build]
    · rw [List.length_cons, Nat.add_comm ss.length, ← Nat.add_assoc]
      exact h'.entered
  | @node q r ss us ts cs ds hq inner outer ih1 ih2 =>
    intro m d f z v he hah hv
    obtain ⟨hn, hah'⟩ := DottedRule.next?_of_ahead hah
    have hrest : Yields (Automaton.ofRules rules start).rules IsNamed
        (d.rest (Automaton.ofRules rules start).rules) (ts ++ v) := by
      rw [(DottedRule.ahead_of_next hn).2, hah']
      exact outer.yields.append hv
    -- first the children, before the token that comes after the node
    obtain ⟨m1, h1⟩ := ih1 (he.begins (mem_begins.2 ⟨r, q, hn, hq, rfl⟩) hrest)
      (by rw [DottedRule.ahead_eq (d := ⟨q, 0⟩) hq, List.drop_zero, List.append_nil]) .nil
    obtain ⟨j, hj, he', hmove, hred⟩ := exists_reduce_of_entered hu hd ht he hn hq
      (by rw [inner.length_eq, Rule.length_symbols]) h1
    -- then the rest, from the state after the node
    obtain ⟨m2, h2⟩ := ih2 (m := { m1 with
      states := j :: m.states
      values := p.actions.apply r (Derivation.buildAll (p.actions.atPlace p.table.rules) cs) :: m.values }) he' hah' hv
    have hq' : p.table.rules[q]? = some r := by rw [ht.rules]; exact hq
    refine ⟨m2, ?_, ?_, ?_, ?_⟩
    · have hsize : Derivation.sizeAll (.node q cs :: ds) = Derivation.sizeAll cs + (Derivation.sizeAll ds + 1) := by
        simp only [Derivation.sizeAll, Derivation.size]
        omega
      rw [lookahead_append] at hmove
      rw [hsize]
      refine Machine.Runs.append ?_ (.reduce hmove hq' hred h2.runs)
      rw [← lookahead_append]
      exact h1.runs
    · exact Automaton.walk_cons hj h2.walk
    · rw [h2.values]
      simp [Derivation.buildAll, Derivation.build, Actions.atPlace_eq hq']
    · rw [List.length_cons, Nat.add_comm ss.length, ← Nat.add_assoc]
      exact h2.entered

variable {name : String} {first : Nat} (hf : (Automaton.ofRules rules start).start? name = some first)
include hf

/-- A rule on track is met by a run from the start symbol, while what is ahead of the rule comes next. -/
theorem runs_of_track {states : List Nat} {ds : List Derivation} {ts : List Token} {d : DottedRule} {f : String}
    (h : Track (Automaton.ofRules rules start) first (rules.length + first) states ds ts d f) : ∀ {v : List Token},
    Yields (Automaton.ofRules rules start).rules IsNamed (d.ahead (Automaton.ofRules rules start).rules) v →
    ∃ m, Machine.Runs p (lookahead f v) (Derivation.sizeAll ds) { states := [first] } ts m ∧ m.states = states ∧
      m.values = Derivation.buildAll (p.actions.atPlace p.table.rules) ds := by
  induction h with
  | root => exact fun _ => ⟨_, .done, rfl, rfl⟩
  | @begins states ds ts v d e f h he hv ih =>
    intro u hy
    obtain ⟨r, i, hn, hr, rfl⟩ := mem_begins.1 he
    rw [DottedRule.ahead_eq (d := ⟨i, 0⟩) hr, List.drop_zero] at hy
    rw [← lookahead_append]
    refine ih ?_
    rw [(DottedRule.ahead_of_next hn).1, ← (DottedRule.ahead_of_next hn).2]
    exact .nonterminal (List.mem_of_getElem? hr) hy hv
  | @advance i j states ds ts us d f s x h hs hj hx ih =>
    intro v hv
    have hah := (DottedRule.ahead_of_next hs).1
    obtain ⟨m, hr, hst, hvals⟩ := ih (v := us ++ v) (by
      rw [hah]
      exact hx.yields.append hv)
    obtain ⟨i', below, hstates, he⟩ := h.entered hf hu
    have hcur : m.current = i' := by rw [Machine.current, hst, hstates]; rfl
    obtain ⟨m', h'⟩ := runs_of_trees hu hd ht hx (hcur ▸ he) hah hv
    refine ⟨m', ?_, ?_, ?_⟩
    · have hsize : Derivation.sizeAll (x :: ds) = Derivation.sizeAll ds + Derivation.sizeAll [x] := by
        simp only [Derivation.sizeAll]
        omega
      rw [hsize]
      rw [lookahead_append] at hr
      exact hr.append h'.runs
    · have hw := h'.walk
      rw [Automaton.walk, hst, List.headD_cons, hj] at hw
      exact (Option.some.inj hw).symm
    · rw [h'.values, hvals]
      rfl

/-- A sentence is read up to its end, where it is accepted. -/
theorem runs_of_sentence {w : List Token} {x : Derivation} (h : Trees rules IsNamed [.nonterminal name] w [x]) :
    ∃ m, Machine.Runs p endMarker x.size { states := [first] } w m ∧ p.table.move? m.current endMarker = some .accept ∧
      m.values = [x.build (p.actions.atPlace p.table.rules)] := by
  have hroot : (Automaton.ofRules rules start).rules[rules.length + first]? = some (rootRule name) :=
    Automaton.getElem?_root (Automaton.start?_eq_some hf).1
  have htrees : Trees (Automaton.ofRules rules start).rules IsNamed [.nonterminal name] w [x] :=
    Automaton.trees_ofRules h
  have hah : (⟨rules.length + first, 0⟩ : DottedRule).ahead (Automaton.ofRules rules start).rules =
    [.nonterminal name] ++ [] := by
    rw [DottedRule.ahead_eq hroot]
    rfl
  obtain ⟨m, h'⟩ := runs_of_trees hu hd ht htrees (m := { states := [first] }) (Automaton.entered_root hf) hah .nil
  refine ⟨m, by simpa [Derivation.sizeAll, lookahead] using h'.runs, ?_, by simpa [Derivation.buildAll] using h'.values⟩
  rw [ht.move?_iff hd]
  refine .accept h'.entered (DottedRule.isComplete_iff.2 ⟨_, hroot, rfl⟩) ?_
  exact Automaton.isRoot_iff.2 ⟨first, name, (Automaton.start?_eq_some hf).1, rfl⟩

end Trees

end GrammarKit.LR
