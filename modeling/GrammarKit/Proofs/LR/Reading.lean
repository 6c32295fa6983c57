/-
What comes after the tokens that were read. A machine has read tokens if a run from the start symbol leads to it,
whatever comes next. Then every sentence that begins with these tokens goes on from there: its next token is shifted,
or the sentence is accepted if nothing is left of it. Conversely what is shifted or accepted belongs to a sentence,
and before any terminal at all reductions come to an end.
-/
import GrammarKit.Proofs.LR.Feeding

namespace GrammarKit.LR

theorem exists_of_isOk {α β : Type} {x : Outcome α × β} (h : x.1.isOk = true) : ∃ a b, x = (.ok a, b) := by
  obtain ⟨_ | a, b⟩ := x
  · cases h
  · exact ⟨a, b, rfl⟩

/-- A rule on track goes on with a sentence. -/
theorem Track.exists_sentence {rules : List Rule} {start : List String} {name : String} {first : Nat}
    (hu : Unreserved rules start) (hf : (Automaton.ofRules rules start).start? name = some first) {states : List Nat}
    {ds : List Derivation} {ts : List Token} {d : DottedRule} {f : String}
    (h : Track (Automaton.ofRules rules start) first (rules.length + first) states ds ts d f) {v : List Token}
    (hv : Yields (Automaton.ofRules rules start).rules IsNamed (d.ahead (Automaton.ofRules rules start).rules) v) :
    ∃ x, Yields rules IsNamed [.nonterminal name] (ts ++ v ++ x) ∧ lookahead endMarker x = f := by
  obtain ⟨x, hx, hlook⟩ := h.sentence hf hv
  have hname : name ∈ start := List.mem_of_getElem? (Automaton.start?_eq_some hf).1
  exact ⟨x, Automaton.yields_of_rules hu (hu.start name hname) hx, hlook⟩

/-- A run over the tokens leads to the machine, whatever comes next. -/
def Machine.HasRead (p : Parser) (first : Nat) (ts : List Token) (m : Machine) : Prop :=
  ∃ n, ∀ last, Runs p last n { states := [first] } ts m

namespace Machine.HasRead

variable {rules : List Rule} {start : List String} {name : String} {first : Nat} {p : Parser} {m : Machine}
  {ts : List Token}

theorem of_start : HasRead p first [] { states := [first] } := ⟨0, fun _ => .done⟩

theorem shift (h : m.HasRead p first ts) {n j : Nat} {m' : Machine} {t : Token} (hr : Runs p t.kind n m [] m')
    (hm : p.table.move? m'.current t.kind = some (.shift j)) : (m'.shift j t).HasRead p first (ts ++ [t]) := by
  obtain ⟨k, hk⟩ := h
  refine ⟨k + (n + 1), fun last => ?_⟩
  have hr' : Runs p (lookahead last [t]) n m [] m' := hr
  exact Runs.append (hk t.kind) (hr'.append (.shift hm .done))

theorem holds (ht : p.table.Realizes (Automaton.ofRules rules start))
    (hf : (Automaton.ofRules rules start).start? name = some first)
    (h : m.HasRead p first ts) : ∃ ds, m.Holds p (Automaton.ofRules rules start) first ds ts := by
  obtain ⟨n, hn⟩ := h
  obtain ⟨ds, hds, -⟩ := Holds.of_start.runs ht hf (hn endMarker)
  exact ⟨ds, by simpa using hds⟩

section Sentences

variable (hu : Unreserved rules start) (hd : Deterministic rules start)
  (ht : p.table.Realizes (Automaton.ofRules rules start))
  (hf : (Automaton.ofRules rules start).start? name = some first)
include hu hd ht hf

/-- The next token of a sentence is shifted. -/
theorem exists_shift (h : m.HasRead p first ts) {t : Token} {us : List Token}
    (hs : Yields rules IsNamed [.nonterminal name] (ts ++ t :: us)) :
    ∃ n m' j, Runs p t.kind n m [] m' ∧ p.table.move? m'.current t.kind = some (.shift j) := by
  obtain ⟨n, hn⟩ := h
  obtain ⟨d, htree⟩ := hs.exists_tree
  obtain ⟨m2, hrun, -⟩ := runs_of_sentence hu hd ht hf htree
  obtain ⟨k, m1, j, hk, hm⟩ := hrun.split
  obtain ⟨l, hl⟩ := (hn t.kind).continues hk fun i hi => by rw [hm] at hi; cases hi
  exact ⟨l, m1, j, hl, hm⟩

/-- A sentence of which nothing is left is accepted. -/
theorem exists_accept (h : m.HasRead p first ts) {d : Derivation}
    (hs : Trees rules IsNamed [.nonterminal name] ts [d]) :
    ∃ n m', Runs p endMarker n m [] m' ∧ p.table.move? m'.current endMarker = some .accept ∧
      m'.values = [d.build (p.actions.atPlace p.table.rules)] := by
  obtain ⟨n, hn⟩ := h
  obtain ⟨m1, hrun, hm, hvals⟩ := runs_of_sentence hu hd ht hf hs
  obtain ⟨l, hl⟩ := (hn endMarker).continues hrun fun i hi => by rw [hm] at hi; cases hi
  exact ⟨l, m1, hl, hm, hvals⟩

/-- Before what comes next in a sentence, reductions come to an end. -/
theorem exists_halt (h : m.HasRead p first ts) {us : List Token}
    (hs : Yields rules IsNamed [.nonterminal name] (ts ++ us)) :
    ∃ n m', Runs p (lookahead endMarker us) n m [] m' ∧
      ∀ i, p.table.move? m'.current (lookahead endMarker us) ≠ some (.reduce i) := by
  cases us with
  | nil =>
    rw [List.append_nil] at hs
    obtain ⟨d, htree⟩ := hs.exists_tree
    obtain ⟨n, m', hr, hacc, -⟩ := h.exists_accept hu hd ht hf htree
    exact ⟨n, m', hr, fun i hi => by cases hi.symm.trans hacc⟩
  | cons t us =>
    obtain ⟨n, m', j, hr, hshift⟩ := h.exists_shift hu hd ht hf hs
    exact ⟨n, m', hr, fun i hi => by cases hi.symm.trans hshift⟩

omit hd in
/-- A token that is shifted goes on with a sentence. -/
theorem exists_sentence (hp : Productive rules) (h : m.HasRead p first ts) {t : Token} {n j : Nat} {m' : Machine}
    (hr : Runs p t.kind n m [] m') (hm : p.table.move? m'.current t.kind = some (.shift j)) :
    ∃ us, Yields rules IsNamed [.nonterminal name] (ts ++ t :: us) := by
  obtain ⟨ds, hds⟩ := h.holds ht hf
  obtain ⟨ds', hds', -⟩ := hds.runs ht hf hr
  obtain ⟨i, below, hst⟩ := hds'.states.exists_cons
  rw [Machine.current, hst, List.headD_cons] at hm
  cases ht.sound _ _ _ hm with
  | shift hj =>
    -- some rule of the state has the terminal next, and what comes after that yields something
    obtain ⟨k, hk, ⟨d, hd, hn⟩, -⟩ := Automaton.target?_eq_some_iff.1 hj
    obtain ⟨f, htrack⟩ := hds'.states.exists_track hf hp hst hk d hd
    obtain ⟨v, hv⟩ := yields_rest hp d
    have hahead : Yields (Automaton.ofRules rules start).rules IsNamed
      (d.ahead (Automaton.ofRules rules start).rules) (t :: v) := by
      rw [(DottedRule.ahead_of_next hn).1, ← (DottedRule.ahead_of_next hn).2]
      exact .terminal rfl hv
    obtain ⟨x, hx, -⟩ := htrack.exists_sentence hu hf hahead
    exact ⟨v ++ x, by simpa using hx⟩

/-- Reductions before a terminal are no more than the patience of the machine. -/
theorem le_patience (hp : Productive rules) (h : m.HasRead p first ts) {terminal : String} {n : Nat} {m' : Machine}
    (hr : Runs p terminal n m [] m') : n ≤ m.patience p := by
  have hread := h
  obtain ⟨N, hN⟩ := h
  cases n with
  | zero => exact Nat.zero_le _
  | succ n =>
    -- the rule that is reduced last is on track, so before some follower it would have been reduced just as well
    obtain ⟨m1, q, hrun, hm⟩ := hr.exists_last
    obtain ⟨ds, hds, hsize⟩ := Holds.of_start.runs ht hf (Runs.append (hN _) hrun)
    rw [List.nil_append, List.append_nil] at hds
    rw [Derivation.sizeAll, Nat.zero_add] at hsize
    obtain ⟨i, below, hst⟩ := hds.states.exists_cons
    rw [Machine.current, hst, List.headD_cons] at hm
    cases ht.sound _ _ _ hm with
    | @reduce d he hcomplete hroot =>
      obtain ⟨k, hk, hmem⟩ := he
      obtain ⟨f, htrack⟩ := hds.states.exists_track hf hp hst hk d (Automaton.mem_closure_of_closeEntries _ hmem)
      have hahead : Yields (Automaton.ofRules rules start).rules IsNamed
        (d.ahead (Automaton.ofRules rules start).rules) [] := by
        obtain ⟨r, hr, hdot⟩ := DottedRule.isComplete_iff.1 hcomplete
        rw [DottedRule.ahead_eq hr, hdot, List.drop_length]
        exact .nil
      obtain ⟨m2, hrun2, -⟩ := runs_of_track hu hd ht hf htrack hahead
      rw [hsize] at hrun2
      have hrun2 : Runs p f n m [] m2 := (hN f).sub hrun2
      obtain ⟨x, hx, hlook⟩ := htrack.exists_sentence hu hf hahead
      rw [List.append_nil] at hx
      obtain ⟨l, m3, hl, hm3⟩ := hread.exists_halt hu hd ht hf hx
      rw [hlook] at hl hm3
      have hlt := (hl.halts (reduceStates_eq_none hm3)).le_patience (Parser.lt_of_goto ht)
      have := hrun2.le_of_end hl hm3
      omega

/-- Reductions before a terminal come to an end. -/
theorem exists_end (hp : Productive rules) (h : m.HasRead p first ts) (terminal : String) :
    ∃ n m', Runs p terminal n m [] m' ∧ ∀ i, p.table.move? m'.current terminal ≠ some (.reduce i) := by
  by_contra hno
  obtain ⟨ds, hds⟩ := h.holds ht hf
  have hall : ∀ n, ∃ m', Runs p terminal n m [] m' := by
    intro n
    induction n with
    | zero => exact ⟨m, .done⟩
    | succ n ih =>
      obtain ⟨m', hm'⟩ := ih
      obtain ⟨i, hi⟩ : ∃ i, p.table.move? m'.current terminal = some (.reduce i) := by
        by_contra hne
        exact hno ⟨n, m', hm', fun i hi => hne ⟨i, hi⟩⟩
      obtain ⟨ds', hds', -⟩ := hds.runs ht hf hm'
      obtain ⟨r, m2, -, hr, hs, -⟩ := hds'.reduce ht hf hi
      have hm2 : Runs p (lookahead terminal []) n m [] m' := hm'
      exact ⟨m2, hm2.append (.reduce hi hr hs .done)⟩
  obtain ⟨m', hm'⟩ := hall (m.patience p + 1)
  have := h.le_patience hu hd ht hf hp hm'
  omega

omit hd in
/-- The end marker is not shifted, and nothing else is accepted. -/
theorem shifted_or_accepted (h : m.HasRead p first ts) {t : Token} {atEnd : Bool} {value : Option Child} {m2 : Machine}
    (hm : m.feed p t atEnd = (.ok value, m2)) :
    (t.kind ≠ endMarker ∧ ∃ n m1 j, Runs p t.kind n m [] m1 ∧ p.table.move? m1.current t.kind = some (.shift j) ∧
      m2 = m1.shift j t) ∨ (t.kind = endMarker ∧ ∃ d, Trees rules IsNamed [.nonterminal name] ts [d]) := by
  obtain ⟨n, m1, hr, ⟨j, hj, rfl⟩ | hacc⟩ := feedWithin_eq_ok hm
  · refine .inl ⟨fun hend => ?_, n, m1, j, hr, hj, rfl⟩
    cases ht.sound _ _ _ hj with
    | shift htarget =>
      obtain ⟨k, -, ⟨d, -, hn⟩, -⟩ := Automaton.target?_eq_some_iff.1 htarget
      exact Automaton.unreserved_of_next hu hn (by rw [hend]; exact reserved_endMarker)
  · obtain ⟨ds, hds⟩ := h.holds ht hf
    obtain ⟨ds', hds', -⟩ := hds.runs ht hf hr
    rw [List.append_nil] at hds'
    obtain ⟨hend, d, -, htree⟩ := hds'.accept ht hf hu hacc
    exact .inr ⟨hend, d, htree⟩

omit hd in
theorem feed (h : m.HasRead p first ts) {t : Token} (hend : t.kind ≠ endMarker) {atEnd : Bool} {value : Option Child}
    {m2 : Machine} (hm : m.feed p t atEnd = (.ok value, m2)) : m2.HasRead p first (ts ++ [t]) := by
  rcases h.shifted_or_accepted hu ht hf hm with ⟨-, n, m1, j, hr, hj, rfl⟩ | ⟨hend', -⟩
  · exact h.shift hr hj
  · exact absurd hend' hend

/-- A token is taken exactly if a sentence goes on with it. -/
theorem feed_isOk_iff (hp : Productive rules) (h : m.HasRead p first ts) {t : Token} (hend : t.kind ≠ endMarker)
    (atEnd : Bool) :
    (m.feed p t atEnd).1.isOk = true ↔ ∃ us, Yields rules IsNamed [.nonterminal name] (ts ++ t :: us) := by
  constructor
  · intro hok
    obtain ⟨value, m2, hm⟩ := exists_of_isOk hok
    rcases h.shifted_or_accepted hu ht hf hm with ⟨-, n, m1, j, hr, hj, -⟩ | ⟨hend', -⟩
    · exact h.exists_sentence hu ht hf hp hr hj
    · exact absurd hend' hend
  · rintro ⟨us, hs⟩
    obtain ⟨n, m1, j, hr, hj⟩ := h.exists_shift hu hd ht hf hs
    rw [hr.feed_of_shift (Parser.lt_of_goto ht) hj]
    rfl

/-- The end marker is taken exactly if the tokens are a sentence. -/
theorem feed_end_isOk_iff (h : m.HasRead p first ts) {t : Token} (hend : t.kind = endMarker) (atEnd : Bool) :
    (m.feed p t atEnd).1.isOk = true ↔ Yields rules IsNamed [.nonterminal name] ts := by
  constructor
  · intro hok
    obtain ⟨value, m2, hm⟩ := exists_of_isOk hok
    rcases h.shifted_or_accepted hu ht hf hm with ⟨hend', -⟩ | ⟨-, d, htree⟩
    · exact absurd hend hend'
    · exact htree.yields
  · intro hs
    obtain ⟨d, htree⟩ := hs.exists_tree
    obtain ⟨n, m1, hr, hacc, -⟩ := h.exists_accept hu hd ht hf htree
    rw [← hend] at hr hacc
    rw [hr.feed_of_accept (Parser.lt_of_goto ht) hacc]
    rfl

end Sentences

end Machine.HasRead

end GrammarKit.LR
