/-
What the moves of a machine keep. A machine holds trees if its states are a path along the symbols of these trees
and its values are built from them. A token that is shifted is one more tree, a rule that is reduced puts its trees
under a node, and never is there a node with nowhere to go on; what is accepted is the one tree of a sentence.
-/
import GrammarKit.LR.Machine
import GrammarKit.Proofs.Grammar.Actions
import GrammarKit.Proofs.LR.Stack

namespace GrammarKit.LR

/-- A rule whose values are on top is reduced to its node. -/
theorem Machine.reduce_eq {p : Parser} {m : Machine} {r : Rule} {states : List Nat}
    {values children : List Child} {j : Nat}
    (hs : m.states.drop r.parts.length = states) (hv : m.values = children.reverse ++ values)
    (hl : children.length = r.parts.length) (hg : p.table.goto? (states.headD 0) r.origin = some j) :
    m.reduce p r = .reduced { m with states := j :: states, values := p.actions.apply r children :: values } := by
  have hd : m.drop r = { m with states, values } := by
    rw [Machine.drop, hs, hv, ← hl, ← List.length_reverse, List.drop_left]
  have hc : m.children r = children := by
    rw [Machine.children, hv, ← hl, ← List.length_reverse, List.take_left, List.reverse_reverse]
  simp only [Machine.reduce, hd, hc, Machine.current, hg]

/-- Where candidates are unique, there is a parser, strict or not. -/
theorem Parser.exists_ofConfig {c : ParserConfig} (h : Deterministic c.rules c.start) (strict : Bool) :
    ∃ p, Parser.ofConfig c strict = .ok p ∧ p.actions = c.actions ∧
    p.table.Realizes (Automaton.ofRules c.rules c.start) := by
  obtain ⟨t, ht⟩ := Table.exists_build h strict
  refine ⟨{ table := t, actions := c.actions }, ?_, rfl, Table.realizes_of_build ht⟩
  rw [Parser.ofConfig, ht]
  rfl

/-- The trees that a machine has read, the last one first, and the tokens under them. -/
structure Machine.Holds (p : Parser) (a : Automaton) (first : Nat) (m : Machine) (ds : List Derivation)
    (ts : List Token) : Prop where
  states : Stacked a first m.states ds ts
  values : m.values = Derivation.buildAll (p.actions.atPlace p.table.rules) ds

theorem Stacked.exists_cons {a : Automaton} {first : Nat} {states : List Nat} {ds : List Derivation} {ts : List Token}
    (h : Stacked a first states ds ts) : ∃ i below, states = i :: below := by
  cases h with
  | start => exact ⟨_, _, rfl⟩
  | push _ _ _ => exact ⟨_, _, rfl⟩

namespace Machine.Holds

variable {rules : List Rule} {start : List String} {name : String} {first : Nat} {p : Parser} {m : Machine}
  {ds : List Derivation} {ts : List Token}

theorem of_start {a : Automaton} : Holds p a first { states := [first] } [] [] := ⟨.start, rfl⟩

theorem top {a : Automaton} (h : m.Holds p a first ds ts) :
    ∃ below, m.states = m.current :: below ∧ Stacked a first (m.current :: below) ds ts := by
  obtain ⟨i, below, hst⟩ := h.states.exists_cons
  have hcur : m.current = i := by rw [Machine.current, hst]; rfl
  rw [hcur]
  exact ⟨below, hst, hst ▸ h.states⟩

theorem shift (ht : p.table.Realizes (Automaton.ofRules rules start))
    (h : m.Holds p (Automaton.ofRules rules start) first ds ts)
    {t : Token} {j : Nat} (hm : p.table.move? m.current t.kind = some (.shift j)) :
    (m.shift j t).Holds p (Automaton.ofRules rules start) first (.token t :: ds) (ts ++ [t]) := by
  obtain ⟨below, hst, hstates⟩ := h.top
  cases ht.sound _ _ _ hm with
  | shift hj =>
    refine ⟨?_, ?_⟩
    · rw [Machine.shift, hst]
      exact hstates.push hj (.token rfl .nil)
    · rw [Machine.shift, h.values]
      rfl

section Moves

variable (ht : p.table.Realizes (Automaton.ofRules rules start))
  (hf : (Automaton.ofRules rules start).start? name = some first)
include ht hf

theorem reduce (h : m.Holds p (Automaton.ofRules rules start) first ds ts) {terminal : String} {q : Nat}
    (hm : p.table.move? m.current terminal = some (.reduce q)) : ∃ r m' ds', p.table.rules[q]? = some r ∧
      m.reduce p r = .reduced m' ∧ m'.Holds p (Automaton.ofRules rules start) first ds' ts ∧
      Derivation.sizeAll ds' = Derivation.sizeAll ds + 1 := by
  obtain ⟨rest, hst, hstates⟩ := h.top
  cases ht.sound _ _ _ hm with
  | @reduce d he hd hroot =>
    obtain ⟨k, hk, hmem⟩ := he
    obtain ⟨r, hr, hdot⟩ := DottedRule.isComplete_iff.1 hd
    obtain ⟨j, below, us, vs, k', hdrop, hbelow, rfl, htrees, hk', hbegin⟩ :=
      hstates.pop hf hk (Automaton.mem_closure_of_closeEntries _ hmem) hr
    obtain ⟨target, htarget⟩ := hbelow.exists_next hf hk' hbegin hroot hr
    rw [hdot, List.take_length] at htrees
    -- the values are those of the rule's trees, over those of the trees below
    have hvals : m.values = (Derivation.buildAll (p.actions.atPlace p.table.rules) (ds.take d.dot).reverse).reverse ++
        Derivation.buildAll (p.actions.atPlace p.table.rules) (ds.drop d.dot) := by
      rw [h.values]
      simp only [Derivation.buildAll_eq_map, List.map_reverse, List.reverse_reverse]
      rw [← List.map_append, List.take_append_drop]
    have hlen : (Derivation.buildAll (p.actions.atPlace p.table.rules) (ds.take d.dot).reverse).length =
      r.parts.length := by
      rw [Derivation.buildAll_eq_map, List.length_map, hdot, htrees.length_eq, Rule.length_symbols]
    have hr' : p.table.rules[d.rule]? = some r := by rw [ht.rules]; exact hr
    have hstack : m.states.drop r.parts.length = j :: below := by
      rw [hst, ← Rule.length_symbols, ← hdot]
      exact hdrop
    have hgoto : p.table.goto? ((j :: below).headD 0) r.origin = some target := by
      rw [ht.goto]
      exact htarget
    refine ⟨r, _, .node d.rule (ds.take d.dot).reverse :: ds.drop d.dot, hr', Machine.reduce_eq hstack hvals hlen hgoto,
      ⟨?_, ?_⟩, ?_⟩
    · refine hbelow.push htarget ?_
      rw [hdot]
      exact .of_rule hr htrees
    · rw [Derivation.buildAll, Derivation.build, Actions.atPlace_eq hr']
    · have hsum := Derivation.sizeAll_append (ds.take d.dot) (ds.drop d.dot)
      rw [List.take_append_drop] at hsum
      rw [Derivation.sizeAll, Derivation.size, Derivation.sizeAll_reverse]
      omega

theorem accept (hu : Unreserved rules start) (h : m.Holds p (Automaton.ofRules rules start) first ds ts)
    {terminal : String} (hm : p.table.move? m.current terminal = some .accept) :
    terminal = endMarker ∧ ∃ d, ds = [d] ∧ Trees rules IsNamed [.nonterminal name] ts [d] := by
  obtain ⟨rest, hst, hstates⟩ := h.top
  cases ht.sound _ _ _ hm with
  | @accept d he hd hroot =>
    refine ⟨he.follower_eq hu hroot, ?_⟩
    obtain ⟨k, hk, hmem⟩ := he
    obtain ⟨r, hr, hdot⟩ := DottedRule.isComplete_iff.1 hd
    obtain ⟨j, below, us, vs, k', hdrop, hbelow, rfl, htrees, hk', hbegin⟩ :=
      hstates.pop hf hk (Automaton.mem_closure_of_closeEntries _ hmem) hr
    -- a root rule begins in the first state only, where it is that of the start symbol
    have hkernel : ⟨d.rule, 0⟩ ∈ k' := by
      rcases mem_closure_cases _ hbegin with h | ⟨e, -, h⟩
      · exact h
      · rw [Automaton.isRoot_of_begins hu h] at hroot
        cases hroot
    obtain ⟨k0, hk0, hcase⟩ := hbelow.kernel hf
    obtain rfl := Option.some.inj (hk'.symm.trans hk0)
    rcases hcase with ⟨rfl, rfl, rfl, hds, rfl⟩ | hcase
    · obtain hrule : d.rule = rules.length + j := by simpa using hkernel
      rw [hrule] at hr
      obtain rfl := Option.some.inj (hr.symm.trans (Automaton.getElem?_root (Automaton.start?_eq_some hf).1))
      have hone : d.dot = 1 := hdot
      rw [hone] at hds htrees
      rw [List.nil_append]
      match ds, hds, htrees with
      | [], _, htrees => cases htrees
      | x :: ds, hds, htrees =>
        obtain rfl : ds = [] := hds
        refine ⟨x, rfl, Automaton.trees_of_rules hu htrees fun s hs => ?_⟩
        obtain rfl := List.mem_singleton.1 hs
        exact hu.start name (List.mem_of_getElem? (Automaton.start?_eq_some hf).1)
    · exact absurd rfl (hcase _ hkernel)

end Moves

end Machine.Holds

end GrammarKit.LR
