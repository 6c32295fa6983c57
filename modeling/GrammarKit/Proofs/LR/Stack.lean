/-
What a stack says. The states of a machine are a path through the automaton, along the symbols of derivation
trees over the tokens that were read. Every rule of the current state can be taken off the stack again up to its
dot, and for every such rule there is a follower with which the rule is on track: some sentence of the start
symbol begins with the tokens that were read and goes on with whatever the rule has still ahead, and after that
with the follower.
-/
import GrammarKit.Proofs.Grammar.Productive
import GrammarKit.Proofs.LR.Lookahead
import GrammarKit.Proofs.LR.Table

namespace GrammarKit.LR

/-! ## Roots -/

namespace Automaton

variable {rules : List Rule} {start : List String}

theorem isRoot_iff {i : Nat} : (ofRules rules start).isRoot i = true ↔
    ∃ n name, start[n]? = some name ∧ i = rules.length + n := by
  rw [isRoot, List.any_eq_true]
  constructor
  · rintro ⟨⟨name, n, root⟩, h, hi⟩
    obtain ⟨hn, rfl⟩ := mem_roots.1 h
    exact ⟨n, name, hn, (by simpa using hi : rules.length + n = i).symm⟩
  · rintro ⟨n, name, hn, rfl⟩
    exact ⟨(name, n, rules.length + n), mem_roots.2 ⟨hn, rfl⟩, by simp⟩

/-- A rule of the automaton is a rule of the grammar or a root rule. -/
theorem getElem?_rules {i : Nat} {r : Rule} (h : (ofRules rules start).rules[i]? = some r) :
    ((ofRules rules start).isRoot i = false ∧ rules[i]? = some r) ∨
    ((ofRules rules start).isRoot i = true ∧ ∃ name, name ∈ start ∧ r = rootRule name) := by
  rw [rules_ofRules] at h
  rcases Nat.lt_or_ge i rules.length with hi | hi
  · refine .inl ⟨?_, by rwa [List.getElem?_append_left hi] at h⟩
    rw [← Bool.not_eq_true, isRoot_iff]
    rintro ⟨n, name, -, rfl⟩
    omega
  · rw [List.getElem?_append_right hi, List.getElem?_map] at h
    obtain ⟨name, hn, rfl⟩ := Option.map_eq_some_iff.1 h
    exact .inr ⟨isRoot_iff.2 ⟨_, name, hn, by omega⟩, name, List.mem_of_getElem? hn, rfl⟩

theorem getElem?_of_rule {i : Nat} {r : Rule} (h : rules[i]? = some r) : (ofRules rules start).rules[i]? = some r := by
  rw [rules_ofRules, List.getElem?_append_left (List.getElem?_eq_some_iff.1 h).1]
  exact h

section Unreserved

variable (hu : Unreserved rules start)
include hu

theorem unreserved_of_next {d : DottedRule} {s : Symbol} (h : d.next? (ofRules rules start).rules = some s) :
    ¬ Reserved s.name := by
  obtain ⟨r, hr, hs⟩ := DottedRule.next?_eq_some_iff.1 h
  rcases getElem?_rules hr with ⟨-, hr⟩ | ⟨-, name, hn, rfl⟩
  · exact hu.symbol r (List.mem_of_getElem? hr) s (List.mem_of_getElem? hs)
  · obtain rfl : s = .nonterminal name := by simpa [rootRule, Rule.symbols] using List.mem_of_getElem? hs
    exact hu.start name hn

/-- Nothing leads to a root rule. -/
theorem isRoot_of_begins {d e : DottedRule} (h : e ∈ LR.begins (ofRules rules start).rules d) :
    (ofRules rules start).isRoot e.rule = false := by
  obtain ⟨r, i, hn, hr, rfl⟩ := mem_begins.1 h
  rcases getElem?_rules hr with ⟨h, -⟩ | ⟨-, name, -, rfl⟩
  · exact h
  · exact absurd (reserved_rootRule name) (unreserved_of_next hu hn)

/-- An entry of a root rule was there from the start, with the follower it had. -/
theorem mem_of_closeEntries_root {entries : List Entry} : ∀ e ∈ closeEntries (ofRules rules start).sets entries,
    (ofRules rules start).isRoot e.item.rule = true → e ∈ entries :=
  closeEntries_induction (fun _ h _ => h) fun e _ x hx hroot => by
    rw [isRoot_of_begins hu (mem_begins_entry.1 hx).1] at hroot
    cases hroot

/-- Nothing but the end marker follows a root rule. -/
theorem follower_of_facts {f : Fact} (hf : f ∈ (ofRules rules start).facts (ofRules rules start).sets) :
    (ofRules rules start).isRoot f.entry.item.rule = true → f.entry.follower = endMarker := by
  -- where a root rule leads to under the mark, the mark is still there
  have hlead : ∀ {state : Nat} {d : DottedRule} {l : Fact},
      l ∈ ((ofRules rules start).passage (ofRules rules start).sets state d).leads →
      (ofRules rules start).isRoot l.entry.item.rule = true →
        l.entry.follower = anyMark ∧ l.entry.item.rule = d.rule := by
    intro state d l hl hroot
    obtain ⟨e, he, s, target, -, -, rfl⟩ := mem_leads.1 hl
    obtain rfl := List.mem_singleton.1 (mem_of_closeEntries_root hu e he hroot)
    exact ⟨rfl, rfl⟩
  refine facts_induction (P := fun f => (ofRules rules start).isRoot f.entry.item.rule = true →
    f.entry.follower = endMarker)
    (fun f h hroot => ?_) (fun f ih p hp _ hitem l hl _ hroot => ?_) f hf
  · rcases List.mem_append.1 h with h | h
    · obtain ⟨⟨name, n, root⟩, -, hx⟩ := List.mem_filterMap.1 h
      obtain ⟨s, -, rfl⟩ := Option.map_eq_some_iff.1 hx
      rfl
    · obtain ⟨p, hp, hl⟩ := List.mem_flatMap.1 h
      obtain ⟨hl, hne⟩ := List.mem_filter.1 hl
      obtain ⟨state, k, d, -, -, rfl⟩ := mem_passages.1 hp
      rw [(hlead hl hroot).1] at hne
      simp at hne
  · obtain ⟨state, k, d, -, -, rfl⟩ := mem_passages.1 hp
    refine ih ?_
    rw [← hitem]
    show (ofRules rules start).isRoot d.rule = true
    rw [← (hlead hl hroot).2]
    exact hroot

theorem Entered.follower_eq {state : Nat} {e : Entry} (h : (ofRules rules start).Entered state e)
    (hroot : (ofRules rules start).isRoot e.item.rule = true) : e.follower = endMarker := by
  obtain ⟨k, -, he⟩ := h
  obtain ⟨-, hf⟩ := mem_seeds.1 (mem_of_closeEntries_root hu e he hroot)
  exact follower_of_facts hu hf hroot

/-- Trees of unreserved symbols use rules of the grammar alone. -/
theorem trees_of_rules {stands : String → Token → Prop} {ss : List Symbol} {ts : List Token} {ds : List Derivation}
    (h : Trees (ofRules rules start).rules stands ss ts ds) : (∀ s ∈ ss, ¬ Reserved s.name) →
    Trees rules stands ss ts ds := by
  induction h with
  | nil => exact fun _ => .nil
  | token h _ ih => exact fun hs => .token h (ih fun s hm => hs s (List.mem_cons_of_mem _ hm))
  | @node i r ss us ts cs ds h _ _ ih1 ih2 =>
    intro hs
    rcases getElem?_rules h with ⟨-, hr⟩ | ⟨-, name, -, rfl⟩
    · exact .node hr (ih1 (hu.symbol r (List.mem_of_getElem? hr))) (ih2 fun s hm => hs s (List.mem_cons_of_mem _ hm))
    · exact absurd (reserved_rootRule name) (hs _ (List.mem_cons_self ..))

theorem yields_of_rules {stands : String → Token → Prop} {n : String} (hn : ¬ Reserved n) {ts : List Token}
    (h : Yields (ofRules rules start).rules stands [.nonterminal n] ts) : Yields rules stands [.nonterminal n] ts := by
  obtain ⟨ds, hds⟩ := h.trees
  refine (trees_of_rules hu hds fun s hs => ?_).yields
  obtain rfl := List.mem_singleton.1 hs
  exact hn

end Unreserved

theorem trees_ofRules {stands : String → Token → Prop} {ss : List Symbol} {ts : List Token} {ds : List Derivation}
    (h : Trees rules stands ss ts ds) : Trees (ofRules rules start).rules stands ss ts ds := by
  induction h with
  | nil => exact .nil
  | token h _ ih => exact .token h ih
  | node h _ _ ih1 ih2 => exact .node (getElem?_of_rule h) ih1 ih2

end Automaton

/-! ## Stacks -/

theorem mem_closure_cases {rules : List Rule} {k : Kernel} :
    ∀ d ∈ closure rules k, d ∈ k ∨ ∃ e ∈ closure rules k, d ∈ begins rules e := by
  have h : ∀ d ∈ closure rules k, d ∈ closure rules k ∧ (d ∈ k ∨ ∃ e ∈ closure rules k, d ∈ begins rules e) :=
    closure_induction (fun d hd => ⟨mem_closure_of_mem hd, .inl hd⟩)
      fun e he d hd => ⟨mem_closure_of_begins he.1 hd, .inr ⟨e, he.1, hd⟩⟩
  exact fun d hd => (h d hd).2

/-- A rule whose dot has moved is in the kernel. -/
theorem mem_kernel_of_dot {rules : List Rule} {k : Kernel} {d : DottedRule} (hd : d ∈ closure rules k)
    (hdot : d.dot ≠ 0) : d ∈ k := by
  rcases mem_closure_cases d hd with hd | ⟨e, -, he⟩
  · exact hd
  · obtain ⟨r, i, -, -, rfl⟩ := mem_begins.1 he
    exact absurd rfl hdot

/-- The states, the last one first, that lead along the symbols of trees over the tokens that were read. -/
inductive Stacked (a : Automaton) (first : Nat) : List Nat → List Derivation → List Token → Prop
  | start : Stacked a first [first] [] []
  | push {i j : Nat} {states : List Nat} {ds : List Derivation} {ts us : List Token} {s : Symbol} {d : Derivation}
    (h : Stacked a first (i :: states) ds ts) (ht : a.target? i s = some j) (hd : Trees a.rules IsNamed [s] us [d]) :
    Stacked a first (j :: i :: states) (d :: ds) (ts ++ us)

section Stacks

variable {rules : List Rule} {start : List String} {name : String} {first : Nat}
  (hf : (Automaton.ofRules rules start).start? name = some first)
include hf

/-- The state on top has a kernel, which has moved on unless the stack is the first one. -/
theorem Stacked.kernel {i : Nat} {states : List Nat} {ds : List Derivation} {ts : List Token}
    (h : Stacked (Automaton.ofRules rules start) first (i :: states) ds ts) :
    ∃ k, (Automaton.ofRules rules start).states[i]? = some k ∧
      ((k = [⟨rules.length + first, 0⟩] ∧ i = first ∧ states = [] ∧ ds = [] ∧ ts = []) ∨ ∀ d ∈ k, d.dot ≠ 0) := by
  generalize hs : i :: states = all at h
  induction h generalizing i states with
  | start =>
    obtain ⟨rfl, rfl⟩ := List.cons.inj hs
    exact ⟨_, (Automaton.start?_eq_some hf).2, .inl ⟨rfl, rfl, rfl, rfl, rfl⟩⟩
  | push h ht hd ih =>
    obtain ⟨rfl, rfl⟩ := List.cons.inj hs
    obtain ⟨k, hk, -⟩ := ih rfl
    refine ⟨_, Automaton.getElem?_target hk ht, .inr fun d hd => ?_⟩
    obtain ⟨e, -, -, rfl⟩ := mem_advanced.1 hd
    exact Nat.succ_ne_zero _

/-- A rule of the current state can be taken off the stack: below its symbols is a state in which it begins. -/
theorem Stacked.pop {i : Nat} {states : List Nat} {ds : List Derivation} {ts : List Token}
    (h : Stacked (Automaton.ofRules rules start) first (i :: states) ds ts) {k : Kernel} {d : DottedRule} {r : Rule}
    (hk : (Automaton.ofRules rules start).states[i]? = some k)
    (hd : d ∈ closure (Automaton.ofRules rules start).rules k)
    (hr : (Automaton.ofRules rules start).rules[d.rule]? = some r) :
    ∃ j below ts' us k', (i :: states).drop d.dot = j :: below ∧
      Stacked (Automaton.ofRules rules start) first (j :: below) (ds.drop d.dot) ts' ∧ ts = ts' ++ us ∧
      Trees (Automaton.ofRules rules start).rules IsNamed (r.symbols.take d.dot) us (ds.take d.dot).reverse ∧
      (Automaton.ofRules rules start).states[j]? = some k' ∧
      ⟨d.rule, 0⟩ ∈ closure (Automaton.ofRules rules start).rules k' := by
  generalize hs : i :: states = all at h
  induction h generalizing i states k d with
  | start =>
    obtain ⟨rfl, rfl⟩ := List.cons.inj hs
    have hroot := (Automaton.start?_eq_some hf).2
    obtain rfl := Option.some.inj (hk.symm.trans hroot)
    have hdot : d.dot = 0 := by
      by_contra hne
      rw [List.mem_singleton.1 (mem_kernel_of_dot hd hne)] at hne
      exact hne rfl
    obtain ⟨rule, dot⟩ := d
    subst hdot
    exact ⟨i, [], [], [], _, rfl, .start, rfl, .nil, hk, hd⟩
  | @push i j states ds ts us s e h ht he ih =>
    obtain ⟨rfl, rfl⟩ := List.cons.inj hs
    rcases hdot : d.dot with _ | n
    · obtain ⟨rule, dot⟩ := d
      subst hdot
      exact ⟨_, _, _, [], k, rfl, .push h ht he, by simp, .nil, hk, hd⟩
    · -- a rule of the kernel has moved from the state below
      obtain ⟨k0, hk0, -⟩ := h.kernel hf
      obtain rfl := Option.some.inj (hk.symm.trans (Automaton.getElem?_target hk0 ht))
      obtain ⟨x, hx, hxs, rfl⟩ := mem_advanced.1 (mem_kernel_of_dot hd (by rw [hdot]; exact Nat.succ_ne_zero n))
      obtain ⟨j, below, ts', vs, k', hdrop, hst, rfl, htr, hk', hb⟩ := ih hk0 hx hr rfl
      obtain rfl : x.dot = n := by simpa [DottedRule.advance] using hdot
      obtain ⟨r', hr', hs'⟩ := DottedRule.next?_eq_some_iff.1 hxs
      obtain rfl := Option.some.inj (hr'.symm.trans hr)
      refine ⟨j, below, ts', vs ++ us, k', hdrop, hst, List.append_assoc .., ?_, hk', hb⟩
      rw [List.take_succ_cons, List.reverse_cons, List.take_add_one, hs']
      exact htr.append he

/-- A rule of the grammar that begins in a state was led to there. -/
theorem Stacked.exists_next {i : Nat} {states : List Nat} {ds : List Derivation} {ts : List Token}
    (h : Stacked (Automaton.ofRules rules start) first (i :: states) ds ts) {k : Kernel} {q : Nat}
    (hk : (Automaton.ofRules rules start).states[i]? = some k)
    (hd : ⟨q, 0⟩ ∈ closure (Automaton.ofRules rules start).rules k)
    (hq : (Automaton.ofRules rules start).isRoot q = false)
    {r : Rule} (hr : (Automaton.ofRules rules start).rules[q]? = some r) :
    ∃ j, (Automaton.ofRules rules start).target? i (.nonterminal r.origin) = some j := by
  obtain ⟨k', hk', hcase⟩ := h.kernel hf
  obtain rfl := Option.some.inj (hk.symm.trans hk')
  rcases mem_closure_cases _ hd with hm | ⟨e, he, hb⟩
  · rcases hcase with ⟨rfl, -⟩ | hcase
    · have hroot : (Automaton.ofRules rules start).isRoot q = true := by
        refine Automaton.isRoot_iff.2 ⟨first, name, (Automaton.start?_eq_some hf).1, ?_⟩
        simpa using hm
      rw [hroot] at hq
      cases hq
    · exact absurd rfl (hcase _ hm)
  · obtain ⟨r', i', hn, hr', hi⟩ := mem_begins.1 hb
    cases hi
    obtain rfl := Option.some.inj (hr'.symm.trans hr)
    exact Automaton.exists_target hk he hn

end Stacks

/-! ## Rules on track -/

/-- A rule is on track if it is found from the root of the start symbol by beginning rules and moving on; the
follower is what comes next after it. -/
inductive Track (a : Automaton) (first root : Nat) : List Nat → List Derivation → List Token → DottedRule →
    String → Prop
  | root : Track a first root [first] [] [] ⟨root, 0⟩ endMarker
  | begins {states : List Nat} {ds : List Derivation} {ts v : List Token} {d e : DottedRule} {f : String}
    (h : Track a first root states ds ts d f) (he : e ∈ LR.begins a.rules d)
      (hv : Yields a.rules IsNamed (d.rest a.rules) v) :
    Track a first root states ds ts e (lookahead f v)
  | advance {i j : Nat} {states : List Nat} {ds : List Derivation} {ts us : List Token} {d : DottedRule} {f : String}
    {s : Symbol} {x : Derivation} (h : Track a first root (i :: states) ds ts d f) (hs : d.next? a.rules = some s)
    (ht : a.target? i s = some j) (hx : Trees a.rules IsNamed [s] us [x]) :
    Track a first root (j :: i :: states) (x :: ds) (ts ++ us) d.advance f

section Track

variable {rules : List Rule} {start : List String} {name : String} {first : Nat}
  (hf : (Automaton.ofRules rules start).start? name = some first)

/-- What stands after the next symbol of a rule yields something. -/
theorem yields_rest (hp : Productive rules) (d : DottedRule) :
    ∃ v, Yields (Automaton.ofRules rules start).rules IsNamed (d.rest (Automaton.ofRules rules start).rules) v := by
  cases hr : (Automaton.ofRules rules start).rules[d.rule]? with
  | none => exact ⟨[], by rw [DottedRule.rest, hr]; exact .nil⟩
  | some r =>
    rw [DottedRule.rest_eq hr]
    rcases Automaton.getElem?_rules hr with ⟨-, hr⟩ | ⟨-, name, -, rfl⟩
    · have hmem : ∀ s ∈ r.symbols.drop (d.dot + 1), ∃ r ∈ rules, s ∈ r.symbols := fun s hs =>
        ⟨r, List.mem_of_getElem? hr, List.mem_of_mem_drop hs⟩
      obtain ⟨v, hv⟩ := hp.yields hmem
      exact ⟨v, hv.mono fun r hr => List.mem_append_left _ hr⟩
    · refine ⟨[], ?_⟩
      rw [List.drop_eq_nil_of_le (by simp [rootRule, Rule.symbols])]
      exact .nil

include hf

/-- Every rule of the current state is on track. -/
theorem Stacked.exists_track (hp : Productive rules) {states : List Nat} {ds : List Derivation} {ts : List Token}
    (h : Stacked (Automaton.ofRules rules start) first states ds ts) : ∀ {i : Nat} {below : List Nat} {k : Kernel},
    states = i :: below → (Automaton.ofRules rules start).states[i]? = some k →
    ∀ d ∈ closure (Automaton.ofRules rules start).rules k,
      ∃ f, Track (Automaton.ofRules rules start) first (rules.length + first) states ds ts d f := by
  have hbegins : ∀ {states ds ts} (d : DottedRule),
      (∃ f, Track (Automaton.ofRules rules start) first (rules.length + first) states ds ts d f) →
      ∀ e ∈ LR.begins (Automaton.ofRules rules start).rules d,
        ∃ f, Track (Automaton.ofRules rules start) first (rules.length + first) states ds ts e f := by
    rintro states ds ts d ⟨f, h⟩ e he
    obtain ⟨v, hv⟩ := yields_rest hp d
    exact ⟨_, .begins h he hv⟩
  induction h with
  | start =>
    intro i below k hs hk
    obtain ⟨rfl, rfl⟩ := List.cons.inj hs
    rw [(Automaton.start?_eq_some hf).2] at hk
    obtain rfl := Option.some.inj hk
    refine closure_induction (fun d hd => ?_) hbegins
    rw [List.mem_singleton.1 hd]
    exact ⟨_, .root⟩
  | push h ht hd ih =>
    intro i' below k hs hk
    obtain ⟨rfl, rfl⟩ := List.cons.inj hs
    obtain ⟨k0, hk0, -⟩ := h.kernel hf
    obtain rfl := Option.some.inj (hk.symm.trans (Automaton.getElem?_target hk0 ht))
    refine closure_induction (fun e he => ?_) hbegins
    obtain ⟨x, hx, hxs, rfl⟩ := mem_advanced.1 he
    obtain ⟨f, hx⟩ := ih rfl hk0 x hx
    exact ⟨f, .advance hx hxs ht hd⟩

/-- A rule on track is an entry of the current state, before its follower. -/
theorem Track.entered (hu : Unreserved rules start) {states : List Nat} {ds : List Derivation} {ts : List Token}
    {d : DottedRule} {f : String}
    (h : Track (Automaton.ofRules rules start) first (rules.length + first) states ds ts d f) :
    ∃ i below, states = i :: below ∧ (Automaton.ofRules rules start).Entered i ⟨d, f⟩ := by
  induction h with
  | root => exact ⟨first, [], rfl, Automaton.entered_root hf⟩
  | begins h he hv ih =>
    obtain ⟨i, below, rfl, hi⟩ := ih
    exact ⟨i, below, rfl, hi.begins he hv⟩
  | advance h hs ht hx ih =>
    obtain ⟨i, below, hst, hi⟩ := ih
    obtain ⟨rfl, rfl⟩ := List.cons.inj hst
    exact ⟨_, _, rfl, hi.advance hu hs ht⟩

/-- The tokens that were read, with what a rule on track has still ahead, begin a sentence that goes on with the
rule's follower. -/
theorem Track.sentence {states : List Nat} {ds : List Derivation} {ts : List Token} {d : DottedRule} {f : String}
    (h : Track (Automaton.ofRules rules start) first (rules.length + first) states ds ts d f) : ∀ {v : List Token},
    Yields (Automaton.ofRules rules start).rules IsNamed (d.ahead (Automaton.ofRules rules start).rules) v →
    ∃ x, Yields (Automaton.ofRules rules start).rules IsNamed [.nonterminal name] (ts ++ v ++ x) ∧
      lookahead endMarker x = f := by
  induction h with
  | root =>
    intro v hv
    rw [DottedRule.ahead_eq (Automaton.getElem?_root (Automaton.start?_eq_some hf).1)] at hv
    exact ⟨[], by simpa [rootRule, Rule.symbols] using hv, rfl⟩
  | @begins states ds ts v d e f h he hv ih =>
    intro u hy
    obtain ⟨r, i, hn, hr, rfl⟩ := mem_begins.1 he
    rw [DottedRule.ahead_eq (d := ⟨i, 0⟩) hr, List.drop_zero] at hy
    obtain ⟨x, hx, hl⟩ := ih (v := u ++ v) (by
      rw [(DottedRule.ahead_of_next hn).1, ← (DottedRule.ahead_of_next hn).2]
      exact .nonterminal (List.mem_of_getElem? hr) hy hv)
    exact ⟨v ++ x, by simpa using hx, by rw [lookahead_append, hl]⟩
  | @advance i j states ds ts us d f s x h hs ht hx ih =>
    intro v hv
    obtain ⟨y, hy, hl⟩ := ih (v := us ++ v) (by
      rw [(DottedRule.ahead_of_next hs).1]
      exact hx.yields.append hv)
    exact ⟨y, by simpa using hy, hl⟩

end Track

end GrammarKit.LR
