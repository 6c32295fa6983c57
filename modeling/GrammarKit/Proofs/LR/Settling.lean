/-
Reductions that come to an end. The rules of a state lead from the start symbol, and where a state is entered with a
rule, the trees of the symbols before its dot are those on top of the stack. So trees without tokens, one after the
other on a stack, stand before dots of rules that lead into each other, and if there are too many of them, a nonterminal is
begun again behind symbols that vanish. Where no nonterminal is restless, there are therefore no more trees on a stack
than its tokens allow, and these are no larger than their tokens allow. But every reduction makes a tree larger and
reads no token.

Where a nonterminal is restless, a table may be built for which reductions never end: of two rules that could be reduced
the one with the higher priority is, even if that is the one which leads back.
-/
import GrammarKit.Proofs.Grammar.Restless
import GrammarKit.Proofs.LR.Calls

namespace GrammarKit.LR

/-! ## Rules of a state -/

/-- A rule that begins in a state was in its kernel, or is what some rule of the kernel has next on the left. -/
theorem exists_leftCorner {rules : List Rule} {k : Kernel} : ∀ d ∈ closure rules k, d ∈ k ∨ d.dot = 0 ∧
    ∃ e ∈ k, ∃ n r v, e.next? rules = some (.nonterminal n) ∧ rules[d.rule]? = some r ∧
      Derives rules [.nonterminal n] (.nonterminal r.origin :: v) := by
  refine closure_induction (fun d hd => .inl hd) fun d hd e he => ?_
  obtain ⟨r, i, hn, hr, rfl⟩ := mem_begins.1 he
  refine .inr ⟨rfl, ?_⟩
  rcases hd with hd | ⟨hdot, x, hx, n, s, v, hxn, hs, hderives⟩
  · exact ⟨d, hd, _, r, [], hn, hr, .refl⟩
  · obtain ⟨s', hs', hnext⟩ := DottedRule.next?_eq_some_iff.1 hn
    obtain rfl := Option.some.inj (hs.symm.trans hs')
    rw [hdot, ← List.head?_eq_getElem?, List.head?_eq_some_iff] at hnext
    obtain ⟨rest, hrest⟩ := hnext
    refine ⟨x, hx, n, r, rest ++ v, hxn, hr, hderives.tail ?_⟩
    have := (Rewrites.of_rule (List.mem_of_getElem? hs)).append_right v
    rw [hrest] at this
    exact this

theorem symbols_eq_of_next {rules : List Rule} {d : DottedRule} {r : Rule} {s : Symbol} (hr : rules[d.rule]? = some r)
    (hn : d.next? rules = some s) : r.symbols = r.symbols.take d.dot ++ s :: r.symbols.drop (d.dot + 1) := by
  rw [← DottedRule.rest_eq hr, (DottedRule.ahead_of_next hn).2, ← (DottedRule.ahead_of_next hn).1,
    DottedRule.ahead_eq hr, List.take_append_drop]

section Stacks

variable {rules : List Rule} {start : List String} {name : String} {first : Nat}
  (hf : (Automaton.ofRules rules start).start? name = some first)
include hf

/-- The rules of a state lead from the root rule of the start symbol. -/
theorem Stacked.leadsTo {states : List Nat} {ds : List Derivation} {ts : List Token}
    (h : Stacked (Automaton.ofRules rules start) first states ds ts) : ∀ {i : Nat} {below : List Nat} {k : Kernel},
    states = i :: below → (Automaton.ofRules rules start).states[i]? = some k →
    ∀ d ∈ closure (Automaton.ofRules rules start).rules k,
    ∀ r, (Automaton.ofRules rules start).rules[d.rule]? = some r →
      LeadsTo (Automaton.ofRules rules start).rules (rootRule name).origin r.origin := by
  -- a rule that begins is led to by the rule where it begins
  have hbegins : ∀ d : DottedRule, (∀ r, (Automaton.ofRules rules start).rules[d.rule]? = some r →
      LeadsTo (Automaton.ofRules rules start).rules (rootRule name).origin r.origin) →
      ∀ e ∈ LR.begins (Automaton.ofRules rules start).rules d, ∀ r,
        (Automaton.ofRules rules start).rules[e.rule]? = some r →
        LeadsTo (Automaton.ofRules rules start).rules (rootRule name).origin r.origin := by
    intro d hd e he r hr
    obtain ⟨r', i, hn, hr', rfl⟩ := mem_begins.1 he
    obtain rfl := Option.some.inj (hr.symm.trans hr')
    obtain ⟨s, hs, hnext⟩ := DottedRule.next?_eq_some_iff.1 hn
    exact (hd s hs).step (List.mem_of_getElem? hs) (List.mem_of_getElem? hnext)
  induction h with
  | start =>
    intro i below k hs hk
    obtain ⟨rfl, rfl⟩ := List.cons.inj hs
    obtain ⟨hi, hfirst⟩ := Automaton.start?_eq_some hf
    obtain rfl := Option.some.inj (hk.symm.trans hfirst)
    refine closure_induction (fun d hd r hr => ?_) hbegins
    rw [List.mem_singleton.1 hd, Automaton.getElem?_root hi] at hr
    obtain rfl := Option.some.inj hr
    exact .refl _
  | push h ht _ ih =>
    intro i below k hs hk
    obtain ⟨rfl, rfl⟩ := List.cons.inj hs
    obtain ⟨k0, hk0, -⟩ := h.kernel hf
    obtain rfl := Option.some.inj (hk.symm.trans (Automaton.getElem?_target hk0 ht))
    refine closure_induction (fun d hd r hr => ?_) hbegins
    obtain ⟨e, he, -, rfl⟩ := mem_advanced.1 hd
    exact ih rfl hk0 e he r hr

omit hf in
/-- A state that is not the first one was entered with a rule whose dot has moved. -/
theorem Stacked.exists_moved {i : Nat} {below : List Nat} {ds : List Derivation} {ts : List Token}
    (h : Stacked (Automaton.ofRules rules start) first (i :: below) ds ts) (hds : ds ≠ []) :
    ∃ k d r, (Automaton.ofRules rules start).states[i]? = some k ∧ d ∈ k ∧ d.dot ≠ 0 ∧
      (Automaton.ofRules rules start).rules[d.rule]? = some r := by
  generalize hs : i :: below = states at h
  cases h with
  | start => exact absurd rfl hds
  | push h ht _ =>
    obtain ⟨rfl, rfl⟩ := List.cons.inj hs
    obtain ⟨k0, hk0, ⟨e, he, hn⟩, -⟩ := Automaton.target?_eq_some_iff.1 ht
    obtain ⟨r, hr, -⟩ := DottedRule.next?_eq_some_iff.1 hn
    exact ⟨_, e.advance, r, Automaton.getElem?_target hk0 ht, mem_advanced.2 ⟨e, he, hn, rfl⟩, Nat.succ_ne_zero _, hr⟩

/-- Trees without tokens that reach further down than the dot of a rule: the symbols before the dot vanish, and the rule
was begun behind the trees that are left. -/
theorem Stacked.exists_below {i : Nat} {below : List Nat} {es rest : List Derivation} {ts : List Token} {k : Kernel}
    {d : DottedRule} {r : Rule} (h : Stacked (Automaton.ofRules rules start) first (i :: below) (es ++ rest) ts)
    (hes : ∀ e ∈ es, e.leaves = []) (hk : (Automaton.ofRules rules start).states[i]? = some k) (hd : d ∈ k)
    (hr : (Automaton.ofRules rules start).rules[d.rule]? = some r) (hlt : d.dot < es.length) :
    d.dot ≤ r.symbols.length ∧ Derives (Automaton.ofRules rules start).rules (r.symbols.take d.dot) [] ∧
    ∃ j below' ts' k' e s v, Stacked (Automaton.ofRules rules start) first (j :: below') (es.drop d.dot ++ rest) ts' ∧
      (Automaton.ofRules rules start).states[j]? = some k' ∧ e ∈ k' ∧ e.dot ≠ 0 ∧
      (Automaton.ofRules rules start).rules[e.rule]? = some s ∧
      Nests (Automaton.ofRules rules start).rules s.origin r.origin (s.symbols.take e.dot) v := by
  obtain ⟨j, below', ts', us, k', -, hbelow, -, htrees, hk', hbegin⟩ := h.pop hf hk (mem_closure_of_mem hd) hr
  rw [List.take_append_of_le_length (Nat.le_of_lt hlt)] at htrees
  rw [List.drop_append_of_le_length (Nat.le_of_lt hlt)] at hbelow
  have hlen := htrees.length_eq
  rw [List.length_reverse, List.length_take, List.length_take] at hlen
  obtain rfl : us = [] := by
    rw [← htrees.leaves_eq]
    exact Derivation.leavesAll_eq_nil fun e he => hes e (List.mem_of_mem_take (List.mem_reverse.1 he))
  refine ⟨by omega, htrees.yields.derives_nil, j, below', ts', k', ?_⟩
  -- the rule was not in the kernel below, so it begins after the dot of one that was
  have hmoved : ∀ e ∈ k', e.dot ≠ 0 := by
    obtain ⟨k0, hk0, hcase⟩ := hbelow.kernel hf
    obtain rfl := Option.some.inj (hk'.symm.trans hk0)
    refine hcase.resolve_left fun ⟨_, _, _, hnil, _⟩ => ?_
    have := congrArg List.length hnil
    rw [List.length_append, List.length_drop, List.length_nil] at this
    omega
  rcases exists_leftCorner _ hbegin with hmem | ⟨-, e, he, n, r', v, hn, hr', hderives⟩
  · exact absurd rfl (hmoved _ hmem)
  · obtain rfl := Option.some.inj (hr'.symm.trans hr)
    obtain ⟨s, hs, -⟩ := DottedRule.next?_eq_some_iff.1 hn
    exact ⟨e, s, _, hbelow, hk', he, hmoved e he, hs,
      (Nests.of_rule (List.mem_of_getElem? hs) (symbols_eq_of_next hs hn)).derives hderives⟩

section Calm

variable (hcalm : ∀ n, LeadsTo (Automaton.ofRules rules start).rules (rootRule name).origin n →
  ¬ Restless (Automaton.ofRules rules start).rules n)
include hcalm

/-- Trees without tokens on top of a stack, over a state that was entered with a rule; `seen` are nonterminals that
this rule has begun again behind symbols that vanish. -/
theorem Stacked.length_empty_le_of_seen (es : List Derivation) : ∀ {i j : Nat} {below : List Nat}
    {rest : List Derivation} {ts : List Token} {k : Kernel} {d : DottedRule} {r : Rule} {seen : List String},
    Stacked (Automaton.ofRules rules start) first (i :: below) (es ++ rest) ts → (∀ e ∈ es, e.leaves = []) →
    (Automaton.ofRules rules start).states[i]? = some k → d ∈ k → d.dot ≠ 0 →
    (Automaton.ofRules rules start).rules[d.rule]? = some r → seen.Nodup →
    (∀ x ∈ seen, (∃ s ∈ (Automaton.ofRules rules start).rules, s.origin = x) ∧ ∃ u v,
      Nests (Automaton.ofRules rules start).rules r.origin x (r.symbols.take d.dot ++ u) v ∧
      Derives (Automaton.ofRules rules start).rules u []) →
    (Automaton.ofRules rules start).rules.length ≤ j + seen.length →
    es.length ≤ longestRule (Automaton.ofRules rules start).rules * (j + 1) := by
  induction hsize : es.length using Nat.strongRecOn generalizing es with
  | ind size ih =>
    subst hsize
    intro i j below rest ts k d r seen h hes hk hd hdot hr hnodup hseen hj
    have hmem := List.mem_of_getElem? hr
    have hrule := length_le_longestRule hmem
    rcases Nat.lt_or_ge d.dot es.length with hlt | hge
    · obtain ⟨hle, hvanish, i', below', ts', k', e, s, v, h', hk', he, hedot, hs, hnest⟩ :=
        h.exists_below hf hes hk hd hr hlt
      have hnew : r.origin ∉ seen := by
        intro hx
        obtain ⟨-, u, w, hself, hu⟩ := hseen _ hx
        refine hcalm _ (h.leadsTo hf rfl hk d (mem_closure_of_mem hd) r hr)
          ⟨_, _, hself, by simpa using hvanish.append hu, .inl fun hnil => ?_⟩
        have := congrArg List.length (List.append_eq_nil_iff.1 hnil).1
        rw [List.length_take, List.length_nil] at this
        omega
      have hnodup' : (r.origin :: seen).Nodup := List.nodup_cons.2 ⟨hnew, hnodup⟩
      obtain ⟨j, rfl⟩ := exists_succ_of_origins hnodup' ⟨r, hmem, rfl⟩ (fun x hx => (hseen x hx).1) hj
      have hlen : (es.drop d.dot).length = es.length - d.dot := List.length_drop ..
      have hbelow := ih (es.drop d.dot).length (by omega) (es.drop d.dot) rfl h'
        (fun x hx => hes x (List.mem_of_mem_drop hx)) hk' he hedot hs hnodup' (j := j) (fun x hx => ?_)
        (by rw [List.length_cons]; omega)
      · rw [hlen] at hbelow
        rw [Nat.mul_succ]
        omega
      · rcases List.mem_cons.1 hx with rfl | hx
        · exact ⟨⟨r, hmem, rfl⟩, [], v, by simpa using hnest, .refl⟩
        · obtain ⟨hx, u, w, hn, hu⟩ := hseen x hx
          exact ⟨hx, _, _, hnest.trans hn, by simpa using hvanish.append hu⟩
    · -- the trees are those of symbols of one rule
      obtain ⟨-, -, -, us, -, -, -, -, htrees, -, -⟩ := h.pop hf hk (mem_closure_of_mem hd) hr
      have hlen := htrees.length_eq
      rw [List.length_reverse, List.length_take, List.length_take, List.length_append] at hlen
      have hmul : longestRule (Automaton.ofRules rules start).rules ≤
        longestRule (Automaton.ofRules rules start).rules * (j + 1) := Nat.le_mul_of_pos_right _ (Nat.succ_pos j)
      omega

/-- Trees without tokens on top of a stack are no more than the rules allow. -/
theorem Stacked.length_empty_le {states : List Nat} {es rest : List Derivation} {ts : List Token}
    (h : Stacked (Automaton.ofRules rules start) first states (es ++ rest) ts) (hes : ∀ e ∈ es, e.leaves = []) :
    es.length ≤
      longestRule (Automaton.ofRules rules start).rules * ((Automaton.ofRules rules start).rules.length + 1) := by
  rcases es with _ | ⟨e, es⟩
  · exact Nat.zero_le _
  · obtain ⟨i, below, rfl⟩ := h.exists_cons
    obtain ⟨k, d, r, hk, hd, hdot, hr⟩ := h.exists_moved (by simp)
    exact h.length_empty_le_of_seen hf hcalm _ hes hk hd hdot hr List.nodup_nil (by simp) (Nat.le_refl _)

/-- The trees on a stack are no more than its tokens allow. -/
theorem Stacked.length_le {states : List Nat} {ds : List Derivation} {ts : List Token}
    (h : Stacked (Automaton.ofRules rules start) first states ds ts) : ∃ es rest, ds = es ++ rest ∧
      (∀ e ∈ es, e.leaves = []) ∧ ds.length ≤ ts.length * (longestRule (Automaton.ofRules rules start).rules *
        ((Automaton.ofRules rules start).rules.length + 1) + 1) + es.length := by
  induction h with
  | start => exact ⟨[], [], rfl, by simp, Nat.zero_le _⟩
  | @push i j states ds ts us s d h ht hd ih =>
    obtain ⟨es, rest, rfl, hes, hle⟩ := ih
    rcases us with _ | ⟨u, us⟩
    · refine ⟨d :: es, rest, rfl, fun e he => ?_, ?_⟩
      · rcases List.mem_cons.1 he with rfl | he
        · have := hd.leaves_eq
          rwa [Derivation.leavesAll, Derivation.leavesAll, List.append_nil] at this
        · exact hes e he
      · rw [List.length_cons, List.length_cons, List.append_nil]
        omega
    · -- a tree with a token, on top of trees without any
      have hempty := h.length_empty_le hf hcalm hes
      refine ⟨[], _, rfl, by simp, ?_⟩
      generalize longestRule (Automaton.ofRules rules start).rules *
        ((Automaton.ofRules rules start).rules.length + 1) = bound at hle hempty ⊢
      have hlen : ts.length + 1 ≤ (ts ++ u :: us).length := by simp
      have hmul := Nat.mul_le_mul_right (bound + 1) hlen
      rw [Nat.succ_mul] at hmul
      rw [List.length_cons, List.length_nil]
      omega

/-- The trees on a stack are no larger than its tokens allow. -/
theorem Stacked.size_le {states : List Nat} {ds : List Derivation} {ts : List Token}
    (h : Stacked (Automaton.ofRules rules start) first states ds ts) :
    ∀ d ∈ ds, d.size ≤ sizeLimit (Automaton.ofRules rules start).rules ts.length := by
  induction h with
  | start => simp
  | @push i j states ds ts us s d h ht hd ih =>
    intro e he
    rcases List.mem_cons.1 he with rfl | he
    · obtain ⟨k, hk, ⟨x, hx, hn⟩, -⟩ := Automaton.target?_eq_some_iff.1 ht
      obtain ⟨r, hr, hs⟩ := DottedRule.next?_eq_some_iff.1 hn
      refine Nat.le_trans (Trees.size_le hcalm hd fun n hsn => ?_) (sizeLimit_mono (by simp))
      exact (h.leadsTo hf rfl hk x hx r hr).step (List.mem_of_getElem? hr) (hsn ▸ List.mem_of_getElem? hs)
    · exact Nat.le_trans (ih e he) (sizeLimit_mono (by simp))

/-- All trees on a stack together are no larger than its tokens allow. -/
theorem Stacked.exists_sizeAll_le (n : Nat) : ∃ limit, ∀ {states : List Nat} {ds : List Derivation} {ts : List Token},
    Stacked (Automaton.ofRules rules start) first states ds ts → ts.length = n → Derivation.sizeAll ds ≤ limit := by
  refine ⟨(n *
    (longestRule (Automaton.ofRules rules start).rules * ((Automaton.ofRules rules start).rules.length + 1) + 1) +
    longestRule (Automaton.ofRules rules start).rules * ((Automaton.ofRules rules start).rules.length + 1)) *
    sizeLimit (Automaton.ofRules rules start).rules n, fun {states ds ts} h hn => ?_⟩
  subst hn
  obtain ⟨es, rest, rfl, hes, hle⟩ := h.length_le hf hcalm
  have hempty := h.length_empty_le hf hcalm hes
  exact Nat.le_trans (Derivation.sizeAll_le (h.size_le hf hcalm)) (Nat.mul_le_mul_right _ (by omega))

end Calm

end Stacks

/-! ## Feeding -/

/-- Whatever a machine was fed: if no nonterminal that the start symbol leads to is restless, reductions before a token
come to an end, and feeding the token to what the machine answers there. In any case they come to an end unless feeding
tells that they do not. -/
theorem Machine.Reached.feed_settles {c : ParserConfig} {strict : Bool} {p : Parser} {name : String} {m : Machine}
    (hp : Parser.ofConfig c strict = .ok p) (hm : m.Reached p name) (t : Token) (atEnd : Bool) :
    ((∀ n, LeadsTo p.table.rules (rootRule name).origin n → ¬ Restless p.table.rules n) →
      ∃ n m1, m.Runs p t.kind n [] m1 ∧ m1.Answers p t atEnd (m.feed p t atEnd)) ∧
    ((∃ n m1, m.Runs p t.kind n [] m1 ∧ m1.AtRest p t.kind) ↔
      (m.feed p t atEnd).1 ≠ .error (.grammar (.endlessReduction t.kind))) := by
  have ht := Table.realizes_of_build (Parser.ofConfig_eq_ok hp).1
  obtain ⟨first, hf, ds, ts, h⟩ := hm.stacked hp
  have hcases := h.feed_cases ht hf t atEnd
  refine ⟨fun hcalm => ?_, ?_⟩
  · rw [ht.rules] at hcalm
    obtain ⟨limit, hlimit⟩ := Stacked.exists_sizeAll_le hf hcalm ts.length
    -- there are no more reductions than that
    rcases h.runs_or_endless ht hf t atEnd (limit + 1) with ⟨n, m1, hr, hans⟩ | ⟨m1, hr, -⟩
    · exact hcases.resolve_right fun ⟨hno, _⟩ => hno n m1 hr hans.atRest
    · obtain ⟨ds1, h1, hsize⟩ := h.runs ht hf hr
      have := hlimit h1 (by rw [List.append_nil])
      omega
  · constructor
    · rintro ⟨n, m1, hr, hrest⟩ hend
      rcases hcases with ⟨k, m2, -, hans⟩ | ⟨hno, -⟩
      · generalize m.feed p t atEnd = result at hans hend
        cases hans <;> cases hend
      · exact hno n m1 hr hrest
    · intro hne
      rcases hcases with ⟨k, m2, hr, hans⟩ | ⟨-, k, m2, -, hfeed⟩
      · exact ⟨k, m2, hr, hans.atRest⟩
      · rw [hfeed] at hne
        exact absurd rfl hne

/-- While a sum of two numbers is read, reductions come to an end: the first number is reduced to a sum. -/
theorem feed_settles_sums : ∃ m : Machine, Parser.ofConfig ⟨sums, {}, ["sum"], false⟩ true = .ok sumsParser ∧
    m.Reached sumsParser "sum" ∧ m.states = [2, 0] ∧
    (∀ n, LeadsTo sumsTable.rules (rootRule "sum").origin n → ¬ Restless sumsTable.rules n) ∧
    ∃ n m1, m.Runs sumsParser "PLUS" n [] m1 ∧
      m1.Answers sumsParser (.ofText "PLUS" "+") false (m.feed sumsParser (.ofText "PLUS" "+") false) := by
  have hrank : ∀ r ∈ sumsTable.rules, ∀ n, r.symbols = [.nonterminal n] →
      (if n = "sum" then 0 else 1) < if r.origin = "sum" then 0 else 1 := by
    intro r hr n hs
    simp only [sumsTable, sums, List.cons_append, List.nil_append, List.mem_cons, List.not_mem_nil, or_false] at hr
    rcases hr with rfl | rfl | rfl
    · cases hs
    · cases hs
    · cases hs
      decide
  have hcalm : ∀ n, ¬ Restless sumsTable.rules n := not_restless (by decide) hrank
  have hm : (Machine.feed sumsParser { states := [0] } (.ofText "NUMBER" "1") false).2.Reached sumsParser "sum" :=
    .feed (.start rfl) _ _
  exact ⟨_, ofConfig_sums, hm, rfl, fun n _ => hcalm n,
    (hm.feed_settles ofConfig_sums (.ofText "PLUS" "+") false).1 fun n _ => hcalm n⟩

/-- Stacks that are reduced to one another are reduced forever. -/
theorem Machine.runs_forever {p : Parser} {terminal : String} {P : List Nat → Prop}
    (hP : ∀ states, P states → ∃ states', p.reduceStates terminal states = some states' ∧ P states') (n : Nat) :
    ∀ {m : Machine}, P m.states → ∃ m', m.Runs p terminal n [] m' := by
  induction n with
  | zero => exact fun {m} _ => ⟨m, .done⟩
  | succ n ih =>
    intro m hm
    obtain ⟨states', hs, hm'⟩ := hP _ hm
    obtain ⟨i, r, j, hmove, hr, hj, rfl⟩ := Parser.reduceStates_eq_some_iff.1 hs
    obtain ⟨m1, hred, hm1⟩ : ∃ m1, m.reduce p r = .reduced m1 ∧ m1.states = j :: m.states.drop r.parts.length := by
      rw [Machine.reduce, show p.table.goto? (m.drop r).current r.origin = some j from hj]
      exact ⟨_, rfl, rfl⟩
    rw [← hm1] at hm'
    obtain ⟨m', hrun⟩ := ih hm'
    exact ⟨m', .reduce hmove hr hred hrun⟩

/-- A name that stands for another one, which stands for the first one, and has the higher priority. -/
def nameCycle : List Rule :=
  [⟨"start", [⟨.nonterminal "s", false⟩], 0, none, {}⟩, ⟨"s", [⟨.nonterminal "a", false⟩], 0, none, {}⟩,
    ⟨"s", [⟨.terminal "X", false⟩], 1, none, {}⟩, ⟨"a", [⟨.nonterminal "s", false⟩], 0, none, { priority := some 1 }⟩]

def nameCycleTable : Table where
  rules := nameCycle ++ [rootRule "start"]
  rows := [
    ⟨[("X", .shift 4)], [("a", 1), ("s", 2), ("start", 3)]⟩,
    ⟨[(endMarker, .reduce 1)], []⟩,
    ⟨[(endMarker, .reduce 3)], []⟩,
    ⟨[(endMarker, .accept)], []⟩,
    ⟨[(endMarker, .reduce 2)], []⟩]
  starts := [("start", 0)]

set_option maxRecDepth 4000 in
theorem build_nameCycle : Table.build nameCycle ["start"] true = .ok nameCycleTable := by cbv

/-- After a letter the end is never reached: each of the two names is reduced to the other one. -/
theorem feed_endless : Table.build nameCycle ["start"] true = .ok nameCycleTable ∧ ∃ m : Machine,
    m.Reached { table := nameCycleTable, actions := {} } "start" ∧
    ∀ n, ∃ m', m.Runs { table := nameCycleTable, actions := {} } endMarker n [] m' := by
  refine ⟨build_nameCycle, _, .feed (.start rfl) (.ofText "X" "x") false, fun n => ?_⟩
  refine Machine.runs_forever (P := fun states => states ∈ [[4, 0], [2, 0], [1, 0]]) ?_ n (by decide)
  intro states hs
  simp only [List.mem_cons, List.not_mem_nil, or_false] at hs
  rcases hs with rfl | rfl | rfl
  · exact ⟨[2, 0], rfl, by decide⟩
  · exact ⟨[1, 0], rfl, by decide⟩
  · exact ⟨[2, 0], rfl, by decide⟩

end GrammarKit.LR
