/-
Strict tables and ambiguity. Where a strict table is built for rules without priorities, no state has a rule to reduce
before a terminal beside another rule or beside a shift. Only the root rules are not compared with anything: where one
of them is complete, the input is accepted, whatever else could be reduced. But a state in which the root rule is
complete is entered over the start symbol from its first state alone, and before the end marker another rule can be
complete there only if the start symbol derives itself. So candidates are unique and the grammar is unambiguous, unless
that is the case; and a symbol that derives itself has a larger tree over the same tokens for each of its trees.
-/
import GrammarKit.Proofs.Grammar.Restless
import GrammarKit.Proofs.Grammar.Verdict
import GrammarKit.Proofs.LR.Calls
import GrammarKit.Proofs.LR.Recovery

namespace GrammarKit

/-- A nonterminal that derives itself and some tokens has several trees over these. -/
theorem not_unambiguous_of_derives {rules : List Rule} {n : String} {ts : List Token}
    (hy : Yields rules IsNamed [.nonterminal n] ts) (h : DerivesItself rules n) : ¬ Unambiguous rules n := by
  intro hone
  obtain ⟨ds, hds⟩ := hy.trees
  obtain ⟨ds', hds', hlt⟩ := hds.of_derives h
  obtain ⟨i, -, cs, -, -, hd, -⟩ := trees_nonterminal_iff.1 hds
  obtain ⟨j, -, cs', -, -, hd', -⟩ := trees_nonterminal_iff.1 hds'
  subst hd hd'
  rw [hone ts _ _ hds hds'] at hlt
  exact Nat.lt_irrefl _ hlt

namespace LR

/-! ## Rows without conflicts -/

/-- Rules of one priority are not chosen among. -/
theorem eq_of_chooseReduction {rules : List Rule} {state : Nat} {terminal : String} {candidates : List Nat} {i : Nat}
    {r : Rule} (h : chooseReduction rules state terminal candidates = .ok (i, r))
    (hprio : ∀ r ∈ rules, r.priority = 0) {j : Nat} (hj : j ∈ candidates) {s : Rule} (hs : rules[j]? = some s) :
    j = i := by
  unfold chooseReduction at h
  dsimp only at h
  split at h
  · rename_i winner hw
    cases h
    have hmem : (j, s) ∈ [(i, r)] := by
      rw [← hw]
      refine List.mem_filter.2 ⟨List.mem_filterMap.2 ⟨j, hj, by rw [hs]; rfl⟩, List.all_eq_true.2 fun x hx => ?_⟩
      obtain ⟨k, -, hk⟩ := List.mem_filterMap.1 hx
      obtain ⟨t, ht, rfl⟩ := Option.map_eq_some_iff.1 hk
      simp [hprio s (List.mem_of_getElem? hs), hprio t (List.mem_of_getElem? ht)]
    exact congrArg Prod.fst (List.mem_singleton.1 hmem)
  · cases h

/-- What complete rules add to a strict row: a root rule is among them, or there is one of them and no shift. -/
theorem addReduction_strict {rules : List Rule} {isRoot : Nat → Bool} {state : Nat}
    {moves moves' : List (String × Move)} {terminal : String} {candidates : List Nat}
    (h : addReduction rules isRoot true state moves terminal candidates = .ok moves')
    (hprio : ∀ r ∈ rules, r.priority = 0) : candidates.any isRoot = true ∨
      (∀ target, moves.lookup terminal ≠ some (.shift target)) ∧
      ∃ i, ∀ j ∈ candidates, (∃ s, rules[j]? = some s) → j = i := by
  unfold addReduction at h
  split at h
  · rename_i hroot
    exact .inl hroot
  · right
    cases hc : chooseReduction rules state terminal candidates with
    | error e => rw [hc] at h; cases h
    | ok winner =>
      obtain ⟨i, r⟩ := winner
      refine ⟨fun target hs => ?_, i, fun j hj ⟨s, hs⟩ => eq_of_chooseReduction hc hprio hj hs⟩
      rw [hc, hs] at h
      cases h

namespace Automaton

/-- Before a terminal nothing is shifted and no two rules are reduced. -/
structure Undisputed (a : Automaton) (state : Nat) (k : Kernel) (terminal : String) : Prop where
  shift : ∀ target, a.target? state (.terminal terminal) ≠ some target
  reduce : ∃ i, ∀ j ∈ a.reductions state k terminal, j = i

/-- What holds of the moves of a state while complete rules are added strictly. -/
structure AddingStrictly (a : Automaton) (state : Nat) (k : Kernel) (done : List String)
    (moves : List (String × Move)) : Prop where
  shifts : ∀ terminal ∉ done, moves.lookup terminal = (a.target? state (.terminal terminal)).map .shift
  decided : ∀ terminal ∈ done, (a.reductions state k terminal).any a.isRoot = true ∨ a.Undisputed state k terminal

section Rows

variable {a : Automaton} {state : Nat} {k : Kernel}

theorem AddingStrictly.step (hk : a.states[state]? = some k) (hprio : ∀ r ∈ a.rules, r.priority = 0)
    {done : List String} {moves moves' : List (String × Move)} {terminal : String}
    (h : a.AddingStrictly state k done moves)
    (hm : addReduction a.rules a.isRoot true state moves terminal (a.reductions state k terminal) = .ok moves') :
    a.AddingStrictly state k (done ++ [terminal]) moves' := by
  refine ⟨fun x hx => ?_, fun x hx => ?_⟩
  · obtain ⟨hx, hne⟩ : x ∉ done ∧ x ≠ terminal := by simpa using hx
    rw [(addReduction_eq_ok hm).1 x hne, h.shifts x hx]
  · by_cases hdone : x ∈ done
    · exact h.decided x hdone
    · obtain rfl : x = terminal := by simpa [hdone] using hx
      rcases addReduction_strict hm hprio with hroot | ⟨hshift, i, hi⟩
      · exact .inl hroot
      · refine .inr ⟨fun target ht => hshift target ?_, ⟨i, fun j hj => hi j hj ?_⟩⟩
        · rw [h.shifts x hdone, ht]
          rfl
        · obtain ⟨d, -, hd, rfl⟩ := (mem_reductions hk).1 hj
          obtain ⟨r, hr, -⟩ := DottedRule.isComplete_iff.1 hd
          exact ⟨r, hr⟩

/-- In a strict row there is one candidate before a terminal, unless a root rule is complete. -/
theorem row_strict {row : Row} (hk : a.states[state]? = some k) (hprio : ∀ r ∈ a.rules, r.priority = 0)
    (h : a.row a.sets (a.facts a.sets) true state k = .ok row) {terminal : String} {m m' : Move}
    (hm : a.Candidate state terminal m) (hm' : a.Candidate state terminal m') :
    m = m' ∨ a.Candidate state terminal .accept := by
  have hadd := foldlM_induction (I := a.AddingStrictly state k) (fun done terminal moves moves' hb hs =>
    hb.step hk hprio hs) _ [] _ _ ⟨fun _ _ => lookup_shifts_eq, fun _ h => by cases h⟩ (row_eq_ok_iff.1 h).1
  -- where a rule is complete, the terminal was decided on
  have hdec : ∀ {d : DottedRule}, a.Entered state ⟨d, terminal⟩ → d.isComplete a.rules = true →
      a.Candidate state terminal .accept ∨ a.Undisputed state k terminal := by
    intro d he hd
    have hmem : terminal ∈ sortedNames ((a.completed a.sets (a.facts a.sets) state k).map (·.follower)) :=
      mem_sortedNames.2 (List.mem_map.2 ⟨⟨d, terminal⟩, (mem_completed hk).2 ⟨he, hd⟩, rfl⟩)
    rcases hadd.decided terminal (by rwa [List.nil_append]) with hroot | h
    · obtain ⟨i, hi, hr⟩ := List.any_eq_true.1 hroot
      obtain ⟨d, he, hd, rfl⟩ := (mem_reductions hk).1 hi
      exact .inl (.accept he hd hr)
    · exact .inr h
  cases hm with
  | accept he hd hr => exact .inr (.accept he hd hr)
  | shift ht =>
    cases hm' with
    | accept he hd hr => exact .inr (.accept he hd hr)
    | shift ht' =>
      rw [ht] at ht'
      exact .inl (by rw [Option.some.inj ht'])
    | reduce he hd _ => exact (hdec he hd).elim .inr fun h => absurd ht (h.shift _)
  | reduce he hd _ =>
    cases hm' with
    | accept he hd hr => exact .inr (.accept he hd hr)
    | shift ht => exact (hdec he hd).elim .inr fun h => absurd ht (h.shift _)
    | reduce he' hd' _ =>
      refine (hdec he hd).elim .inr fun ⟨_, i, hi⟩ => .inl ?_
      rw [hi _ ((mem_reductions hk).2 ⟨_, he, hd, rfl⟩), hi _ ((mem_reductions hk).2 ⟨_, he', hd', rfl⟩)]

end Rows

end Automaton

/-- Before a terminal at which a strict table has two candidates the input is accepted. -/
theorem Table.accept_of_strict {rules : List Rule} {start : List String} {t : Table}
    (h : Table.build rules start true = .ok t) (hprio : ∀ r ∈ rules, r.options.priority = none) {state : Nat}
    {terminal : String} {m m' : Move} (hm : (Automaton.ofRules rules start).Candidate state terminal m)
    (hm' : (Automaton.ofRules rules start).Candidate state terminal m') :
    m = m' ∨ (Automaton.ofRules rules start).Candidate state terminal .accept := by
  obtain ⟨rows, hrows, -⟩ := build_eq_ok_iff.1 h
  obtain ⟨k, hk⟩ := hm.exists_state
  obtain ⟨row, hrow, -⟩ := (mapM_ok hrows).2 state (k, state) (by simp [List.getElem?_zipIdx, hk])
  refine Automaton.row_strict hk (fun r hr => ?_) hrow hm hm'
  rcases List.mem_append.1 hr with hr | hr
  · rw [Rule.priority, hprio r hr]
    rfl
  · obtain ⟨n, -, rfl⟩ := List.mem_map.1 hr
    rfl

/-! ## Where the input is accepted -/

/-- A follower that is no terminal of the rules was there from the start, and the symbols that its rule has still ahead
are derived from those that the given rule has ahead. -/
theorem exists_of_follower {rules : List Rule} {names : List String} {entries : List Entry} {f : String}
    (hf : f ∉ ruleTerminals rules) : ∀ e ∈ closeEntries (.ofRules rules names) entries, e.follower = f →
    ∃ d, ⟨d, f⟩ ∈ entries ∧
      (e.item = d ∨ Relation.TransGen (Rewrites rules) (d.ahead rules) (e.item.ahead rules)) := by
  refine closeEntries_induction (fun e he hef => ⟨e.item, hef ▸ he, .inl rfl⟩) fun e ih x hx hxf => ?_
  obtain ⟨hb, hfirst | ⟨hn, hfollower⟩⟩ := mem_begins_entry.1 hx
  · exact absurd (hxf ▸ GrammarSets.mem_ruleTerminals_of_firstOfSequence (fun b => ruleTerminals_of_rest) hfirst) hf
  · obtain ⟨d, hd, hcase⟩ := ih (hfollower.symm.trans hxf)
    obtain ⟨r, i, hnext, hr, hitem⟩ := mem_begins.1 hb
    -- what comes after the next symbol vanishes, and the symbol is replaced
    have hstep : Relation.TransGen (Rewrites rules) (e.item.ahead rules) (x.item.ahead rules) := by
      rw [(DottedRule.ahead_of_next hnext).1, ← (DottedRule.ahead_of_next hnext).2, hitem,
        DottedRule.ahead_eq (d := ⟨i, 0⟩) hr, List.drop_zero]
      have hvanish : Yields rules IsNamed (e.item.rest rules) [] := allNullable_nullableNames_iff.1 hn
      have hrest := hvanish.derives_nil.append_left [.nonterminal r.origin]
      rw [List.append_nil] at hrest
      exact Relation.TransGen.tail' hrest (.of_rule (List.mem_of_getElem? hr))
    refine ⟨d, hd, .inr ?_⟩
    rcases hcase with rfl | hd
    · exact hstep
    · exact hd.trans hstep

namespace Automaton

variable {rules : List Rule} {start : List String}

/-- A state is entered with a root rule alone that nothing has moved in, or with rules that have moved on. -/
theorem states_cases : ∀ k ∈ (ofRules rules start).states, (∃ n, k = [⟨rules.length + n, 0⟩]) ∨ ∀ d ∈ k, d.dot ≠ 0 := by
  rw [states_eq]
  refine reachable_induction (fun k hk => ?_) fun k _ k' hk' => .inr fun d hd => ?_
  · obtain ⟨n, -, rfl⟩ := List.mem_map.1 hk
    exact .inl ⟨n, rfl⟩
  · obtain ⟨s, -, rfl⟩ := mem_moves hk'
    obtain ⟨e, -, -, rfl⟩ := mem_advanced.1 hd
    exact Nat.succ_ne_zero _

/-- An entry comes out of a rule under the mark when the dot moves over a symbol. -/
def Passes (a : Automaton) (d : DottedRule) (s : Symbol) (e : Entry) : Prop :=
  ∃ x, ⟨x, e.follower⟩ ∈ closeEntries a.sets [⟨d, anyMark⟩] ∧ x.next? a.rules = some s ∧ e.item = x.advance

/-- Only the first state of its start symbol leads to a state where a root rule is complete. -/
theorem eq_of_root_moved {i j n : Nat} {name : String} {s : Symbol} {k k' : Kernel} (hu : Unreserved rules start)
    (hn : start[n]? = some name) (hk : (ofRules rules start).states[i]? = some k)
    (ht : (ofRules rules start).target? i s = some j)
    (hk' : (ofRules rules start).states[j]? = some k') (hroot : ⟨rules.length + n, 1⟩ ∈ k') :
    k = [⟨rules.length + n, 0⟩] ∧ s = .nonterminal name := by
  obtain rfl := Option.some.inj ((getElem?_target hk ht).symm.trans hk')
  obtain ⟨e, he, hs, hadv⟩ := mem_advanced.1 hroot
  obtain ⟨rule, dot⟩ := e
  obtain ⟨rfl, rfl⟩ : rule = rules.length + n ∧ dot = 0 := by simpa [DottedRule.advance] using hadv
  obtain ⟨r, hr, hrs⟩ := DottedRule.next?_eq_some_iff.1 hs
  obtain rfl := Option.some.inj (hr.symm.trans (getElem?_root hn))
  refine ⟨?_, (Option.some.inj hrs).symm⟩
  have hmem : ⟨rules.length + n, 0⟩ ∈ k := by
    refine (mem_closure_cases _ he).resolve_right ?_
    rintro ⟨e', -, hb⟩
    have hno := isRoot_of_begins hu hb
    rw [isRoot_iff.2 ⟨n, name, hn, rfl⟩] at hno
    cases hno
  rcases states_cases k (List.mem_of_getElem? hk) with ⟨n', rfl⟩ | hmoved
  · obtain ⟨hn', -⟩ := DottedRule.mk.inj (List.mem_singleton.1 hmem)
    rw [hn']
  · exact absurd rfl (hmoved _ hmem)

/-- A root rule is complete after its start symbol. -/
theorem eq_of_root_complete {root : DottedRule} {n : Nat} {name : String} (hn : start[n]? = some name)
    (hrule : root.rule = rules.length + n) (hdone : root.isComplete (ofRules rules start).rules = true) :
    root = ⟨rules.length + n, 1⟩ := by
  obtain ⟨r, hr, hdot⟩ := DottedRule.isComplete_iff.1 hdone
  rw [hrule] at hr
  obtain rfl := Option.some.inj (hr.symm.trans (getElem?_root hn))
  obtain ⟨rule, dot⟩ := root
  exact congrArg₂ DottedRule.mk hrule hdot

section Unreserved

variable (hu : Unreserved rules start)
include hu

theorem not_mem_ruleTerminals_of_reserved {f : String} (hf : Reserved f) :
    f ∉ ruleTerminals (ofRules rules start).rules := by
  intro h
  obtain ⟨r, hr, hs⟩ := mem_ruleTerminals.1 h
  obtain ⟨i, hi⟩ := List.getElem?_of_mem hr
  obtain ⟨j, hj⟩ := List.getElem?_of_mem hs
  exact unreserved_of_next hu (DottedRule.next?_eq_some_iff.2 ⟨r, hi, hj⟩ : DottedRule.next? _ ⟨i, j⟩ = _) hf

theorem passes_of_root_moved {i state n : Nat} {name : String} {k k' : Kernel} {d : DottedRule} {l : Fact}
    (hn : start[n]? = some name) (hk : (ofRules rules start).states[state]? = some k)
    (hroot : ⟨rules.length + n, 1⟩ ∈ k) (hk' : (ofRules rules start).states[i]? = some k') (hd : d ∈ k')
    (hl : l ∈ ((ofRules rules start).passage (ofRules rules start).sets i d).leads) (hstate : l.state = state) :
    (ofRules rules start).Passes ⟨rules.length + n, 0⟩ (.nonterminal name) l.entry := by
  obtain ⟨e, he, s, target, hs, ht, rfl⟩ := mem_leads.1 hl
  obtain rfl : target = state := hstate
  obtain ⟨rfl, rfl⟩ := eq_of_root_moved hu hn hk' ht hk hroot
  rw [List.mem_singleton.1 hd] at he
  exact ⟨e.item, he, hs, rfl⟩

/-- Where a root rule is complete, the end marker comes after what the mark comes after. -/
theorem passes_of_fact {state n : Nat} {name : String} {k : Kernel} (hn : start[n]? = some name)
    (hk : (ofRules rules start).states[state]? = some k) (hroot : ⟨rules.length + n, 1⟩ ∈ k) {f : Fact}
    (hf : f ∈ (ofRules rules start).facts (ofRules rules start).sets) : f.state = state →
    f.entry.follower = endMarker →
    (ofRules rules start).Passes ⟨rules.length + n, 0⟩ (.nonterminal name) ⟨f.entry.item, anyMark⟩ := by
  refine facts_induction (P := fun f => f.state = state → f.entry.follower = endMarker →
    (ofRules rules start).Passes ⟨rules.length + n, 0⟩ (.nonterminal name) ⟨f.entry.item, anyMark⟩)
    (fun f h hs hend => ?_) (fun f _ p hp _ _ l hl hmark hs _ => ?_) f hf
  · rcases List.mem_append.1 h with h | h
    · -- the first state of a start symbol is entered with a rule that has not moved
      obtain ⟨⟨name', n', root⟩, -, hx⟩ := List.mem_filterMap.1 h
      obtain ⟨s, hstart, rfl⟩ := Option.map_eq_some_iff.1 hx
      obtain rfl : s = state := hs
      obtain rfl := Option.some.inj (hk.symm.trans (start?_eq_some hstart).2)
      simp at hroot
    · -- under the mark the end marker does not turn up
      obtain ⟨p, hp, hl⟩ := List.mem_flatMap.1 h
      obtain ⟨i, k', d, hk', hd, rfl⟩ := mem_passages.1 hp
      obtain ⟨x, hx, -⟩ := passes_of_root_moved hu hn hk hroot hk' hd (List.mem_filter.1 hl).1 hs
      obtain ⟨d', hd', -⟩ := exists_of_follower (not_mem_ruleTerminals_of_reserved hu reserved_endMarker) _ hx hend
      simp [anyMark, endMarker] at hd'
  · obtain ⟨i, k', d, hk', hd, rfl⟩ := mem_passages.1 hp
    obtain ⟨x, hx, hpass⟩ := passes_of_root_moved hu hn hk hroot hk' hd hl hs
    exact ⟨x, hmark ▸ hx, hpass⟩

/-- Rewriting a form of unreserved symbols takes the rules of the grammar alone. -/
theorem rewrites_of_rules {a b : List Symbol} (h : Rewrites (ofRules rules start).rules a b)
    (ha : ∀ s ∈ a, ¬ Reserved s.name) : Rewrites rules a b ∧ ∀ s ∈ b, ¬ Reserved s.name := by
  cases h with
  | @mk before after r hr =>
    rcases List.mem_append.1 hr with hr | hr
    · refine ⟨.mk before after hr, fun s hs => ?_⟩
      rcases List.mem_append.1 hs with hs | hs
      · exact ha s (List.mem_append_left _ hs)
      · rcases List.mem_append.1 hs with hs | hs
        · exact hu.symbol r hr s hs
        · exact ha s (List.mem_append_right _ (List.mem_cons_of_mem _ hs))
    · obtain ⟨n, -, rfl⟩ := List.mem_map.1 hr
      exact absurd (reserved_rootRule n) (ha (.nonterminal (rootRule n).origin) (by simp))

theorem transGen_of_rules {a b : List Symbol} (h : Relation.TransGen (Rewrites (ofRules rules start).rules) a b) :
    (∀ s ∈ a, ¬ Reserved s.name) → Relation.TransGen (Rewrites rules) a b := by
  induction h using Relation.TransGen.head_induction_on with
  | single h => exact fun ha => .single (rewrites_of_rules hu h ha).1
  | head h _ ih =>
    intro ha
    obtain ⟨h, hb⟩ := rewrites_of_rules hu h ha
    exact .head h (ih hb)

/-- A rule that is complete where a root rule is, before the end marker, makes its start symbol of itself. -/
theorem derivesItself_of_complete {state : Nat} {root d : DottedRule}
    (he : (ofRules rules start).Entered state ⟨root, endMarker⟩)
    (hroot : (ofRules rules start).isRoot root.rule = true) (hdone : root.isComplete (ofRules rules start).rules = true)
    (hd : (ofRules rules start).Entered state ⟨d, endMarker⟩) (hno : (ofRules rules start).isRoot d.rule = false)
    (hcomplete : d.isComplete (ofRules rules start).rules = true) :
    ∃ name ∈ start, DerivesItself rules name := by
  obtain ⟨n, name, hn, hrule⟩ := isRoot_iff.1 hroot
  have hr : (ofRules rules start).rules[rules.length + n]? = some (rootRule name) := getElem?_root hn
  obtain rfl := eq_of_root_complete hn hrule hdone
  obtain ⟨k, hk, hseed⟩ := he
  have hmem := (mem_seeds.1 (mem_of_closeEntries_root hu _ hseed hroot)).1
  -- the complete rule comes from one that has moved over the start symbol, and what is left of that vanishes
  obtain ⟨k', hk', hd⟩ := hd
  obtain rfl := Option.some.inj (hk.symm.trans hk')
  obtain ⟨y, hy, hyd⟩ := exists_of_follower (not_mem_ruleTerminals_of_reserved hu reserved_endMarker) _ hd rfl
  obtain ⟨x, hx, hnext, rfl⟩ := passes_of_fact hu hn hk hmem (mem_seeds.1 hy).2 rfl rfl
  have hnil := DottedRule.ahead_of_isComplete hcomplete
  have hvanish : Derives (ofRules rules start).rules (x.advance.ahead (ofRules rules start).rules) [] := by
    rcases hyd with rfl | hyd
    · rw [hnil]
      exact .refl
    · exact hnil ▸ hyd.to_reflTransGen
  -- that one begins inside the start symbol, which it begins with
  obtain ⟨R, hR, hRx⟩ := exists_of_follower
    (not_mem_ruleTerminals_of_reserved hu (reserved_iff.2 rfl : Reserved anyMark)) _ hx rfl
  obtain ⟨rfl, -⟩ := Entry.mk.inj (List.mem_singleton.1 hR)
  refine ⟨name, List.mem_of_getElem? hn, ?_⟩
  rcases hRx with rfl | hRx
  · -- the root rule itself has nothing left that the other could come from
    exfalso
    rcases hyd with rfl | hyd
    · cases hroot.symm.trans hno
    · obtain ⟨b, hb, -⟩ := Relation.TransGen.head'_iff.1 hyd
      rw [DottedRule.ahead_eq (d := DottedRule.advance _) hr] at hb
      exact not_rewrites_nil hb
  · rw [DottedRule.ahead_eq (d := ⟨_, 0⟩) hr, (DottedRule.ahead_of_next hnext).1] at hRx
    have hself := Relation.TransGen.trans_left hRx (hvanish.append_left [.nonterminal name])
    refine transGen_of_rules hu hself fun s hs => ?_
    rw [List.mem_singleton.1 hs]
    exact hu.start name (List.mem_of_getElem? hn)

/-- Where the input is accepted, nothing else is possible unless a start symbol derives itself. -/
theorem Candidate.eq_accept (hself : ∀ name ∈ start, ¬ DerivesItself rules name) {state : Nat} {terminal : String}
    {m : Move} (ha : (ofRules rules start).Candidate state terminal .accept)
    (hm : (ofRules rules start).Candidate state terminal m) : m = .accept := by
  cases ha with
  | @accept root he hdone hroot =>
    obtain rfl : terminal = endMarker := he.follower_eq hu hroot
    cases hm with
    | accept => rfl
    | shift ht =>
      obtain ⟨-, -, ⟨d, -, hd⟩, -⟩ := target?_eq_some_iff.1 ht
      exact absurd reserved_endMarker (unreserved_of_next hu hd)
    | reduce hd hcomplete hno =>
      obtain ⟨name, hname, h⟩ := derivesItself_of_complete hu he hroot hdone hd hno hcomplete
      exact absurd h (hself name hname)

end Unreserved

end Automaton

/-- A strict table leaves no choice where no start symbol derives itself. -/
theorem deterministic_of_strict {rules : List Rule} {start : List String} {t : Table} (hu : Unreserved rules start)
    (hprio : ∀ r ∈ rules, r.options.priority = none) (h : Table.build rules start true = .ok t)
    (hself : ∀ name ∈ start, ¬ DerivesItself rules name) :
    Deterministic rules start := by
  intro state terminal m m' hm hm'
  rcases Table.accept_of_strict h hprio hm hm' with heq | ha
  · exact heq
  · rw [ha.eq_accept hu hself hm, ha.eq_accept hu hself hm']

/-! ## One tree for one run -/

/-- A node that tells the place of its rule. -/
def numbered (i : Nat) : Action := fun children => .tree ⟨"", children, some ⟨i, 0, 0, 0, 0, 0⟩⟩

def numberedActions (rules : List Rule) : Actions := ⟨rules.zipIdx.map fun (r, i) => (r.production, numbered i)⟩

theorem lookup_numbered {r : Rule} : ∀ {rules : List Rule} {i : Nat} (n : Nat), (rules.map Rule.production).Nodup →
    rules[i]? = some r →
    ((rules.zipIdx n).map fun (r, i) => (r.production, numbered i)).lookup r.production = some (numbered (n + i))
  | s :: rules, 0, n, _, hr => by
    obtain rfl := Option.some.inj hr
    simp
  | s :: rules, i + 1, n, hone, hr => by
    obtain ⟨hnew, hone⟩ := List.nodup_cons.1 hone
    have hne : r.production ≠ s.production := by
      intro heq
      exact hnew (heq ▸ List.mem_map_of_mem (List.mem_of_getElem? hr))
    rw [List.zipIdx_cons, List.map_cons, List.lookup_cons, beq_eq_false_iff_ne.2 hne]
    rw [lookup_numbered (n + 1) hone hr, Nat.add_assoc, Nat.add_comm 1 i]

/-- Each rule's action tells its place, also among the rules of an automaton. -/
theorem atPlace_numbered {rules all : List Rule} (hone : (rules.map Rule.production).Nodup) {i : Nat} {r : Rule}
    (hr : rules[i]? = some r) (hall : all[i]? = some r) : (numberedActions rules).atPlace all i = numbered i := by
  rw [Actions.atPlace_eq hall, Actions.apply, Actions.find?]
  show (((rules.zipIdx 0).map fun (r, i) => (r.production, numbered i)).lookup r.production).getD _ = _
  rw [lookup_numbered 0 hone hr, Nat.zero_add]
  rfl

mutual

/-- Trees are told from each other by the places of their rules. -/
theorem build_numbered_inj : ∀ {d e : Derivation}, d.build numbered = e.build numbered → d = e
  | .token _, .token _, h => by
    injection h with h
    rw [h]
  | .token _, .node _ _, h => by cases h
  | .node _ _, .token _, h => by cases h
  | .node i cs, .node j es, h => by
    rw [Derivation.build, Derivation.build, numbered, numbered] at h
    injection h with h
    injection h with _ hcs hspan
    injection hspan with hspan
    injection hspan with hij
    rw [hij, buildAll_numbered_inj hcs]

theorem buildAll_numbered_inj : ∀ {ds es : List Derivation},
    Derivation.buildAll numbered ds = Derivation.buildAll numbered es → ds = es
  | [], [], _ => rfl
  | [], _ :: _, h => by cases h
  | _ :: _, [], h => by cases h
  | d :: ds, e :: es, h => by
    rw [Derivation.buildAll, Derivation.buildAll] at h
    obtain ⟨hd, hds⟩ := List.cons.inj h
    rw [build_numbered_inj hd, buildAll_numbered_inj hds]

end

/-- Where candidates are unique, the machine follows each tree of a sentence on the same run. -/
theorem unambiguous_of_deterministic {rules : List Rule} {start : List String} (hu : Unreserved rules start)
    (hone : (rules.map Rule.production).Nodup) (hd : Deterministic rules start) {name : String} (hn : name ∈ start) :
    Unambiguous rules name := by
  intro tokens d e hde hee
  obtain ⟨t, ht⟩ := Table.exists_build hd true
  have hreal := Table.realizes_of_build ht
  obtain ⟨first, hf⟩ := Automaton.exists_start hn
  let p : Parser := { table := t, actions := numberedActions rules }
  obtain ⟨m, hm, haccept, hvalue⟩ := runs_of_sentence (p := p) hu hd hreal hf hde
  obtain ⟨m', hm', haccept', hvalue'⟩ := runs_of_sentence (p := p) hu hd hreal hf hee
  have hsize : d.size = e.size := Nat.le_antisymm
    (hm.le_of_end hm' fun i hi => by cases haccept'.symm.trans hi)
    (hm'.le_of_end hm fun i hi => by cases haccept.symm.trans hi)
  have hsame : m = m' := by
    rw [← hsize] at hm'
    cases hm.sub (k := 0) hm'
    rfl
  have hact : ∀ i r, rules[i]? = some r → p.actions.atPlace p.table.rules i = numbered i := fun i r hr =>
    atPlace_numbered hone hr (by rw [hreal.rules]; exact Automaton.getElem?_of_rule hr)
  rw [hsame, hvalue', hde.build_congr hact, hee.build_congr hact] at hvalue
  exact (build_numbered_inj (List.cons.inj hvalue).1).symm

/-- Where a strict table is built for distinct rules without priorities, the start symbols have one tree for each token
list exactly if none of them derives itself. -/
theorem strict_unambiguous_iff {rules : List Rule} {start : List String} {t : Table} (hu : Unreserved rules start)
    (hp : Productive rules) (hone : (rules.map Rule.production).Nodup) (hprio : ∀ r ∈ rules, r.options.priority = none)
    (h : Table.build rules start true = .ok t) :
    (∀ name ∈ start, Unambiguous rules name) ↔ ∀ name ∈ start, ¬ DerivesItself rules name := by
  refine ⟨fun hall name hn hself => ?_, fun hself name hn =>
    unambiguous_of_deterministic hu hone (deterministic_of_strict hu hprio h hself) hn⟩
  obtain ⟨b, hb, -⟩ := Relation.TransGen.head'_iff.1 hself
  obtain ⟨r, hr, ho, -⟩ := rewrites_nonterminal_iff.1 hb
  obtain ⟨w, hw⟩ := hp.exists_yields ⟨r, hr, .inl ho⟩
  exact not_unambiguous_of_derives hw hself (hall name hn)

/-- Sums of numbers are read in one way. -/
theorem unambiguous_sums : Table.build sums ["sum"] true = .ok sumsTable ∧ ∀ name ∈ ["sum"], Unambiguous sums name := by
  have hu : Unreserved sums ["sum"] := by
    refine ⟨?_, ?_, ?_⟩ <;> simp [sums, reserved_iff, Rule.symbols, Symbol.name]
  have hp : Productive sums := by
    rintro n ⟨r, hr, hn⟩
    obtain rfl : n = "sum" := by
      simp only [sums, List.mem_cons, List.not_mem_nil, or_false] at hr
      rcases hr with rfl | rfl <;> simpa [Rule.symbols, eq_comm] using hn
    exact ⟨["NUMBER"], .single (.of_rule (r := sums[1]) (by simp [sums]))⟩
  -- no rule is a single nonterminal
  have hsingle : ∀ r ∈ sums, ∀ n, r.symbols ≠ [.nonterminal n] := by
    intro r hr n hs
    simp only [sums, List.mem_cons, List.not_mem_nil, or_false] at hr
    rcases hr with rfl | rfl <;> cases hs
  have hrank : ∀ r ∈ sums, ∀ n, r.symbols = [.nonterminal n] → n.length < r.origin.length :=
    fun r hr n hs => absurd hs (hsingle r hr n)
  exact ⟨build_sums, (strict_unambiguous_iff hu hp (by decide) (by decide) build_sums).2 fun name _ =>
    not_derivesItself (by decide) hrank name⟩

def oneLetterTable : Table where
  rules := oneLetter ++ [rootRule "s"]
  rows := [
    ⟨[("a", .shift 2)], [("s", 1)]⟩,
    ⟨[(endMarker, .accept)], []⟩,
    ⟨[(endMarker, .reduce 0)], []⟩]
  starts := [("s", 0)]

set_option maxRecDepth 4000 in
theorem build_oneLetter : Table.build oneLetter ["s"] true = .ok oneLetterTable := by cbv

/-- A letter, and a rule that changes nothing: the table is built strictly though that rule can be left out or taken. -/
theorem ambiguous_oneLetter : Unreserved oneLetter ["s"] ∧ Productive oneLetter ∧
    (oneLetter.map Rule.production).Nodup ∧ (∀ r ∈ oneLetter, r.options.priority = none) ∧
    Table.build oneLetter ["s"] true = .ok oneLetterTable ∧ ¬ Unambiguous oneLetter "s" := by
  have hletter : Rewrites oneLetter [.nonterminal "s"] [.terminal "a"] :=
    .of_rule (r := oneLetter[0]) (by simp [oneLetter])
  refine ⟨?_, ?_, by decide, by decide, build_oneLetter, ?_⟩
  · refine ⟨?_, ?_, ?_⟩ <;> simp [oneLetter, reserved_iff, Rule.symbols, Symbol.name]
  · rintro n ⟨r, hr, hn⟩
    obtain rfl : n = "s" := by
      simp only [oneLetter, List.mem_cons, List.not_mem_nil, or_false] at hr
      rcases hr with rfl | rfl <;> simpa [Rule.symbols, eq_comm] using hn
    exact ⟨["a"], .single hletter⟩
  · intro hone
    have h0 : Trees oneLetter IsNamed [.nonterminal "s"] [.ofText "a" "a"] [.node 0 [.token (.ofText "a" "a")]] :=
      .of_rule (r := oneLetter[0]) rfl (.token rfl .nil)
    have h1 : Trees oneLetter IsNamed [.nonterminal "s"] [.ofText "a" "a"]
      [.node 1 [.node 0 [.token (.ofText "a" "a")]]] := .of_rule (r := oneLetter[1]) rfl h0
    cases hone _ _ _ h0 h1

end LR

end GrammarKit
