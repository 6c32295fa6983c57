/-
Stretches of tokens, as the search for derivations sees them. The chart of a token list covers a nonterminal
over a stretch exactly if the nonterminal may come there and yields the stretch, it has the token of every
terminal that it recognised, and where a rule is recognised up to a dot, the symbol before the dot can be split
off in every way in which the symbols up to the dot yield their tokens.
-/
import GrammarKit.Earley.Forest
import GrammarKit.Proofs.Earley.Chart

namespace GrammarKit.Earley

/-! ## Stretches -/

/-- The tokens between two positions. -/
def stretch (w : List Token) (j k : Nat) : List Token := (w.take k).drop j

@[simp] theorem stretch_self (w : List Token) (j : Nat) : stretch w j j = [] := by simp [stretch]

@[simp] theorem stretch_all (w : List Token) : stretch w 0 w.length = w := by simp [stretch]

theorem length_stretch {w : List Token} {j k : Nat} (hk : k ≤ w.length) : (stretch w j k).length = k - j := by
  rw [stretch, List.length_drop, List.length_take, Nat.min_eq_left hk]

theorem stretch_append {w : List Token} {j m k : Nat} (hj : j ≤ m) (hm : m ≤ k) :
    stretch w j m ++ stretch w m k = stretch w j k := by
  have hsplit := List.take_append_drop (m - j) (stretch w j k)
  rw [stretch, List.drop_drop, List.take_drop, List.take_take, Nat.add_sub_cancel' hj, Nat.min_eq_left hm] at hsplit
  exact hsplit

/-- A stretch is divided at the position that the length of its first part gives. -/
theorem stretch_divide {w us vs : List Token} {j k : Nat} (hj : j ≤ k) (hk : k ≤ w.length)
    (h : stretch w j k = us ++ vs) :
    ∃ m, j ≤ m ∧ m ≤ k ∧ us = stretch w j m ∧ vs = stretch w m k := by
  have hlen := congrArg List.length h
  rw [length_stretch hk, List.length_append] at hlen
  refine ⟨j + us.length, by omega, by omega, ?_⟩
  have heq := h.symm.trans (stretch_append (w := w) (m := j + us.length) (by omega) (by omega)).symm
  have hm : (stretch w j (j + us.length)).length = us.length := by rw [length_stretch (by omega)]; omega
  exact List.append_inj heq hm.symm

theorem stretch_succ {w : List Token} {k : Nat} {t : Token} (h : w[k]? = some t) : stretch w k (k + 1) = [t] := by
  rw [stretch, List.take_add_one, h, List.drop_append_of_le_length]
  · simp
  · have := (List.getElem?_eq_some_iff.1 h).1
    simp only [List.length_take]; omega

theorem stretch_eq_singleton {w : List Token} {j k : Nat} {t : Token} (hk : k ≤ w.length) (h : stretch w j k = [t]) :
    k = j + 1 ∧ w[j]? = some t := by
  have hlen := congrArg List.length h
  rw [length_stretch hk, List.length_singleton] at hlen
  obtain rfl : k = j + 1 := by omega
  have hj : w[j]? = some w[j] := List.getElem?_eq_getElem (by omega)
  rw [stretch_succ hj] at h
  exact ⟨rfl, by rw [hj, List.singleton_inj.1 h]⟩

/-! ## What a chart has on a stretch -/

/-- Some rule of the goal's nonterminal is complete over its stretch. -/
def Chart.Covers (c : Chart) (h : Goal) : Prop := c.completed h.stop h.name h.start ≠ []

theorem Chart.mem_candidates_iff {c : Chart} {b : Goal} {i : Nat} {r : Rule} :
    (i, r) ∈ c.candidates b ↔ i ∈ c.completed b.stop b.name b.start ∧ c.grammar.rules[i]? = some r := by
  rw [candidates, List.mem_mergeSort, List.mem_filterMap]
  constructor
  · rintro ⟨k, hk, he⟩
    obtain ⟨r', hr, h2⟩ := Option.map_eq_some_iff.1 he
    cases h2
    exact ⟨hk, hr⟩
  · rintro ⟨hk, hr⟩
    exact ⟨i, hk, by rw [hr]; rfl⟩

namespace Chart.Records

variable {g : ChartRules} {stands : String → Token → Prop} {start : String} {w : List Token} {c : Chart}
  (h : c.Records g stands start w) (hg : g.Exact stands)
include h

theorem completed_eq_nil {k : Nat} (hk : w.length < k) (name : String) (j : Nat) : c.completed k name j = [] := by
  rw [completed, column_eq_nil (by rw [h.length]; omega)]; rfl

include hg in
theorem covers_iff {b : Goal} : c.Covers b ↔ b.start ≤ b.stop ∧ b.stop ≤ w.length ∧
    Continues g.rules stands start (w.take b.start) (.nonterminal b.name) ∧
    Yields g.rules stands [.nonterminal b.name] (stretch w b.start b.stop) := by
  rw [Chart.Covers, ← List.isEmpty_eq_false_iff, List.isEmpty_eq_false_iff_exists_mem, yields_nonterminal_iff]
  by_cases hk : b.stop ≤ w.length
  · simp only [h.mem_completed_iff hg hk]
    constructor
    · rintro ⟨rule, r, hr, hn, hj, hc, hy⟩
      exact ⟨hj, hk, hc, r, List.mem_of_getElem? hr, hn, hy⟩
    · rintro ⟨hj, -, hc, r, hr, hn, hy⟩
      obtain ⟨rule, hrule⟩ := exists_rule_index hr
      exact ⟨rule, r, hrule, hn, hj, hc, hy⟩
  · rw [h.completed_eq_nil (by omega)]
    simp [hk]

theorem mem_splits_iff {previous : Item} {stop s e : Nat} :
    (s, e) ∈ c.splits previous stop ↔ e = stop ∧ previous.origin ≤ s ∧ s ≤ stop ∧ previous ∈ c.column s := by
  simp only [splits, ends, h.gaps, List.lookup_nil, Option.getD_none, List.flatMap_cons, List.flatMap_nil,
    List.append_nil, List.mem_map, List.mem_filter, List.mem_reverse, List.mem_range, Prod.mk.injEq, contains,
    List.contains_eq_mem, decide_eq_true_eq]
  constructor
  · rintro ⟨a, ⟨⟨b, hb, rfl⟩, ha⟩, rfl, rfl⟩; exact ⟨rfl, by omega, by omega, ha⟩
  · rintro ⟨rfl, h1, h2, h3⟩
    exact ⟨s, ⟨⟨s - previous.origin, by omega, by omega⟩, h3⟩, rfl, rfl⟩

theorem mem_ends_iff {s e : Nat} : e ∈ c.ends s ↔ e = s := by
  simp [ends, h.gaps]

theorem joins_iff {s e : Nat} : c.joins s e = true ↔ s = e := by
  simp [joins, ends, h.gaps]

theorem token?_eq_some {s e : Nat} {a : String} {t : Token} (ht : c.token? s e a = some t) :
    e = s + 1 ∧ w[s]? = some t ∧ stands a t := by
  obtain ⟨x, hx, rfl⟩ := Option.map_eq_some_iff.1 ht
  have hp := List.find?_some hx
  simp only [Bool.and_eq_true, beq_iff_eq] at hp
  obtain ⟨⟨rfl, rfl⟩, rfl⟩ := hp
  obtain ⟨h1, h2, h3, -⟩ := (h.scans x).1 (List.mem_of_find?_eq_some hx)
  exact ⟨h1, h2, h3⟩

theorem token?_ne_none {s : Nat} {a : String} {t : Token} {i : Item} (hi : i ∈ c.column s)
    (hn : i.next? g.rules = some (.terminal a)) (ht : w[s]? = some t) (ha : stands a t) :
    c.token? s (s + 1) a ≠ none := by
  intro hnone
  rw [token?, Option.map_eq_none_iff, List.find?_eq_none] at hnone
  refine hnone ⟨s, s + 1, a, t⟩ ((h.scans _).2 ⟨rfl, ht, ha, i, hi, hn⟩) ?_
  simp

include hg in
/-- The symbols before the dot of an item yield the tokens from its origin on. -/
theorem yields_of_mem_column {i : Item} {e : Nat} {r : Rule} (hi : i ∈ c.column e)
    (hr : g.rules[i.dotted.rule]? = some r) :
    i.origin ≤ e ∧ e ≤ w.length ∧ Yields g.rules stands (r.symbols.take i.dotted.dot) (stretch w i.origin e) := by
  have he := h.mem_column_lt hi
  obtain ⟨r', hi⟩ := (h.mem_column_iff hg he).1 hi
  obtain rfl : r' = r := Option.some.inj (hi.rule.symm.trans hr)
  have ho := hi.origin
  rw [List.length_take, Nat.min_eq_left he] at ho
  exact ⟨ho, he, hi.inner⟩

include hg in
/-- Where the symbols before the dot of an item yield a part of its tokens, the item stands with a dot there. -/
theorem mem_column_before {i : Item} {e m dot : Nat} {r : Rule} (hi : i ∈ c.column e)
    (hr : g.rules[i.dotted.rule]? = some r) (hd : dot ≤ i.dotted.dot) (hj : i.origin ≤ m) (hm : m ≤ e)
    (hy : Yields g.rules stands (r.symbols.take dot) (stretch w i.origin m)) :
    (⟨⟨i.dotted.rule, dot⟩, i.origin⟩ : Item) ∈ c.column m := by
  have he := h.mem_column_lt hi
  obtain ⟨r', hi⟩ := (h.mem_column_iff hg he).1 hi
  obtain rfl : r' = r := Option.some.inj (hi.rule.symm.trans hr)
  have hmw : m ≤ w.length := by omega
  have houter := hi.outer
  rw [List.take_take, Nat.min_eq_left (by omega)] at houter
  refine (h.mem_column_iff hg hmw).2 ⟨r', hr, by have := hi.dot; simp only at *; omega, ?_, ?_, hy⟩
  · rw [List.length_take]; exact Nat.le_min.2 ⟨hj, Nat.le_trans hj hmw⟩
  · rw [List.take_take, Nat.min_eq_left hj]; exact houter

include hg in
/-- A nonterminal that is waited for and yields a stretch is covered by the chart. -/
theorem covers_of_waiting {i : Item} {s e : Nat} {n : String} (hi : i ∈ c.column s)
    (hn : i.next? g.rules = some (.nonterminal n)) (hs : s ≤ e) (he : e ≤ w.length)
    (hy : Yields g.rules stands [.nonterminal n] (stretch w s e)) : c.Covers ⟨n, s, e⟩ := by
  obtain ⟨r, hr⟩ := h.holds hi
  exact (h.covers_iff hg).2 ⟨hs, he, hr.continues hn, hy⟩

theorem mem_candidates_iff {b : Goal} {i : Nat} {r : Rule} :
    (i, r) ∈ c.candidates b ↔ i ∈ c.completed b.stop b.name b.start ∧ g.rules[i]? = some r := by
  rw [Chart.mem_candidates_iff, h.grammar]

include hg in
/-- The candidates of a goal are the rules that yield its stretch, as far as the chart covers it. -/
theorem mem_candidates {b : Goal} (hb : c.Covers b) {i : Nat} {r : Rule} : (i, r) ∈ c.candidates b ↔
    g.rules[i]? = some r ∧ r.origin = b.name ∧ Yields g.rules stands r.symbols (stretch w b.start b.stop) := by
  obtain ⟨hj, hk, hc, -⟩ := (h.covers_iff hg).1 hb
  rw [h.mem_candidates_iff, h.mem_completed_iff hg hk]
  constructor
  · rintro ⟨⟨r', hr', hn, -, -, hy⟩, hr⟩
    obtain rfl := Option.some.inj (hr'.symm.trans hr)
    exact ⟨hr, hn, hy⟩
  · rintro ⟨hr, hn, hy⟩; exact ⟨⟨r, hr, hn, hj, hc, hy⟩, hr⟩

/-- The complete item of a candidate. -/
theorem complete_of_mem_candidates {b : Goal} {i : Nat} {r : Rule} (hi : (i, r) ∈ c.candidates b) :
    r.origin = b.name ∧ g.rules[i]? = some r ∧
      (⟨⟨i, r.symbols.length⟩, b.start⟩ : Item) ∈ c.column b.stop := by
  obtain ⟨hc, hr⟩ := h.mem_candidates_iff.1 hi
  rw [completed, h.grammar] at hc
  obtain ⟨r', hr', hn, hm⟩ := ChartRules.mem_completed.1 hc
  obtain rfl := Option.some.inj (hr'.symm.trans hr)
  exact ⟨hn, hr, hm⟩

end Chart.Records

end GrammarKit.Earley
