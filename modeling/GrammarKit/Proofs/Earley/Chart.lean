/-
Charts are exact. A chart that has read tokens keeps a record of them: every item in its columns holds, and
the columns are closed under prediction, stepping over, completion and scanning. So an item is in the column
of a position exactly if it holds after the tokens up to there, whatever the order in which items were found.
-/
import GrammarKit.Earley.Chart
import GrammarKit.Proofs.Earley.Column

namespace GrammarKit.Earley

/-- What a chart of a start symbol knows after it has read the tokens `w`. -/
structure Chart.Records (g : ChartRules) (stands : String → Token → Prop) (start : String) (w : List Token)
    (c : Chart) : Prop where
  grammar : c.grammar = g
  length : c.columns.length = w.length + 1
  sound : g.Sound stands start w c.columns
  seed : ∀ rule r, g.rules[rule]? = some r → r.origin = start → Item.initial 0 rule ∈ c.column 0
  predict : ∀ (k : Nat) (i : Item) (n : String), i ∈ c.column k → i.next? g.rules = some (.nonterminal n) →
    ∀ rule r, g.rules[rule]? = some r → r.origin = n → Item.initial k rule ∈ c.column k
  stepOver : ∀ (k : Nat) (i : Item) (n : String), i ∈ c.column k → i.next? g.rules = some (.nonterminal n) →
    n ∈ g.nullable → i.advance ∈ c.column k
  complete : ∀ (k : Nat) (i j : Item) (r : Rule), i ∈ c.column k → i.next? g.rules = none →
    g.rules[i.dotted.rule]? = some r → i.origin < k → j ∈ c.column i.origin →
    j.next? g.rules = some (.nonterminal r.origin) → j.advance ∈ c.column k
  scan : ∀ (k : Nat) (i : Item) (a : String) (t : Token), i ∈ c.column k → i.next? g.rules = some (.terminal a) →
    w[k]? = some t → stands a t → i.advance ∈ c.column (k + 1)
  scans : ∀ s, s ∈ c.scans ↔ s.stop = s.start + 1 ∧ w[s.start]? = some s.token ∧ stands s.terminal s.token ∧
    ∃ i ∈ c.column s.start, i.next? g.rules = some (.terminal s.terminal)
  gaps : c.gaps = []

namespace Chart

variable {g : ChartRules} {stands : String → Token → Prop} {start : String} {w : List Token} {c : Chart}

theorem column_eq_of_getElem? {k : Nat} {col : Column} (h : c.columns[k]? = some col) : c.column k = col := by
  rw [column, h]; rfl

theorem column_eq_nil {k : Nat} (h : c.columns.length ≤ k) : c.column k = [] := by
  rw [column, List.getElem?_eq_none h]; rfl

namespace Records

variable (h : c.Records g stands start w)
include h

theorem stop_eq : c.stop = w.length := by
  rw [stop, h.length]; rfl

theorem last_eq : c.last = c.column w.length := by
  have hne : c.columns ≠ [] := by
    rintro he; have := h.length; simp [he] at this
  rw [last, List.getLastD_eq_getLast?, List.getLast?_eq_getElem?, h.length]
  rfl

theorem mem_column_lt {k : Nat} {i : Item} (hi : i ∈ c.column k) : k ≤ w.length := by
  by_contra hk
  rw [column_eq_nil (by rw [h.length]; omega)] at hi
  cases hi

theorem holds {k : Nat} {i : Item} (hi : i ∈ c.column k) : ∃ r, i.Holds g.rules stands start (w.take k) r := by
  rcases hc : c.columns[k]? with _ | col
  · rw [column_eq_nil (List.getElem?_eq_none_iff.1 hc)] at hi; cases hi
  · exact h.sound k col hc i (column_eq_of_getElem? hc ▸ hi)

/-- An item moves on, from column to column, over all that its next symbols yield. -/
theorem mem_column_of_yields (hg : g.Exact stands) {ss : List Symbol} {ts : List Token}
    (hy : Yields g.rules stands ss ts) :
    ∀ {u v : List Token} {i : Item} {r : Rule} {z : List Symbol}, w = u ++ ts ++ v → i ∈ c.column u.length →
      g.rules[i.dotted.rule]? = some r → r.symbols.drop i.dotted.dot = ss ++ z →
      ⟨⟨i.dotted.rule, i.dotted.dot + ss.length⟩, i.origin⟩ ∈ c.column (u ++ ts).length := by
  induction hy with
  | nil => intro u v i r z _ hi _ _; simpa using hi
  | @terminal a t ss ts ha _ ih =>
    intro u v i r z hw hi hr hd
    have hn : i.next? g.rules = some (.terminal a) := by
      refine Item.next?_eq_some_iff.2 ⟨r, hr, ?_⟩
      rw [← List.head?_drop, hd]; rfl
    have ht : w[u.length]? = some t := by rw [hw]; simp
    have hi' := h.scan _ i a t hi hn ht ha
    have := ih (u := u ++ [t]) (v := v) (i := i.advance) (r := r) (z := z) (by simp [hw]) (by simpa using hi') hr
      (by rw [Item.advance_dot, ← List.drop_drop, hd]; rfl)
    simpa [Nat.add_assoc, Nat.add_comm 1] using this
  | @nonterminal q ss us ts hq inner _ ih1 ih2 =>
    intro u v i r z hw hi hr hd
    have hn : i.next? g.rules = some (.nonterminal q.origin) := by
      refine Item.next?_eq_some_iff.2 ⟨r, hr, ?_⟩
      rw [← List.head?_drop, hd]; rfl
    obtain ⟨rule, hrule⟩ := exists_rule_index hq
    have hi' : i.advance ∈ c.column (u ++ us).length := by
      have hinit := h.predict _ i _ hi hn rule q hrule rfl
      have hdone := ih1 (u := u) (v := ts ++ v) (i := .initial u.length rule) (r := q) (z := []) (by simp [hw]) hinit
        hrule (by simp [Item.initial])
      cases us with
      | nil => simpa using h.stepOver _ i _ hi hn (hg.complete q hq inner)
      | cons t us =>
        refine h.complete _ _ i q hdone ?_ hrule (by simp [Item.initial]) hi hn
        rw [Item.next?, DottedRule.next?]
        simp [Item.initial, hrule]
    have := ih2 (u := u ++ us) (v := v) (i := i.advance) (r := r) (z := z) (by simp [hw]) hi' hr
      (by rw [Item.advance_dot, ← List.drop_drop, hd]; rfl)
    simpa [Nat.add_assoc, Nat.add_comm 1] using this

/-- A symbol that may come after the tokens up to a position is waited for there, or is the start symbol. -/
theorem exists_waiting (hg : g.Exact stands) {u : List Token} {s : Symbol} (hc : Continues g.rules stands start u s) :
    ∀ {v : List Token}, w = u ++ v →
      (u = [] ∧ s = .nonterminal start) ∨ ∃ i ∈ c.column u.length, i.next? g.rules = some s := by
  induction hc with
  | start => exact fun _ => .inl ⟨rfl, rfl⟩
  | @inside u x r before after s hr _ hs hx ih =>
    intro v hw
    obtain ⟨rule, hrule⟩ := exists_rule_index hr
    have hinit : Item.initial u.length rule ∈ c.column u.length := by
      rcases ih (v := x ++ v) (by simp [hw]) with ⟨rfl, hstart⟩ | ⟨i, hi, hn⟩
      · exact h.seed rule r hrule (Symbol.nonterminal.inj hstart)
      · exact h.predict _ i _ hi hn rule r hrule rfl
    refine .inr ⟨_, h.mem_column_of_yields hg hx hw hinit hrule (z := s :: after) (by simp [Item.initial, hs]), ?_⟩
    exact Item.next?_eq_some_iff.2 ⟨r, hrule, by simp [Item.initial, hs]⟩

/-- The rules of a nonterminal that may come begin. -/
theorem mem_column_initial (hg : g.Exact stands) {u v : List Token} {rule : Nat} {r : Rule}
    (hc : Continues g.rules stands start u (.nonterminal r.origin)) (hw : w = u ++ v)
    (hr : g.rules[rule]? = some r) : Item.initial u.length rule ∈ c.column u.length := by
  rcases h.exists_waiting hg hc hw with ⟨rfl, hs⟩ | ⟨i, hi, hn⟩
  · exact h.seed rule r hr (Symbol.nonterminal.inj hs)
  · exact h.predict _ i _ hi hn rule r hr rfl

/-- The items of a column are those that hold after the tokens up to its position. -/
theorem mem_column_iff (hg : g.Exact stands) {k : Nat} (hk : k ≤ w.length) {i : Item} :
    i ∈ c.column k ↔ ∃ r, i.Holds g.rules stands start (w.take k) r := by
  refine ⟨h.holds, fun ⟨r, hi⟩ => ?_⟩
  have ho := hi.origin
  rw [List.length_take, Nat.min_eq_left hk] at ho
  have hlen : (w.take i.origin).length = i.origin := by rw [List.length_take]; omega
  have houter := hi.outer
  rw [List.take_take, Nat.min_eq_left ho] at houter
  have hinit := h.mem_column_initial hg houter (List.take_append_drop i.origin w).symm hi.rule
  have hw : w = w.take i.origin ++ (w.take k).drop i.origin ++ w.drop k := by
    conv_lhs => rw [← List.take_append_drop k w, ← List.take_append_drop i.origin (w.take k)]
    rw [List.take_take, Nat.min_eq_left ho]
  have := h.mem_column_of_yields hg hi.inner hw hinit hi.rule (z := r.symbols.drop i.dotted.dot)
    (by simp [Item.initial])
  rw [hlen, List.length_append, hlen, List.length_drop, List.length_take, Nat.min_eq_left hk,
    Nat.add_sub_cancel' ho] at this
  simpa [Item.initial, List.length_take, Nat.min_eq_left hi.dot] using this

theorem exists_mem_expected {a : String} :
    a ∈ c.expected ↔ ∃ i ∈ c.column w.length, i.next? g.rules = some (.terminal a) := by
  rw [expected, h.grammar, h.last_eq, ChartRules.expected, List.mem_map]
  constructor
  · rintro ⟨⟨i, b⟩, hi, rfl⟩; exact ⟨i, ChartRules.mem_waiting.1 hi⟩
  · rintro ⟨i, hi⟩; exact ⟨(i, a), ChartRules.mem_waiting.2 hi, rfl⟩

/-- The last column waits for the terminals that may come after all tokens. -/
theorem mem_expected_iff (hg : g.Exact stands) {a : String} :
    a ∈ c.expected ↔ Continues g.rules stands start w (.terminal a) := by
  rw [h.exists_mem_expected]
  constructor
  · rintro ⟨i, hi, hn⟩
    obtain ⟨r, hr⟩ := h.holds hi
    simpa using hr.continues hn
  · intro hc
    rcases h.exists_waiting hg hc (List.append_nil w).symm with ⟨-, hs⟩ | hi
    · cases hs
    · exact hi

/-- A rule is complete between two positions exactly if it yields the tokens between them, where its
nonterminal may come. -/
theorem mem_completed_iff (hg : g.Exact stands) {k j rule : Nat} (hk : k ≤ w.length) {name : String} :
    rule ∈ c.completed k name j ↔ ∃ r, g.rules[rule]? = some r ∧ r.origin = name ∧ j ≤ k ∧
      Continues g.rules stands start (w.take j) (.nonterminal name) ∧
      Yields g.rules stands r.symbols ((w.take k).drop j) := by
  rw [completed, h.grammar, ChartRules.mem_completed]
  refine exists_congr fun r => ⟨?_, ?_⟩
  · rintro ⟨hr, hn, hi⟩
    obtain ⟨r', hi⟩ := (h.mem_column_iff hg hk).1 hi
    obtain rfl : r' = r := Option.some.inj (hi.rule.symm.trans hr)
    have ho : j ≤ k := by have := hi.origin; simp only [List.length_take] at this; omega
    have houter := hi.outer
    rw [List.take_take, Nat.min_eq_left ho, hn] at houter
    exact ⟨hr, hn, ho, houter, by simpa using hi.inner⟩
  · rintro ⟨hr, hn, hj, hc, hy⟩
    refine ⟨hr, hn, (h.mem_column_iff hg hk).2 ⟨r, hr, Nat.le_refl _, ?_, ?_, ?_⟩⟩
    · simp only [List.length_take]; omega
    · rwa [List.take_take, Nat.min_eq_left hj, hn]
    · simpa using hy

/-- A chart accepts exactly the tokens that its start symbol yields. -/
theorem accepts_iff (hg : g.Exact stands) : c.accepts start = true ↔ Yields g.rules stands [.nonterminal start] w := by
  rw [accepts, h.stop_eq, Bool.not_eq_true', List.isEmpty_eq_false_iff_exists_mem]
  simp only [h.mem_completed_iff hg (Nat.le_refl _), List.take_length, List.take_zero, List.drop_zero]
  rw [yields_nonterminal_iff]
  constructor
  · rintro ⟨rule, r, hr, hn, -, -, hy⟩; exact ⟨r, List.mem_of_getElem? hr, hn, hy⟩
  · rintro ⟨r, hr, hn, hy⟩
    obtain ⟨rule, hrule⟩ := exists_rule_index hr
    exact ⟨rule, r, hrule, hn, Nat.zero_le _, .start, hy⟩

end Records

end Chart

end GrammarKit.Earley
