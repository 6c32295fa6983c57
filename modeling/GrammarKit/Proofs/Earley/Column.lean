/-
What the items of a chart say, and that the steps of a column keep it. An item holds after some tokens if
the nonterminal of its rule may come after those before its origin, and the symbols before its dot yield the
others. A column is closed under the steps, as far as they do not look back into the column itself: the items
that are found complete where they began move nothing on that the nullable names have not moved on already.
-/
import GrammarKit.Earley.Column
import GrammarKit.Proofs.Grammar.Continuation
import GrammarKit.Proofs.Grammar.Dotted

namespace GrammarKit.Earley

variable {τ : Type} {stands : String → τ → Prop} {start : String}

/-- What an item of the column after the tokens `w` says. -/
structure Item.Holds (rules : List Rule) (stands : String → τ → Prop) (start : String) (w : List τ) (i : Item)
    (r : Rule) : Prop where
  rule : rules[i.dotted.rule]? = some r
  dot : i.dotted.dot ≤ r.symbols.length
  origin : i.origin ≤ w.length
  outer : Continues rules stands start (w.take i.origin) (.nonterminal r.origin)
  inner : Yields rules stands (r.symbols.take i.dotted.dot) (w.drop i.origin)

/-- An item may be in the column of a position. -/
def Item.Belongs (rules : List Rule) (position : Nat) (i : Item) : Prop :=
  ∃ r, rules[i.dotted.rule]? = some r ∧ i.dotted.dot ≤ r.symbols.length ∧ i.origin ≤ position

namespace Item

variable {rules : List Rule} {w : List τ} {i : Item} {r : Rule}

@[simp] theorem advance_origin (i : Item) : i.advance.origin = i.origin := rfl

@[simp] theorem advance_rule (i : Item) : i.advance.dotted.rule = i.dotted.rule := rfl

@[simp] theorem advance_dot (i : Item) : i.advance.dotted.dot = i.dotted.dot + 1 := rfl

theorem next?_eq_some_iff {s : Symbol} :
    i.next? rules = some s ↔ ∃ r, rules[i.dotted.rule]? = some r ∧ r.symbols[i.dotted.dot]? = some s :=
  DottedRule.next?_eq_some_iff

theorem waitsFor_iff {s : Symbol} : i.waitsFor rules s = true ↔ i.next? rules = some s := by
  simp [waitsFor]

/-- The symbol that an item waits for may come. -/
theorem Holds.continues (h : i.Holds rules stands start w r) {s : Symbol} (hs : i.next? rules = some s) :
    Continues rules stands start w s := by
  obtain ⟨r', hr', hs⟩ := next?_eq_some_iff.1 hs
  obtain rfl : r = r' := Option.some.inj (h.rule.symm.trans hr')
  have hsplit := List.take_append_drop i.dotted.dot r.symbols
  rw [List.drop_eq_getElem?_toList_append, hs] at hsplit
  have := Continues.inside (List.mem_of_getElem? h.rule) h.outer hsplit.symm h.inner
  rwa [List.take_append_drop] at this

/-- An item moves on over what its next symbol yields. -/
theorem Holds.advance (h : i.Holds rules stands start w r) {s : Symbol} (hs : i.next? rules = some s)
    {v : List τ} (hv : Yields rules stands [s] v) : i.advance.Holds rules stands start (w ++ v) r := by
  obtain ⟨r', hr', hs⟩ := next?_eq_some_iff.1 hs
  obtain rfl : r = r' := Option.some.inj (h.rule.symm.trans hr')
  have ho := h.origin
  refine ⟨h.rule, (List.getElem?_eq_some_iff.1 hs).1, by simp; omega, ?_, ?_⟩
  · rw [advance_origin, List.take_append_of_le_length ho]; exact h.outer
  · rw [advance_origin, List.drop_append_of_le_length ho]
    exact DottedRule.take_advance hs ▸ h.inner.append hv

/-- The rules of a nonterminal that may come begin. -/
theorem holds_initial {rule : Nat} (hr : rules[rule]? = some r)
    (h : Continues rules stands start w (.nonterminal r.origin)) :
    (initial w.length rule).Holds rules stands start w r :=
  ⟨hr, Nat.zero_le _, Nat.le_refl _, by simpa [initial] using h, by simpa [initial] using Yields.nil⟩

/-- A complete item has recognised its nonterminal. -/
theorem Holds.yields (h : i.Holds rules stands start w r) (hn : i.next? rules = none) :
    Yields rules stands [.nonterminal r.origin] (w.drop i.origin) := by
  refine .of_rule (List.mem_of_getElem? h.rule) ?_
  have := h.inner
  rwa [List.take_of_length_le (DottedRule.next?_eq_none h.rule hn)] at this

end Item

/-! ## Steps within a column -/

/-- The nullable names of a chart's rules are the nonterminals that yield nothing. -/
structure ChartRules.Exact (g : ChartRules) (stands : String → τ → Prop) : Prop where
  sound : ∀ n ∈ g.nullable, Yields g.rules stands [.nonterminal n] []
  complete : ∀ r ∈ g.rules, Yields g.rules stands r.symbols [] → r.origin ∈ g.nullable

theorem ChartRules.exact_ofRules (rules : List Rule) : (ofRules rules).Exact stands :=
  ⟨fun _ h => mem_nullableNames_iff.1 h, fun _ hr h => mem_nullableNames_iff.2 (.of_rule hr h)⟩

namespace ChartRules

variable {g : ChartRules} {w : List τ} {before : List Column} {seeds : List Item}

theorem mem_predict {position : Nat} {name : String} {i : Item} :
    i ∈ g.predict position name ↔ ∃ rule r, g.rules[rule]? = some r ∧ r.origin = name ∧ .initial position rule = i := by
  simp only [predict, List.mem_map, mem_rulesFor, ← exists_and_right, and_assoc]

theorem mem_complete {waiting : Column} {name : String} {i : Item} :
    i ∈ g.complete waiting name ↔ ∃ j ∈ waiting, j.next? g.rules = some (.nonterminal name) ∧ j.advance = i := by
  simp [complete, Item.waitsFor_iff, and_assoc]

theorem mem_waiting {col : Column} {i : Item} {a : String} :
    (i, a) ∈ g.waiting col ↔ i ∈ col ∧ i.next? g.rules = some (.terminal a) := by
  simp only [ChartRules.waiting, List.mem_filterMap]
  constructor
  · rintro ⟨j, hj, h⟩
    split at h
    · simp only [Option.some.injEq, Prod.mk.injEq] at h
      obtain ⟨rfl, rfl⟩ := h
      exact ⟨hj, by assumption⟩
    · cases h
  · rintro ⟨hi, hn⟩
    exact ⟨i, hi, by rw [hn]⟩

theorem mem_completed {col : Column} {name : String} {origin rule : Nat} :
    rule ∈ g.completed col name origin ↔ ∃ r, g.rules[rule]? = some r ∧ r.origin = name ∧
      (⟨⟨rule, r.symbols.length⟩, origin⟩ : Item) ∈ col := by
  simp only [ChartRules.completed, List.mem_filterMap]
  constructor
  · rintro ⟨i, hi, h⟩
    split at h
    · rename_i hc
      simp only [Bool.and_eq_true, decide_eq_true_eq, Item.isComplete, DottedRule.isComplete_iff] at hc
      obtain ⟨rfl, r, hr, hd⟩ := hc
      rw [hr] at h
      simp only at h
      split at h
      · cases h; exact ⟨r, hr, by assumption, by rw [← hd]; exact hi⟩
      · cases h
    · cases h
  · rintro ⟨r, hr, hn, hi⟩
    refine ⟨_, hi, ?_⟩
    have hc : (⟨⟨rule, r.symbols.length⟩, origin⟩ : Item).isComplete g.rules = true :=
      DottedRule.isComplete_iff.2 ⟨r, hr, rfl⟩
    simp [hc, hr, hn]

/-- Every item of every column holds after the tokens up to its position. -/
def Sound (g : ChartRules) (stands : String → τ → Prop) (start : String) (w : List τ) (columns : List Column) : Prop :=
  ∀ (k : Nat) (c : Column), columns[k]? = some c → ∀ i ∈ c, ∃ r, i.Holds g.rules stands start (w.take k) r

/-- A step leads from items that hold to items that hold. -/
theorem successors_sound (hg : g.Exact stands) (hb : Sound g stands start w before)
    (hl : before.length = w.length) {found : Column} (hf : ∀ j ∈ found, ∃ r, j.Holds g.rules stands start w r)
    {i : Item} {r : Rule} (hi : i.Holds g.rules stands start w r) :
    ∀ j ∈ g.successors before before.length found i, ∃ r, j.Holds g.rules stands start w r := by
  intro j hj
  unfold successors at hj
  split at hj
  · simp at hj
  · rename_i n hn
    rcases List.mem_append.1 hj with hj | hj
    · obtain ⟨rule, r', hr', rfl, rfl⟩ := mem_predict.1 hj
      rw [hl]
      exact ⟨r', Item.holds_initial hr' (hi.continues hn)⟩
    · split at hj
      · rename_i hnull
        obtain rfl := List.mem_singleton.1 hj
        refine ⟨r, ?_⟩
        simpa using hi.advance hn (hg.sound n (by simpa using hnull))
      · simp at hj
  · rename_i hnone
    rw [hi.rule] at hj
    obtain ⟨k, hk, hkn, rfl⟩ := mem_complete.1 hj
    have hy := hi.yields hnone
    split at hk
    · rename_i ho
      obtain ⟨r', hk⟩ := hf k hk
      rw [List.drop_eq_nil_iff.2 (by omega)] at hy
      exact ⟨r', List.append_nil w ▸ hk.advance hkn hy⟩
    · cases hc : before[i.origin]? with
      | none => simp [hc] at hk
      | some c =>
        rw [hc, Option.getD_some] at hk
        obtain ⟨r', hk⟩ := hb _ c hc k hk
        exact ⟨r', by simpa using hk.advance hkn hy⟩

theorem column_sound (hg : g.Exact stands) (hb : Sound g stands start w before) (hl : before.length = w.length)
    (hs : ∀ i ∈ seeds, ∃ r, i.Holds g.rules stands start w r) :
    ∀ i ∈ g.column before seeds, ∃ r, i.Holds g.rules stands start w r := by
  refine explore_induction (fun found i hf hi => ?_) _ _ _ (by simpa using hs)
  obtain ⟨r, hr⟩ := hf i hi
  exact successors_sound hg hb hl hf hr

theorem column_belongs (hg : g.Exact stands) (hb : Sound g stands start w before) (hl : before.length = w.length)
    (hs : ∀ i ∈ seeds, ∃ r, i.Holds g.rules stands start w r) :
    ∀ i ∈ g.column before seeds, i.Belongs g.rules before.length := fun i hi => by
  obtain ⟨r, hr⟩ := column_sound hg hb hl hs i hi
  exact ⟨r, hr.rule, hr.dot, hl ▸ hr.origin⟩

/-- Every item of a column had its step taken. -/
theorem column_closed (hb : ∀ i ∈ g.column before seeds, i.Belongs g.rules before.length) {i : Item}
    (hi : i ∈ g.column before seeds) :
    ∃ found : Column, ∀ j ∈ g.successors before before.length found i, j ∈ g.column before seeds := by
  let bound := seeds ++ (List.range (before.length + 1)).flatMap fun o => (allDotted g.rules).map (⟨·, o⟩)
  have hbound : ∀ j ∈ g.column before seeds, j ∈ bound := by
    intro j hj
    obtain ⟨r, hr, hdot, ho⟩ := hb j hj
    refine List.mem_append_right _ (List.mem_flatMap.2 ⟨j.origin, List.mem_range.2 (by omega), ?_⟩)
    exact List.mem_map.2 ⟨j.dotted, mem_allDotted.2 ⟨r, hr, hdot⟩, rfl⟩
  have hlen : bound.length = seeds.length + dottedCount g.rules * (before.length + 1) := by
    simp [bound, length_allDotted, Nat.mul_comm]
  have hle := Nat.mul_le_mul_right (before.length + 1) (Nat.le_add_right (dottedCount g.rules) 1)
  obtain ⟨found, -, -, hc⟩ := explore_closed _ [] (fresh [] seeds) (by simpa using nodup_fresh [] seeds) hbound
    (by rw [hlen, List.length_nil]; omega) i hi (by simp)
  exact ⟨found, hc⟩

theorem mem_column_of_seed {i : Item} (h : i ∈ seeds) : i ∈ g.column before seeds :=
  (prefix_explore _ _ [] (fresh [] seeds)).subset (by simpa using h)

section Closed

variable (hb : ∀ i ∈ g.column before seeds, i.Belongs g.rules before.length)
include hb

theorem column_predict {i : Item} (hi : i ∈ g.column before seeds) {n : String}
    (hn : i.next? g.rules = some (.nonterminal n)) {rule : Nat} {r : Rule} (hr : g.rules[rule]? = some r)
    (ho : r.origin = n) : .initial before.length rule ∈ g.column before seeds := by
  obtain ⟨found, hc⟩ := column_closed hb hi
  refine hc _ ?_
  unfold successors
  rw [hn]
  exact List.mem_append_left _ (mem_predict.2 ⟨rule, r, hr, ho, rfl⟩)

theorem column_stepOver {i : Item} (hi : i ∈ g.column before seeds) {n : String}
    (hn : i.next? g.rules = some (.nonterminal n)) (hnull : n ∈ g.nullable) : i.advance ∈ g.column before seeds := by
  obtain ⟨found, hc⟩ := column_closed hb hi
  refine hc _ ?_
  unfold successors
  rw [hn]
  refine List.mem_append_right _ ?_
  rw [if_pos (by simpa using hnull)]
  exact List.mem_singleton.2 rfl

theorem column_complete {i j : Item} (hi : i ∈ g.column before seeds) (hn : i.next? g.rules = none) {r : Rule}
    (hr : g.rules[i.dotted.rule]? = some r) (ho : i.origin < before.length) {col : Column}
    (hcol : before[i.origin]? = some col) (hj : j ∈ col) (hjn : j.next? g.rules = some (.nonterminal r.origin)) :
    j.advance ∈ g.column before seeds := by
  obtain ⟨found, hc⟩ := column_closed hb hi
  refine hc _ ?_
  unfold successors
  rw [hn]
  simp only [hr, if_neg (Nat.ne_of_lt ho), hcol, Option.getD_some]
  exact mem_complete.2 ⟨j, hj, hjn, rfl⟩

end Closed

end ChartRules

end GrammarKit.Earley
