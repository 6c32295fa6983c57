/-
Reading tokens by chart. The chart before the first token keeps a record of no tokens, and every token that it
takes adds to the record. A token is refused exactly if no leftmost form of the start symbol holds terminals
for the tokens up to it, and the names that are reported are the terminals that may come instead.
-/
import GrammarKit.Earley.Parser
import GrammarKit.Proofs.Earley.Chart
import GrammarKit.Proofs.Names

namespace GrammarKit.Earley

/-! ## Matches that decide -/

theorem filterAuxM_ok {α : Type} {f : α → Outcome Bool} {p : α → Bool} (h : ∀ a, f a = .ok (p a)) :
    ∀ l acc : List α, List.filterAuxM f l acc = .ok ((l.filter p).reverse ++ acc)
  | [], _ => rfl
  | a :: l, acc => by
    show (f a >>= fun b => List.filterAuxM f l (cond b (a :: acc) acc)) = _
    rw [h a]
    show List.filterAuxM f l (cond (p a) (a :: acc) acc) = _
    rw [filterAuxM_ok h l]
    cases hp : p a <;> simp [hp]

theorem filterM_ok {α : Type} {f : α → Outcome Bool} {p : α → Bool} (h : ∀ a, f a = .ok (p a)) (l : List α) :
    l.filterM f = .ok (l.filter p) := by
  unfold List.filterM
  rw [filterAuxM_ok h]
  show Except.ok _ = _
  simp

/-! ## The chart before the first token -/

section Start

variable {g : ChartRules} {stands : String → Token → Prop} {start : String}

theorem seeds_holds : ∀ i ∈ g.predict 0 start, ∃ r, i.Holds g.rules stands start ([] : List Token) r := by
  intro i hi
  obtain ⟨rule, r, hr, rfl, rfl⟩ := ChartRules.mem_predict.1 hi
  exact ⟨r, Item.holds_initial hr .start⟩

theorem sound_nil : g.Sound stands start ([] : List Token) [] := by
  intro k c hc; simp at hc

theorem start_ok (hs : ∃ r ∈ g.rules, r.origin = start) :
    Chart.start g start = .ok { grammar := g, columns := [g.column [] (g.predict 0 start)] } := by
  obtain ⟨r, hr, rfl⟩ := hs
  obtain ⟨rule, hrule⟩ := exists_rule_index hr
  have hmem : Item.initial 0 rule ∈ g.predict 0 r.origin := ChartRules.mem_predict.2 ⟨rule, r, hrule, rfl, rfl⟩
  have hseeds : g.seeds r.origin = .ok (g.predict 0 r.origin) := by
    unfold ChartRules.seeds
    split
    · rename_i h; rw [h] at hmem; cases hmem
    · rfl
  unfold Chart.start
  rw [hseeds]
  rfl

theorem start_records (hg : g.Exact stands) :
    Chart.Records g stands start [] { grammar := g, columns := [g.column [] (g.predict 0 start)] } := by
  have hcol : ∀ {k : Nat} {i : Item},
      i ∈ Chart.column { grammar := g, columns := [g.column [] (g.predict 0 start)] } k →
        k = 0 ∧ i ∈ g.column [] (g.predict 0 start) := by
    intro k i hi
    cases k with
    | zero => exact ⟨rfl, hi⟩
    | succ k => rw [Chart.column_eq_nil (by simp)] at hi; cases hi
  refine ⟨rfl, rfl, ?_, ?_, ?_, ?_, ?_, ?_, ?_, rfl⟩
  · intro k c hc
    cases k with
    | zero =>
      obtain rfl := Option.some.inj hc
      exact ChartRules.column_sound hg sound_nil rfl seeds_holds
    | succ k => simp at hc
  · intro rule r hr ho
    exact ChartRules.mem_column_of_seed (ChartRules.mem_predict.2 ⟨rule, r, hr, ho, rfl⟩)
  · intro k i n hi hn rule r hr ho
    obtain ⟨rfl, hi⟩ := hcol hi
    exact ChartRules.column_predict (ChartRules.column_belongs hg sound_nil rfl seeds_holds) hi hn hr ho
  · intro k i n hi hn hnull
    obtain ⟨rfl, hi⟩ := hcol hi
    exact ChartRules.column_stepOver (ChartRules.column_belongs hg sound_nil rfl seeds_holds) hi hn hnull
  · intro k i j r hi _ _ ho
    obtain ⟨rfl, hi⟩ := hcol hi
    exact absurd ho (Nat.not_lt_zero _)
  · intro k i a t _ _ ht; simp at ht
  · intro s; simp

end Start

/-! ## One more token -/

section Scan

variable {g : ChartRules} {matches? : Chart.TokenMatch} {start : String} {w : List Token} {c : Chart} {t : Token}

/-- The tokens that a match takes for a terminal. -/
abbrev Chart.TokenMatch.Stands (matches? : Chart.TokenMatch) (a : String) (t : Token) : Prop := matches? a t = .ok true

/-- The waiting items that take a token. -/
def Chart.taking (c : Chart) (p : String → Bool) : List (Item × String) :=
  (c.grammar.waiting c.last).filter fun (_, a) => p a

/-- The chart after one more token. -/
def Chart.read (c : Chart) (p : String → Bool) (t : Token) : Chart :=
  { c with
    columns := c.columns ++ [c.grammar.column c.columns ((c.taking p).map fun (i, _) => i.advance)]
    scans := c.scans ++ (c.taking p).map fun (_, a) => ⟨c.stop, c.stop + 1, a, t⟩ }

theorem scan_eq {p : String → Bool} (hp : ∀ a, matches? a t = .ok (p a)) :
    c.scan matches? t =
      if (c.taking p).isEmpty then .error (.parse (.atToken t c.expected)) else .ok (c.read p t) := by
  unfold Chart.scan
  rw [filterM_ok (p := fun x => p x.2) (fun x => hp x.2)]
  show (if (c.taking p).isEmpty = true then _ else _) = _
  split <;> rfl

section Read

variable {p : String → Bool} (hg : g.Exact matches?.Stands) (h : c.Records g matches?.Stands start w)
  (hp : ∀ a, matches? a t = .ok (p a))
include h

theorem mem_taking {i : Item} {a : String} :
    (i, a) ∈ c.taking p ↔ i ∈ c.column w.length ∧ i.next? g.rules = some (.terminal a) ∧ p a = true := by
  rw [Chart.taking, List.mem_filter, h.grammar, h.last_eq, ChartRules.mem_waiting, and_assoc]

theorem column_read_of_le {k : Nat} (hk : k ≤ w.length) : (c.read p t).column k = c.column k := by
  unfold Chart.column Chart.read
  rw [List.getElem?_append_left (by rw [h.length]; omega)]

theorem column_read_last : (c.read p t).column (w.length + 1) =
    g.column c.columns ((c.taking p).map fun (i, _) => i.advance) := by
  unfold Chart.column Chart.read
  rw [List.getElem?_append_right (Nat.le_of_eq h.length), h.length, Nat.sub_self, h.grammar]
  rfl

omit h in
include hp in
theorem stands_iff {a : String} : matches?.Stands a t ↔ p a = true := by
  rw [Chart.TokenMatch.Stands, hp a, Except.ok.injEq]

theorem sound_append : g.Sound matches?.Stands start (w ++ [t]) c.columns := by
  intro k col hc
  have hk : k < c.columns.length := (List.getElem?_eq_some_iff.1 hc).1
  rw [List.take_append_of_le_length (by rw [h.length] at hk; omega)]
  exact h.sound k col hc

include hp in
theorem taken_holds : ∀ i ∈ (c.taking p).map fun (i, _) => i.advance,
    ∃ r, i.Holds g.rules matches?.Stands start (w ++ [t]) r := by
  intro j hj
  obtain ⟨⟨i, a⟩, hi, rfl⟩ := List.mem_map.1 hj
  obtain ⟨hi, hn, ha⟩ := (mem_taking h).1 hi
  obtain ⟨r, hr⟩ := h.holds hi
  rw [List.take_length] at hr
  exact ⟨r, hr.advance hn (yields_terminal_iff.2 ⟨t, rfl, (stands_iff hp).2 ha⟩)⟩

/-- Every column of the new chart is an old one or the new one. -/
theorem mem_column_read {k : Nat} {i : Item} (hi : i ∈ (c.read p t).column k) : (k ≤ w.length ∧ i ∈ c.column k) ∨
    (k = w.length + 1 ∧ i ∈ g.column c.columns ((c.taking p).map fun (i, _) => i.advance)) := by
  rcases Nat.lt_trichotomy k (w.length + 1) with hk | rfl | hk
  · rw [column_read_of_le h (by omega)] at hi
    exact .inl ⟨by omega, hi⟩
  · rw [column_read_last h] at hi
    exact .inr ⟨rfl, hi⟩
  · rw [Chart.column_eq_nil (by simp [Chart.read, h.length]; omega)] at hi
    cases hi

theorem length_eq_append : c.columns.length = (w ++ [t]).length := by
  simp [h.length]

include hg hp in
theorem sound_read : g.Sound matches?.Stands start (w ++ [t]) (c.read p t).columns := by
  intro k col hc
  rcases Nat.lt_or_ge k c.columns.length with hk | hk
  · exact sound_append h k col (by rwa [Chart.read, List.getElem?_append_left hk] at hc)
  · obtain rfl : k = c.columns.length := by
      have hlt := (List.getElem?_eq_some_iff.1 hc).1
      simp only [Chart.read, List.length_append, List.length_singleton] at hlt
      omega
    simp only [Chart.read, List.getElem?_append_right (Nat.le_refl _), Nat.sub_self, List.getElem?_cons_zero,
      Option.some.injEq, h.grammar] at hc
    subst hc
    rw [length_eq_append (t := t) h, List.take_length]
    exact ChartRules.column_sound hg (sound_append h) (length_eq_append h) (taken_holds h hp)

include hg hp in
theorem complete_read {k : Nat} {i j : Item} {r : Rule} (hi : i ∈ (c.read p t).column k) (hn : i.next? g.rules = none)
    (hr : g.rules[i.dotted.rule]? = some r) (ho : i.origin < k) (hj : j ∈ (c.read p t).column i.origin)
    (hjn : j.next? g.rules = some (.nonterminal r.origin)) : j.advance ∈ (c.read p t).column k := by
  rcases mem_column_read h hi with ⟨hk, hi⟩ | ⟨rfl, hi'⟩
  · rw [column_read_of_le h (by omega)] at hj ⊢
    exact h.complete k i j r hi hn hr ho hj hjn
  · have hl := h.length
    rw [column_read_of_le h (by omega)] at hj
    rw [column_read_last h]
    obtain ⟨col, hc⟩ : ∃ col, c.columns[i.origin]? = some col := ⟨_, List.getElem?_eq_getElem (by omega)⟩
    have hb := ChartRules.column_belongs hg (sound_append h) (length_eq_append h) (taken_holds h hp)
    exact ChartRules.column_complete hb hi' hn hr (by omega) hc (Chart.column_eq_of_getElem? hc ▸ hj) hjn

include hp in
/-- Items that wait for a token are in the next column after it, the last ones because they took it. -/
theorem scan_read {k : Nat} {i : Item} {a : String} {t' : Token} (hi : i ∈ (c.read p t).column k)
    (hn : i.next? g.rules = some (.terminal a)) (ht : (w ++ [t])[k]? = some t') (ha : matches?.Stands a t') :
    i.advance ∈ (c.read p t).column (k + 1) := by
  rcases mem_column_read h hi with ⟨hk, hi⟩ | ⟨rfl, -⟩
  · rcases Nat.lt_or_ge k w.length with hlt | hge
    · rw [List.getElem?_append_left hlt] at ht
      rw [column_read_of_le h (by omega)]
      exact h.scan k i a t' hi hn ht ha
    · obtain rfl : k = w.length := by omega
      obtain rfl : t = t' := by simpa using ht
      rw [column_read_last h]
      refine ChartRules.mem_column_of_seed (List.mem_map.2 ⟨(i, a), ?_, rfl⟩)
      exact (mem_taking h).2 ⟨hi, hn, (stands_iff hp).1 ha⟩
  · simp at ht

/-- The old scans are those of the tokens before the new one. -/
theorem mem_scans_iff_append {s : Scan} : s ∈ c.scans ↔ s.start < w.length ∧ s.stop = s.start + 1 ∧
    (w ++ [t])[s.start]? = some s.token ∧ matches?.Stands s.terminal s.token ∧
    ∃ i ∈ c.column s.start, i.next? g.rules = some (.terminal s.terminal) := by
  rw [h.scans]
  constructor
  · rintro ⟨h1, h2, h3⟩
    have hlt := (List.getElem?_eq_some_iff.1 h2).1
    exact ⟨hlt, h1, by rwa [List.getElem?_append_left hlt], h3⟩
  · rintro ⟨hlt, h1, h2, h3⟩
    exact ⟨h1, by rwa [List.getElem?_append_left hlt] at h2, h3⟩

include hp in
theorem mem_scans_read {s : Scan} : s ∈ (c.read p t).scans ↔
    s.stop = s.start + 1 ∧ (w ++ [t])[s.start]? = some s.token ∧ matches?.Stands s.terminal s.token ∧
    ∃ i ∈ (c.read p t).column s.start, i.next? g.rules = some (.terminal s.terminal) := by
  have hscans : (c.read p t).scans = c.scans ++ (c.taking p).map fun (_, a) => ⟨c.stop, c.stop + 1, a, t⟩ := rfl
  simp only [hscans, List.mem_append, mem_scans_iff_append (t := t) h,
    List.mem_map, Prod.exists, mem_taking h, h.stop_eq]
  constructor
  · rintro (⟨hlt, h1, h2, h3, i, hi, hn⟩ | ⟨i, a, ⟨hi, hn, ha⟩, rfl⟩)
    · exact ⟨h1, h2, h3, i, by rwa [column_read_of_le h (by omega)], hn⟩
    · refine ⟨rfl, by simp, (stands_iff hp).2 ha, i, ?_, hn⟩
      rwa [column_read_of_le h (Nat.le_refl _)]
  · rintro ⟨h1, h2, h3, i, hi, hn⟩
    have hlt := (List.getElem?_eq_some_iff.1 h2).1
    simp only [List.length_append, List.length_singleton] at hlt
    rw [column_read_of_le h (by omega)] at hi
    rcases Nat.lt_or_ge s.start w.length with hw | hw
    · exact .inl ⟨hw, h1, h2, h3, i, hi, hn⟩
    · have hw' : s.start = w.length := by omega
      rw [hw'] at hi h1
      obtain rfl : t = s.token := by simpa [hw'] using h2
      refine .inr ⟨i, s.terminal, ⟨hi, hn, (stands_iff hp).1 h3⟩, ?_⟩
      cases s
      simp_all

include hg hp in
/-- Reading a token that stands for a waiting terminal adds it to the record. -/
theorem records_read : (c.read p t).Records g matches?.Stands start (w ++ [t]) := by
  have hb := ChartRules.column_belongs hg (sound_append (t := t) h) (length_eq_append h) (taken_holds h hp)
  have hnew : c.columns.length = w.length + 1 := h.length
  refine ⟨h.grammar, by simp [Chart.read, h.length], sound_read hg h hp, ?_, ?_, ?_,
    fun k i j r => complete_read hg h hp,
    fun k i a t' => scan_read h hp, fun s => mem_scans_read h hp, h.gaps⟩
  · intro rule r hr ho
    rw [column_read_of_le h (Nat.zero_le _)]
    exact h.seed rule r hr ho
  · intro k i n hi hn rule r hr ho
    rcases mem_column_read h hi with ⟨hk, hi⟩ | ⟨rfl, hi'⟩
    · rw [column_read_of_le h hk]
      exact h.predict k i n hi hn rule r hr ho
    · rw [column_read_last h]
      exact hnew ▸ ChartRules.column_predict hb hi' hn hr ho
  · intro k i n hi hn hnull
    rcases mem_column_read h hi with ⟨hk, hi⟩ | ⟨rfl, hi'⟩
    · rw [column_read_of_le h hk]
      exact h.stepOver k i n hi hn hnull
    · rw [column_read_last h]
      exact ChartRules.column_stepOver hb hi' hn hnull

end Read

end Scan

/-! ## All tokens of a list -/

section Tokens

variable {g : ChartRules} {matches? : Chart.TokenMatch} {start : String}

theorem scanAll_nil (c : Chart) : c.scanAll matches? (Listed.ofTokens []) = .ok c := by
  rw [Chart.scanAll]; rfl

theorem scanAll_cons (c : Chart) (t : Token) (ts : List Token) : c.scanAll matches? (Listed.ofTokens (t :: ts)) =
    match c.scan matches? t with
    | .ok c => c.scanAll matches? (Listed.ofTokens ts)
    | .error f => .error f := by
  rw [Chart.scanAll]; rfl

/-- A token is taken exactly if it may come next. -/
theorem taking_isEmpty_iff (hg : g.Exact matches?.Stands) {w : List Token} {c : Chart} {t : Token}
    {p : String → Bool} (h : c.Records g matches?.Stands start w) (hp : ∀ a, matches? a t = .ok (p a)) :
    (c.taking p).isEmpty = false ↔ Viable g.rules matches?.Stands start (w ++ [t]) := by
  rw [List.isEmpty_eq_false_iff_exists_mem, viable_concat_iff]
  simp only [Prod.exists, mem_taking h, stands_iff hp]
  constructor
  · rintro ⟨i, a, hi, hn, ha⟩
    exact ⟨a, ha, (h.mem_expected_iff hg).1 ((h.exists_mem_expected).2 ⟨i, hi, hn⟩)⟩
  · rintro ⟨a, ha, hc⟩
    obtain ⟨i, hi, hn⟩ := h.exists_mem_expected.1 ((h.mem_expected_iff hg).2 hc)
    exact ⟨i, a, hi, hn, ha⟩

/-- What becomes of reading tokens: all of them are read, or one is refused that no continuation allows. -/
theorem scanAll_outcome (hg : g.Exact matches?.Stands) (hm : ∀ a t, ∃ b, matches? a t = .ok b) :
    ∀ {w : List Token} {c : Chart} (ts : List Token), c.Records g matches?.Stands start w →
      Viable g.rules matches?.Stands start w →
      (∃ c' : Chart, c.scanAll matches? (Listed.ofTokens ts) = .ok c' ∧ c'.Records g matches?.Stands start (w ++ ts) ∧
        Viable g.rules matches?.Stands start (w ++ ts)) ∨
      ∃ (u : List Token) (t : Token) (v : List Token) (c' : Chart),
        ts = u ++ t :: v ∧ c'.Records g matches?.Stands start (w ++ u) ∧
        Viable g.rules matches?.Stands start (w ++ u) ∧ ¬ Viable g.rules matches?.Stands start (w ++ u ++ [t]) ∧
        c.scanAll matches? (Listed.ofTokens ts) = .error (.parse (.atToken t c'.expected))
  | w, c, [], h, hv => .inl ⟨c, scanAll_nil c, by simpa using h, by simpa using hv⟩
  | w, c, t :: ts, h, hv => by
    choose p hp using fun a => hm a t
    rw [scanAll_cons, scan_eq hp]
    cases he : (c.taking p).isEmpty with
    | true =>
      refine .inr ⟨[], t, ts, c, rfl, by simpa using h, by simpa using hv, ?_, rfl⟩
      rw [List.append_nil, ← taking_isEmpty_iff hg h hp, he]
      exact Bool.noConfusion
    | false =>
      have hv' := (taking_isEmpty_iff hg h hp).1 he
      rcases scanAll_outcome hg hm ts (records_read hg h hp) hv' with
        ⟨c', h1, h2, h3⟩ | ⟨u, t', v, c', rfl, h2, h3, h4, h5⟩
      · exact .inl ⟨c', h1, by simpa using h2, by simpa using h3⟩
      · exact .inr ⟨t :: u, t', v, c', rfl, by simpa using h2, by simpa using h3, by simpa using h4, h5⟩

/-- What becomes of the chart of a token list: it records all tokens, or a token is refused. -/
theorem ofTokens_outcome (hg : g.Exact matches?.Stands) (hm : ∀ a t, ∃ b, matches? a t = .ok b)
    (hs : ∃ r ∈ g.rules, r.origin = start) (ts : List Token) :
    (∃ c : Chart, Chart.ofTokens g matches? (Listed.ofTokens ts) start = .ok c ∧
      c.Records g matches?.Stands start ts ∧ Viable g.rules matches?.Stands start ts) ∨
    ∃ (u : List Token) (t : Token) (v : List Token) (c : Chart), ts = u ++ t :: v ∧
      c.Records g matches?.Stands start u ∧ Viable g.rules matches?.Stands start u ∧
      ¬ Viable g.rules matches?.Stands start (u ++ [t]) ∧
      Chart.ofTokens g matches? (Listed.ofTokens ts) start = .error (.parse (.atToken t c.expected)) := by
  have heq : Chart.ofTokens g matches? (Listed.ofTokens ts) start =
      Chart.scanAll matches? { grammar := g, columns := [g.column [] (g.predict 0 start)] } (Listed.ofTokens ts) := by
    rw [Chart.ofTokens, start_ok hs]; rfl
  rw [heq]
  simpa using scanAll_outcome hg hm ts (start_records hg) viable_nil

/-- Only a nonterminal that has rules has a chart. -/
theorem exists_rule_of_ofTokens {ts : List Token} {c : Chart}
    (h : Chart.ofTokens g matches? (Listed.ofTokens ts) start = .ok c) : ∃ r ∈ g.rules, r.origin = start := by
  rcases hp : g.predict 0 start with _ | ⟨i, rest⟩
  · have hstart : Chart.start g start = .error (.configuration (.unknownStart start)) := by
      rw [Chart.start, ChartRules.seeds, hp]
      rfl
    rw [Chart.ofTokens, hstart] at h
    cases h
  · have hi : i ∈ g.predict 0 start := by rw [hp]; exact List.mem_cons_self ..
    obtain ⟨rule, r, hr, hn, -⟩ := ChartRules.mem_predict.1 hi
    exact ⟨r, List.mem_of_getElem? hr, hn⟩

/-- A chart of all tokens records them. -/
theorem records_of_ofTokens (hg : g.Exact matches?.Stands) (hm : ∀ a t, ∃ b, matches? a t = .ok b) {ts : List Token}
    {c : Chart} (h : Chart.ofTokens g matches? (Listed.ofTokens ts) start = .ok c) :
    c.Records g matches?.Stands start ts := by
  rcases ofTokens_outcome hg hm (exists_rule_of_ofTokens h) ts with ⟨c', hc, hr, -⟩ | ⟨u, t, v, c', -, -, -, -, hc⟩
  · rw [hc] at h
    cases h
    exact hr
  · rw [hc] at h
    cases h

/-- What the start symbol yields has an accepting chart. -/
theorem exists_accepting (hg : g.Exact matches?.Stands) (hm : ∀ a t, ∃ b, matches? a t = .ok b) {ts : List Token}
    (hy : Yields g.rules matches?.Stands [.nonterminal start] ts) :
    ∃ c, Chart.ofTokens g matches? (Listed.ofTokens ts) start = .ok c ∧ c.accepts start = true ∧
      c.Records g matches?.Stands start ts := by
  obtain ⟨r, hr, hn, -⟩ := yields_nonterminal_iff.1 hy
  rcases ofTokens_outcome hg hm ⟨r, hr, hn⟩ ts with ⟨c, hc, hrec, -⟩ | ⟨u, t, v, c, rfl, -, -, hv, -⟩
  · exact ⟨c, hc, (hrec.accepts_iff hg).2 hy, hrec⟩
  · have hvy : Viable g.rules matches?.Stands start (u ++ [t] ++ v) := by simpa using viable_of_yields hy
    exact absurd hvy.of_append hv

/-- The names of a chart's failure are the terminals that may come next. -/
theorem nextTerminals_expected {w : List Token} {c : Chart} {stands : String → Token → Prop} (hg : g.Exact stands)
    (h : c.Records g stands start w) : NextTerminals g.rules stands start w (sortedNames c.expected) :=
  ⟨pairwise_sortedNames _, fun a => by
    rw [mem_sortedNames, h.mem_expected_iff hg, continues_iff_derivesLeft]⟩

end Tokens

/-! ## Recognition is exact -/

theorem ofConfig_eq_ok {conf : ParserConfig} {matches? : Chart.TokenMatch} {o : Options} {p : Parser}
    (hp : Parser.ofConfig conf matches? o = .ok p) :
    p = ⟨.ofRules conf.rules, conf.actions, matches?, o⟩ ∧ o.ambiguity ≠ .forest := by
  unfold Parser.ofConfig at hp
  split at hp
  · cases hp
  · rename_i h
    cases hp
    exact ⟨rfl, h⟩

/-- A parse is the value of a chart that accepts. -/
theorem parse_eq {σ : Type} [TokenSource σ] (p : Parser) (source : σ) (start : String) : p.parse source start =
    match Chart.ofTokens p.grammar p.matches? source start with
    | .ok c => if c.accepts start then c.value p.options.ambiguity p.actions start
        else .error (.parse (.atEnd c.expected))
    | .error f => .error f := by
  rw [Parser.parse]
  cases Chart.ofTokens p.grammar p.matches? source start with
  | error f => rfl
  | ok c =>
    show (if (!c.accepts start) = true then _ else _) = if c.accepts start = true then _ else _
    cases c.accepts start <;> rfl

/-- For every list of rules and every match that decides each terminal: the chart of a token list holds a
complete rule of the start symbol over all tokens exactly if the start symbol derives terminals that the
tokens stand for. Otherwise the parse fails at the first token that no leftmost form of the start symbol
reaches, or at the end if there is none, and reports the terminals that may come after the tokens before. -/
theorem recognition_exact {conf : ParserConfig} {matches? : Chart.TokenMatch} {o : Options} {p : Parser}
    (hp : Parser.ofConfig conf matches? o = .ok p) {start : String} (hs : ∃ r ∈ conf.rules, r.origin = start)
    (hm : ∀ a t, ∃ b, matches? a t = .ok b) (tokens : List Token) :
    (∀ c : Chart, Chart.ofTokens p.grammar p.matches? (Listed.ofTokens tokens) start = .ok c →
      (c.completed tokens.length start 0 ≠ [] ↔ ∃ word, Derives conf.rules [.nonterminal start] (word.map .terminal) ∧
        List.Forall₂ matches?.Stands word tokens)) ∧
    ((∃ word, Derives conf.rules [.nonterminal start] (word.map .terminal) ∧
        List.Forall₂ matches?.Stands word tokens) →
      ∃ c : Chart, Chart.ofTokens p.grammar p.matches? (Listed.ofTokens tokens) start = .ok c) ∧
    ((¬ ∃ word, Derives conf.rules [.nonterminal start] (word.map .terminal) ∧
        List.Forall₂ matches?.Stands word tokens) →
      (∃ (u : List Token) (t : Token) (v : List Token) (names : List String), tokens = u ++ t :: v ∧
        (∀ x, x <+: tokens → (Viable conf.rules matches?.Stands start x ↔ x.length ≤ u.length)) ∧
        NextTerminals conf.rules matches?.Stands start u names ∧
        p.parse (Listed.ofTokens tokens) start = .error (.parse (.unexpectedToken t names none))) ∨
      ((∀ x, x <+: tokens → Viable conf.rules matches?.Stands start x) ∧
        ∃ names, NextTerminals conf.rules matches?.Stands start tokens names ∧
          p.parse (Listed.ofTokens tokens) start = .error (.parse (.unexpectedEnd names)))) := by
  obtain ⟨rfl, -⟩ := ofConfig_eq_ok hp
  have hg : (ChartRules.ofRules conf.rules).Exact matches?.Stands := ChartRules.exact_ofRules _
  simp only [← yields_iff_derives, parse_eq]
  rcases ofTokens_outcome hg hm hs tokens with ⟨c, hc, hr, hv⟩ | ⟨u, t, v, c, rfl, hr, hv, hnv, hc⟩
  · rw [hc]
    have hacc := hr.accepts_iff hg
    rw [Chart.accepts, hr.stop_eq, Bool.not_eq_true', List.isEmpty_eq_false_iff] at hacc
    refine ⟨fun c' h => (by cases h; exact hacc), fun _ => ⟨c, rfl⟩, fun hn => .inr ⟨fun x hx => hv.of_prefix hx, ?_⟩⟩
    refine ⟨_, nextTerminals_expected hg hr, ?_⟩
    have hna : ¬ c.accepts start = true := by rw [hr.accepts_iff hg]; exact hn
    exact if_neg hna
  · rw [hc]
    refine ⟨fun c' h => (by cases h), fun hy => ?_, fun _ =>
      .inl ⟨u, t, v, _, rfl, ?_, nextTerminals_expected hg hr, rfl⟩⟩
    · have hvy : Viable conf.rules matches?.Stands start (u ++ [t] ++ v) := by simpa using viable_of_yields hy
      exact absurd hvy.of_append hnv
    · exact fun x hx => viable_prefix_iff hv hnv hx

/-- A nonterminal that begins with itself and may be empty. -/
def repeatedLetter : List Rule :=
  [⟨"s", [⟨.nonterminal "s", false⟩, ⟨.terminal "a", false⟩], 0, none, {}⟩, ⟨"s", [], 1, none, {}⟩]

/-- The chart of one letter is complete, although the rule begins with its own nonterminal. -/
theorem recognition_repeatedLetter :
    ∃ c : Chart, Chart.ofTokens (.ofRules repeatedLetter) Chart.byName (Listed.ofTokens [.ofText "a" "a"]) "s" = .ok c ∧
      c.completed 1 "s" 0 ≠ [] := by
  have hy : ∃ word : List String, Derives repeatedLetter [.nonterminal "s"] (word.map .terminal) ∧
      List.Forall₂ Chart.byName.Stands word [.ofText "a" "a"] := by
    refine ⟨["a"], ?_, .cons rfl .nil⟩
    have h1 : Rewrites repeatedLetter [.nonterminal "s"] [.nonterminal "s", .terminal "a"] :=
      .mk [] [] (r := repeatedLetter[0]) (by simp [repeatedLetter])
    have h2 : Rewrites repeatedLetter [.nonterminal "s", .terminal "a"] [.terminal "a"] :=
      .mk [] [.terminal "a"] (r := repeatedLetter[1]) (by simp [repeatedLetter])
    exact .tail (.single h1) h2
  have hp : Parser.ofConfig ⟨repeatedLetter, {}, ["s"], false⟩ Chart.byName {} =
      .ok ⟨.ofRules repeatedLetter, {}, Chart.byName, {}⟩ := rfl
  have h := recognition_exact hp ⟨repeatedLetter[0], by simp [repeatedLetter], rfl⟩
    (fun a t => ⟨_, rfl⟩) [.ofText "a" "a"]
  obtain ⟨c, hc⟩ := h.2.1 hy
  exact ⟨c, hc, (h.1 c hc).2 hy⟩

end GrammarKit.Earley
