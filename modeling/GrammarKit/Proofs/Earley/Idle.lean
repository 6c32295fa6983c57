/-
Rules that never come. Rules that begin with terminals which no token stands for are predicted wherever their
nonterminals are, and get no further. Put after the rules of a grammar they leave its places as they are, so a chart has
all its other items as without them, the same candidates over every stretch in the same order, and the same tokens.
Every attempt to derive a goal then comes to the same end, and the same derivation is found.
-/
import GrammarKit.Proofs.Earley.Canonical
import GrammarKit.Proofs.Earley.Mirror
import GrammarKit.Proofs.Earley.Packing

namespace GrammarKit

/-! ## What idle rules yield -/

section Idle

variable {τ : Type} {rules added : List Rule} {stands : String → τ → Prop} {w : List τ}

/-- Rules that begin with a terminal which none of the tokens stands for. -/
def Idle (added : List Rule) (stands : String → τ → Prop) (w : List τ) : Prop :=
  ∀ r ∈ added, ∃ a rest, r.symbols = .terminal a :: rest ∧ ∀ t ∈ w, ¬ stands a t

variable (hidle : Idle added stands w)
include hidle

theorem Yields.of_idle {ss : List Symbol} {ts : List τ} (h : Yields (rules ++ added) stands ss ts) :
    (∀ t ∈ ts, t ∈ w) → Yields rules stands ss ts := by
  induction h with
  | nil => exact fun _ => .nil
  | terminal h _ ih => exact fun hw => .terminal h (ih fun t ht => hw t (List.mem_cons_of_mem _ ht))
  | nonterminal h _ _ ih1 ih2 =>
    intro hw
    have h1 := ih1 fun t ht => hw t (List.mem_append_left _ ht)
    rcases List.mem_append.1 h with h | h
    · exact .nonterminal h h1 (ih2 fun t ht => hw t (List.mem_append_right _ ht))
    · obtain ⟨a, rest, hs, hno⟩ := hidle _ h
      rw [hs] at h1
      cases h1 with
      | terminal ha _ => exact absurd ha (hno _ (hw _ (by simp)))

/-- Beyond what may come without them, idle rules wait for their first terminals only. -/
theorem Continues.of_idle {start : String} {u : List τ} {s : Symbol}
    (h : Continues (rules ++ added) stands start u s) : (∀ t ∈ u, t ∈ w) →
    Continues rules stands start u s ∨ ∃ a, s = .terminal a ∧ ∀ t ∈ w, ¬ stands a t := by
  induction h with
  | start => exact fun _ => .inl .start
  | @inside u v r before after s hr _ hs hv ih =>
    intro hw
    have hvw : ∀ t ∈ v, t ∈ w := fun t ht => hw t (List.mem_append_right _ ht)
    rcases List.mem_append.1 hr with hr | hr
    · refine (ih fun t ht => hw t (List.mem_append_left _ ht)).imp (fun h => ?_) fun ⟨a, ha, _⟩ => by cases ha
      exact .inside hr h hs (hv.of_idle hidle hvw)
    · obtain ⟨a, rest, hs', hno⟩ := hidle r hr
      rw [hs] at hs'
      cases before with
      | nil => exact .inr ⟨a, (List.cons.inj hs').1, hno⟩
      | cons x before =>
        obtain ⟨rfl, -⟩ := List.cons.inj hs'
        cases hv with
        | terminal ha _ => exact absurd ha (hno _ (hvw _ (by simp)))

omit hidle in
theorem Continues.mono {rules' : List Rule} (hsub : ∀ r ∈ rules, r ∈ rules') {start : String} {u : List τ} {s : Symbol}
    (h : Continues rules stands start u s) : Continues rules' stands start u s := by
  induction h with
  | start => exact .start
  | inside hr _ hs hv ih => exact .inside (hsub _ hr) ih hs (hv.mono hsub)

theorem continues_nonterminal_append_iff {start : String} {u : List τ} {n : String} (hw : ∀ t ∈ u, t ∈ w) :
    Continues (rules ++ added) stands start u (.nonterminal n) ↔ Continues rules stands start u (.nonterminal n) :=
  ⟨fun h => (h.of_idle hidle hw).resolve_right fun ⟨_, ha, _⟩ => (nomatch ha),
    fun h => h.mono fun _ => List.mem_append_left _⟩

end Idle

namespace Earley

namespace Chart

/-! ## Columns without repetitions -/

section Nodup

variable {matches? : TokenMatch}

theorem nodup_column (g : ChartRules) (before : List Column) (seeds : List Item) : (g.column before seeds).Nodup :=
  nodup_explore _ _ [] (fresh [] seeds) (nodup_fresh [] seeds)

theorem nodup_scan {c c' : Chart} {t : Token} (h : c.scan matches? t = .ok c') (hc : ∀ col ∈ c.columns, col.Nodup) :
    ∀ col ∈ c'.columns, col.Nodup := by
  unfold scan at h
  cases hf : (c.grammar.waiting c.last).filterM fun x => matches? x.2 t with
  | error f => rw [hf] at h; cases h
  | ok taken =>
    rw [hf] at h
    simp only [bind, Except.bind] at h
    split at h
    · cases h
    · cases h
      intro col hcol
      rcases List.mem_append.1 hcol with hcol | hcol
      · exact hc col hcol
      · rw [List.mem_singleton.1 hcol]
        exact nodup_column ..

theorem nodup_scanAll : ∀ {ts : List Token} {c c' : Chart}, c.scanAll matches? (Listed.ofTokens ts) = .ok c' →
    (∀ col ∈ c.columns, col.Nodup) → ∀ col ∈ c'.columns, col.Nodup
  | [], c, c', h, hc => by
    rw [scanAll_nil] at h
    cases h
    exact hc
  | t :: ts, c, c', h, hc => by
    rw [scanAll_cons] at h
    cases hs : c.scan matches? t with
    | error f => rw [hs] at h; cases h
    | ok c'' => rw [hs] at h; exact nodup_scanAll h (nodup_scan hs hc)

/-- No column of a chart has an item twice. -/
theorem nodup_ofTokens {g : ChartRules} {start : String} {ts : List Token} {c : Chart}
    (h : ofTokens g matches? (Listed.ofTokens ts) start = .ok c) (k : Nat) : (c.column k).Nodup := by
  have hcols : ∀ col ∈ c.columns, col.Nodup := by
    unfold ofTokens at h
    cases hs : Chart.start g start with
    | error f => rw [hs] at h; cases h
    | ok c' =>
      rw [hs] at h
      refine nodup_scanAll h fun col hcol => ?_
      unfold Chart.start at hs
      cases hseeds : g.seeds start with
      | error f => rw [hseeds] at hs; cases hs
      | ok seeds =>
        rw [hseeds] at hs
        cases hs
        rw [List.mem_singleton.1 hcol]
        exact nodup_column ..
  rw [column]
  cases hk : c.columns[k]? with
  | none => exact List.nodup_nil
  | some col => exact hcols col (List.mem_of_getElem? hk)

theorem nodup_completed {c : Chart} {k : Nat} (h : (c.column k).Nodup) (name : String) (j : Nat) :
    (c.completed k name j).Nodup := by
  refine List.Nodup.filterMap (fun i i' rule hi hi' => ?_) h
  -- the dot of a complete item is at the end of its rule
  obtain ⟨r, hr, -, h1⟩ := ChartRules.mem_completed.1 (List.mem_filterMap.2 ⟨i, List.mem_singleton_self i, hi⟩)
  obtain ⟨r', hr', -, h2⟩ := ChartRules.mem_completed.1 (List.mem_filterMap.2 ⟨i', List.mem_singleton_self i', hi'⟩)
  rw [← List.mem_singleton.1 h1, ← List.mem_singleton.1 h2, Option.some.inj (hr.symm.trans hr')]

end Nodup

/-! ## Charts with idle rules -/

section Idle

variable {rules added : List Rule} {stands : String → Token → Prop} {start : String} {w : List Token} {c d : Chart}

namespace Records

/-- A token is known between two positions if it is there, and a terminal that it stands for may come. -/
theorem token?_eq_some_iff {g : ChartRules} (h : c.Records g stands start w) (hg : g.Exact stands) {j k : Nat}
    {a : String} {t : Token} : c.token? j k a = some t ↔ k = j + 1 ∧ w[j]? = some t ∧ stands a t ∧
      Continues g.rules stands start (w.take j) (.terminal a) := by
  constructor
  · intro ht
    obtain ⟨rfl, hw, ha⟩ := h.token?_eq_some ht
    obtain ⟨x, hx, rfl⟩ := Option.map_eq_some_iff.1 ht
    have hp := List.find?_some hx
    simp only [Bool.and_eq_true, beq_iff_eq] at hp
    obtain ⟨⟨rfl, -⟩, rfl⟩ := hp
    obtain ⟨-, -, -, i, hi, hn⟩ := (h.scans x).1 (List.mem_of_find?_eq_some hx)
    obtain ⟨r, hr⟩ := h.holds hi
    exact ⟨rfl, hw, ha, hr.continues hn⟩
  · rintro ⟨rfl, hw, ha, hc⟩
    have hlen : (w.take j).length = j := by
      rw [List.length_take]
      have := (List.getElem?_eq_some_iff.1 hw).1
      omega
    rcases h.exists_waiting hg hc (List.take_append_drop j w).symm with ⟨-, hs⟩ | ⟨i, hi, hn⟩
    · cases hs
    · rw [hlen] at hi
      obtain ⟨t', ht'⟩ := Option.ne_none_iff_exists'.1 (h.token?_ne_none hi hn hw ha)
      obtain ⟨-, hw', -⟩ := h.token?_eq_some ht'
      rw [ht', Option.some.inj (hw.symm.trans hw')]

variable (hc : c.Records (.ofRules rules) stands start w) (hd : d.Records (.ofRules (rules ++ added)) stands start w)
  (hidle : Idle added stands w)
include hc hd hidle

/-- The items of the rules that are not idle are the same. -/
theorem mem_column_append_iff {k : Nat} {i : Item} (hi : i.dotted.rule < rules.length) :
    i ∈ d.column k ↔ i ∈ c.column k := by
  by_cases hk : k ≤ w.length
  · rw [hc.mem_column_iff (ChartRules.exact_ofRules rules) hk,
      hd.mem_column_iff (ChartRules.exact_ofRules (rules ++ added)) hk]
    have hw : ∀ t ∈ w.take k, t ∈ w := fun t => List.mem_of_mem_take
    have hrule : (rules ++ added)[i.dotted.rule]? = rules[i.dotted.rule]? := List.getElem?_append_left hi
    refine exists_congr fun r => ⟨fun h => ⟨hrule ▸ h.rule, h.dot, h.origin, ?_, ?_⟩, fun h =>
      ⟨hrule ▸ h.rule, h.dot, h.origin, ?_, ?_⟩⟩
    · exact (continues_nonterminal_append_iff hidle fun t ht => hw t (List.mem_of_mem_take ht)).1 h.outer
    · exact h.inner.of_idle hidle fun t ht => hw t (List.mem_of_mem_drop ht)
    · exact h.outer.mono fun _ => List.mem_append_left _
    · exact h.inner.mono fun _ => List.mem_append_left _
  · rw [column_eq_nil (by rw [hd.length]; omega), column_eq_nil (by rw [hc.length]; omega)]

/-- Idle rules are never complete. -/
theorem mem_completed_append_iff {k j rule : Nat} {n : String} :
    rule ∈ d.completed k n j ↔ rule ∈ c.completed k n j := by
  by_cases hk : k ≤ w.length
  · rw [hc.mem_completed_iff (ChartRules.exact_ofRules rules) hk,
      hd.mem_completed_iff (ChartRules.exact_ofRules (rules ++ added)) hk]
    have hw : ∀ t ∈ (w.take k).drop j, t ∈ w := fun t ht => List.mem_of_mem_take (List.mem_of_mem_drop ht)
    refine exists_congr fun r => ⟨?_, ?_⟩
    · rintro ⟨hr, hn, hj, hcont, hy⟩
      have hy' := Yields.of_idle hidle hy hw
      refine ⟨?_, hn, hj, ?_, hy'⟩
      · rcases Nat.lt_or_ge rule rules.length with hlt | hge
        · exact (List.getElem?_append_left hlt).symm.trans hr
        · change (rules ++ added)[rule]? = some r at hr
          rw [List.getElem?_append_right hge] at hr
          obtain ⟨a, rest, hs, hno⟩ := hidle r (List.mem_of_getElem? hr)
          rw [hs] at hy'
          generalize hts : (w.take k).drop j = ts at hy' hw
          cases hy' with
          | terminal ha _ => exact absurd ha (hno _ (hw _ (List.mem_cons_self ..)))
      · exact (continues_nonterminal_append_iff hidle fun t => List.mem_of_mem_take).1 hcont
    · rintro ⟨hr, hn, hj, hcont, hy⟩
      refine ⟨?_, hn, hj, hcont.mono fun _ => List.mem_append_left _, hy.mono fun _ => List.mem_append_left _⟩
      exact (List.getElem?_append_left (List.getElem?_eq_some_iff.1 hr).1).trans hr
  · rw [hc.completed_eq_nil (by omega), hd.completed_eq_nil (by omega)]

theorem token?_append_eq : d.token? = c.token? := by
  funext j k a
  refine Option.ext fun t => ?_
  rw [hc.token?_eq_some_iff (ChartRules.exact_ofRules rules),
    hd.token?_eq_some_iff (ChartRules.exact_ofRules (rules ++ added))]
  refine and_congr_right fun _ => and_congr_right fun hw => and_congr_right fun ha => ⟨fun h => ?_, fun h =>
    h.mono fun _ => List.mem_append_left _⟩
  exact (h.of_idle hidle fun t => List.mem_of_mem_take).resolve_right fun ⟨b, hb, hno⟩ => by
    cases hb
    exact hno t (List.mem_of_getElem? hw) ha

theorem candidates_append_eq (hcn : ∀ k, (c.column k).Nodup) (hdn : ∀ k, (d.column k).Nodup) :
    d.candidates = c.candidates := by
  funext b
  have hmem : ∀ x, x ∈ d.candidates b ↔ x ∈ c.candidates b := by
    rintro ⟨i, r⟩
    rw [hc.mem_candidates_iff, hd.mem_candidates_iff, mem_completed_append_iff hc hd hidle]
    refine and_congr_right fun hi => ?_
    obtain ⟨r', hr', -⟩ := ChartRules.mem_completed.1 hi
    rw [hc.grammar] at hr'
    exact iff_of_eq (congrArg (· = some r) (List.getElem?_append_left (List.getElem?_eq_some_iff.1 hr').1))
  have hnodup : ∀ {e : Chart}, (∀ k, (e.column k).Nodup) → (e.candidates b).Nodup := fun {e} he => by
    rw [candidates, (List.mergeSort_perm _ _).nodup_iff]
    refine List.Nodup.filterMap (fun i i' x hx hx' => ?_) (nodup_completed (he _) _ _)
    obtain ⟨r, -, rfl⟩ := Option.map_eq_some_iff.1 hx
    obtain ⟨r', -, h⟩ := Option.map_eq_some_iff.1 hx'
    exact (congrArg Prod.fst h).symm
  refine List.Perm.eq_of_pairwise (fun x y hx hy hxy hyx => ?_) (d.candidates_pairwise b) (c.candidates_pairwise b)
    ((List.perm_ext_iff_of_nodup (hnodup hdn) (hnodup hcn)).2 hmem)
  -- rules of one rank are at the same place
  have hplace : x.1 = y.1 := by
    unfold Preferred at hxy hyx
    omega
  have hx := (hc.mem_candidates_iff.1 ((hmem x).1 hx)).2
  rw [hplace, (hc.mem_candidates_iff.1 hy).2] at hx
  exact Prod.ext hplace (Option.some.inj hx).symm

/-- Idle rules change nothing that derivations are read off from. -/
theorem mirrors_append (hcn : ∀ k, (c.column k).Nodup) (hdn : ∀ k, (d.column k).Nodup) : Mirrors id c d where
  stop := by rw [hc.stop_eq, hd.stop_eq]
  tokens j k a := by rw [token?_append_eq hc hd hidle, Option.map_id_fun, id]
  ends := by
    funext k
    rw [ends, ends, hc.gaps, hd.gaps]
  candidates := candidates_append_eq hc hd hidle hcn hdn
  completed k n j := by
    rw [Bool.eq_iff_iff, List.isEmpty_iff, List.isEmpty_iff, List.eq_nil_iff_forall_not_mem,
      List.eq_nil_iff_forall_not_mem]
    exact forall_congr' fun rule => not_congr (mem_completed_append_iff hc hd hidle)
  contains g x hx k dot j := by
    have hlt := (List.getElem?_eq_some_iff.1 (hc.mem_candidates_iff.1 hx).2).1
    rw [contains, contains, Bool.eq_iff_iff, List.contains_iff_mem, List.contains_iff_mem]
    exact mem_column_append_iff hc hd hidle hlt
  goalCount := by
    rw [goalCount, goalCount, hc.grammar, hd.grammar, hc.length, hd.length]
    have hle : (ChartRules.ofRules rules).rules.length ≤ (ChartRules.ofRules (rules ++ added)).rules.length := by
      simp [ChartRules.ofRules]
    exact Nat.succ_le_succ (Nat.mul_le_mul_right _ hle)

end Records

end Idle

end Chart

/-! ## Values -/

section Build

variable {rules : List Rule} {stands : String → Token → Prop} {w : List Token} {A A' : Actions}

mutual

/-- The value of a derivation depends on the actions of the rules alone. -/
theorem Packs.build_congr (hact : ∀ r ∈ rules, A'.apply r = A.apply r) {s : Symbol} {j k : Nat} {p : Packed} :
    Packs rules stands w s j k p → p.build A' = p.build A
  | .token _ _ => rfl
  | @Packs.node _ _ _ _ _ _ ways _ hrule _ hparts => by
    have hway : ∀ x ∈ ways, x.build A' = x.build A := by
      rintro ⟨r, parts⟩ hx
      rw [Way.build, Way.build, hact r (hrule r parts hx), (hparts r parts hx).buildAll_congr hact]
    rw [Packed.build, Packed.build, Way.buildAll_eq_map, Way.buildAll_eq_map, List.map_congr_left hway]

theorem PacksAll.buildAll_congr (hact : ∀ r ∈ rules, A'.apply r = A.apply r) {ss : List Symbol} {j k : Nat}
    {ps : List Packed} : PacksAll rules stands w ss j k ps → Packed.buildAll A' ps = Packed.buildAll A ps
  | .nil => rfl
  | .cons _ _ first rest => by
    rw [Packed.buildAll, Packed.buildAll, first.build_congr hact, rest.buildAll_congr hact]

end

end Build

section Parse

variable {matches? : Chart.TokenMatch} (hm : ∀ a t, ∃ b, matches? a t = .ok b) {rules added : List Rule}
  {tokens : List Token} {start : String}
include hm

/-- A list of tokens is parsed to the same value with idle rules after the others. -/
theorem parse_append_idle (hidle : Idle added matches?.Stands tokens) {A A' : Actions}
    (hact : ∀ r ∈ rules, A'.apply r = A.apply r) (o : Options) (start : String) (v : Child) :
    (⟨.ofRules (rules ++ added), A', matches?, o⟩ : Parser).parse (Listed.ofTokens tokens) start = .ok v ↔
      (⟨.ofRules rules, A, matches?, o⟩ : Parser).parse (Listed.ofTokens tokens) start = .ok v := by
  have hg : ∀ rules, (ChartRules.ofRules rules).Exact matches?.Stands := ChartRules.exact_ofRules
  rw [parse_eq_ok_iff, parse_eq_ok_iff]
  have hsame : ∀ {c d : Chart}, Chart.ofTokens (.ofRules rules) matches? (Listed.ofTokens tokens) start = .ok c →
      Chart.ofTokens (.ofRules (rules ++ added)) matches? (Listed.ofTokens tokens) start = .ok d →
      d.derivation? o.ambiguity start = c.derivation? o.ambiguity start ∧
        ∀ p, c.derivation? o.ambiguity start = some p → p.build A' = p.build A := fun {c d} hc hd => by
    have hcr := records_of_ofTokens (hg rules) hm hc
    have hdr := records_of_ofTokens (hg (rules ++ added)) hm hd
    have hmirrors := hcr.mirrors_append hdr hidle (Chart.nodup_ofTokens hc) (Chart.nodup_ofTokens hd)
    refine ⟨?_, fun p hp => (hcr.derivation?_packs hp).build_congr hact⟩
    rw [hmirrors.derivation?_eq rfl, show Packed.mapTokens id = id from funext Packed.mapTokens_id, Option.map_id_fun,
      id]
  constructor
  · rintro ⟨d, p, hd, ha, hp, rfl⟩
    have hy := ((records_of_ofTokens (hg (rules ++ added)) hm hd).accepts_iff (hg (rules ++ added))).1 ha
    obtain ⟨c, hc, hca, -⟩ := exists_accepting (hg rules) hm (hy.of_idle hidle fun _ => id)
    obtain ⟨heq, hbuild⟩ := hsame hc hd
    exact ⟨c, p, hc, hca, heq ▸ hp, hbuild p (heq ▸ hp)⟩
  · rintro ⟨c, p, hc, ha, hp, rfl⟩
    have hy := ((records_of_ofTokens (hg rules) hm hc).accepts_iff (hg rules)).1 ha
    obtain ⟨d, hd, hda, -⟩ := exists_accepting (hg (rules ++ added)) hm (hy.mono fun _ => List.mem_append_left _)
    obtain ⟨heq, hbuild⟩ := hsame hc hd
    exact ⟨d, p, hd, hda, heq.trans hp, (hbuild p hp).symm⟩

end Parse

end Earley

end GrammarKit
