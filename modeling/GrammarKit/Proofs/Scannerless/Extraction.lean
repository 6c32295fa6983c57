/-
Reading derivations off the chart of a text. The symbols of a rule follow each other over nothing but skipped text, so
what is found for a goal is a tree over tokens between its places. Where no nonterminal derives itself, something is
found for all that is covered: a goal that is met inside another one lies between the same places only if the symbols
around it take no text, and then its nonterminal is derived from the other one's.
-/
import GrammarKit.Proofs.Earley.Descent
import GrammarKit.Proofs.Scannerless.Charting

namespace GrammarKit.Earley.Scannerless

open Search

variable {s : Scannerless} {text : List Char} {start : String} {c : Chart} {i : Item} {j k : Nat}

namespace Charts

variable (h : s.Charts text start c)
include h

/-! ## What the chart has -/

theorem stop_eq : c.stop = text.length := by rw [Chart.stop, h.length, Nat.add_sub_cancel]

theorem mem_column_iff : i ∈ c.column k ↔ k ≤ text.length ∧ s.Found text start k i := by
  by_cases hk : k ≤ text.length
  · rw [h.column k hk, and_iff_right hk]
  · rw [Chart.column_eq_nil (by rw [h.length]; omega)]
    simp [hk]

/-- A token of the chart is of a terminal that takes the text between two places. -/
theorem token?_eq_some {a : String} {t : Token} (ht : c.token? j k a = some t) :
    s.Takes text a j k ∧ t = tokenAt text a j k := by
  obtain ⟨x, hx, rfl⟩ := Option.map_eq_some_iff.1 ht
  have hp := List.find?_some hx
  simp only [Bool.and_eq_true, beq_iff_eq] at hp
  obtain ⟨⟨rfl, rfl⟩, rfl⟩ := hp
  exact ((h.scans x).1 (List.mem_of_find?_eq_some hx)).2.2

/-- Where a terminal is waited for, the chart has a token wherever it takes text. -/
theorem token?_ne_none {a : String} (hi : s.Found text start j i)
    (hn : i.next? s.grammar.rules = some (.terminal a)) (ht : s.Takes text a j k) (hk : k ≤ text.length) :
    c.token? j k a ≠ none := by
  intro hnone
  rw [Chart.token?, Option.map_eq_none_iff, List.find?_eq_none] at hnone
  have hmem : (⟨j, k, a, tokenAt text a j k⟩ : Scan) ∈ c.scans :=
    (h.scans _).2 ⟨Nat.lt_of_lt_of_le ht.lt hk, ⟨i, hi, hn⟩, ht, rfl⟩
  exact hnone _ hmem (by simp)

theorem joins_iff (hk : k ≤ text.length) : c.joins j k = true ↔ s.Leads text start j k := by
  rw [Chart.joins, List.contains_iff_mem, h.ends k hk]

theorem mem_candidates {b : Goal} {rule : Nat} {r : Rule} : (rule, r) ∈ c.candidates b ↔
    s.grammar.rules[rule]? = some r ∧ r.origin = b.name ∧ b.stop ≤ text.length ∧
      s.Found text start b.stop ⟨⟨rule, r.symbols.length⟩, b.start⟩ := by
  rw [Chart.mem_candidates_iff, Chart.completed, h.grammar, ChartRules.mem_completed]
  simp only [h.mem_column_iff]
  constructor
  · rintro ⟨⟨r', hr', hn, hi⟩, hr⟩
    obtain rfl := Option.some.inj (hr'.symm.trans hr)
    exact ⟨hr, hn, hi⟩
  · rintro ⟨hr, hn, hi⟩
    exact ⟨⟨r, hr, hn, hi⟩, hr⟩

/-- The chart covers a goal exactly if one of its rules is complete in the text. -/
theorem covers_iff {b : Goal} : c.Covers b ↔ b.stop ≤ text.length ∧ s.Covers text start b := by
  rw [Chart.Covers, ← List.isEmpty_eq_false_iff, List.isEmpty_eq_false_iff_exists_mem]
  simp only [Chart.completed, h.grammar, ChartRules.mem_completed, h.mem_column_iff]
  constructor
  · rintro ⟨rule, r, hr, hn, hk, hi⟩
    exact ⟨hk, rule, r, hr, hn, hi⟩
  · rintro ⟨hk, rule, r, hr, hn, hi⟩
    exact ⟨rule, r, hr, hn, hk, hi⟩

end Charts

/-! ## What is found -/

/-- A packed derivation has the value of a tree of a symbol over tokens between two places. -/
def PacksTree (s : Scannerless) (text : List Char) (x : Symbol) (j k : Nat) (p : Packed) : Prop :=
  ∃ ts d, s.Spans text j ts k ∧ Trees s.grammar.rules IsNamed [x] ts [d] ∧
    ∀ a : Actions, p.build a = d.build (a.atPlace s.grammar.rules)

namespace Charts

variable (h : s.Charts text start c)
include h

/-- Parts of symbols that follow each other are trees over the tokens on the way. -/
theorem exists_trees {xs : List Symbol} {ps : List Packed} (hps : c.Placed (s.PacksTree text) xs j k ps) :
    k ≤ text.length → ∃ ts ds, s.Spans text j ts k ∧ Trees s.grammar.rules IsNamed xs ts ds ∧
      ∀ a : Actions, Packed.buildAll a ps = Derivation.buildAll (a.atPlace s.grammar.rules) ds := by
  induction hps with
  | nil hj =>
    intro hk
    exact ⟨[], [], .of_gap ((h.joins_iff hk).1 hj).gap, .nil, fun a => rfl⟩
  | snoc he _ hm hp _ ih =>
    intro hk
    have hgap := ((h.ends _ hk _).1 he).gap
    obtain ⟨us, d, hus, hd, hdv⟩ := hp
    obtain ⟨ts, ds, hts, hds, hdsv⟩ := ih (Nat.le_trans hm (Nat.le_trans hgap.le hk))
    refine ⟨ts ++ us, ds ++ [d], ?_, hds.append hd, fun a => ?_⟩
    · simpa using (hts.append hus).append (.of_gap hgap)
    · rw [Packed.buildAll_append, Derivation.buildAll_append, hdsv]
      simp [Packed.buildAll, Derivation.buildAll, hdv]

theorem part_packs {solve : Goal → Search (Option Packed)} {I : Findings → Prop}
    (hsolve : ∀ b, Ensures I (solve b) fun r => ∀ p, r = some p →
      s.PacksTree text (.nonterminal b.name) b.start b.stop p) (x : Symbol) (j k : Nat) :
    Ensures I (c.part solve x j k) fun r => ∀ p, r = some p → s.PacksTree text x j k p := by
  unfold Chart.part
  split
  · rename_i a
    refine .pure fun p hp => ?_
    obtain ⟨t, ht, rfl⟩ := Option.map_eq_some_iff.1 hp
    obtain ⟨htakes, rfl⟩ := h.token?_eq_some ht
    exact ⟨_, .token _, .of_takes htakes, .token rfl .nil, fun a => rfl⟩
  · split
    · exact .pure fun p hp => nomatch hp
    · exact hsolve _

/-- Where one derivation is kept, what is read off the chart has the value of a tree over tokens of the text. -/
theorem derivation?_packs {a : Ambiguity} (ha : a ≠ .explicit) {name : String} {p : Packed}
    (hp : c.derivation? a name = some p) : s.PacksTree text (.nonterminal name) 0 text.length p := by
  have hsolve := Chart.solve_fulfils (c := c) (a := a)
    (Q := fun b p => s.PacksTree text (.nonterminal b.name) b.start b.stop p) (fun solve hsolve b => ?_)
    (c.goalCount + 1) [] ⟨name, 0, c.stop⟩ [] (fun _ _ hp => nomatch hp)
  · rw [h.stop_eq] at hsolve
    rw [Chart.derivation?, h.stop_eq] at hp
    exact hsolve.2 p hp
  · intro F hF
    obtain ⟨hkept, hplaced⟩ := Chart.ways_placed (Search.assures _) (h.part_packs hsolve) a
      (fun x => Way.mk x.2) b F hF
    refine ⟨hkept, fun hne => ?_⟩
    have hsingle : ∃ r : Option Way, (c.ways a (c.part solve) (fun x => Way.mk x.2) b F).1 = r.toList := by
      cases a with
      | explicit => exact absurd rfl ha
      | resolve | forest => exact ⟨_, rfl⟩
    obtain ⟨_ | way, hr⟩ := hsingle
    · exact absurd hr hne
    rw [hr] at hplaced ⊢
    obtain ⟨⟨rule, r⟩, hx, ps, rfl, hps⟩ := hplaced way (List.mem_singleton.2 rfl)
    obtain ⟨hr, ho, hk, -⟩ := h.mem_candidates.1 hx
    obtain ⟨ts, ds, hts, hds, hv⟩ := h.exists_trees hps hk
    refine ⟨ts, .node rule ds, hts, ho ▸ .of_rule hr hds, fun a => ?_⟩
    rw [Option.toList, Chart.build_single, hv, Derivation.build, Actions.atPlace_eq hr]

end Charts

/-! ## Something is found -/

/-- A place in a rule of a goal up to which it is found, with tokens for the symbols after it up to the goal's end. The
symbols before it are given from right to left. -/
structure Meets (s : Scannerless) (text : List Char) (start : String) (b : Goal) (i : Nat) (r : Rule)
    (syms : List Symbol) (stop : Nat) : Prop where
  rule : s.grammar.rules[i]? = some r
  origin : r.origin = b.name
  item : s.Found text start stop ⟨⟨i, syms.length⟩, b.start⟩
  after : ∃ after ts, r.symbols = syms.reverse ++ after ∧ s.Spans text stop ts b.stop ∧
    Yields s.grammar.rules IsNamed after ts

/-- A symbol in a rule of a goal, and a stretch that is tried for it. -/
def MayTake (s : Scannerless) (text : List Char) (start : String) (b : Goal) (x : Symbol) (m e : Nat) : Prop :=
  ∃ i r before stop, s.Meets text start b i r (x :: before) stop ∧ s.Leads text start e stop ∧ m ≤ e ∧
    s.Found text start m ⟨⟨i, before.length⟩, b.start⟩

namespace Meets

variable {b : Goal} {i : Nat} {r : Rule} {x : Symbol} {before syms : List Symbol} {stop m e : Nat}

theorem le (hm : s.Meets text start b i r syms stop) : stop ≤ b.stop := by
  obtain ⟨_, _, -, hspans, -⟩ := hm.after
  exact hspans.le

theorem next? (hm : s.Meets text start b i r (x :: before) stop) :
    (⟨⟨i, before.length⟩, b.start⟩ : Item).next? s.grammar.rules = some x := by
  obtain ⟨after, -, hsyms, -⟩ := hm.after
  exact Item.next?_eq_some_iff.2 ⟨r, hm.rule, by simp [hsyms]⟩

/-- A rule that is complete is met at its end. -/
theorem of_complete (hr : s.grammar.rules[i]? = some r) (ho : r.origin = b.name)
    (hi : s.Found text start b.stop ⟨⟨i, r.symbols.length⟩, b.start⟩) :
    s.Meets text start b i r r.symbols.reverse b.stop :=
  ⟨hr, ho, by rwa [List.length_reverse], [], [], by simp, .refl, .nil⟩

variable (hg : s.grammar.Exact IsNamed)
include hg

/-- The last symbol before the place is found somewhere. -/
theorem exists_split (hm : s.Meets text start b i r (x :: before) stop) :
    ∃ m e, s.Leads text start e stop ∧ b.start ≤ m ∧ m ≤ e ∧
      s.Found text start m ⟨⟨i, before.length⟩, b.start⟩ ∧ s.Holds text start m e x := by
  obtain ⟨m, e, y, hlead, ho, hle, hi, hn, hy⟩ := hm.item.exists_split hg rfl
  obtain rfl := Option.some.inj (hm.next?.symm.trans hn)
  exact ⟨m, e, hlead, ho, hle, hi, hy⟩

/-- If the last symbol before the place is found from a place on, the rest is met there. -/
theorem of_holds (hm : s.Meets text start b i r (x :: before) stop) (hlead : s.Leads text start e stop)
    (hi : s.Found text start m ⟨⟨i, before.length⟩, b.start⟩) (hx : s.Holds text start m e x) :
    s.Meets text start b i r before m := by
  obtain ⟨after, ts, hsyms, hts, hy⟩ := hm.after
  obtain ⟨us, hus, hyx⟩ := hx.yields hg
  refine ⟨hm.rule, hm.origin, hi, x :: after, us ++ ts, by simpa using hsyms, ?_, hyx.append hy⟩
  simpa using (hus.append (.of_gap hlead.gap)).append hts

end Meets

section Search

variable {active : List Goal} {b : Goal} (hg : s.grammar.Exact IsNamed)
include hg

/-- A goal of a symbol that a goal's rule may have there lies below the goal and all that are active. -/
theorem descends_child (hd : c.Descends s.grammar.rules active b) (hb : c.Covers b) (hnew : b ∉ active) {n : String}
    {m e : Nat} (ht : s.MayTake text start b (.nonterminal n) m e) :
    c.Descends s.grammar.rules (b :: active) ⟨n, m, e⟩ := by
  obtain ⟨i, r, before, stop, hm, hlead, -, hi⟩ := ht
  obtain ⟨after, ts, hsyms, hts, hafter⟩ := hm.after
  obtain ⟨r', hrec⟩ := hi.recognises hg
  obtain rfl := Option.some.inj (hrec.rule.symm.trans hm.rule)
  obtain ⟨us, hus, hbefore⟩ := hrec.inner
  rw [List.reverse_cons, List.append_assoc] at hsyms
  rw [hsyms, List.take_left' (List.length_reverse ..)] at hbefore
  have hstart : b.start ≤ m := hus.le
  have hstop : stop ≤ b.stop := hm.le
  have hend : e ≤ stop := hlead.gap.le
  have hnested : ∀ x ∈ b :: active, x.start ≤ b.start ∧ b.stop ≤ x.stop := by
    rintro x (_ | ⟨_, hx⟩)
    exacts [⟨Nat.le_refl _, Nat.le_refl _⟩, hd.nested x hx]
  refine ⟨List.nodup_cons.2 ⟨hnew, hd.nodup⟩, ?_, fun x hx => ?_, fun x hx hxstart hxstop => ?_⟩
  · rintro x (_ | ⟨_, hx⟩)
    exacts [hb, hd.covered x hx]
  · have := hnested x hx
    exact ⟨Nat.le_trans this.1 hstart, Nat.le_trans (Nat.le_trans hend hstop) this.2⟩
  · -- the symbols around the nonterminal take no text, so the rule derives it alone
    have hx' := hnested x hx
    simp only at hxstart hxstop
    obtain rfl : b.start = m := by omega
    obtain rfl : stop = b.stop := by omega
    rw [hus.eq_nil] at hbefore
    rw [hts.eq_nil] at hafter
    have hstep : Relation.TransGen (Rewrites s.grammar.rules) [.nonterminal b.name] [.nonterminal n] := by
      have hrule := Rewrites.of_rule (List.mem_of_getElem? hm.rule)
      rw [hm.origin, hsyms] at hrule
      refine .head' hrule ?_
      exact hbefore.derives_nil.append (hafter.derives_nil.append_left [.nonterminal n])
    rcases List.mem_cons.1 hx with rfl | hx
    · exact hstep
    · exact (hd.leads x hx (by omega) (by omega)).trans hstep

variable (h : s.Charts text start c) (hb : b.stop ≤ text.length)
include h hb

/-- The stretches that are tried for a symbol, and among them one where it is found. -/
theorem mem_splits_of_meets {i : Nat} {r : Rule} {x : Symbol} {before : List Symbol} {stop : Nat}
    (hm : s.Meets text start b i r (x :: before) stop) :
    (∀ m e, (m, e) ∈ c.splits ⟨⟨i, before.length⟩, b.start⟩ stop → s.MayTake text start b x m e ∧
      (s.Holds text start m e x → s.Meets text start b i r before m)) ∧
    ∃ y ∈ c.splits ⟨⟨i, before.length⟩, b.start⟩ stop, s.Holds text start y.1 y.2 x := by
  have hk : stop ≤ text.length := Nat.le_trans hm.le hb
  refine ⟨fun m e hx => ?_, ?_⟩
  · obtain ⟨he, -, hle, hi⟩ := Chart.mem_splits.1 hx
    have hlead := (h.ends stop hk e).1 he
    have hi := (h.mem_column_iff.1 hi).2
    exact ⟨⟨i, r, before, stop, hm, hlead, hle, hi⟩, hm.of_holds hg hlead hi⟩
  · obtain ⟨m, e, hlead, ho, hle, hi, hx⟩ := hm.exists_split hg
    have hmk : m ≤ text.length := Nat.le_trans hle (Nat.le_trans hlead.gap.le hk)
    exact ⟨(m, e), Chart.mem_splits.2 ⟨(h.ends stop hk e).2 hlead, ho, hle, h.mem_column_iff.2 ⟨hmk, hi⟩⟩, hx⟩

section Parts

variable {I : Findings → Prop} {part : Symbol → Nat → Nat → Search (Option Packed)}
  (hpart : ∀ x m e, s.MayTake text start b x m e →
    Ensures I (part x m e) fun p => p.isSome = true ↔ s.Holds text start m e x)
include hpart

/-- Where a rule is met, there is a sequence of parts for the symbols up to there. -/
theorem firstSequence_isSome {i : Nat} {r : Rule} : ∀ (syms : List Symbol) (stop : Nat),
    s.Meets text start b i r syms stop →
      Ensures I (c.firstSequence part i b.start syms stop) fun found => found.isSome = true
  | [], stop, hm => by
    have hjoins := (h.joins_iff (Nat.le_trans hm.le hb)).2 (hm.item.leads_origin rfl)
    rw [Chart.firstSequence, if_pos hjoins]
    exact .pure rfl
  | x :: before, stop, hm => by
    obtain ⟨htake, y, hy, hholds⟩ := mem_splits_of_meets hg h hb hm
    have hfirst := (Search.assures I).first_hit (P := fun y => s.Holds text start y.1 y.2 x) (Q := fun _ _ => True)
      (f := fun y => Search.onFound (part x y.1 y.2) none fun p =>
        return (← c.firstSequence part i b.start before y.1).map (· ++ [p]))
      (l := c.splits ⟨⟨i, before.length⟩, b.start⟩ stop) fun (m, e) hme => by
        obtain ⟨hmay, hbefore⟩ := htake m e hme
        refine .bind (hpart x m e hmay) fun p hp => ?_
        rcases p with _ | p
        · exact .pure ⟨fun _ hx => (nomatch hp.2 hx), fun _ _ => trivial⟩
        · refine .bind (firstSequence_isSome before m (hbefore (hp.1 rfl))) fun found hfound =>
            .pure ⟨?_, fun _ _ => trivial⟩
          obtain ⟨ps, rfl⟩ := Option.isSome_iff_exists.1 hfound
          exact fun hnone => nomatch hnone
    refine (Search.assures I).imp hfirst fun found hfound => ?_
    rw [← Option.ne_none_iff_isSome]
    exact fun hnone => hfound.1 hnone y hy hholds

theorem allSequences_ne_nil {i : Nat} {r : Rule} : ∀ (syms : List Symbol) (stop : Nat),
    s.Meets text start b i r syms stop →
      Ensures I (c.allSequences part i b.start syms stop) fun found => found ≠ []
  | [], stop, hm => by
    have hjoins := (h.joins_iff (Nat.le_trans hm.le hb)).2 (hm.item.leads_origin rfl)
    rw [Chart.allSequences, if_pos hjoins]
    exact .pure (List.cons_ne_nil _ _)
  | x :: before, stop, hm => by
    obtain ⟨htake, y, hy, hholds⟩ := mem_splits_of_meets hg h hb hm
    have hcover := (Search.assures I).all_cover (P := fun y (_ : Unit) => s.Holds text start y.1 y.2 x)
      (K := fun _ _ => True)
      (f := fun y => Search.onFound (part x y.1 y.2) [] fun p =>
        return (← c.allSequences part i b.start before y.1).map (· ++ [p]))
      (l := c.splits ⟨⟨i, before.length⟩, b.start⟩ stop) fun (m, e) hme => by
        obtain ⟨hmay, hbefore⟩ := htake m e hme
        refine .bind (hpart x m e hmay) fun p hp => ?_
        rcases p with _ | p
        · exact .pure fun _ hx => nomatch hp.2 hx
        · refine .bind (allSequences_ne_nil before m (hbefore (hp.1 rfl))) fun found hfound => .pure fun _ _ => ?_
          obtain ⟨ps, hps⟩ := List.exists_mem_of_ne_nil _ hfound
          exact ⟨_, List.mem_map.2 ⟨ps, hps, rfl⟩, trivial⟩
    refine (Search.assures I).imp hcover fun found hfound => ?_
    obtain ⟨ps, hps, -⟩ := hfound y hy () hholds
    exact List.ne_nil_of_mem hps

/-- A goal that is covered has a way. -/
theorem ways_ne_nil (hcov : c.Covers b) (a : Ambiguity) :
    Ensures I (c.ways a part (fun x => Way.mk x.2) b) fun ws => ws ≠ [] := by
  obtain ⟨-, i, r, hr, ho, hi⟩ := h.covers_iff.1 hcov
  have hx : (i, r) ∈ c.candidates b := h.mem_candidates.2 ⟨hr, ho, hb, hi⟩
  have hmeets : ∀ y ∈ c.candidates b, s.Meets text start b y.1 y.2 y.2.symbols.reverse b.stop := fun y hy => by
    obtain ⟨hr, ho, -, hi⟩ := h.mem_candidates.1 hy
    exact .of_complete hr ho hi
  cases a with
  | explicit =>
    have hcover := (Search.assures I).all_cover (P := fun _ (_ : Unit) => True) (K := fun _ _ => True)
      (f := fun y => do
        return (← c.allSequences part y.1 b.start y.2.symbols.reverse b.stop).map (Way.mk y.2))
      (l := c.candidates b) fun y hy => by
        refine .bind (allSequences_ne_nil hg h hb hpart _ _ (hmeets y hy)) fun found hfound => .pure fun _ _ => ?_
        obtain ⟨ps, hps⟩ := List.exists_mem_of_ne_nil _ hfound
        exact ⟨_, List.mem_map.2 ⟨ps, hps, rfl⟩, trivial⟩
    refine (Search.assures I).imp hcover fun ws hws => ?_
    obtain ⟨way, hway, -⟩ := hws _ hx () trivial
    exact List.ne_nil_of_mem hway
  | resolve | forest =>
    have hfirst := (Search.assures I).first_hit (P := fun _ => True) (Q := fun _ _ => True)
      (f := fun y => do
        return (← c.firstSequence part y.1 b.start y.2.symbols.reverse b.stop).map (Way.mk y.2))
      (l := c.candidates b) fun y hy => by
        refine .bind (firstSequence_isSome hg h hb hpart _ _ (hmeets y hy)) fun found hfound =>
          .pure ⟨?_, fun _ _ => trivial⟩
        obtain ⟨ps, rfl⟩ := Option.isSome_iff_exists.1 hfound
        exact fun hnone => nomatch hnone
    refine .bind hfirst fun found hfound => .pure ?_
    rcases found with _ | way
    · exact absurd trivial (hfound.1 rfl _ hx)
    · exact List.cons_ne_nil _ _

end Parts

end Search

/-- A part is found exactly where its symbol is. -/
theorem Charts.part_isSome (h : s.Charts text start c) {b : Goal} (hb : b.stop ≤ text.length) {x : Symbol} {m e : Nat}
    (ht : s.MayTake text start b x m e) {I : Findings → Prop} {solve : Goal → Search (Option Packed)}
    (hsolve : ∀ n, x = .nonterminal n → c.Covers ⟨n, m, e⟩ →
      Ensures I (solve ⟨n, m, e⟩) fun p => p.isSome = true) :
    Ensures I (c.part solve x m e) fun p => p.isSome = true ↔ s.Holds text start m e x := by
  obtain ⟨i, r, before, stop, hm, hlead, -, hi⟩ := ht
  have he : e ≤ text.length := Nat.le_trans hlead.gap.le (Nat.le_trans hm.le hb)
  unfold Chart.part
  split
  · rename_i a
    refine .pure ⟨fun hsome => ?_, fun hx => ?_⟩
    · obtain ⟨t, ht⟩ := Option.isSome_iff_exists.1 hsome
      obtain ⟨t, ht, -⟩ := Option.map_eq_some_iff.1 ht
      exact (h.token?_eq_some ht).1
    · rw [Option.isSome_map, ← Option.ne_none_iff_isSome]
      exact h.token?_ne_none hi hm.next? hx he
  · rename_i n
    have hcov : c.Covers ⟨n, m, e⟩ ↔ s.Holds text start m e (.nonterminal n) := h.covers_iff.trans (and_iff_right he)
    split
    · rename_i hempty
      refine .pure ⟨fun hsome => (nomatch hsome), fun hx => ?_⟩
      exact absurd (List.isEmpty_iff.1 hempty) (hcov.2 hx)
    · rename_i hne
      have hc : c.Covers ⟨n, m, e⟩ := fun h0 => hne (List.isEmpty_iff.2 h0)
      refine (Search.assures I).imp (hsolve n rfl hc) fun p hp => ?_
      exact iff_of_true hp (hcov.1 hc)

/-- Where no nonterminal derives itself, a chart that covers the start symbol has a derivation of it. -/
theorem Charts.derivation?_ne_none (h : s.Charts text start c) (hg : s.grammar.Exact IsNamed)
    (hself : ∀ n, ¬ DerivesItself s.grammar.rules n) (a : Ambiguity) {name : String} (hc : c.Covers (c.whole name)) :
    ∃ p, c.derivation? a name = some p := by
  have hinside : ∀ b, c.Covers b → b.start < c.columns.length := fun b hb => by
    obtain ⟨hk, hcov⟩ := h.covers_iff.1 hb
    obtain ⟨ts, hts, -⟩ := hcov.yields hg
    have := hts.le
    rw [h.length]
    omega
  have hd : c.Descends s.grammar.rules [] (c.whole name) := ⟨List.nodup_nil, by simp, by simp, by simp⟩
  have hsolve := Chart.solve_ensures hself hinside (a := a) (Q := fun _ _ _ _ => True)
    (fun active b hd hnew hb solve hsolve => ?_) (c.goalCount + 1) [] (c.whole name) hd hc rfl []
    (fun _ _ _ h0 => nomatch h0)
  · obtain ⟨p, hp, -⟩ := hsolve.2
    exact ⟨p, hp⟩
  · have hk := (h.covers_iff.1 hb).1
    refine (Search.assures _).imp (ways_ne_nil hg h hk (fun x m e ht => h.part_isSome hk ht fun n hn hcov => ?_) hb a)
      fun ws hws => ⟨hws, trivial⟩
    subst hn
    refine (Search.assures _).imp (hsolve _ (descends_child hg hd hb hnew ht) hcov) fun p hp => ?_
    obtain ⟨p, rfl, -⟩ := hp
    rfl

end GrammarKit.Earley.Scannerless
