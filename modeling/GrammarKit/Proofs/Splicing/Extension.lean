/-
Extending a grammar for splicing. Nothing that is there is changed: terminals and rules stay in front, and what is
added are terminals of trees under names of their own, and rules that make an origin one such terminal and are no
productions of the grammar yet. In the end every label of an origin has a terminal that the origin may be.
-/
import GrammarKit.Grammar.Splicing
import GrammarKit.Proofs.Names
import Mathlib.Data.List.Perm.Subperm

namespace GrammarKit

/-! ## Labels by origin -/

theorem mem_add_of_mem {origin label o l : String} {ls : List String} : ∀ {groups : List (String × List String)},
    (o, ls) ∈ groups → l ∈ ls → ∃ ls', (o, ls') ∈ labelsByOrigin.add groups origin label ∧ l ∈ ls'
  | (o', ls') :: groups, h, hl => by
    rw [labelsByOrigin.add]
    rcases List.mem_cons.1 h with h | h
    · obtain ⟨rfl, rfl⟩ := Prod.mk.inj h
      split
      · exact ⟨_, List.mem_cons_self .., by split <;> simp [hl]⟩
      · exact ⟨_, List.mem_cons_self .., hl⟩
    · split
      · exact ⟨ls, List.mem_cons_of_mem _ h, hl⟩
      · obtain ⟨ls'', h', hl'⟩ := mem_add_of_mem h hl
        exact ⟨ls'', List.mem_cons_of_mem _ h', hl'⟩

theorem exists_mem_add (origin label : String) : ∀ groups : List (String × List String),
    ∃ ls, (origin, ls) ∈ labelsByOrigin.add groups origin label ∧ label ∈ ls
  | [] => ⟨[label], by simp [labelsByOrigin.add]⟩
  | (o, ls) :: groups => by
    rw [labelsByOrigin.add]
    split
    · rename_i ho
      subst ho
      exact ⟨_, List.mem_cons_self .., by split <;> simp_all⟩
    · obtain ⟨ls', h, hl⟩ := exists_mem_add origin label groups
      exact ⟨ls', List.mem_cons_of_mem _ h, hl⟩

/-- Every rule that is not for splicing has its label among those of its origin. -/
theorem exists_mem_labelsByOrigin {rules : List Rule} {r : Rule} (hr : r ∈ rules)
    (hm : r.options.forSplicing = false) : ∃ ls, (r.origin, ls) ∈ labelsByOrigin rules ∧ r.label ∈ ls := by
  have hgroup : ∀ (rs : List Rule) (groups : List (String × List String)),
      (r ∈ rs ∨ ∃ ls, (r.origin, ls) ∈ groups ∧ r.label ∈ ls) →
      ∃ ls, (r.origin, ls) ∈ rs.foldl (fun groups r => labelsByOrigin.add groups r.origin r.label) groups ∧
        r.label ∈ ls := by
    intro rs
    induction rs with
    | nil => exact fun groups h => h.resolve_left List.not_mem_nil
    | cons r' rs ih =>
      intro groups h
      refine ih _ ?_
      rcases h with h | ⟨ls, h, hl⟩
      · rcases List.mem_cons.1 h with rfl | h
        exacts [.inr (exists_mem_add ..), .inl h]
      · exact .inr (mem_add_of_mem h hl)
  exact hgroup _ _ (.inl (List.mem_filter.2 ⟨hr, by simp [hm]⟩))

theorem length_le_of_mem_add {origin label : String} {n : Nat} : ∀ {groups : List (String × List String)},
    (∀ p ∈ groups, p.2.length ≤ n) → ∀ p ∈ labelsByOrigin.add groups origin label, p.2.length ≤ n + 1
  | [], _, p, hp => by
    rw [labelsByOrigin.add, List.mem_singleton] at hp
    rw [hp]
    exact Nat.le_add_left 1 n
  | (o, ls) :: groups, h, p, hp => by
    have hls := h _ (List.mem_cons_self ..)
    have hrest := fun q hq => h q (List.mem_cons_of_mem _ hq)
    rw [labelsByOrigin.add] at hp
    split at hp
    · rcases List.mem_cons.1 hp with rfl | hp
      · dsimp only at hls ⊢
        split
        · omega
        · rw [List.length_append, List.length_singleton]
          omega
      · exact Nat.le_succ_of_le (hrest p hp)
    · rcases List.mem_cons.1 hp with rfl | hp
      · exact Nat.le_succ_of_le hls
      · exact length_le_of_mem_add hrest p hp

/-- No origin has more labels than there are rules. -/
theorem length_le_of_mem_labelsByOrigin {rules : List Rule} : ∀ p ∈ labelsByOrigin rules, p.2.length ≤ rules.length := by
  have hgroups : ∀ (rs : List Rule) (n : Nat) (groups : List (String × List String)), (∀ p ∈ groups, p.2.length ≤ n) →
      ∀ p ∈ rs.foldl (fun groups r => labelsByOrigin.add groups r.origin r.label) groups, p.2.length ≤ n + rs.length := by
    intro rs
    induction rs with
    | nil => exact fun n groups h => h
    | cons r rs ih =>
      intro n groups h p hp
      have := ih (n + 1) _ (length_le_of_mem_add h) p hp
      rw [List.length_cons]
      omega
  intro p hp
  have := hgroups _ 0 [] (by simp) p hp
  have hfilter := List.length_filter_le (fun r : Rule => !r.options.forSplicing) rules
  omega

namespace SplicedGrammar

theorem eq_of_parts : ∀ {g h : SplicedGrammar}, g.rules = h.rules → g.terminals = h.terminals →
    g.spliceTerminals = h.spliceTerminals → g = h
  | ⟨_, _, _⟩, ⟨_, _, _⟩, rfl, rfl, rfl => rfl

/-! ## Fresh names -/

/-- A name that is taken nevertheless is the last of many that are all taken. -/
theorem mem_of_freshName_mem {taken : List String} {base : String} : ∀ {fuel suffix : Nat} {name : String},
    freshName taken base fuel suffix name ∈ taken → name ∈ taken ∧ ∀ i < fuel, s!"{base}_{suffix + i}" ∈ taken
  | 0, _, _, h => ⟨h, fun _ hi => absurd hi (Nat.not_lt_zero _)⟩
  | fuel + 1, suffix, name, h => by
    rw [freshName] at h
    split at h
    · rename_i hname
      obtain ⟨hn, hi⟩ := mem_of_freshName_mem h
      refine ⟨by simpa using hname, fun i hlt => ?_⟩
      cases i with
      | zero => exact hn
      | succ i => rw [show suffix + (i + 1) = suffix + 1 + i by omega]; exact hi i (by omega)
    · rename_i hname
      exact absurd (by simpa using h) (by simpa using hname)

theorem freshName_not_mem (taken : List String) (base : String) :
    freshName taken base (taken.length + 1) 2 base ∉ taken := by
  intro h
  -- more numbered names than there are taken ones
  have hsub : (List.range (taken.length + 1)).map (fun i => s!"{base}_{2 + i}") ⊆ taken := by
    intro x hx
    obtain ⟨i, hi, rfl⟩ := List.mem_map.1 hx
    exact (mem_of_freshName_mem h).2 i (List.mem_range.1 hi)
  have hnodup : ((List.range (taken.length + 1)).map fun i => s!"{base}_{2 + i}").Nodup :=
    List.nodup_range.map fun i k hik => by have := numbered_injective base hik; omega
  have hle := (List.subperm_of_subset hnodup hsub).length_le
  rw [List.length_map, List.length_range] at hle
  omega

/-! ## What extending adds -/

/-- Every label that was recorded is recorded with its own terminal. -/
def Consistent (g : SplicedGrammar) : Prop :=
  ∀ label name, g.spliceTerminals.lookup label = some name → g.terminalOf? label = some name

/-- The tokens of a tree's terminal may be the origin. -/
def Allows (g : SplicedGrammar) (origin label : String) : Prop :=
  ∃ terminal, g.spliceTerminals.lookup label = some terminal ∧
    ∃ r ∈ g.rules, r.production = ⟨origin, [.terminal terminal]⟩

/-- A rule that makes an origin one splice token. -/
def IsSpliceRule (g : SplicedGrammar) (r : Rule) : Prop :=
  ∃ origin label terminal order, r = spliceRule origin terminal order ∧ g.terminalOf? label = some terminal

/-- One extended grammar has all that another has, and what it has beyond that is for splicing. -/
structure Extends (g h : SplicedGrammar) : Prop where
  rules : ∃ added, h.rules = g.rules ++ added ∧
    ∀ r ∈ added, h.IsSpliceRule r ∧ ∀ r' ∈ g.rules, r'.production ≠ r.production
  terminals : ∃ added, h.terminals = g.terminals ++ added ∧ ∀ t ∈ added, ∃ label, t.pattern = .tree label
  fresh : ∀ t ∈ h.terminals, t ∈ g.terminals ∨ ∀ t' ∈ g.terminals, t'.name ≠ t.name
  nodup : (g.terminals.map (·.name)).Nodup → (h.terminals.map (·.name)).Nodup
  terminalOf : ∀ label name, g.terminalOf? label = some name → h.terminalOf? label = some name
  recorded : ∀ label name, g.spliceTerminals.lookup label = some name → h.spliceTerminals.lookup label = some name

variable {g h k : SplicedGrammar}

theorem IsSpliceRule.mono {r : Rule} (hr : g.IsSpliceRule r) (hgh : g.Extends h) : h.IsSpliceRule r := by
  obtain ⟨origin, label, terminal, order, rfl, ht⟩ := hr
  exact ⟨origin, label, terminal, order, rfl, hgh.terminalOf _ _ ht⟩

theorem IsSpliceRule.forSplicing {r : Rule} (hr : g.IsSpliceRule r) : r.options.forSplicing = true := by
  obtain ⟨_, _, _, _, rfl, -⟩ := hr
  rfl

theorem terminalOf?_eq_some {label name : String} (ht : g.terminalOf? label = some name) :
    ∃ t ∈ g.terminals, t.name = name ∧ t.pattern = .tree label := by
  obtain ⟨t, hf, rfl⟩ := Option.map_eq_some_iff.1 ht
  exact ⟨t, by simpa using List.mem_of_find?_eq_some hf, rfl, by simpa using List.find?_some hf⟩

namespace Extends

protected theorem refl (g : SplicedGrammar) : g.Extends g :=
  ⟨⟨[], by simp⟩, ⟨[], by simp⟩, fun _ ht => .inl ht, id, fun _ _ => id, fun _ _ => id⟩

theorem mem_rules (hgh : g.Extends h) {r : Rule} (hr : r ∈ g.rules) : r ∈ h.rules := by
  obtain ⟨added, ha, -⟩ := hgh.rules
  simp [ha, hr]

theorem mem_terminals (hgh : g.Extends h) {t : Terminal} (ht : t ∈ g.terminals) : t ∈ h.terminals := by
  obtain ⟨added, ha, -⟩ := hgh.terminals
  simp [ha, ht]

protected theorem trans (hgh : g.Extends h) (hhk : h.Extends k) : g.Extends k := by
  refine ⟨?_, ?_, fun t ht => ?_, hhk.nodup ∘ hgh.nodup, fun l n hl => hhk.terminalOf l n (hgh.terminalOf l n hl),
    fun l n hl => hhk.recorded l n (hgh.recorded l n hl)⟩
  · obtain ⟨a, ha, has⟩ := hgh.rules
    obtain ⟨b, hb, hbs⟩ := hhk.rules
    refine ⟨a ++ b, by rw [hb, ha, List.append_assoc], fun r hr => ?_⟩
    rcases List.mem_append.1 hr with hr | hr
    · exact ⟨(has r hr).1.mono hhk, (has r hr).2⟩
    · exact ⟨(hbs r hr).1, fun r' hr' => (hbs r hr).2 r' (hgh.mem_rules hr')⟩
  · obtain ⟨a, ha, has⟩ := hgh.terminals
    obtain ⟨b, hb, hbs⟩ := hhk.terminals
    exact ⟨a ++ b, by rw [hb, ha, List.append_assoc], fun t ht => (List.mem_append.1 ht).elim (has t) (hbs t)⟩
  · rcases hhk.fresh t ht with ht | ht
    · exact hgh.fresh t ht
    · exact .inr fun t' ht' => ht t' (hgh.mem_terminals ht')

end Extends

theorem Allows.mono {origin label : String} (ha : g.Allows origin label) (hgh : g.Extends h) :
    h.Allows origin label := by
  obtain ⟨terminal, ht, r, hr, hp⟩ := ha
  exact ⟨terminal, hgh.recorded _ _ ht, r, hgh.mem_rules hr, hp⟩

/-! ## One label -/

theorem terminalOf?_append (g : SplicedGrammar) (t : Terminal) (label : String) :
    ({ g with terminals := g.terminals ++ [t] } : SplicedGrammar).terminalOf? label =
      if t.pattern = .tree label then some t.name else g.terminalOf? label := by
  simp only [terminalOf?, List.reverse_append, List.reverse_singleton, List.singleton_append, List.find?_cons]
  by_cases ht : t.pattern = .tree label
  · simp [ht]
  · rw [if_neg ht, beq_eq_false_iff_ne.2 ht]

/-- A label without terminal gets one under a new name. -/
theorem declare_eq {label : String} (hnone : g.terminalOf? label = none) :
    ∃ name ∉ g.terminals.map (·.name), g.declare label =
      (name, { g with terminals := g.terminals ++ [{ name, pattern := .tree label }] }) := by
  refine ⟨_, freshName_not_mem _ (spliceTerminalName label), ?_⟩
  simp only [declare, hnone]

theorem extends_terminal {t : Terminal} {label : String} (hnone : g.terminalOf? label = none)
    (ht : t.pattern = .tree label) (hfresh : t.name ∉ g.terminals.map (·.name)) :
    g.Extends { g with terminals := g.terminals ++ [t] } := by
  refine ⟨⟨[], by simp⟩, ⟨[t], rfl, fun t' ht' => ⟨label, by rw [List.mem_singleton.1 ht', ht]⟩⟩, fun t' ht' => ?_,
    fun hn => nodup_map_concat hn hfresh, fun l n hl => ?_, fun _ _ => id⟩
  · rcases List.mem_append.1 ht' with ht' | ht'
    · exact .inl ht'
    · obtain rfl := List.mem_singleton.1 ht'
      exact .inr fun u hu he => hfresh (List.mem_map.2 ⟨u, hu, he⟩)
  · rw [terminalOf?_append, if_neg, hl]
    intro he
    rw [Pattern.tree.inj (ht.symm.trans he), hl] at hnone
    cases hnone

/-- A label gets a terminal; what is declared for it is new. -/
theorem declare_extends (g : SplicedGrammar) (label : String) : g.Extends (g.declare label).2 ∧
    (g.declare label).2.terminalOf? label = some (g.declare label).1 ∧
    (g.declare label).2.spliceTerminals = g.spliceTerminals := by
  rcases ht : g.terminalOf? label with _ | name
  · obtain ⟨name, hfresh, hd⟩ := declare_eq ht
    rw [hd]
    exact ⟨extends_terminal ht rfl hfresh, by rw [terminalOf?_append, if_pos rfl], rfl⟩
  · have hd : g.declare label = (name, g) := by simp only [declare, ht]
    rw [hd]
    exact ⟨.refl g, ht, rfl⟩

theorem extends_record (label terminal : String) :
    g.Extends { g with spliceTerminals := g.spliceTerminals ++ [(label, terminal)] } := by
  refine ⟨⟨[], by simp⟩, ⟨[], by simp⟩, fun _ ht => .inl ht, id, fun _ _ => id, fun l n hl => ?_⟩
  rw [List.lookup_append, hl, Option.some_or]

theorem extends_rule {r : Rule} (hr : g.IsSpliceRule r) (hnew : ∀ r' ∈ g.rules, r'.production ≠ r.production) :
    g.Extends { g with rules := g.rules ++ [r] } := by
  refine ⟨⟨[r], rfl, fun r' hr' => ?_⟩, ⟨[], by simp⟩, fun _ ht => .inl ht, id, fun _ _ => id, fun _ _ => id⟩
  rw [List.mem_singleton.1 hr']
  exact ⟨hr, hnew⟩

/-- Recording a label that has a terminal. -/
theorem record_extends {label terminal : String} (hg : g.Consistent) (ht : g.terminalOf? label = some terminal)
    (hh : h = if g.spliceTerminals.any (·.1 == label) then g
      else { g with spliceTerminals := g.spliceTerminals ++ [(label, terminal)] }) :
    g.Extends h ∧ h.Consistent ∧ h.spliceTerminals.lookup label = some terminal := by
  split at hh
  · rename_i hany
    subst hh
    obtain ⟨⟨l, n⟩, hmem, hl⟩ := List.any_eq_true.1 hany
    obtain rfl : l = label := by simpa using hl
    refine ⟨.refl h, hg, ?_⟩
    rcases hn : h.spliceTerminals.lookup l with _ | n'
    · exact absurd (List.lookup_eq_none_iff.1 hn _ hmem) (by simp)
    · rw [← ht, hg l n' hn]
  · rename_i hany
    subst hh
    have hnone : g.spliceTerminals.lookup label = none := List.lookup_eq_none_iff.2 fun p hp => by
      rw [bne_iff_ne]
      exact fun he => hany (List.any_eq_true.2 ⟨p, hp, by simp [he]⟩)
    have hrec : (g.spliceTerminals ++ [(label, terminal)]).lookup label = some terminal := by
      rw [List.lookup_append, hnone, List.lookup_cons_self, Option.none_or]
    refine ⟨extends_record label terminal, fun l n hl => ?_, hrec⟩
    by_cases hll : l = label
    · subst hll
      rw [hrec] at hl
      exact ht.trans hl
    · refine hg l n ?_
      simpa [List.lookup_append, List.lookup_cons, beq_eq_false_iff_ne.2 hll] using hl

/-- Trees with one more label may stand for an origin. -/
theorem allow_extends (hg : g.Consistent) (origin : String) (order : Nat) (label : String) :
    g.Extends (allow origin (g, order) label).1 ∧ (allow origin (g, order) label).1.Consistent ∧
      (allow origin (g, order) label).1.Allows origin label := by
  obtain ⟨hd, ht, hs⟩ := g.declare_extends label
  have hdc : (g.declare label).2.Consistent := fun l n hl => hd.terminalOf l n (hg l n (hs ▸ hl))
  simp only [allow]
  generalize hh : (if (g.declare label).2.spliceTerminals.any (·.1 == label) then (g.declare label).2
    else { (g.declare label).2 with
      spliceTerminals := (g.declare label).2.spliceTerminals ++ [(label, (g.declare label).1)] }) = h
  obtain ⟨hrec, hrc, hl⟩ := record_extends hdc ht hh.symm
  have hgh := hd.trans hrec
  split
  · rename_i hany
    obtain ⟨r, hr, hp⟩ := List.any_eq_true.1 hany
    exact ⟨hgh, hrc, _, hl, r, hr, eq_of_beq hp⟩
  · rename_i hany
    have hadd := extends_rule (g := h) (r := spliceRule origin (g.declare label).1 order)
      ⟨_, _, _, _, rfl, hrec.terminalOf _ _ ht⟩
      fun r' hr' he => hany (List.any_eq_true.2 ⟨r', hr', beq_iff_eq.2 he⟩)
    exact ⟨hgh.trans hadd, hrc, _, hl, _, List.mem_append_right _ (List.mem_singleton_self _), rfl⟩

/-! ## All labels -/

theorem foldl_allow_extends (origin : String) : ∀ (labels : List String) (g : SplicedGrammar) (order : Nat),
    g.Consistent → g.Extends (labels.foldl (allow origin) (g, order)).1 ∧
      (labels.foldl (allow origin) (g, order)).1.Consistent ∧
      ∀ label ∈ labels, (labels.foldl (allow origin) (g, order)).1.Allows origin label
  | [], g, _, hg => ⟨.refl g, hg, fun _ hl => nomatch hl⟩
  | label :: labels, g, order, hg => by
    obtain ⟨h1, hc1, ha1⟩ := allow_extends hg origin order label
    obtain ⟨h2, hc2, ha2⟩ := foldl_allow_extends origin labels (allow origin (g, order) label).1
      (allow origin (g, order) label).2 hc1
    refine ⟨h1.trans h2, hc2, fun l hl => ?_⟩
    rcases List.mem_cons.1 hl with rfl | hl
    exacts [ha1.mono h2, ha2 l hl]

theorem foldl_extends (order : String → Nat) : ∀ (groups : List (String × List String)) (g : SplicedGrammar),
    g.Consistent →
      g.Extends (groups.foldl (fun g p => (p.2.foldl (allow p.1) (g, order p.1)).1) g) ∧
      (groups.foldl (fun g p => (p.2.foldl (allow p.1) (g, order p.1)).1) g).Consistent ∧
      ∀ p ∈ groups, ∀ label ∈ p.2,
        (groups.foldl (fun g p => (p.2.foldl (allow p.1) (g, order p.1)).1) g).Allows p.1 label
  | [], g, hg => ⟨.refl g, hg, fun _ hp => nomatch hp⟩
  | p :: groups, g, hg => by
    obtain ⟨h1, hc1, ha1⟩ := foldl_allow_extends p.1 p.2 g (order p.1) hg
    obtain ⟨h2, hc2, ha2⟩ := foldl_extends order groups (p.2.foldl (allow p.1) (g, order p.1)).1 hc1
    refine ⟨h1.trans h2, hc2, fun q hq l hl => ?_⟩
    rcases List.mem_cons.1 hq with rfl | hq
    exacts [(ha1 l hl).mono h2, ha2 q hq l hl]

variable (rules : List Rule) (terminals : List Terminal)

/-- Extending keeps what is there, adds what is for splicing, and records each label with its own terminal. -/
theorem extend_extends : ({ rules, terminals } : SplicedGrammar).Extends (extend rules terminals) ∧
    (extend rules terminals).Consistent := by
  obtain ⟨h1, h2, -⟩ := foldl_extends (nextOrder rules) (labelsByOrigin rules) { rules, terminals }
    fun _ _ h => nomatch h
  exact ⟨h1, h2⟩

/-- A tree with the label of a rule may stand for the rule's origin. -/
theorem extend_allows {rules : List Rule} {r : Rule} (hr : r ∈ rules) (hm : r.options.forSplicing = false) :
    (extend rules terminals).Allows r.origin r.label := by
  obtain ⟨ls, hls, hl⟩ := exists_mem_labelsByOrigin hr hm
  obtain ⟨-, -, h3⟩ := foldl_extends (nextOrder rules) (labelsByOrigin rules) { rules, terminals }
    fun _ _ h => nomatch h
  exact h3 _ hls _ hl

/-! ## Orders -/

variable {rules : List Rule} {bound : Nat}

theorem nextOrder_le (h : ∀ r ∈ rules, r.order < bound) (origin : String) : nextOrder rules origin ≤ bound := by
  refine List.foldlRecOn _ max (motive := (· ≤ bound)) (Nat.zero_le bound) fun n hn o ho => Nat.max_le.2 ⟨hn, ?_⟩
  obtain ⟨r, hr, rfl⟩ := List.mem_map.1 ho
  exact h r (List.mem_filter.1 hr).1

/-- A rule that is added has the order that is next, and the next one is larger by one. -/
theorem order_of_mem_allow (g : SplicedGrammar) (origin : String) (order : Nat) (label : String) :
    (∀ r ∈ (allow origin (g, order) label).1.rules, r ∈ g.rules ∨ r.order = order) ∧
      (allow origin (g, order) label).2 ≤ order + 1 := by
  have hdeclare : (g.declare label).2.rules = g.rules := by
    unfold declare
    split <;> rfl
  simp only [allow]
  generalize hh : (if (g.declare label).2.spliceTerminals.any (·.1 == label) then (g.declare label).2
    else { (g.declare label).2 with
      spliceTerminals := (g.declare label).2.spliceTerminals ++ [(label, (g.declare label).1)] }) = h
  have hrules : h.rules = g.rules := by
    rw [← hh]
    split <;> exact hdeclare
  split
  · exact ⟨fun r hr => .inl (hrules ▸ hr), Nat.le_succ order⟩
  · refine ⟨fun r hr => ?_, Nat.le_refl _⟩
    rcases List.mem_append.1 hr with hr | hr
    · exact .inl (hrules ▸ hr)
    · rw [List.mem_singleton.1 hr]
      exact .inr rfl

theorem order_lt_of_mem_foldl_allow (origin : String) : ∀ (labels : List String) (g : SplicedGrammar) (order : Nat),
    (∀ r ∈ g.rules, r.order < bound) → order + labels.length ≤ bound →
      ∀ r ∈ (labels.foldl (allow origin) (g, order)).1.rules, r.order < bound
  | [], _, _, hg, _ => hg
  | label :: labels, g, order, hg, ho => by
    obtain ⟨hrules, hnext⟩ := order_of_mem_allow g origin order label
    rw [List.length_cons] at ho
    refine order_lt_of_mem_foldl_allow origin labels _ (allow origin (g, order) label).2 (fun r hr => ?_) (by omega)
    rcases hrules r hr with hr | hr
    · exact hg r hr
    · omega

/-- If the orders of all rules are below a bound, an extension needs none that is further above it than there are
rules. -/
theorem order_lt_of_mem_extend (terminals : List Terminal) (h : ∀ r ∈ rules, r.order < bound) :
    ∀ r ∈ (extend rules terminals).rules, r.order < bound + rules.length := by
  suffices ∀ groups : List (String × List String), (∀ p ∈ groups, p.2.length ≤ rules.length) → ∀ g : SplicedGrammar,
      (∀ r ∈ g.rules, r.order < bound + rules.length) →
      ∀ r ∈ (groups.foldl (fun g p => (p.2.foldl (allow p.1) (g, nextOrder rules p.1)).1) g).rules,
        r.order < bound + rules.length from
    this _ length_le_of_mem_labelsByOrigin _ fun r hr => Nat.lt_add_right _ (h r hr)
  intro groups
  induction groups with
  | nil => exact fun _ g hg => hg
  | cons p groups ih =>
    intro hgroups g hg
    have hnext := nextOrder_le h p.1
    have hlabels := hgroups p (List.mem_cons_self ..)
    exact ih (fun q hq => hgroups q (List.mem_cons_of_mem _ hq)) _
      (order_lt_of_mem_foldl_allow p.1 p.2 g _ hg (by omega))

end SplicedGrammar

end GrammarKit
