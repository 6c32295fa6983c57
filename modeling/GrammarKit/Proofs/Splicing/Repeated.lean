/-
Extending a grammar for splicing once and for all. Each label has one splice terminal and each splice terminal one
label, terminals keep different names, and the rules that are added to an origin come after all that it has, in an
order of their own. A grammar that is extended already has all that extending it again would look for, so nothing is
added.
-/
import GrammarKit.Proofs.Splicing.Sentences

namespace GrammarKit

theorem nodup_ite_concat {α : Type} [DecidableEq α] {l : List α} (h : l.Nodup) (a : α) :
    (if a ∈ l then l else l ++ [a]).Nodup := by
  split
  · exact h
  · rename_i hnew
    rw [← List.concat_eq_append]
    exact h.concat hnew

/-! ## Origins -/

theorem map_fst_add (origin label : String) : ∀ groups : List (String × List String),
    (labelsByOrigin.add groups origin label).map (·.1) =
      if origin ∈ groups.map (·.1) then groups.map (·.1) else groups.map (·.1) ++ [origin]
  | [] => by simp [labelsByOrigin.add]
  | (o, ls) :: groups => by
    rw [labelsByOrigin.add]
    by_cases ho : o = origin
    · simp [ho]
    · simp only [if_neg ho, List.map_cons, map_fst_add origin label groups, List.mem_cons, Ne.symm ho, false_or]
      split <;> rfl

/-- Each origin is listed once. -/
theorem nodup_labelsByOrigin (rules : List Rule) : ((labelsByOrigin rules).map (·.1)).Nodup := by
  have hfold : ∀ (rs : List Rule) (groups : List (String × List String)), (groups.map (·.1)).Nodup →
      ((rs.foldl (fun groups r => labelsByOrigin.add groups r.origin r.label) groups).map (·.1)).Nodup := by
    intro rs
    induction rs with
    | nil => exact fun _ hn => hn
    | cons r rs ih =>
      intro groups hn
      refine ih _ ?_
      rw [map_fst_add]
      exact nodup_ite_concat hn r.origin
  exact hfold _ [] List.nodup_nil

namespace SplicedGrammar

theorem le_foldl_max {n : Nat} : ∀ (ns : List Nat) {m : Nat}, n ≤ m ∨ n ∈ ns → n ≤ ns.foldl max m
  | [], _, h => h.resolve_right List.not_mem_nil
  | k :: ns, m, h => by
    refine le_foldl_max ns ?_
    rcases h with h | h
    · exact .inl (le_max_of_le_left h)
    · rcases List.mem_cons.1 h with rfl | h
      exacts [.inl (le_max_right ..), .inr h]

theorem lt_nextOrder {rules : List Rule} {r : Rule} (hr : r ∈ rules) : r.order < nextOrder rules r.origin :=
  le_foldl_max _ (.inr (List.mem_map.2 ⟨r, List.mem_filter.2 ⟨hr, beq_self_eq_true _⟩, rfl⟩))

/-! ## Allowing a label -/

variable {g h : SplicedGrammar} {origin label : String} {order : Nat}

/-- Notes the terminal of a label, unless the label has one. -/
def noted (names : List (String × String)) (label terminal : String) : List (String × String) :=
  if names.any (·.1 == label) then names else names ++ [(label, terminal)]

/-- All that allowing a label can do: its terminal is declared and noted, and its rule is added where it is new. -/
theorem allow_eq (g : SplicedGrammar) (origin : String) (order : Nat) (label : String) :
    allow origin (g, order) label =
      if g.rules.any (·.production == ⟨origin, [.terminal (g.declare label).1]⟩) then
        (⟨g.rules, (g.declare label).2.terminals, noted g.spliceTerminals label (g.declare label).1⟩, order)
      else (⟨g.rules ++ [spliceRule origin (g.declare label).1 order], (g.declare label).2.terminals,
        noted g.spliceTerminals label (g.declare label).1⟩, order + 1) := by
  have hnoted : (if (g.declare label).2.spliceTerminals.any (·.1 == label) then (g.declare label).2
      else { (g.declare label).2 with
        spliceTerminals := (g.declare label).2.spliceTerminals ++ [(label, (g.declare label).1)] }) =
      ⟨g.rules, (g.declare label).2.terminals, noted g.spliceTerminals label (g.declare label).1⟩ := by
    rw [noted, ← (g.declare_extends label).2.2, ← g.rules_declare label]
    split <;> rfl
  simp only [allow, hnoted]
  rfl

theorem spliceTerminals_allow (g : SplicedGrammar) (origin : String) (order : Nat) (label : String) :
    (allow origin (g, order) label).1.spliceTerminals = noted g.spliceTerminals label (g.declare label).1 := by
  rw [allow_eq]
  split <;> rfl

/-- A label is noted once. -/
theorem map_fst_noted (names : List (String × String)) (label terminal : String) :
    (noted names label terminal).map (·.1) =
      if label ∈ names.map (·.1) then names.map (·.1) else names.map (·.1) ++ [label] := by
  have hany : names.any (·.1 == label) = true ↔ label ∈ names.map (·.1) := by simp
  unfold noted
  by_cases hl : label ∈ names.map (·.1)
  · rw [if_pos hl, if_pos (hany.2 hl)]
  · rw [if_neg hl, if_neg (mt hany.1 hl), List.map_append, List.map_singleton]

/-! ## Orders of added rules -/

/-- The rules that are added to an origin come one after the other. -/
theorem foldl_allow_rules (origin : String) : ∀ (labels : List String) (g : SplicedGrammar) (order : Nat),
    ∃ added, (labels.foldl (allow origin) (g, order)).1.rules = g.rules ++ added ∧
      added.Pairwise (·.order < ·.order) ∧ ∀ r ∈ added, r.origin = origin ∧ order ≤ r.order
  | [], g, _ => ⟨[], (List.append_nil _).symm, .nil, fun _ hr => nomatch hr⟩
  | label :: labels, g, order => by
    rw [List.foldl_cons, allow_eq]
    split
    · exact foldl_allow_rules origin labels _ order
    · obtain ⟨added, hrules, hpairs, hadded⟩ := foldl_allow_rules origin labels
        ⟨g.rules ++ [spliceRule origin (g.declare label).1 order], (g.declare label).2.terminals,
          noted g.spliceTerminals label (g.declare label).1⟩ (order + 1)
      refine ⟨_ :: added, by rw [hrules, List.append_assoc]; rfl, .cons (fun r hr => ?_) hpairs, fun r hr => ?_⟩
      · exact (hadded r hr).2
      · rcases List.mem_cons.1 hr with rfl | hr
        · exact ⟨rfl, Nat.le_refl _⟩
        · exact ⟨(hadded r hr).1, Nat.le_of_succ_le (hadded r hr).2⟩

theorem foldl_rules (order : String → Nat) : ∀ (groups : List (String × List String)) (g : SplicedGrammar),
    (groups.map (·.1)).Nodup →
    ∃ added, (groups.foldl (fun g p => (p.2.foldl (allow p.1) (g, order p.1)).1) g).rules = g.rules ++ added ∧
      (added.Pairwise fun r r' => r.origin = r'.origin → r.order < r'.order) ∧
      ∀ r ∈ added, r.origin ∈ groups.map (·.1) ∧ order r.origin ≤ r.order
  | [], g, _ => ⟨[], (List.append_nil _).symm, .nil, fun _ hr => nomatch hr⟩
  | p :: groups, g, hn => by
    obtain ⟨hp, hn⟩ := List.nodup_cons.1 hn
    obtain ⟨first, hfirst, hpairs, hsame⟩ := foldl_allow_rules p.1 p.2 g (order p.1)
    obtain ⟨others, hothers, hpairs', hother⟩ :=
      foldl_rules order groups (p.2.foldl (allow p.1) (g, order p.1)).1 hn
    have hfirsts : first.Pairwise fun r r' => r.origin = r'.origin → r.order < r'.order :=
      hpairs.imp fun {r r'} hlt (_ : r.origin = r'.origin) => hlt
    refine ⟨first ++ others, by rw [List.foldl_cons, hothers, hfirst, List.append_assoc],
      List.pairwise_append.2 ⟨hfirsts, hpairs', fun r hr r' hr' ho => ?_⟩, fun r hr => ?_⟩
    · -- the other groups are of other origins
      have hmem := (hother r' hr').1
      rw [← ho, (hsame r hr).1] at hmem
      exact absurd hmem hp
    · rcases List.mem_append.1 hr with hr | hr
      · obtain ⟨ho, hle⟩ := hsame r hr
        rw [ho]
        exact ⟨List.mem_cons_self .., hle⟩
      · exact ⟨List.mem_cons_of_mem _ (hother r hr).1, (hother r hr).2⟩

/-! ## Labels that are noted -/

theorem foldl_allow_labels (origin : String) : ∀ (labels : List String) (g : SplicedGrammar) (order : Nat),
    (g.spliceTerminals.map (·.1)).Nodup →
    ((labels.foldl (allow origin) (g, order)).1.spliceTerminals.map (·.1)).Nodup ∧
      ∀ l, l ∈ (labels.foldl (allow origin) (g, order)).1.spliceTerminals.map (·.1) ↔
        l ∈ g.spliceTerminals.map (·.1) ∨ l ∈ labels
  | [], _, _, hn => ⟨hn, fun l => by simp⟩
  | label :: labels, g, order, hn => by
    have hkeys := map_fst_noted g.spliceTerminals label (g.declare label).1
    rw [← spliceTerminals_allow g origin order] at hkeys
    obtain ⟨hnodup, hmem⟩ := foldl_allow_labels origin labels (allow origin (g, order) label).1
      (allow origin (g, order) label).2 (by rw [hkeys]; exact nodup_ite_concat hn label)
    refine ⟨hnodup, fun l => (hmem l).trans ?_⟩
    rw [hkeys, List.mem_cons]
    split
    · rename_i hold
      exact ⟨fun hl => hl.imp_right .inr, fun hl => hl.elim .inl fun hl => hl.elim (fun he => .inl (he ▸ hold)) .inr⟩
    · rw [List.mem_append, List.mem_singleton, or_assoc]

theorem foldl_labels (order : String → Nat) : ∀ (groups : List (String × List String)) (g : SplicedGrammar),
    (g.spliceTerminals.map (·.1)).Nodup →
    ((groups.foldl (fun g p => (p.2.foldl (allow p.1) (g, order p.1)).1) g).spliceTerminals.map (·.1)).Nodup ∧
      ∀ l, l ∈ (groups.foldl (fun g p => (p.2.foldl (allow p.1) (g, order p.1)).1) g).spliceTerminals.map (·.1) ↔
        l ∈ g.spliceTerminals.map (·.1) ∨ ∃ p ∈ groups, l ∈ p.2
  | [], _, hn => ⟨hn, fun l => by simp⟩
  | p :: groups, g, hn => by
    obtain ⟨hn1, hmem1⟩ := foldl_allow_labels p.1 p.2 g (order p.1) hn
    obtain ⟨hn2, hmem2⟩ := foldl_labels order groups (p.2.foldl (allow p.1) (g, order p.1)).1 hn1
    refine ⟨hn2, fun l => (hmem2 l).trans ?_⟩
    rw [hmem1, or_assoc]
    simp only [List.mem_cons, exists_eq_or_imp]

/-! ## Extending what is extended -/

/-- Where a label is allowed already, allowing it again notes its terminal and changes nothing else. -/
theorem allow_again (hext : (allow origin (g, order) label).1.Extends h) (order' : Nat) :
    allow origin ({ h with spliceTerminals := g.spliceTerminals }, order') label =
      ({ h with spliceTerminals := (allow origin (g, order) label).1.spliceTerminals }, order') := by
  obtain ⟨-, hdeclared, -⟩ := g.declare_extends label
  -- the label has its terminal, and its rule is there
  have hterminal : h.terminalOf? label = some (g.declare label).1 := by
    refine hext.terminalOf _ _ ?_
    rw [allow_eq]
    split <;> exact hdeclared
  have hrule : h.rules.any (·.production == ⟨origin, [.terminal (g.declare label).1]⟩) = true := by
    obtain ⟨r, hr, hp⟩ : ∃ r ∈ (allow origin (g, order) label).1.rules,
        r.production = ⟨origin, [.terminal (g.declare label).1]⟩ := by
      rw [allow_eq]
      split
      · rename_i hany
        obtain ⟨r, hr, hp⟩ := List.any_eq_true.1 hany
        exact ⟨r, hr, eq_of_beq hp⟩
      · exact ⟨_, List.mem_append_right _ (List.mem_singleton_self _), rfl⟩
    exact List.any_eq_true.2 ⟨r, hext.mem_rules hr, beq_iff_eq.2 hp⟩
  have hdeclare : ({ h with spliceTerminals := g.spliceTerminals } : SplicedGrammar).declare label =
      ((g.declare label).1, { h with spliceTerminals := g.spliceTerminals }) := by
    have hsame : ({ h with spliceTerminals := g.spliceTerminals } : SplicedGrammar).terminalOf? label =
        some (g.declare label).1 := hterminal
    simp only [declare, hsame]
  rw [allow_eq, hdeclare, if_pos hrule, spliceTerminals_allow]

theorem foldl_allow_again (origin : String) : ∀ (labels : List String) (g : SplicedGrammar) (order order' : Nat),
    g.Consistent → (labels.foldl (allow origin) (g, order)).1.Extends h →
    labels.foldl (allow origin) ({ h with spliceTerminals := g.spliceTerminals }, order') =
      ({ h with spliceTerminals := (labels.foldl (allow origin) (g, order)).1.spliceTerminals }, order')
  | [], _, _, _, _, _ => rfl
  | label :: labels, g, order, order', hg, hext => by
    obtain ⟨-, hc, -⟩ := allow_extends hg origin order label
    have hrest := (foldl_allow_extends origin labels (allow origin (g, order) label).1
      (allow origin (g, order) label).2 hc).1
    rw [List.foldl_cons, allow_again (hrest.trans hext)]
    exact foldl_allow_again origin labels (allow origin (g, order) label).1 (allow origin (g, order) label).2 order'
      hc hext

theorem foldl_again (order order' : String → Nat) : ∀ (groups : List (String × List String)) (g : SplicedGrammar),
    g.Consistent → (groups.foldl (fun g p => (p.2.foldl (allow p.1) (g, order p.1)).1) g).Extends h →
    groups.foldl (fun g p => (p.2.foldl (allow p.1) (g, order' p.1)).1) { h with spliceTerminals := g.spliceTerminals } =
      { h with spliceTerminals :=
        (groups.foldl (fun g p => (p.2.foldl (allow p.1) (g, order p.1)).1) g).spliceTerminals }
  | [], _, _, _ => rfl
  | p :: groups, g, hg, hext => by
    obtain ⟨-, hc, -⟩ := foldl_allow_extends p.1 p.2 g (order p.1) hg
    have hrest := (foldl_extends order groups (p.2.foldl (allow p.1) (g, order p.1)).1 hc).1
    rw [List.foldl_cons, foldl_allow_again p.1 p.2 g (order p.1) (order' p.1) hg (hrest.trans hext)]
    exact foldl_again order order' groups (p.2.foldl (allow p.1) (g, order p.1)).1 hc hext

/-! ## The extended grammar -/

/-- Rules for splicing do not count as origins of labels. -/
theorem labelsByOrigin_extend (rules : List Rule) (terminals : List Terminal) :
    labelsByOrigin (extend rules terminals).rules = labelsByOrigin rules := by
  obtain ⟨added, hrules, hadded⟩ := (extend_extends rules terminals).1.rules
  have hnone : added.filter (!·.options.forSplicing) = [] := by
    rw [List.filter_eq_nil_iff]
    exact fun r hr => by simp [(hadded r hr).1.forSplicing]
  simp only [labelsByOrigin, hrules, List.filter_append, hnone, List.append_nil]

theorem extend_extend (rules : List Rule) (terminals : List Terminal) :
    extend (extend rules terminals).rules (extend rules terminals).terminals = extend rules terminals := by
  have hagain := foldl_again (h := extend rules terminals) (nextOrder rules) (nextOrder (extend rules terminals).rules)
    (labelsByOrigin rules) { rules, terminals } (fun _ _ hl => nomatch hl) (.refl _)
  rw [extend, labelsByOrigin_extend]
  exact hagain

/-- What a grammar extended for splicing is to the grammar. -/
structure ExtensionOf (rules : List Rule) (terminals : List Terminal) (g : SplicedGrammar) : Prop where
  terminals_kept : terminals <+: g.terminals
  /-- The rules that are added come after those of their origin, and one after the other. -/
  rules_kept : ∃ added, g.rules = rules ++ added ∧
    (∀ r ∈ added, ∀ r' ∈ rules, r'.origin = r.origin → r'.order < r.order) ∧
    added.Pairwise fun r r' => r.origin = r'.origin → r.order < r'.order
  nodup_names : (g.terminals.map (·.name)).Nodup
  nodup_labels : (g.spliceTerminals.map (·.1)).Nodup
  mem_labels_iff : ∀ label, label ∈ g.spliceTerminals.map (·.1) ↔
    ∃ r ∈ rules, r.options.forSplicing = false ∧ r.label = label
  /-- No two labels have the same splice terminal. -/
  nodup_spliceTerminals : (g.spliceTerminals.map (·.2)).Nodup
  exists_terminal : ∀ p ∈ g.spliceTerminals, ∃ t ∈ g.terminals, t.name = p.2 ∧ t.pattern = .tree p.1
  extend_eq : extend g.rules g.terminals = g

/-- Extending a grammar whose terminals have different names gives each label of a rule, and nothing else, a splice
terminal of its own; all that is there stays in front and as it is, what is added to an origin is ranked behind it, and
extending the result gives the result itself. -/
theorem extend_settled (rules : List Rule) (terminals : List Terminal) (hnames : (terminals.map (·.name)).Nodup) :
    ExtensionOf rules terminals (extend rules terminals) := by
  obtain ⟨hext, hc⟩ := extend_extends rules terminals
  have hnames' := hext.nodup hnames
  obtain ⟨added, hrules, hpairs, hadded⟩ :=
    foldl_rules (nextOrder rules) (labelsByOrigin rules) { rules, terminals } (nodup_labelsByOrigin rules)
  obtain ⟨hlabels, hmem⟩ := foldl_labels (nextOrder rules) (labelsByOrigin rules) { rules, terminals } List.nodup_nil
  have hterminal : ∀ p ∈ (extend rules terminals).spliceTerminals,
      ∃ t ∈ (extend rules terminals).terminals, t.name = p.2 ∧ t.pattern = .tree p.1 := fun p hp =>
    terminalOf?_eq_some (hc _ _ (lookup_of_mem hlabels hp))
  refine ⟨?_, ⟨added, hrules, fun r hr r' hr' ho => ?_, hpairs⟩, hnames', hlabels, fun label => ?_, ?_, hterminal,
    extend_extend rules terminals⟩
  · obtain ⟨added, hterminals, -⟩ := hext.terminals
    exact ⟨added, hterminals.symm⟩
  · exact (ho ▸ lt_nextOrder hr').trans_le (hadded r hr).2
  · refine (hmem label).trans ⟨?_, ?_⟩
    · rintro (hl | ⟨p, hp, hl⟩)
      · cases hl
      · obtain ⟨r, hr, hm, -, hlabel⟩ := hasLabel_of_mem_labelsByOrigin hp hl
        exact ⟨r, hr, hm, hlabel⟩
    · rintro ⟨r, hr, hm, rfl⟩
      obtain ⟨ls, hls, hl⟩ := exists_mem_labelsByOrigin hr hm
      exact .inr ⟨_, hls, hl⟩
  · -- terminals of one name have one pattern, so their labels are the same
    refine (List.Nodup.of_map _ hlabels).map_on fun p hp q hq hpq => ?_
    obtain ⟨t, ht, htname, htree⟩ := hterminal p hp
    obtain ⟨u, hu, huname, hutree⟩ := hterminal q hq
    obtain rfl := List.inj_on_of_nodup_map hnames' ht hu (htname.trans (hpq.trans huname.symm))
    exact Prod.ext (Pattern.tree.inj (htree.symm.trans hutree)) hpq

/-- A grammar that has a splice terminal for one of its labels, under a name of its own, and the rule of another. -/
def markedLetters : List Rule :=
  letterPairs ++ [{ origin := "pair", parts := [⟨.terminal "PAIR", false⟩], order := 4 },
    { origin := "letter", parts := [⟨.terminal "TREE__A_B_3", false⟩], order := 7 }]

/-- The hand-written rules stand for the splice rules of their labels, and what is added comes behind them. -/
theorem extend_markedLetters :
    ExtensionOf markedLetters (letterTerminals ++ [⟨"PAIR", .tree "pair", 0⟩])
      (extend markedLetters (letterTerminals ++ [⟨"PAIR", .tree "pair", 0⟩])) ∧
    (extend markedLetters (letterTerminals ++ [⟨"PAIR", .tree "pair", 0⟩])).rules.map (·.order) =
      [0, 1, 0, 4, 7, 8, 9] :=
  ⟨extend_settled markedLetters _ (by decide), by decide +kernel⟩

end SplicedGrammar

end GrammarKit
