/-
Which rules win. A rule derives tokens directly if it derives them without going through its own nonterminal with all
of them again. Cells compare the rules of the normal form by the outermost rules that these stand for, so a node that was
chosen in a cell is of the rule that wins among those that have a copy of their own. But there is one copy only for all
chains of single nonterminals to the same end, and below the top of a chain nothing is compared. So a node is of the
rule that wins unless its nonterminal has a choice and either stands alone in a rule or has different ways to another
nonterminal; then a node may be of a rule that does not win.
-/
import GrammarKit.Proofs.Cyk.Parsing
import Mathlib

namespace GrammarKit

/-! ## Nodes in derivations -/

/-- A derivation stands below a rule (or at the top) in another one, which stands below a rule (or at the top) itself. -/
inductive Derivation.Within (d : Derivation) (place : Option Nat) : Option Nat → Derivation → Prop
  | here : Within d place place d
  | child {above : Option Nat} {i : Nat} {c : Derivation} {cs : List Derivation} (hc : c ∈ cs)
    (h : Within d place (some i) c) : Within d place above (.node i cs)

namespace Derivation

theorem Within.length_leaves_le {d e : Derivation} {place above : Option Nat} (h : d.Within place above e) :
    d.leaves.length ≤ e.leaves.length := by
  induction h with
  | here => exact Nat.le_refl _
  | child hc _ ih => exact ih.trans (length_leaves_le_of_mem hc)

/-- Among several derivations that all have leaves each one has fewer than all together. -/
theorem length_leaves_lt_of_mem {d : Derivation} {ds : List Derivation} (h : ∀ e ∈ ds, e.leaves ≠ [])
    (hl : 2 ≤ ds.length) (hd : d ∈ ds) : d.leaves.length < (leavesAll ds).length := by
  match ds, hl with
  | e :: f :: ds, _ =>
    have he := List.length_pos_iff.2 (h e (by simp))
    have hf := List.length_pos_iff.2 (h f (by simp))
    rw [leavesAll, List.length_append]
    rcases List.mem_cons.1 hd with rfl | hd
    · rw [leavesAll, List.length_append]
      omega
    · have := length_leaves_le_of_mem hd
      omega

end Derivation

theorem Trees.leaves_ne_nil {rules : List Rule} {stands : String → Token → Prop} (hne : NoEmptyRule rules)
    {ss : List Symbol} {ts : List Token} {ds : List Derivation} (h : Trees rules stands ss ts ds) :
    ∀ d ∈ ds, d.leaves ≠ [] := by
  induction h with
  | nil => simp
  | token _ _ ih => exact List.forall_mem_cons.2 ⟨List.cons_ne_nil _ _, ih⟩
  | node hr inner _ _ ih =>
    refine List.forall_mem_cons.2 ⟨fun hnil => ?_, ih⟩
    rw [Derivation.leaves, inner.leaves_eq] at hnil
    exact hne _ (List.mem_of_getElem? hr) (hne.eq_nil inner.yields hnil)

namespace Cyk

/-! ## Rules that win -/

section Wins

variable (rules : List Rule)

/-- The rule derives the tokens by trees in which no node of its own nonterminal has all of them again. -/
def Direct (i : Nat) (w : List Token) : Prop :=
  ∃ r cs, rules[i]? = some r ∧ Trees rules IsNamed r.symbols w cs ∧
    ∀ c ∈ cs, ∀ j es s place, Derivation.Within (.node j es) place (some i) c → rules[j]? = some s →
      s.origin = r.origin → (Derivation.leavesAll es).length < w.length

/-- The rule derives the tokens directly, and every other rule of its nonterminal that does has a lower priority, or the
same and a higher order. -/
def Wins (i : Nat) (w : List Token) : Prop :=
  ∃ r, rules[i]? = some r ∧ Direct rules i w ∧
    ∀ j s, rules[j]? = some s → s.origin = r.origin → Direct rules j w → j ≠ i →
      s.priority < r.priority ∨ s.priority = r.priority ∧ r.order < s.order

/-- The rules of one nonterminal have different orders. -/
def DistinctOrders : Prop :=
  ∀ (i j : Nat) (r s : Rule), rules[i]? = some r → rules[j]? = some s → r.origin = s.origin → r.order = s.order → i = j

/-- Single nonterminal rules lead from a nonterminal to another one and do not come back. -/
def LeadsAway (is : List Nat) (m n : String) : Prop :=
  Leads rules is m n ∧ n ≠ m ∧ ∀ j ∈ is.tail, ∀ s, rules[j]? = some s → s.origin ≠ m

/-- All ways from the nonterminal to another one begin with the same rule. -/
def OneWay (m : String) : Prop :=
  ∀ n i j is js, LeadsAway rules (i :: is) m n → LeadsAway rules (j :: js) m n → i = j

/-- One rule of the nonterminal at most derives the tokens directly. -/
def NoChoice (n : String) (w : List Token) : Prop :=
  ∀ i j s t, rules[i]? = some s → rules[j]? = some t → s.origin = n → t.origin = n → Direct rules i w →
    Direct rules j w → i = j

/-- What stands at the place, at the top or below a rule, does not stand alone in the rule. -/
def Accompanied (place : Option Nat) : Prop := ∀ i r n, place = some i → rules[i]? = some r → r.symbols ≠ [.nonterminal n]

/-- Every node is of a rule that derives its tokens directly, and of the one that wins, if there is just one or if the
rules of the nonterminal are compared there. -/
def Ranked (above : Option Nat) (d : Derivation) : Prop :=
  ∀ i cs place r, Derivation.Within (.node i cs) place above d → rules[i]? = some r →
    Direct rules i (Derivation.leavesAll cs) ∧
      (NoChoice rules r.origin (Derivation.leavesAll cs) ∨ OneWay rules r.origin ∧ Accompanied rules place →
        Wins rules i (Derivation.leavesAll cs))

end Wins

variable {rules : List Rule}

theorem Direct.wins {i : Nat} {r : Rule} {w : List Token} (h : Direct rules i w) (hr : rules[i]? = some r)
    (hno : NoChoice rules r.origin w) : Wins rules i w :=
  ⟨r, hr, h, fun j s hs ho hj hji => absurd (hno j i s r hs hr ho rfl hj h) hji⟩

theorem ranked_token (above : Option Nat) (t : Token) : Ranked rules above (.token t) := fun _ _ _ _ h => nomatch h

theorem ranked_node {above : Option Nat} {i : Nat} {cs : List Derivation} {r : Rule} (hr : rules[i]? = some r)
    (hd : Direct rules i (Derivation.leavesAll cs))
    (hwins : OneWay rules r.origin → Accompanied rules above → Wins rules i (Derivation.leavesAll cs))
    (hcs : ∀ c ∈ cs, Ranked rules (some i) c) : Ranked rules above (.node i cs) := by
  intro j es place s h hs
  cases h with
  | here =>
    obtain rfl := Option.some.inj (hr.symm.trans hs)
    exact ⟨hd, fun h => h.elim (hd.wins hr) fun h => hwins h.1 h.2⟩
  | child hc h => exact hcs _ hc _ _ _ _ h hs

theorem distinctOrders_of_pairwise
    (h : rules.Pairwise fun r s => r.origin = s.origin → r.order ≠ s.order) : DistinctOrders rules := by
  intro i j r s hr hs ho heq
  obtain ⟨hi, rfl⟩ := List.getElem?_eq_some_iff.1 hr
  obtain ⟨hj, rfl⟩ := List.getElem?_eq_some_iff.1 hs
  rcases Nat.lt_trichotomy i j with hlt | rfl | hlt
  · exact absurd heq (List.pairwise_iff_getElem.1 h i j hi hj hlt ho)
  · rfl
  · exact absurd heq.symm (List.pairwise_iff_getElem.1 h j i hj hi hlt ho.symm)

/-! ## Trees of chains -/

theorem within_chain {is : List Nat} {i j : Nat} {cs es : List Derivation} {place above : Option Nat}
    (h : Derivation.Within (.node j es) place above (is.foldr (fun unit d => .node unit [d]) (.node i cs))) :
    j ∈ is ∨ j = i ∨ ∃ c ∈ cs, Derivation.Within (.node j es) place (some i) c := by
  induction is generalizing above with
  | nil =>
    cases h with
    | here => exact .inr (.inl rfl)
    | child hc h => exact .inr (.inr ⟨_, hc, h⟩)
  | cons k is ih =>
    cases h with
    | here => exact .inl (List.mem_cons_self ..)
    | child hc h =>
      rw [List.mem_singleton.1 hc] at h
      exact (ih h).imp_left (List.mem_cons_of_mem k)

/-- The first rule of a chain is of the nonterminal that the chain begins at. -/
theorem Simple.origin_eq {is : List Nat} {i : Nat} {m : String} {base top : Rule} (h : Simple rules is m base.origin)
    (hb : rules[i]? = some base) (htop : rules[is.headD i]? = some top) : top.origin = m := by
  generalize hn : base.origin = n at h
  cases h with
  | nil =>
    obtain rfl := Option.some.inj (hb.symm.trans htop)
    exact hn
  | cons hr _ _ _ _ =>
    obtain rfl := Option.some.inj (hr.symm.trans htop)
    rfl

section Chains

variable (hne : NoEmptyRule rules)
include hne

/-- The nodes inside a node that is not of a single nonterminal rule have fewer tokens. -/
theorem length_lt_of_within {base : Rule} (hb : base ∈ rules) (hunit : ∀ n, base.symbols ≠ [.nonterminal n])
    {w : List Token} {cs : List Derivation} (htrees : Trees rules IsNamed base.symbols w cs) {c : Derivation}
    (hc : c ∈ cs) {j : Nat} {es : List Derivation} {place above : Option Nat}
    (h : Derivation.Within (.node j es) place above c) : (Derivation.leavesAll es).length < w.length := by
  by_cases hlen : 2 ≤ cs.length
  · have hlt := Derivation.length_leaves_lt_of_mem (htrees.leaves_ne_nil hne) hlen hc
    rw [htrees.leaves_eq] at hlt
    exact Nat.lt_of_le_of_lt h.length_leaves_le hlt
  · -- the rule is a single terminal, and there is no node inside a token
    rw [htrees.length_eq] at hlen
    rcases hs : base.symbols with _ | ⟨_ | a, _ | ⟨t, rest⟩⟩
    · exact absurd hs (hne base hb)
    · exact absurd hs (hunit _)
    · simp [hs] at hlen
    · rw [hs] at htrees
      obtain ⟨t, -, rfl, -⟩ := trees_terminal_iff.1 htrees
      rw [List.mem_singleton.1 hc] at h
      cases h
    · simp [hs] at hlen

/-- The first rule of a simple chain derives directly what the rule at its end does. -/
theorem Simple.direct {is : List Nat} {i : Nat} {m : String} {base : Rule} (h : Simple rules is m base.origin)
    (hb : rules[i]? = some base) (hunit : ∀ n, base.symbols ≠ [.nonterminal n]) {w : List Token}
    {cs : List Derivation} (htrees : Trees rules IsNamed base.symbols w cs) : Direct rules (is.headD i) w := by
  generalize hn : base.origin = n at h
  cases h with
  | nil =>
    exact ⟨base, cs, hb, htrees, fun c hc j es s place h _ _ =>
      length_lt_of_within hne (List.mem_of_getElem? hb) hunit htrees hc h⟩
  | @cons k is r m n hr hs rest hback his =>
    subst hn
    refine ⟨r, [is.foldr (fun unit d => .node unit [d]) (.node i cs)], hr, ?_, ?_⟩
    · rw [hs]
      exact rest.leads.trees (.of_rule hb htrees)
    · intro c hc j es s place h hj ho
      rw [List.mem_singleton.1 hc] at h
      rcases within_chain h with hmem | rfl | ⟨c, hc, h⟩
      · exact absurd ho (his j hmem s hj)
      · obtain rfl := Option.some.inj (hb.symm.trans hj)
        exact absurd ho hback
      · exact length_lt_of_within hne (List.mem_of_getElem? hb) hunit htrees hc h

/-- In a chain all nodes derive their tokens directly, and only the first one may stand where rules are compared. -/
theorem Simple.ranked {is : List Nat} {i : Nat} {m : String} {base : Rule} (hb : rules[i]? = some base)
    (hunit : ∀ n, base.symbols ≠ [.nonterminal n]) {w : List Token} {cs : List Derivation}
    (htrees : Trees rules IsNamed base.symbols w cs) (hcs : ∀ c ∈ cs, Ranked rules (some i) c)
    (h : Simple rules is m base.origin) : ∀ {above : Option Nat}, (∀ r, rules[is.headD i]? = some r →
      OneWay rules r.origin → Accompanied rules above → Wins rules (is.headD i) w) →
      Ranked rules above (is.foldr (fun unit d => .node unit [d]) (.node i cs)) := by
  generalize hn : base.origin = n at h
  induction h with
  | nil =>
    intro above htop
    subst hn
    have hdirect := Simple.nil.direct hne hb hunit htrees
    obtain rfl := htrees.leaves_eq
    exact ranked_node hb hdirect (htop _ hb) hcs
  | @cons k is r m n hr hm rest hback his ih =>
    intro above htop
    subst hn
    have hsimple : Simple rules (k :: is) r.origin base.origin := .cons hr hm rest hback his
    have hdirect := hsimple.direct hne hb hunit htrees
    have hleaves := (rest.leads.trees (.of_rule hb htrees)).leaves_eq
    refine ranked_node hr (by rwa [hleaves]) (by rw [hleaves]; exact htop _ hr) fun c hc => ?_
    rw [List.mem_singleton.1 hc]
    exact ih rfl fun _ _ _ hac => absurd hm (hac k r _ rfl hr)

end Chains

/-! ## Ranks of derivations -/

theorem Rank.ofNormal_eq {r : NormalRule} {i : Nat} {s : Rule} (hs : r.source = .rule i)
    (hr : rules[r.skipped.headD i]? = some s) : Rank.ofNormal rules r = ⟨s.priority, s.order⟩ := by
  unfold Rank.ofNormal
  cases hskip : r.skipped with
  | nil =>
    rw [hskip, List.headD_nil] at hr
    simp only [hs, hr]
  | cons k is =>
    rw [hskip, List.headD_cons] at hr
    simp only [hr]

/-- Below a nonterminal single nonterminal rules lead to a node of another rule, all of them with the same tokens. -/
theorem exists_proper_of_trees {ss : List Symbol} {w : List Token} {ds : List Derivation}
    (h : Trees rules IsNamed ss w ds) : ∀ {m : String}, ss = [.nonterminal m] → ∃ js i base cs c, ds = [c] ∧
      Leads rules js m base.origin ∧ rules[i]? = some base ∧ (∀ n, base.symbols ≠ [.nonterminal n]) ∧
      Trees rules IsNamed base.symbols w cs ∧
      ∀ k, k ∈ js ∨ k = i → ∀ above, ∃ es place, Derivation.Within (.node k es) place above c ∧
        Derivation.leavesAll es = w := by
  induction h with
  | nil => exact fun h => nomatch h
  | token _ _ _ => exact fun h => nomatch h
  | @node i r ss us ts cs ds hr inner rest ih _ =>
    intro m hm
    cases hm
    cases rest
    rw [List.append_nil]
    by_cases hunit : ∃ n, r.symbols = [.nonterminal n]
    · obtain ⟨n, hn⟩ := hunit
      obtain ⟨js, i', base, cs', c, rfl, hl, hb, hproper, htrees, hall⟩ := ih hn
      refine ⟨i :: js, i', base, cs', _, rfl, .cons hr hn hl, hb, hproper, htrees, fun k hk above => ?_⟩
      by_cases hki : k = i
      · subst hki
        exact ⟨_, _, .here, inner.leaves_eq⟩
      · obtain ⟨es, place, hin, hes⟩ := hall k (hk.imp_left fun h => (List.mem_cons.1 h).resolve_left hki) (some i)
        exact ⟨es, place, .child (List.mem_singleton_self _) hin, hes⟩
    · refine ⟨[], i, r, cs, _, rfl, .nil, hr, fun n hn => hunit ⟨n, hn⟩, inner, fun k hk above => ?_⟩
      obtain rfl : k = i := hk.resolve_left (by simp)
      exact ⟨_, _, .here, inner.leaves_eq⟩

/-- A single nonterminal rule that derives tokens directly leads away to a rule of another kind that has them. -/
theorem Direct.exists_leadsAway {j : Nat} {s : Rule} {w : List Token} (h : Direct rules j w) (hj : rules[j]? = some s)
    {n : String} (hn : s.symbols = [.nonterminal n]) : ∃ (js : List Nat) (i : Nat) (base : Rule) (cs : List Derivation),
      rules[i]? = some base ∧ LeadsAway rules (j :: js) s.origin base.origin ∧
      (∀ n, base.symbols ≠ [.nonterminal n]) ∧ Trees rules IsNamed base.symbols w cs := by
  obtain ⟨r, ds, hr, htrees, hdirect⟩ := h
  obtain rfl := Option.some.inj (hj.symm.trans hr)
  obtain ⟨js, i, base, cs, c, rfl, hl, hb, hproper, hbase, hall⟩ := exists_proper_of_trees htrees hn
  have haway : ∀ k t, (k ∈ js ∨ k = i) → rules[k]? = some t → t.origin ≠ s.origin := by
    intro k t hk ht ho
    obtain ⟨es, place, hin, hes⟩ := hall k hk (some j)
    have hlt := hdirect c (List.mem_singleton_self c) k es t place hin ht ho
    rw [hes] at hlt
    exact Nat.lt_irrefl _ hlt
  exact ⟨js, i, base, cs, hb, ⟨.cons hj hn hl, haway i base (.inr rfl) hb, fun k hk t => haway k t (.inl hk)⟩, hproper,
    hbase⟩

/-- Where all ways begin with the same rule, so does a simple chain. -/
theorem OneWay.headD_eq {m n : String} (h : OneWay rules m) {j : Nat} {js : List Nat}
    (ha : LeadsAway rules (j :: js) m n) {is : List Nat} (hs : Simple rules is m n) (i : Nat) : is.headD i = j := by
  cases hs with
  | nil => exact absurd rfl ha.2.1
  | cons hr hsym rest hn his => exact h _ _ _ _ _ ⟨.cons hr hsym rest.leads, hn, his⟩ ha

section Table

variable {g : NormalForm} (hplain : Plain rules) (hne : NoEmptyRule rules) (hg : g.rules = eliminateUnits (shorten rules))
include hplain hne hg

/-- A rule that derives tokens directly has a binary derivation of its own rank. -/
theorem Direct.exists_derives {j : Nat} {s : Rule} {w : List Token} (h : Direct rules j w)
    (hj : rules[j]? = some s) (hone : OneWay rules s.origin) : ∃ b, Binary.Derives g s.origin w b ∧
      Rank.ofNormal rules b.rule = ⟨s.priority, s.order⟩ := by
  by_cases hunit : ∃ n, s.symbols = [.nonterminal n]
  · obtain ⟨n, hn⟩ := hunit
    obtain ⟨js, i, base, cs, hb, haway, hproper, hbase⟩ := h.exists_leadsAway hj hn
    obtain ⟨b, hderives, hshort, hsource⟩ :=
      (Covered.of_yields hplain hne hg hbase.yields).exists_proper hplain hne hg hb hproper
    obtain ⟨hmem, horigin⟩ := hderives.origin_eq
    have hu : b.rule.unit? = none := (fits_of_mem hplain hne (hg ▸ hmem)).unit?_eq
    obtain ⟨is, his⟩ := exists_chain hplain hne haway.1 ⟨[], (search_chainsFrom s.origin).start⟩
    have hcopy := mem_of_chain hplain hne hshort hu (horigin ▸ his) (horigin ▸ haway.2.1)
    rw [← hg] at hcopy
    obtain ⟨b', hb', hrule⟩ := hderives.exists_of_symbols hcopy rfl
    refine ⟨b', hb', ?_⟩
    -- the chain that was found begins with the rule at hand
    have hfirst := hone.headD_eq haway (simple_of_chainsFrom hplain hne his) i
    rw [hrule]
    refine Rank.ofNormal_eq hsource ?_
    rwa [(source_of_mem_shorten hshort).1, List.append_nil, hfirst]
  · obtain ⟨r, cs, hr, htrees, -⟩ := h
    obtain rfl := Option.some.inj (hj.symm.trans hr)
    obtain ⟨b, hb, hshort, hsource⟩ := (Covered.of_yields hplain hne hg htrees.yields).exists_proper hplain hne hg hj
      fun n hn => hunit ⟨n, hn⟩
    refine ⟨b, hb, Rank.ofNormal_eq hsource ?_⟩
    rwa [(source_of_mem_shorten hshort).1]

/-- The outermost rule of a rule that is no worse than others wins, if it derives the tokens directly and all ways from
its nonterminal begin with the same rule. -/
theorem NormalRule.Best.wins (horders : DistinctOrders rules) {r : NormalRule} {w : List Token}
    (hbest : r.Best rules g w) {i : Nat} {top : Rule} (hsource : r.source = .rule i)
    (htop : rules[r.skipped.headD i]? = some top) (horigin : top.origin = r.origin)
    (hdirect : Direct rules (r.skipped.headD i) w) (hone : OneWay rules top.origin) :
    Wins rules (r.skipped.headD i) w := by
  refine ⟨top, htop, hdirect, fun j s hj ho hdj hne' => ?_⟩
  obtain ⟨b, hb, hrank⟩ := hdj.exists_derives hplain hne hg hj (ho ▸ hone)
  have hle := hbest b (horigin ▸ ho ▸ hb)
  rw [Rank.ofNormal_eq hsource htop, hrank, Rank.noWorse_iff] at hle
  -- of two rules of one nonterminal none has the rank of the other
  refine hle.imp_right fun ⟨hp, hord⟩ => ⟨hp.symm, Nat.lt_of_le_of_ne hord fun heq => ?_⟩
  exact hne' (horders _ _ _ _ hj htop ho heq.symm)

/-- A derivation whose rule is no worse than others adds nodes of rules that win where they are compared, above those
that it has inside. -/
theorem Binary.Derives.ranked_parts (horders : DistinctOrders rules) {n : String} {w : List Token} {b : Binary}
    (h : b.Derives g n w) (hbest : b.rule.Best rules g w) (hinside : ∀ d ∈ b.inside, ∀ above, Ranked rules above d) :
    ∀ d ∈ b.parts, ∀ above, Ranked rules above d := by
  rw [Binary.parts_eq]
  cases hsource : b.rule.source with
  | split => rwa [Binary.contribution, hsource]
  | wrapper => rwa [Binary.contribution, hsource]
  | rule i =>
    obtain ⟨α, hgives, htrees⟩ := h.exists_gives hplain hne hg
    obtain ⟨base, hb, hchain, hproper⟩ := exists_base (hg ▸ h.origin_eq.1) hsource
    have hbase : Trees rules IsNamed base.symbols w b.inside := by
      cases hgives with
      | rule hs hb' _ =>
        cases hsource.symm.trans hs
        rwa [Option.some.inj (hb.symm.trans hb')]
      | helper hs _ _ => rcases hs with hs | hs <;> cases hsource.symm.trans hs
    have hsimple := simple_of_chainsFrom hplain hne hchain
    intro d hd above
    rw [Binary.contribution, hsource] at hd
    obtain rfl := List.mem_singleton.1 hd
    refine hsimple.ranked hne hb hproper hbase (fun c hc => hinside c hc _) fun top htop hone _ => ?_
    exact hbest.wins hplain hne hg horders hsource htop (hsimple.origin_eq hb htop)
      (hsimple.direct hne hb hproper hbase) hone

/-- What a chosen derivation adds has nodes of rules that win where they are compared. -/
theorem Binary.Chosen.ranked (horders : DistinctOrders rules) {n : String} {w : List Token} {b : Binary}
    (h : b.Chosen rules g n w) : ∀ d ∈ b.parts, ∀ above, Ranked rules above d := by
  induction h with
  | leaf hr ht hbest =>
    refine Binary.Derives.ranked_parts hplain hne hg horders (.leaf hr ht) hbest fun d hd above => ?_
    rw [List.mem_singleton.1 hd]
    exact ranked_token above _
  | branch hr hp hx hy hbest ihx ihy =>
    refine Binary.Derives.ranked_parts hplain hne hg horders (.branch hr hp hx.derives hy.derives) hbest
      fun d hd => ?_
    exact (List.mem_append.1 hd).elim (ihx d) (ihy d)

end Table

/-- Every node of what is derived is of the rule that wins for its tokens, if it has no choice, or if it does not stand
alone and all ways from its nonterminal to another one begin with the same rule. -/
theorem derive_ranked {rules : List Rule} (hne : NoEmptyRule rules) (hplain : Plain rules)
    (horders : DistinctOrders rules) : ∃ p, Parser.ofRules rules = .ok p ∧
      ∀ (start : String) (tokens : List Token) (d : Derivation), p.derive tokens start = .ok d →
        Ranked rules none d := by
  refine ⟨⟨rules, ⟨eliminateUnits (shorten rules)⟩⟩, Parser.ofRules_eq hne, ?_⟩
  intro start tokens d hd
  rcases Parser.derive_cases hne hplain (Parser.exists_rule_of_derive hd) tokens with
    ⟨b, d', hd', hchosen, hrestore, -⟩ | ⟨-, hf⟩
  · obtain rfl := Except.ok.inj (hd.symm.trans hd')
    refine hchosen.ranked hplain hne rfl horders d ?_ none
    unfold Binary.restore? at hrestore
    split at hrestore
    · exact List.mem_of_head? hrestore
    · cases hrestore
  · rw [hf] at hd
    cases hd

/-- Two ways to read two letters, which are told apart by the order of two single nonterminal rules. -/
def eitherPair : List Rule :=
  [⟨"s", [⟨.nonterminal "u", false⟩], 0, none, {}⟩, ⟨"s", [⟨.nonterminal "v", false⟩], 1, none, {}⟩,
   ⟨"u", [⟨.terminal "x", false⟩, ⟨.terminal "x", false⟩], 0, none, {}⟩,
   ⟨"v", [⟨.terminal "x", false⟩, ⟨.terminal "x", false⟩], 0, none, {}⟩]

theorem eitherPair_cases {i : Nat} {r : Rule} (h : eitherPair[i]? = some r) :
    i = 0 ∧ r = eitherPair[0] ∨ i = 1 ∧ r = eitherPair[1] ∨ i = 2 ∧ r = eitherPair[2] ∨ i = 3 ∧ r = eitherPair[3] := by
  rcases i with _ | _ | _ | _ | i <;> simp [eitherPair, eq_comm] at h ⊢ <;> exact h

/-- The pairs lead nowhere, so all ways to one of them begin with the rule for it. -/
theorem oneWay_eitherPair : OneWay eitherPair "s" := by
  have hends : ∀ {is m n}, m = "u" ∨ m = "v" → Leads eitherPair is m n → n = m := by
    intro is m n hm h
    cases h with
    | nil => rfl
    | cons hr hs _ =>
      rcases eitherPair_cases hr with ⟨rfl, rfl⟩ | ⟨rfl, rfl⟩ | ⟨rfl, rfl⟩ | ⟨rfl, rfl⟩ <;>
        simp [eitherPair, Rule.symbols] at hs hm
  have hfirst : ∀ {i is n}, Leads eitherPair (i :: is) "s" n → i = 0 ∧ n = "u" ∨ i = 1 ∧ n = "v" := by
    intro i is n h
    generalize hm : "s" = m at h
    cases h with
    | cons hr hs rest =>
      rcases eitherPair_cases hr with ⟨rfl, rfl⟩ | ⟨rfl, rfl⟩ | ⟨rfl, rfl⟩ | ⟨rfl, rfl⟩ <;> cases hs
      · exact .inl ⟨rfl, hends (.inl rfl) rest⟩
      · exact .inr ⟨rfl, hends (.inr rfl) rest⟩
  intro n i j is js hi hj
  rcases hfirst hi.1 with ⟨rfl, hu⟩ | ⟨rfl, hv⟩ <;> rcases hfirst hj.1 with ⟨rfl, hu'⟩ | ⟨rfl, hv'⟩
  · rfl
  · exact absurd (hu.symm.trans hv') (by decide)
  · exact absurd (hv.symm.trans hu') (by decide)
  · rfl

theorem noChoice_eitherPair (w : List Token) : NoChoice eitherPair "u" w := by
  have hu : ∀ {i r}, eitherPair[i]? = some r → r.origin = "u" → i = 2 := by
    intro i r hr ho
    rcases eitherPair_cases hr with ⟨rfl, rfl⟩ | ⟨rfl, rfl⟩ | ⟨rfl, rfl⟩ | ⟨rfl, rfl⟩ <;> revert ho <;> decide
  exact fun i j s t hs ht ho ho' _ _ => (hu hs ho).trans (hu ht ho').symm

theorem derive_ranked_eitherPair : ∃ p, Parser.ofRules eitherPair = .ok p ∧
    p.derive (["x", "x"].map fun a => .ofText a a) "s" =
      .ok (.node 0 [.node 2 (["x", "x"].map fun a => .token (.ofText a a))]) ∧
    Wins eitherPair 0 (["x", "x"].map fun a => .ofText a a) ∧
    Wins eitherPair 2 (["x", "x"].map fun a => .ofText a a) := by
  have hne : NoEmptyRule eitherPair := by
    unfold NoEmptyRule
    decide
  have hplain : Plain eitherPair := by
    unfold Plain
    decide
  obtain ⟨p, hp, h⟩ := derive_ranked hne hplain (distinctOrders_of_pairwise (by decide))
  have hrun : ((Parser.ofRules eitherPair).bind fun p => p.derive (["x", "x"].map fun a => .ofText a a) "s") =
      .ok (.node 0 [.node 2 (["x", "x"].map fun a => .token (.ofText a a))]) := by cbv
  rw [hp, Except.bind] at hrun
  refine ⟨p, hp, hrun, ?_, ?_⟩
  · exact (h _ _ _ hrun 0 _ none _ .here rfl).2 (.inr ⟨oneWay_eitherPair, fun _ _ _ hplace => by cases hplace⟩)
  · exact (h _ _ _ hrun 2 _ (some 0) _ (.child (List.mem_singleton_self _) .here) rfl).2
      (.inl (noChoice_eitherPair _))

/-- A letter that stands for the name `b` by itself, and through `a`. -/
def letterDetour : List Rule :=
  [⟨"s", [⟨.nonterminal "b", false⟩], 0, none, {}⟩, ⟨"b", [⟨.terminal "x", false⟩], 0, none, {}⟩,
   ⟨"b", [⟨.nonterminal "a", false⟩], 1, none, {}⟩, ⟨"a", [⟨.terminal "x", false⟩], 0, none, {}⟩]

/-- Below `s` the name `b` is built through `a`, though the rule with the letter itself comes first. -/
theorem derive_unranked : NoEmptyRule letterDetour ∧ Plain letterDetour ∧ DistinctOrders letterDetour ∧
    ∃ p d, Parser.ofRules letterDetour = .ok p ∧ p.derive [.ofText "x" "x"] "s" = .ok d ∧
      ¬ ∀ i cs place, Derivation.Within (.node i cs) place none d →
        Wins letterDetour i (Derivation.leavesAll cs) := by
  refine ⟨?_, ?_, ?_, ?_⟩
  · unfold NoEmptyRule
    decide
  · unfold Plain
    decide
  · exact distinctOrders_of_pairwise (by decide)
  · have hrun : ((Parser.ofRules letterDetour).bind fun p => p.derive [.ofText "x" "x"] "s") =
        .ok (.node 0 [.node 2 [.node 3 [.token (.ofText "x" "x")]]]) := by cbv
    cases hp : Parser.ofRules letterDetour with
    | error f =>
      rw [hp] at hrun
      cases hrun
    | ok p =>
      rw [hp] at hrun
      refine ⟨p, _, rfl, hrun, fun h => ?_⟩
      obtain ⟨r, hr, -, hbest⟩ := h 2 _ (some 0) (.child (List.mem_singleton_self _) .here)
      cases hr
      have hdirect : Direct letterDetour 1 [.ofText "x" "x"] := by
        refine ⟨letterDetour[1], [.token (.ofText "x" "x")], rfl, .token rfl .nil, fun c hc j es s place h => ?_⟩
        rw [List.mem_singleton.1 hc] at h
        cases h
      have := hbest 1 letterDetour[1] rfl rfl hdirect (by decide)
      revert this
      decide

end Cyk

end GrammarKit
