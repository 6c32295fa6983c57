/-
Packed derivations. What a search finds for a goal packs derivation trees of the goal, one for every way to pick a way
at each place, whichever rules there are and whether all ways are kept or one. In the value of a packed derivation the
alternatives of a stretch are the values of its ways, without those that are the same as an earlier one. So picking
alternatives in the value is picking ways in the derivation, as far as actions do their work on alternatives as on the
single values.
-/
import GrammarKit.Proofs.Earley.Assembly
import GrammarKit.Proofs.Earley.Placement
import GrammarKit.Proofs.Tree.Choices

namespace GrammarKit.Earley

/-! ## Packed derivations of a symbol -/

mutual

/-- A derivation that is packed in another, by picking one of the ways at each place. -/
inductive Picks (rules : List Rule) : Packed → Derivation → Prop
  | token (t : Token) : Picks rules (.token t) (.token t)
  | node {ways : List Way} {r : Rule} {parts : List Packed} {i : Nat} {ds : List Derivation}
    (hway : Way.mk r parts ∈ ways) (hr : rules[i]? = some r) (hparts : PicksAll rules parts ds) :
    Picks rules (.node ways) (.node i ds)

inductive PicksAll (rules : List Rule) : List Packed → List Derivation → Prop
  | nil : PicksAll rules [] []
  | cons {p : Packed} {ps : List Packed} {d : Derivation} {ds : List Derivation} (first : Picks rules p d)
    (rest : PicksAll rules ps ds) : PicksAll rules (p :: ps) (d :: ds)

end

section Packs

variable (rules : List Rule) (stands : String → Token → Prop) (w : List Token)

mutual

/-- A packed derivation of a symbol over a stretch. -/
inductive Packs : Symbol → Nat → Nat → Packed → Prop
  | token {a : String} {j : Nat} {t : Token} (ht : w[j]? = some t) (ha : stands a t) :
    Packs (.terminal a) j (j + 1) (.token t)
  | node {n : String} {j k : Nat} {ways : List Way} (hne : ways ≠ [])
    (hrule : ∀ r parts, Way.mk r parts ∈ ways → r ∈ rules) (horigin : ∀ r parts, Way.mk r parts ∈ ways → r.origin = n)
    (hparts : ∀ r parts, Way.mk r parts ∈ ways → PacksAll r.symbols j k parts) : Packs (.nonterminal n) j k (.node ways)

/-- Packed derivations of symbols that share a stretch. -/
inductive PacksAll : List Symbol → Nat → Nat → List Packed → Prop
  | nil {j : Nat} : PacksAll [] j j []
  | cons {s : Symbol} {ss : List Symbol} {j m k : Nat} {p : Packed} {ps : List Packed} (hj : j ≤ m) (hm : m ≤ k)
    (first : Packs s j m p) (rest : PacksAll ss m k ps) : PacksAll (s :: ss) j k (p :: ps)

end

end Packs

section Packs

variable {rules : List Rule} {stands : String → Token → Prop} {w : List Token}

theorem PicksAll.append {ps qs : List Packed} {ds es : List Derivation} (h : PicksAll rules ps ds)
    (k : PicksAll rules qs es) : PicksAll rules (ps ++ qs) (ds ++ es) := by
  induction ps generalizing ds with
  | nil => cases h; exact k
  | cons p ps ih =>
    cases h with
    | cons first rest => exact .cons first (ih rest)

theorem PacksAll.snoc {ss : List Symbol} {s : Symbol} {j m k : Nat} {ps : List Packed} {p : Packed}
    (h : PacksAll rules stands w ss j m ps) (hm : m ≤ k) (hp : Packs rules stands w s m k p) :
    PacksAll rules stands w (ss ++ [s]) j k (ps ++ [p]) := by
  induction ss generalizing j ps with
  | nil => cases h; exact .cons hm (Nat.le_refl _) hp .nil
  | cons x ss ih =>
    cases h with
    | cons hj hm' first rest => exact .cons hj (Nat.le_trans hm' hm) first (ih rest)

mutual

/-- What is picked is a tree of the symbol over the stretch. -/
theorem Packs.trees {s : Symbol} {j k : Nat} {p : Packed} {d : Derivation} : Packs rules stands w s j k p →
    Picks rules p d → Trees rules stands [s] (stretch w j k) [d]
  | .token ht ha, .token _ => by rw [stretch_succ ht]; exact .token ha .nil
  | .node _ _ horigin hparts, .node hway hr hpicks => by
    have h := Trees.of_rule hr ((hparts _ _ hway).trees hpicks)
    rwa [horigin _ _ hway] at h

theorem PacksAll.trees {ss : List Symbol} {j k : Nat} {ps : List Packed} {ds : List Derivation} :
    PacksAll rules stands w ss j k ps → PicksAll rules ps ds → Trees rules stands ss (stretch w j k) ds
  | .nil, .nil => by rw [stretch_self]; exact .nil
  | .cons hj hm first rest, .cons hpick hpicks => by
    rw [← stretch_append hj hm]
    exact (first.trees hpick).append (rest.trees hpicks)

end

theorem Packs.leaves_eq {s : Symbol} {j k : Nat} {p : Packed} {d : Derivation} (h : Packs rules stands w s j k p)
    (hd : Picks rules p d) : d.leaves = stretch w j k := by
  simpa [Derivation.leavesAll] using (h.trees hd).leaves_eq

end Packs

/-! ## What a search packs -/

namespace Chart.Records

open Search

variable {g : ChartRules} {stands : String → Token → Prop} {start : String} {w : List Token} {c : Chart}
  (h : c.Records g stands start w)
include h

theorem packsAll_of_placed {ss : List Symbol} {j k : Nat} {ps : List Packed}
    (hp : c.Placed (Packs g.rules stands w) ss j k ps) : PacksAll g.rules stands w ss j k ps := by
  induction hp with
  | nil hj =>
    obtain rfl := h.joins_iff.1 hj
    exact .nil
  | snoc he _ hm hp _ ih =>
    obtain rfl := h.mem_ends_iff.1 he
    exact ih.snoc hm hp

/-- What is found for a goal packs derivations of the goal, whether all ways are kept or one. -/
theorem solve_packs (a : Ambiguity) (fuel : Nat) (active : List Goal) (b : Goal) :
    Ensures (Fulfils fun b p => Packs g.rules stands w (.nonterminal b.name) b.start b.stop p)
      (c.solve a fuel active b)
      fun r => ∀ p, r = some p → Packs g.rules stands w (.nonterminal b.name) b.start b.stop p := by
  refine solve_fulfils (fun solve hsolve b => ?_) fuel active b
  refine (assures _).imp (ways_placed (assures _) (R := Packs g.rules stands w) (fun s j k => ?_) a _ b)
    fun ws hws hne => ?_
  · unfold part
    split
    · refine .pure fun p hp => ?_
      obtain ⟨t, ht, rfl⟩ := Option.map_eq_some_iff.1 hp
      obtain ⟨rfl, hw, ha⟩ := h.token?_eq_some ht
      exact .token hw ha
    · split
      · exact .pure fun p hp => (nomatch hp)
      · exact hsolve _
  · have hway : ∀ r parts, Way.mk r parts ∈ ws → r ∈ g.rules ∧ r.origin = b.name ∧
        PacksAll g.rules stands w r.symbols b.start b.stop parts := by
      intro r parts hw
      obtain ⟨⟨i, r'⟩, hx, ps, heq, hps⟩ := hws _ hw
      obtain ⟨rfl, rfl⟩ := Way.mk.inj heq
      obtain ⟨hn, hr, -⟩ := h.complete_of_mem_candidates hx
      exact ⟨List.mem_of_getElem? hr, hn, h.packsAll_of_placed hps⟩
    exact .node hne (fun r parts hw => (hway r parts hw).1) (fun r parts hw => (hway r parts hw).2.1)
      fun r parts hw => (hway r parts hw).2.2

/-- The derivation that is read off a chart packs trees of the start symbol over all tokens. -/
theorem derivation?_packs {a : Ambiguity} {name : String} {p : Packed} (hp : c.derivation? a name = some p) :
    Packs g.rules stands w (.nonterminal name) 0 w.length p := by
  have hpacks := (h.solve_packs a (c.goalCount + 1) [] ⟨name, 0, c.stop⟩ [] fun _ _ hp => (nomatch hp)).2 p hp
  rwa [h.stop_eq] at hpacks

end Chart.Records

/-! ## Values with alternatives -/

/-- What is kept of further values, next to those that were kept before. -/
theorem foldl_distinct (values : List Child) : ∀ kept : List Child, kept.Pairwise (fun a b => a.same b = false) →
    let all := values.foldl (fun kept v => if kept.any (·.same v) then kept else kept ++ [v]) kept
    (∀ v ∈ all, v ∈ kept ++ values) ∧ (∀ v ∈ kept, v ∈ all) ∧ all.Pairwise (fun a b => a.same b = false) ∧
      ∀ v ∈ values, ∃ x ∈ all, x.same v = true := by
  induction values with
  | nil => exact fun kept hk => ⟨by simp, fun v hv => hv, hk, by simp⟩
  | cons v values ih =>
    intro kept hk
    by_cases hv : kept.any (·.same v) = true
    · obtain ⟨x, hx, hxv⟩ := List.any_eq_true.1 hv
      obtain ⟨hsub, hkept, hpair, hone⟩ := ih kept hk
      simp only [List.foldl_cons, if_pos hv]
      refine ⟨fun u hu => ?_, hkept, hpair, List.forall_mem_cons.2 ⟨⟨x, hkept x hx, hxv⟩, hone⟩⟩
      rcases List.mem_append.1 (hsub u hu) with h | h <;> simp [h]
    · have hk' : (kept ++ [v]).Pairwise (fun a b => a.same b = false) := by
        refine List.pairwise_append.2 ⟨hk, List.pairwise_singleton _ _, fun x hx y hy => ?_⟩
        obtain rfl := List.mem_singleton.1 hy
        simpa using fun h => hv (List.any_eq_true.2 ⟨x, hx, h⟩)
      obtain ⟨hsub, hkept, hpair, hone⟩ := ih (kept ++ [v]) hk'
      simp only [List.foldl_cons, if_neg hv]
      exact ⟨fun u hu => by simpa using hsub u hu, fun u hu => hkept u (by simp [hu]), hpair,
        List.forall_mem_cons.2 ⟨⟨v, hkept v (by simp), Child.same_self v⟩, hone⟩⟩

section Distinct

variable (values : List Child)

theorem distinctChildren_subset : ∀ v ∈ distinctChildren values, v ∈ values := fun v hv => by
  simpa using (foldl_distinct values [] .nil).1 v hv

theorem pairwise_distinctChildren : (distinctChildren values).Pairwise fun a b => a.same b = false :=
  (foldl_distinct values [] .nil).2.2.1

theorem exists_distinctChild {v : Child} (hv : v ∈ values) : ∃ x ∈ distinctChildren values, x.same v = true :=
  (foldl_distinct values [] .nil).2.2.2 v hv

end Distinct

/-- A choice in the value of a stretch is a choice in the value of one of its ways. -/
theorem exists_of_mem_choices_join {values : List Child} {u : Child} (hu : u ∈ (joinAlternatives values).choices) :
    ∃ v ∈ values, u ∈ v.choices := by
  unfold joinAlternatives at hu
  split at hu
  · rename_i only heq
    exact ⟨only, distinctChildren_subset values only (by rw [heq]; simp), hu⟩
  · obtain ⟨v, hv, hu⟩ := (Tree.mem_choices_alternatives (s := none)).1 hu
    exact ⟨v, distinctChildren_subset values v hv, hu⟩

/-- A choice in the value of a way has the same choice in the value of the stretch. -/
theorem exists_mem_choices_join {values : List Child} {v u : Child} (hv : v ∈ values) (hu : u ∈ v.choices) :
    ∃ x ∈ (joinAlternatives values).choices, x.same u = true := by
  obtain ⟨x, hx, hxv⟩ := exists_distinctChild values hv
  obtain ⟨y, hy, hyu⟩ := Child.exists_choice_of_same hxv u hu
  refine ⟨y, ?_, hyu⟩
  unfold joinAlternatives
  split
  · rename_i only heq
    rw [heq, List.mem_singleton] at hx
    exact hx ▸ hy
  · exact (Tree.mem_choices_alternatives (s := none)).2 ⟨x, hx, hy⟩

theorem diverse_join {values : List Child} (hne : values ≠ []) (h : ∀ v ∈ values, Diverse [v]) :
    Diverse [joinAlternatives values] := by
  have hkept : ∀ v ∈ distinctChildren values, Diverse [v] := fun v hv => h v (distinctChildren_subset values v hv)
  unfold joinAlternatives
  split
  · rename_i only heq
    exact hkept only (by rw [heq]; simp)
  · rename_i hsingle
    refine diverse_alternatives_iff.2 ⟨⟨?_, pairwise_distinctChildren values⟩, diverse_iff.2 hkept⟩
    obtain ⟨v, hv⟩ := List.exists_mem_of_ne_nil _ hne
    obtain ⟨x, hx, -⟩ := exists_distinctChild values hv
    rcases hd : distinctChildren values with _ | ⟨a, _ | ⟨b, rest⟩⟩
    · rw [hd] at hx
      cases hx
    · exact absurd hd (hsingle a)
    · simp

/-! ## Picking ways and picking alternatives -/

section Built

variable (rules : List Rule) (actions : Actions) (φ : Child → Child)

/-- The alternatives in the value of a packed derivation differ, and what is left of it when one is chosen at each place
is the value of a derivation that is packed in it, as far as `φ` can tell. -/
def Built (p : Packed) : Prop :=
  Diverse [p.build actions] ∧
    ∀ u ∈ (p.build actions).choices, ∃ d, Picks rules p d ∧ φ u = φ (d.build (actions.atPlace rules))

variable {rules actions φ}

/-- Choices for parts are values of derivations that are packed in the parts. -/
theorem exists_picksAll {us : List Child} {parts : List Packed}
    (h : List.Forall₂ (fun u p => u ∈ (p.build actions).choices) us parts) (hp : ∀ p ∈ parts, Built rules actions φ p) :
    ∃ ds, PicksAll rules parts ds ∧ us.map φ = (Derivation.buildAll (actions.atPlace rules) ds).map φ := by
  induction h with
  | nil => exact ⟨[], .nil, rfl⟩
  | @cons u p us parts hu _ ih =>
    obtain ⟨hp, hps⟩ := List.forall_mem_cons.1 hp
    obtain ⟨d, hd, hφ⟩ := hp.2 u hu
    obtain ⟨ds, hds, hφs⟩ := ih hps
    exact ⟨d :: ds, .cons hd hds, by rw [List.map_cons, hφ, hφs, Derivation.buildAll, List.map_cons]⟩

variable (rules actions φ) in
/-- Actions that do their work on alternatives as on single values, and cannot tell values that `φ` cannot tell. -/
structure Distributes (stands : String → Token → Prop) (w : List Token) : Prop where
  congr : ∀ r ∈ rules, ∀ us vs, us.map φ = vs.map φ → φ (actions.apply r us) = φ (actions.apply r vs)
  node : ∀ r ∈ rules, ∀ j k parts, PacksAll rules stands w r.symbols j k parts →
    (∀ p ∈ parts, Built rules actions φ p) →
    Diverse [actions.apply r (Packed.buildAll actions parts)] ∧
      ∀ u ∈ (actions.apply r (Packed.buildAll actions parts)).choices, ∃ us,
        List.Forall₂ (fun u p => u ∈ (p.build actions).choices) us parts ∧ φ u = φ (actions.apply r us)

variable {stands : String → Token → Prop} {w : List Token}

theorem built_node (h : Distributes rules actions φ stands w) {j k : Nat} {ways : List Way}
    (hne : ways ≠ []) (hrule : ∀ r parts, Way.mk r parts ∈ ways → r ∈ rules)
    (hpacks : ∀ r parts, Way.mk r parts ∈ ways → PacksAll rules stands w r.symbols j k parts)
    (hparts : ∀ r parts, Way.mk r parts ∈ ways → ∀ p ∈ parts, Built rules actions φ p) :
    Built rules actions φ (.node ways) := by
  have hway := fun r parts hw => h.node r (hrule r parts hw) j k parts (hpacks r parts hw) (hparts r parts hw)
  rw [Built, Packed.build, Way.buildAll_eq_map]
  constructor
  · refine diverse_join (by simpa using hne) fun v hv => ?_
    obtain ⟨⟨r, parts⟩, hw, rfl⟩ := List.mem_map.1 hv
    exact (hway r parts hw).1
  · intro u hu
    obtain ⟨v, hv, hu⟩ := exists_of_mem_choices_join hu
    obtain ⟨⟨r, parts⟩, hw, rfl⟩ := List.mem_map.1 hv
    obtain ⟨us, hus, hφ⟩ := (hway r parts hw).2 u hu
    obtain ⟨ds, hds, hφs⟩ := exists_picksAll hus (hparts r parts hw)
    obtain ⟨i, hi⟩ := exists_rule_index (hrule r parts hw)
    refine ⟨.node i ds, .node hw hi hds, ?_⟩
    rw [hφ, Derivation.build, Actions.atPlace_eq hi, h.congr r (hrule r parts hw) us _ hφs]

mutual

/-- If actions do their work on alternatives as on single values, picking alternatives is picking ways. -/
theorem Packs.built (h : Distributes rules actions φ stands w) {s : Symbol} {j k : Nat} {p : Packed} :
    Packs rules stands w s j k p → Built rules actions φ p
  | .token ht ha => ⟨diverse_token _, fun u hu => ⟨_, .token _, by rw [List.mem_singleton.1 hu]; rfl⟩⟩
  | .node hne hrule _ hparts => built_node h hne hrule hparts fun r parts hw => (hparts r parts hw).built h

theorem PacksAll.built (h : Distributes rules actions φ stands w) {ss : List Symbol} {j k : Nat} {ps : List Packed} :
    PacksAll rules stands w ss j k ps → ∀ p ∈ ps, Built rules actions φ p
  | .nil => fun _ hp => (nomatch hp)
  | .cons _ _ first rest => List.forall_mem_cons.2 ⟨first.built h, rest.built h⟩

end

end Built

end GrammarKit.Earley
