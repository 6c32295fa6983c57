/-
All derivations are kept where no nonterminal derives itself. Every rule that derives a stretch is tried, with every way
to share the stretch among its symbols, and nothing is given up, so the packed derivation of a stretch packs all trees
over it. In its value, where no actions are given, the alternatives of a node that are the same are equal, since they
are over the same tokens; so leaving out all but the first of them leaves out no tree.
-/
import GrammarKit.Proofs.Earley.Descent
import GrammarKit.Proofs.Earley.Packing

namespace GrammarKit.Earley

/-! ## Packing all trees -/

namespace Chart.Records

open Search

variable {g : ChartRules} {stands : String → Token → Prop} {start : String} {w : List Token} {c : Chart}
  (h : c.Records g stands start w) (hg : g.Exact stands) {I : Findings → Prop} {b : Goal}
  {part : Symbol → Nat → Nat → Search (Option Packed)}
  (hpart : ∀ s m e, c.MayTake g.rules stands w b s m e → Ensures I (part s m e)
    (Answers g.rules stands w (fun s j k p => ∀ d, Trees g.rules stands [s] (stretch w j k) [d] → Picks g.rules p d)
      s m e))
include h hg hpart

/-- All trees of the symbols before a place are packed in one of the sequences. -/
theorem allSequences_picks {i : Nat} {r : Rule} : ∀ (syms : List Symbol) (stop : Nat),
    c.Reaches g.rules stands w b i r syms stop →
      Ensures I (c.allSequences part i b.start syms stop) fun found => ∀ ds,
        Trees g.rules stands syms.reverse (stretch w b.start stop) ds → ∃ ps ∈ found, PicksAll g.rules ps ds
  | [], stop, ht => by
    obtain rfl := h.start_eq_of_reaches_nil hg ht
    rw [allSequences, if_pos (h.joins_iff.2 rfl)]
    refine .pure fun ds hds => ⟨[], List.mem_singleton.2 rfl, ?_⟩
    rw [stretch_self] at hds
    cases hds
    exact .nil
  | s :: before, stop, ht => by
    have hcover := (assures I).all_cover (K := fun ps ds => PicksAll g.rules ps ds)
      (P := fun x ds => ∃ ds' d, ds = ds' ++ [d] ∧
        Trees g.rules stands before.reverse (stretch w b.start x.1) ds' ∧
        Trees g.rules stands [s] (stretch w x.1 stop) [d])
      (f := fun x => Search.onFound (part s x.1 x.2) [] fun p =>
        return (← c.allSequences part i b.start before x.1).map (· ++ [p]))
      (l := c.splits ⟨⟨i, before.length⟩, b.start⟩ stop) fun (m, e) hx => by
        obtain ⟨rfl, -⟩ := h.mem_splits_iff.1 hx
        refine .bind (hpart s m e ⟨i, r, before, ht, hx⟩) fun found hfound => ?_
        rcases found with _ | p
        · refine .pure fun ds ⟨ds', d, _, _, hd⟩ => ?_
          exact absurd hd.yields (hfound.1 rfl)
        · obtain ⟨hy, hp⟩ := hfound.2 p rfl
          refine .bind (allSequences_picks before m (h.reaches_before ht hx hy)) fun found' hfound' => ?_
          refine .pure fun ds ⟨ds', d, heq, hds, hd⟩ => ?_
          obtain ⟨ps, hps, hpicks⟩ := hfound' ds' hds
          exact ⟨ps ++ [p], List.mem_map.2 ⟨ps, hps, rfl⟩, heq ▸ hpicks.append (.cons (hp d hd) .nil)⟩
    refine (assures I).imp hcover fun found hfound ds hds => ?_
    -- the last tree is over the tokens from some split on
    rw [List.reverse_cons] at hds
    obtain ⟨us, vs, cs, es, heq, rfl, hcs, hes⟩ := hds.split
    obtain ⟨d, rfl⟩ := List.length_eq_one_iff.1 hes.length_eq
    obtain ⟨hj, hw, -⟩ := h.yields_of_reaches hg ht
    obtain ⟨m, hjm, hms, rfl, rfl⟩ := stretch_divide hj hw heq
    exact hfound (m, stop) ((h.mem_splits_of_reaches hg ht).2 ⟨rfl, hjm, hms, hcs.yields⟩) _ ⟨cs, d, rfl, hcs, hes⟩

/-- All trees of a goal are packed in its ways. -/
theorem ways_picks (hb : c.Covers b) :
    Ensures I (c.ways .explicit part (fun x => .mk x.2) b) fun ws => ws ≠ [] ∧
      ∀ d, Trees g.rules stands [.nonterminal b.name] (stretch w b.start b.stop) [d] → Picks g.rules (.node ws) d := by
  have hcover := (assures I).all_cover
    (K := fun way d => ∃ r parts i ds, way = Way.mk r parts ∧ d = Derivation.node i ds ∧ g.rules[i]? = some r ∧
      PicksAll g.rules parts ds)
    (P := fun x d => ∃ ds, d = Derivation.node x.1 ds ∧ Trees g.rules stands x.2.symbols (stretch w b.start b.stop) ds)
    (f := fun x => do
      return (← c.allSequences part x.1 b.start x.2.symbols.reverse b.stop).map (Way.mk x.2))
    (l := c.candidates b) fun x hx => by
      obtain ⟨-, hr, -⟩ := h.complete_of_mem_candidates hx
      refine .bind (h.allSequences_picks hg hpart _ _ (h.reaches_stop hx)) fun found hfound => ?_
      refine .pure fun d ⟨ds, hd, hds⟩ => ?_
      obtain ⟨ps, hps, hpicks⟩ := hfound ds (by rwa [List.reverse_reverse])
      exact ⟨_, List.mem_map.2 ⟨ps, hps, rfl⟩, x.2, ps, x.1, ds, rfl, hd, hr, hpicks⟩
  refine (assures I).imp hcover fun ws hws => ?_
  have hpicks : ∀ d, Trees g.rules stands [.nonterminal b.name] (stretch w b.start b.stop) [d] →
      Picks g.rules (.node ws) d := by
    intro d hd
    obtain ⟨i, r, cs, hr, hn, heq, hcs⟩ := trees_nonterminal_iff.1 hd
    obtain rfl := List.singleton_inj.1 heq
    obtain ⟨way, hway, r', parts, i', ds, rfl, hnode, hr', hparts⟩ :=
      hws (i, r) ((h.mem_candidates hg hb).2 ⟨hr, hn, hcs.yields⟩) (.node i cs) ⟨cs, rfl, hcs⟩
    rw [hnode]
    exact .node hway hr' hparts
  refine ⟨?_, hpicks⟩
  rintro rfl
  obtain ⟨d, hd⟩ := ((h.covers_iff hg).1 hb).2.2.2.exists_tree
  cases hpicks d hd with
  | node hway => cases hway

end Chart.Records

/-! ## Plain trees -/

section Plain

variable {rules : List Rule} {stands : String → Token → Prop} {w : List Token}

/-- Without actions, every node is a tree that is labelled by its rule. -/
theorem plain_eq_tree (rules : List Rule) (i : Nat) :
    ∃ l, ∀ cs, Actions.atPlace {} rules i cs = .tree ⟨l, cs, none⟩ := by
  cases h : rules[i]? with
  | some r => exact ⟨r.label, fun _ => by rw [Actions.atPlace, h]; rfl⟩
  | none => exact ⟨"", fun _ => by rw [Actions.atPlace, h]⟩

mutual

/-- The tokens of a plain tree are those of the derivation. -/
theorem tokens_plain : ∀ d : Derivation, (d.build (Actions.atPlace {} rules)).tokens = d.leaves
  | .token _ => rfl
  | .node i ds => by
    obtain ⟨l, hl⟩ := plain_eq_tree rules i
    rw [Derivation.build, hl, Child.tokens, Tree.tokens, Derivation.leaves, tokensOf_plain ds]

theorem tokensOf_plain : ∀ ds : List Derivation,
    Child.tokensOf (Derivation.buildAll (Actions.atPlace {} rules) ds) = Derivation.leavesAll ds
  | [] => rfl
  | d :: ds => by
    rw [Derivation.buildAll, Child.tokensOf, Derivation.leavesAll, tokens_plain d, tokensOf_plain ds]

end

mutual

/-- Nodes of plain trees have no spans. -/
theorem bare_plain : ∀ d : Derivation,
    (d.build (Actions.atPlace {} rules)).bare = d.build (Actions.atPlace {} rules)
  | .token _ => rfl
  | .node i ds => by
    obtain ⟨l, hl⟩ := plain_eq_tree rules i
    rw [Derivation.build, hl, Child.bare, Tree.bare, bareAll_plain ds]

theorem bareAll_plain : ∀ ds : List Derivation, Child.bareAll (Derivation.buildAll (Actions.atPlace {} rules) ds) =
    Derivation.buildAll (Actions.atPlace {} rules) ds
  | [] => rfl
  | d :: ds => by rw [Derivation.buildAll, Child.bareAll, bare_plain d, bareAll_plain ds]

end

/-- Plain trees over the same tokens that are the same are equal. -/
theorem plain_eq_of_same {d e : Derivation}
    (h : (d.build (Actions.atPlace {} rules)).same (e.build (Actions.atPlace {} rules)) = true)
    (hw : d.leaves = e.leaves) : d.build (Actions.atPlace {} rules) = e.build (Actions.atPlace {} rules) := by
  have hbare := Child.bare_eq_iff.2 ⟨h, by rw [tokens_plain, tokens_plain, hw]⟩
  rwa [bare_plain, bare_plain] at hbare

/-! ## Choosing among all trees -/

/-- A node without action has the choices of its children. -/
theorem distributes_plain (hlabel : ∀ r ∈ rules, r.label ≠ ambiguousLabel) : Distributes rules {} id stands w := by
  refine ⟨fun r _ us vs h => by rw [List.map_id, List.map_id] at h; rw [h], fun r hr j k parts _ hparts => ?_⟩
  rw [Packed.buildAll_eq_map]
  constructor
  · refine (diverse_node_iff (hlabel r hr)).2 (diverse_iff.2 fun v hv => ?_)
    obtain ⟨p, hp, rfl⟩ := List.mem_map.1 hv
    exact (hparts p hp).1
  · intro u hu
    obtain ⟨us, hus, rfl⟩ := (Tree.mem_choices_node (hlabel r hr)).1 hu
    rw [List.forall₂_map_right_iff] at hus
    exact ⟨us, hus, rfl⟩

/-- A node over choices for the parts of one of the ways can be chosen. -/
theorem build_node_mem_choices (hlabel : ∀ r ∈ rules, r.label ≠ ambiguousLabel) {s : Symbol} {j k : Nat}
    {ways : List Way} (h : Packs rules stands w s j k (.node ways)) {r : Rule} {parts : List Packed}
    (hway : Way.mk r parts ∈ ways) {i : Nat} (hr : rules[i]? = some r) {ds : List Derivation}
    (hpicks : PicksAll rules parts ds) (hds : List.Forall₂ (fun u p => u ∈ (p.build {}).choices)
      (Derivation.buildAll (Actions.atPlace {} rules) ds) parts) :
    (Derivation.node i ds).build (Actions.atPlace {} rules) ∈ ((Packed.node ways).build {}).choices := by
  have hvalue : (Derivation.node i ds).build (Actions.atPlace {} rules) =
      .tree ⟨r.label, Derivation.buildAll (Actions.atPlace {} rules) ds, none⟩ := by
    rw [Derivation.build, Actions.atPlace_eq hr]
    rfl
  have hchoice : (Derivation.node i ds).build (Actions.atPlace {} rules) ∈ ((Way.mk r parts).build {}).choices := by
    refine (Tree.mem_choices_node (hlabel r (List.mem_of_getElem? hr))).2 ⟨_, ?_, hvalue⟩
    rw [Packed.buildAll_eq_map, List.forall₂_map_right_iff]
    exact hds
  obtain ⟨x, hx, hsame⟩ := exists_mem_choices_join (List.mem_map_of_mem hway) hchoice
  rw [← Way.buildAll_eq_map] at hx
  -- what is kept instead is the value of a derivation over the same tokens
  obtain ⟨e, he, rfl⟩ := (h.built (distributes_plain hlabel)).2 x hx
  have hleaves : e.leaves = (Derivation.node i ds).leaves :=
    (h.leaves_eq he).trans (h.leaves_eq (.node hway hr hpicks)).symm
  rw [← plain_eq_of_same hsame hleaves]
  exact hx

mutual

/-- The value of a derivation that is packed in another can be chosen in the value of that. -/
theorem Packs.build_mem_choices (hlabel : ∀ r ∈ rules, r.label ≠ ambiguousLabel) {s : Symbol} {j k : Nat} {p : Packed}
    {d : Derivation} : Packs rules stands w s j k p → Picks rules p d →
    d.build (Actions.atPlace {} rules) ∈ (p.build {}).choices
  | .token _ _, .token _ => List.mem_singleton.2 rfl
  | .node hne hrule horigin hparts, .node hway hr hpicks =>
    build_node_mem_choices hlabel (.node hne hrule horigin hparts) hway hr hpicks
      ((hparts _ _ hway).build_mem_choices hlabel hpicks)

theorem PacksAll.build_mem_choices (hlabel : ∀ r ∈ rules, r.label ≠ ambiguousLabel) {ss : List Symbol} {j k : Nat}
    {ps : List Packed} {ds : List Derivation} : PacksAll rules stands w ss j k ps → PicksAll rules ps ds →
    List.Forall₂ (fun u p => u ∈ (p.build {}).choices) (Derivation.buildAll (Actions.atPlace {} rules) ds) ps
  | .nil, .nil => .nil
  | .cons _ _ first rest, .cons hd hds =>
    .cons (first.build_mem_choices hlabel hd) (rest.build_mem_choices hlabel hds)

end

end Plain

/-! ## Parses -/

/-- For all rules among which no nonterminal derives itself and none is labelled as alternatives are, without actions,
and every match that decides each terminal: a parse that keeps all derivations succeeds exactly if the start symbol
derives terminals that the tokens stand for. Then what is left of the value when one child is chosen at every node of
alternatives are the plain trees of the start symbol over the tokens, no two alternatives of a node are the same, and
where there are alternatives there are different plain trees. -/
theorem parse_alternatives {conf : ParserConfig} {matches? : Chart.TokenMatch} {o : Options} {p : Parser}
    (hp : Parser.ofConfig conf matches? o = .ok p) (ho : o.ambiguity = .explicit)
    (hself : ∀ n, ¬ DerivesItself conf.rules n) (hlabel : ∀ r ∈ conf.rules, r.label ≠ ambiguousLabel)
    (hactions : conf.actions = {}) (hm : ∀ a t, ∃ b, matches? a t = .ok b) (start : String) (tokens : List Token) :
    ((∃ value, p.parse (Listed.ofTokens tokens) start = .ok value) ↔
      ∃ word, Derives conf.rules [.nonterminal start] (word.map .terminal) ∧
        List.Forall₂ matches?.Stands word tokens) ∧
    ∀ value, p.parse (Listed.ofTokens tokens) start = .ok value →
      (∀ u, u ∈ value.choices ↔ ∃ d, Trees conf.rules matches?.Stands [.nonterminal start] tokens [d] ∧
        u = d.build (Actions.atPlace {} conf.rules)) ∧
      Diverse [value] ∧
      ((∃ t ∈ Child.topDownOf [value], t.label = ambiguousLabel) → ∃ d e,
        Trees conf.rules matches?.Stands [.nonterminal start] tokens [d] ∧
        Trees conf.rules matches?.Stands [.nonterminal start] tokens [e] ∧
        (d.build (Actions.atPlace {} conf.rules)).same (e.build (Actions.atPlace {} conf.rules)) = false) := by
  have hg : (ChartRules.ofRules conf.rules).Exact matches?.Stands := ChartRules.exact_ofRules _
  obtain ⟨hiff, hvalue⟩ := parse_answers hp hself hm start tokens
    (Q := fun s j k p => ∀ d, Trees conf.rules matches?.Stands [s] (stretch tokens j k) [d] → Picks conf.rules p d)
    (fun a j t ht _ d hd => by
      rw [stretch_succ ht] at hd
      obtain ⟨t', ht', hd', -⟩ := trees_terminal_iff.1 hd
      rw [List.singleton_inj.1 hd', List.singleton_inj.1 ht']
      exact .token t')
    (fun c hr b hb part hpart => by rw [ho]; exact hr.ways_picks hg hpart hb)
  refine ⟨hiff.trans yields_iff_derives, fun value h => ?_⟩
  obtain ⟨c, packed, hr, hd, hpicks, rfl⟩ := hvalue value h
  rw [hactions]
  rw [stretch_all] at hpicks
  have hpacks : Packs conf.rules matches?.Stands tokens (.nonterminal start) 0 tokens.length packed :=
    hr.derivation?_packs hd
  obtain ⟨hdiverse, hbuilt⟩ := hpacks.built (distributes_plain hlabel)
  have htrees : ∀ d, Picks conf.rules packed d → Trees conf.rules matches?.Stands [.nonterminal start] tokens [d] :=
    fun d hd => by simpa using hpacks.trees hd
  have hchoices : ∀ u, u ∈ (packed.build {}).choices ↔
      ∃ d, Trees conf.rules matches?.Stands [.nonterminal start] tokens [d] ∧
        u = d.build (Actions.atPlace {} conf.rules) := by
    refine fun u => ⟨fun hu => ?_, ?_⟩
    · obtain ⟨d, hd, heq⟩ := hbuilt u hu
      exact ⟨d, htrees d hd, heq⟩
    · rintro ⟨d, hd, rfl⟩
      exact hpacks.build_mem_choices hlabel (hpicks d hd)
  refine ⟨hchoices, hdiverse, fun ⟨t, ht, hlabel⟩ => ?_⟩
  by_contra hnone
  refine Child.settled_of_choices_same _ hdiverse (fun u hu v hv => ?_) t ht hlabel
  obtain ⟨d, hd, rfl⟩ := (hchoices u).1 hu
  obtain ⟨e, he, rfl⟩ := (hchoices v).1 hv
  by_contra hne
  exact hnone ⟨d, e, hd, he, by simpa using hne⟩

/-- Sums without parentheses. -/
def openSums : List Rule :=
  [⟨"sum", [⟨.nonterminal "sum", false⟩, ⟨.terminal "+", false⟩, ⟨.nonterminal "sum", false⟩], 0, none, {}⟩,
   ⟨"sum", [⟨.terminal "x", false⟩], 1, none, {}⟩]

/-- A sum of three is parsed as a sum with the sum of the first two and as one with that of the last two. -/
theorem parse_alternatives_openSums : ∃ (p : Parser) (value : Child),
    let x : Token := .ofText "x" "x"
    let plus : Token := .ofText "+" "+"
    let one : Derivation := .node 1 [.token x]
    Parser.ofConfig ⟨openSums, {}, ["sum"], false⟩ Chart.byName { ambiguity := .explicit } = .ok p ∧
      p.parse (Listed.ofTokens [x, plus, x, plus, x]) "sum" = .ok value ∧ Diverse [value] ∧
      (Derivation.node 0 [.node 0 [one, .token plus, one], .token plus, one]).build (Actions.atPlace {} openSums) ∈
        value.choices ∧
      (Derivation.node 0 [one, .token plus, .node 0 [one, .token plus, one]]).build (Actions.atPlace {} openSums) ∈
        value.choices := by
  have hp : Parser.ofConfig ⟨openSums, {}, ["sum"], false⟩ Chart.byName { ambiguity := .explicit } =
      .ok ⟨.ofRules openSums, {}, Chart.byName, { ambiguity := .explicit }⟩ := rfl
  -- no rule is a single nonterminal
  have hrank : ∀ r ∈ openSums, ∀ n, r.symbols = [.nonterminal n] → n.length < r.origin.length := by
    intro r hr n hs
    simp only [openSums, List.mem_cons, List.not_mem_nil, or_false] at hr
    rcases hr with rfl | rfl <;> cases hs
  have hself : ∀ n, ¬ DerivesItself openSums n := not_derivesItself (by decide) hrank
  obtain ⟨hiff, hvalue⟩ := parse_alternatives hp rfl hself (by decide) rfl (fun _ _ => ⟨_, rfl⟩) "sum"
    [.ofText "x" "x", .ofText "+" "+", .ofText "x" "x", .ofText "+" "+", .ofText "x" "x"]
  have hone : Trees openSums Chart.byName.Stands [.nonterminal "sum"] [.ofText "x" "x"]
      [.node 1 [.token (.ofText "x" "x")]] :=
    .of_rule (r := openSums[1]) rfl (.token rfl .nil)
  -- a sum of two sums
  have hsum : ∀ {us vs : List Token} {d e : Derivation},
      Trees openSums Chart.byName.Stands [.nonterminal "sum"] us [d] →
      Trees openSums Chart.byName.Stands [.nonterminal "sum"] vs [e] →
      Trees openSums Chart.byName.Stands [.nonterminal "sum"] (us ++ .ofText "+" "+" :: vs)
        [.node 0 [d, .token (.ofText "+" "+"), e]] := fun hd he =>
    .of_rule (r := openSums[0]) rfl (hd.append (.token rfl he))
  have hleft := hsum (hsum hone hone) hone
  have hright := hsum hone (hsum hone hone)
  obtain ⟨value, hv⟩ := hiff.2 (yields_iff_derives.1 hleft.yields)
  obtain ⟨hchoices, hdiverse, -⟩ := hvalue value hv
  exact ⟨_, value, hp, hv, hdiverse, (hchoices _).2 ⟨_, hleft, rfl⟩, (hchoices _).2 ⟨_, hright, rfl⟩⟩

end GrammarKit.Earley
