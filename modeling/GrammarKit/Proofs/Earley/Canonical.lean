/-
The derivation that is kept where no nonterminal derives itself. Of the rules that derive a stretch, the one with the
highest priority is taken, then the lowest order, then the first, and of the ways to share the stretch among its
symbols the one in which the last symbol takes the least, then the last but one, and so on. This says which tree is
built, whatever the search had found before and in whichever order.
-/
import GrammarKit.Proofs.Earley.Assembly
import GrammarKit.Proofs.Earley.Descent
import Mathlib.Data.List.Sort

namespace GrammarKit.Earley

/-! ## Canonical trees -/

/-- One rule at its place is preferred to another: its priority is higher, or else its order is lower, or else it comes
first. -/
def Preferred (x y : Nat × Rule) : Prop :=
  y.2.priority < x.2.priority ∨
    y.2.priority = x.2.priority ∧ (x.2.order < y.2.order ∨ x.2.order = y.2.order ∧ x.1 ≤ y.1)

section Canonical

variable (rules : List Rule) (stands : String → Token → Prop) (w : List Token)

/-- The preferred rule of a nonterminal among those that derive a stretch. -/
structure BestRule (n : String) (j k i : Nat) (r : Rule) : Prop where
  rule : rules[i]? = some r
  origin : r.origin = n
  yields : Yields rules stands r.symbols (stretch w j k)
  preferred : ∀ i' r', rules[i']? = some r' → r'.origin = n → Yields rules stands r'.symbols (stretch w j k) →
    Preferred (i, r) (i', r')

/-- The place from which a symbol takes the least that it can, if some symbols before it take the rest. -/
structure LatestSplit (ss : List Symbol) (s : Symbol) (j m k : Nat) : Prop where
  start_le : j ≤ m
  le_stop : m ≤ k
  before : Yields rules stands ss (stretch w j m)
  last : Yields rules stands [s] (stretch w m k)
  latest : ∀ m', m < m' → m' ≤ k → Yields rules stands ss (stretch w j m') →
    ¬ Yields rules stands [s] (stretch w m' k)

mutual

/-- The canonical tree of a symbol over a stretch. -/
inductive CanonicalTree : Symbol → Nat → Nat → Derivation → Prop
  | token {a : String} {j : Nat} {t : Token} (ht : w[j]? = some t) (ha : stands a t) :
    CanonicalTree (.terminal a) j (j + 1) (.token t)
  | node {n : String} {j k i : Nat} {r : Rule} {ds : List Derivation} (best : BestRule rules stands w n j k i r)
    (inner : CanonicalTrees r.symbols j k ds) : CanonicalTree (.nonterminal n) j k (.node i ds)

/-- The canonical trees of symbols that share a stretch. -/
inductive CanonicalTrees : List Symbol → Nat → Nat → List Derivation → Prop
  | nil {j : Nat} : CanonicalTrees [] j j []
  | snoc {ss : List Symbol} {s : Symbol} {j m k : Nat} {ds : List Derivation} {d : Derivation}
    (split : LatestSplit rules stands w ss s j m k) (before : CanonicalTrees ss j m ds) (last : CanonicalTree s m k d) :
    CanonicalTrees (ss ++ [s]) j k (ds ++ [d])

end

end Canonical

section Canonical

variable {rules : List Rule} {stands : String → Token → Prop} {w : List Token}

theorem Preferred.antisymm {x y : Nat × Rule} (h : Preferred x y) (h' : Preferred y x) : x.1 = y.1 := by
  unfold Preferred at h h'
  omega

theorem Preferred.trans {x y z : Nat × Rule} (h : Preferred x y) (h' : Preferred y z) : Preferred x z := by
  unfold Preferred at *
  omega

theorem preferred_total (x y : Nat × Rule) : Preferred x y ∨ Preferred y x := by
  unfold Preferred
  omega

theorem BestRule.unique {n : String} {j k i i' : Nat} {r r' : Rule} (h : BestRule rules stands w n j k i r)
    (h' : BestRule rules stands w n j k i' r') : i = i' ∧ r = r' := by
  have hi : i = i' :=
    (h.preferred i' r' h'.rule h'.origin h'.yields).antisymm (h'.preferred i r h.rule h.origin h.yields)
  subst hi
  exact ⟨rfl, Option.some.inj (h.rule.symm.trans h'.rule)⟩

theorem LatestSplit.unique {ss : List Symbol} {s : Symbol} {j m m' k : Nat} (h : LatestSplit rules stands w ss s j m k)
    (h' : LatestSplit rules stands w ss s j m' k) : m = m' := by
  rcases Nat.lt_trichotomy m m' with hlt | heq | hgt
  · exact absurd h'.last (h.latest m' hlt h'.le_stop h'.before)
  · exact heq
  · exact absurd h.last (h'.latest m hgt h.le_stop h.before)

mutual

/-- Canonical trees are trees. -/
theorem CanonicalTree.trees {s : Symbol} {j k : Nat} {d : Derivation} : CanonicalTree rules stands w s j k d →
    Trees rules stands [s] (stretch w j k) [d]
  | .token ht ha => by rw [stretch_succ ht]; exact .token ha .nil
  | .node best inner => by
    have h := Trees.of_rule best.rule inner.trees
    rwa [best.origin] at h

theorem CanonicalTrees.trees {ss : List Symbol} {j k : Nat} {ds : List Derivation} :
    CanonicalTrees rules stands w ss j k ds → Trees rules stands ss (stretch w j k) ds
  | .nil => by rw [stretch_self]; exact .nil
  | .snoc split before last => by
    rw [← stretch_append split.start_le split.le_stop]
    exact before.trees.append last.trees

end

mutual

/-- A symbol has only one canonical tree over a stretch. -/
theorem CanonicalTree.unique {s : Symbol} {j k : Nat} {d d' : Derivation} : CanonicalTree rules stands w s j k d →
    CanonicalTree rules stands w s j k d' → d = d'
  | .token ht _, .token ht' _ => by rw [Option.some.inj (ht.symm.trans ht')]
  | .node best inner, .node best' inner' => by
    obtain ⟨rfl, rfl⟩ := best.unique best'
    rw [inner.unique inner']

theorem CanonicalTrees.unique {ss : List Symbol} {j k : Nat} {ds ds' : List Derivation} :
    CanonicalTrees rules stands w ss j k ds → CanonicalTrees rules stands w ss j k ds' → ds = ds'
  | .nil, h => by
    generalize hss : [] = ss at h
    cases h with
    | nil => rfl
    | snoc => simp at hss
  | .snoc split before last, h => by
    generalize hss : _ ++ [_] = ss at h
    cases h with
    | nil => simp at hss
    | snoc split' before' last' =>
      obtain ⟨rfl, hs⟩ := List.append_inj' hss rfl
      obtain rfl := List.singleton_inj.1 hs
      obtain rfl := split.unique split'
      rw [before.unique before', last.unique last']

end

end Canonical

/-- A packed derivation has the value of the canonical tree of a symbol over a stretch. -/
def PacksCanonical (rules : List Rule) (stands : String → Token → Prop) (w : List Token) (s : Symbol) (j k : Nat)
    (p : Packed) : Prop :=
  ∃ d, CanonicalTree rules stands w s j k d ∧ ∀ a : Actions, p.build a = d.build (a.atPlace rules)

/-! ## Candidates and splits in order -/

namespace Chart

open Search

variable {g : ChartRules} {stands : String → Token → Prop} {start : String} {w : List Token} {c : Chart}

theorem ranksBefore_iff {x y : Nat × Rule} : ranksBefore x y = true ↔ Preferred x y := by
  rw [ranksBefore, bne_iff_ne, Ne, Ordering.then_eq_gt, Ordering.then_eq_gt]
  simp only [compare_gt_iff_gt, Std.compare_eq_iff_eq]
  unfold Preferred
  omega

theorem candidates_pairwise (b : Goal) : (c.candidates b).Pairwise Preferred := by
  refine (List.pairwise_mergeSort (fun x y z h h' => ?_) (fun x y => ?_) _).imp ranksBefore_iff.1
  · exact ranksBefore_iff.2 ((ranksBefore_iff.1 h).trans (ranksBefore_iff.1 h'))
  · rw [Bool.or_eq_true, ranksBefore_iff, ranksBefore_iff]
    exact preferred_total x y

namespace Records

variable (h : c.Records g stands start w)
include h

/-- Splits come with the latest first. -/
theorem splits_pairwise (previous : Item) (stop : Nat) :
    (c.splits previous stop).Pairwise fun x y => y.1 < x.1 := by
  have hends : c.ends stop = [stop] := by rw [ends, h.gaps]; rfl
  rw [splits, hends, List.flatMap_singleton, List.pairwise_map]
  refine List.Pairwise.filter _ (List.pairwise_reverse.2 ?_)
  rw [List.pairwise_map]
  exact List.pairwise_lt_range.imp fun hlt => Nat.add_lt_add_left hlt _

section Ways

variable (hg : g.Exact stands)
include hg

theorem exists_candidate {b : Goal} (hb : c.Covers b) : ∃ x, x ∈ c.candidates b := by
  obtain ⟨r, hr, hn, hy⟩ := yields_nonterminal_iff.1 ((h.covers_iff hg).1 hb).2.2.2
  obtain ⟨i, hi⟩ := exists_rule_index hr
  exact ⟨(i, r), (h.mem_candidates hg hb).2 ⟨hi, hn, hy⟩⟩

/-- The first candidate is the preferred rule of those that derive the stretch. -/
theorem bestRule_of_candidates {b : Goal} (hb : c.Covers b) {x : Nat × Rule} {rest : List (Nat × Rule)}
    (hx : c.candidates b = x :: rest) : BestRule g.rules stands w b.name b.start b.stop x.1 x.2 := by
  obtain ⟨hr, hn, hy⟩ := (h.mem_candidates hg hb).1 (show (x.1, x.2) ∈ c.candidates b by rw [hx]; simp)
  refine ⟨hr, hn, hy, fun i r hr' hn' hy' => ?_⟩
  have hmem := (h.mem_candidates hg hb).2 ⟨hr', hn', hy'⟩
  have hsorted := c.candidates_pairwise b
  rw [hx] at hmem hsorted
  rcases List.mem_cons.1 hmem with heq | hmem
  · rw [heq]
    exact (preferred_total x x).elim id id
  · exact (List.pairwise_cons.1 hsorted).1 _ hmem

variable {I : Findings → Prop} {b : Goal} {part : Symbol → Nat → Nat → Search (Option Packed)}
  (hpart : ∀ s m e, c.MayTake g.rules stands w b s m e →
    Ensures I (part s m e) (Answers g.rules stands w (PacksCanonical g.rules stands w) s m e))
include hpart

/-- The symbols before a place get their canonical trees. -/
theorem firstSequence_canonical {i : Nat} {r : Rule} : ∀ (syms : List Symbol) (stop : Nat),
    c.Reaches g.rules stands w b i r syms stop →
      Ensures I (c.firstSequence part i b.start syms stop) fun found => ∃ ps ds, found = some ps ∧
        CanonicalTrees g.rules stands w syms.reverse b.start stop ds ∧
        ∀ a : Actions, Packed.buildAll a ps = Derivation.buildAll (a.atPlace g.rules) ds
  | [], stop, ht => by
    obtain rfl := h.start_eq_of_reaches_nil hg ht
    rw [firstSequence, if_pos (h.joins_iff.2 rfl)]
    exact .pure ⟨[], [], rfl, .nil, fun _ => rfl⟩
  | s :: before, stop, ht => by
    have hhit := (assures I).first_hit (P := fun x => Yields g.rules stands [s] (stretch w x.1 stop))
      (Q := fun x ps => ∃ p ps' ds, ps = ps' ++ [p] ∧ Yields g.rules stands [s] (stretch w x.1 stop) ∧
        PacksCanonical g.rules stands w s x.1 stop p ∧
        CanonicalTrees g.rules stands w before.reverse b.start x.1 ds ∧
        ∀ a : Actions, Packed.buildAll a ps' = Derivation.buildAll (a.atPlace g.rules) ds)
      (f := fun x => Search.onFound (part s x.1 x.2) none fun p =>
        return (← c.firstSequence part i b.start before x.1).map (· ++ [p]))
      (l := c.splits ⟨⟨i, before.length⟩, b.start⟩ stop) fun (m, e) hx => by
        obtain ⟨rfl, -⟩ := h.mem_splits_iff.1 hx
        refine .bind (hpart s m e ⟨i, r, before, ht, hx⟩) fun found hfound => ?_
        rcases found with _ | p
        · exact .pure ⟨fun _ => hfound.1 rfl, fun _ h0 => (nomatch h0)⟩
        · obtain ⟨hy, hp⟩ := hfound.2 p rfl
          refine .bind (firstSequence_canonical before m (h.reaches_before ht hx hy)) fun found' hfound' => ?_
          obtain ⟨ps, ds, rfl, hds, hbuild⟩ := hfound'
          refine .pure ⟨fun h0 => (nomatch h0), fun qs hqs => ?_⟩
          cases hqs
          exact ⟨p, ps, ds, rfl, hy, hp, hds, hbuild⟩
    refine fun F hF => ⟨(hhit F hF).1, ?_⟩
    obtain ⟨hnone, hsome⟩ := (hhit F hF).2
    obtain ⟨m, hm, hy⟩ := h.exists_split_of_reaches hg ht
    rcases hfound : (c.firstSequence part i b.start (s :: before) stop F).1 with _ | qs
    · exact absurd hy (hnone hfound (m, stop) hm)
    · obtain ⟨pre, x, post, hsplits, hpre, p, ps, ds, rfl, hyx, ⟨d, hd, hdv⟩, hds, hdsv⟩ := hsome qs hfound
      have hx : x ∈ c.splits ⟨⟨i, before.length⟩, b.start⟩ stop := by rw [hsplits]; simp
      obtain ⟨-, hjx, hxs, hyb⟩ := (h.mem_splits_of_reaches hg ht).1 hx
      refine ⟨_, ds ++ [d], rfl, ?_, fun a => ?_⟩
      · rw [List.reverse_cons]
        refine .snoc ⟨hjx, hxs, hyb, hyx, fun m' hlt hle hyb' => ?_⟩ hds hd
        -- a later split comes earlier, and nothing was found there
        have hm' := (h.mem_splits_of_reaches hg ht).2 ⟨rfl, Nat.le_trans hjx (Nat.le_of_lt hlt), hle, hyb'⟩
        have hsorted := h.splits_pairwise ⟨⟨i, before.length⟩, b.start⟩ stop
        rw [hsplits, List.pairwise_append] at hsorted
        rw [hsplits] at hm'
        rcases List.mem_append.1 hm' with hm' | hm'
        · exact hpre _ hm'
        · rcases List.mem_cons.1 hm' with hm' | hm'
          · rw [← hm'] at hlt
            exact absurd hlt (Nat.lt_irrefl _)
          · exact absurd hlt (Nat.lt_asymm ((List.pairwise_cons.1 hsorted.2.1).1 _ hm'))
      · rw [Packed.buildAll_append, Derivation.buildAll_append, hdsv]
        simp [Packed.buildAll, Derivation.buildAll, hdv]

/-- A goal gets its canonical tree. -/
theorem ways_canonical {a : Ambiguity} (ha : a ≠ .explicit) (hb : c.Covers b) :
    Ensures I (c.ways a part (fun x => .mk x.2) b) fun ws =>
      ws ≠ [] ∧ PacksCanonical g.rules stands w (.nonterminal b.name) b.start b.stop (.node ws) := by
  have hhit := (assures I).first_hit (P := fun _ => True)
    (Q := fun x way => ∃ ps ds, way = Way.mk x.2 ps ∧
      CanonicalTrees g.rules stands w x.2.symbols b.start b.stop ds ∧
      ∀ a : Actions, Packed.buildAll a ps = Derivation.buildAll (a.atPlace g.rules) ds)
    (f := fun x => do
      return (← c.firstSequence part x.1 b.start x.2.symbols.reverse b.stop).map (Way.mk x.2))
    (l := c.candidates b) fun x hx => by
      refine .bind (h.firstSequence_canonical hg hpart _ _ (h.reaches_stop hx)) fun found hfound => ?_
      obtain ⟨ps, ds, rfl, hds, hbuild⟩ := hfound
      rw [List.reverse_reverse] at hds
      refine .pure ⟨fun h0 => (nomatch h0), fun way hway => ?_⟩
      cases hway
      exact ⟨ps, ds, rfl, hds, hbuild⟩
  have hways : c.ways a part (fun x => .mk x.2) b = do
      return (← Search.first (fun x => do
        return (← c.firstSequence part x.1 b.start x.2.symbols.reverse b.stop).map (Way.mk x.2))
        (c.candidates b)).toList := by
    cases a with
    | explicit => exact absurd rfl ha
    | resolve | forest => rfl
  rw [hways]
  refine .bind hhit fun found hfound => .pure ?_
  rcases found with _ | way
  · obtain ⟨x, hx⟩ := h.exists_candidate hg hb
    exact absurd trivial (hfound.1 rfl x hx)
  · obtain ⟨pre, x, post, hcands, hpre, ps, ds, rfl, hds, hbuild⟩ := hfound.2 way rfl
    obtain rfl : pre = [] := List.eq_nil_iff_forall_not_mem.2 fun y hy => hpre y hy trivial
    have hbest : BestRule g.rules stands w b.name b.start b.stop x.1 x.2 := h.bestRule_of_candidates hg hb hcands
    refine ⟨by simp, .node x.1 ds, .node hbest hds, fun a => ?_⟩
    rw [Option.toList_some, build_single, hbuild, Derivation.build, Actions.atPlace_eq hbest.rule]

end Ways

end Records

end Chart

/-- For all rules among which no nonterminal derives itself, and every match that decides each terminal: a parse that
keeps one derivation of every stretch succeeds exactly if the start symbol derives terminals that the tokens stand for,
and then it gives the value of the canonical tree of the start symbol over the tokens, which is the only one. -/
theorem parse_canonical {conf : ParserConfig} {matches? : Chart.TokenMatch} {o : Options} {p : Parser}
    (hp : Parser.ofConfig conf matches? o = .ok p) (ho : o.ambiguity = .resolve)
    (hself : ∀ n, ¬ DerivesItself conf.rules n) (hm : ∀ a t, ∃ b, matches? a t = .ok b) (start : String)
    (tokens : List Token) :
    ((∃ value, p.parse (Listed.ofTokens tokens) start = .ok value) ↔
      ∃ word, Derives conf.rules [.nonterminal start] (word.map .terminal) ∧
        List.Forall₂ matches?.Stands word tokens) ∧
    ∀ value, p.parse (Listed.ofTokens tokens) start = .ok value → ∃ d,
      CanonicalTree conf.rules matches?.Stands tokens (.nonterminal start) 0 tokens.length d ∧
      Trees conf.rules matches?.Stands [.nonterminal start] tokens [d] ∧
      (∀ d', CanonicalTree conf.rules matches?.Stands tokens (.nonterminal start) 0 tokens.length d' → d' = d) ∧
      value = d.build (conf.actions.atPlace conf.rules) := by
  have hg : (ChartRules.ofRules conf.rules).Exact matches?.Stands := ChartRules.exact_ofRules _
  have ha : o.ambiguity ≠ .explicit := by rw [ho]; exact Ambiguity.noConfusion
  obtain ⟨hiff, hvalue⟩ := parse_answers hp hself hm start tokens
    (Q := PacksCanonical conf.rules matches?.Stands tokens)
    (fun a j t ht hat => ⟨.token t, .token ht hat, fun _ => rfl⟩)
    (fun c hr b hb part hpart => hr.ways_canonical hg hpart ha hb)
  refine ⟨hiff.trans yields_iff_derives, fun value h => ?_⟩
  obtain ⟨_, _, -, -, ⟨d, hd, hbuild⟩, rfl⟩ := hvalue value h
  have ht := hd.trees
  rw [stretch_all] at ht
  exact ⟨d, hd, ht, fun d' hd' => hd'.unique hd, hbuild _⟩

/-- Letters in pairs of pairs. -/
def nestedPairs : List Rule :=
  [⟨"s", [⟨.nonterminal "s", false⟩, ⟨.nonterminal "s", false⟩], 0, none, {}⟩,
   ⟨"s", [⟨.terminal "x", false⟩], 1, none, {}⟩]

/-- Three letters can be paired in two ways, and one of them is canonical. -/
theorem parse_canonical_nestedPairs : ∃ (p : Parser) (value : Child) (d : Derivation),
    Parser.ofConfig ⟨nestedPairs, {}, ["s"], false⟩ Chart.byName {} = .ok p ∧
      p.parse (Listed.ofTokens [.ofText "x" "1", .ofText "x" "2", .ofText "x" "3"]) "s" = .ok value ∧
      CanonicalTree nestedPairs Chart.byName.Stands [.ofText "x" "1", .ofText "x" "2", .ofText "x" "3"]
        (.nonterminal "s") 0 3 d ∧
      value = d.build (Actions.atPlace {} nestedPairs) := by
  have hp : Parser.ofConfig ⟨nestedPairs, {}, ["s"], false⟩ Chart.byName {} =
      .ok ⟨.ofRules nestedPairs, {}, Chart.byName, {}⟩ := rfl
  -- no rule is a single nonterminal
  have hrank : ∀ r ∈ nestedPairs, ∀ n, r.symbols = [.nonterminal n] → n.length < r.origin.length := by
    intro r hr n hs
    simp only [nestedPairs, List.mem_cons, List.not_mem_nil, or_false] at hr
    rcases hr with rfl | rfl <;> cases hs
  have hself : ∀ n, ¬ DerivesItself nestedPairs n := not_derivesItself (by decide) hrank
  obtain ⟨hiff, hvalue⟩ := parse_canonical hp rfl hself (fun _ _ => ⟨_, rfl⟩) "s"
    [.ofText "x" "1", .ofText "x" "2", .ofText "x" "3"]
  have hs : Derives nestedPairs [.nonterminal "s"] [.terminal "x"] :=
    .single (.of_rule (r := nestedPairs[1]) (by simp [nestedPairs]))
  have hss : Derives nestedPairs [.nonterminal "s"] [.nonterminal "s", .nonterminal "s"] :=
    .single (.of_rule (r := nestedPairs[0]) (by simp [nestedPairs]))
  have hpair : Derives nestedPairs [.nonterminal "s"] [.terminal "x", .terminal "x"] := hss.trans (hs.append hs)
  obtain ⟨value, hv⟩ := hiff.2 ⟨["x", "x", "x"], hss.trans (hs.append hpair), .cons rfl (.cons rfl (.cons rfl .nil))⟩
  obtain ⟨d, hd, -, -, hbuild⟩ := hvalue value hv
  exact ⟨_, value, d, hp, hv, hd, hbuild⟩

end GrammarKit.Earley
