/-
Splicing is substitution. In a derivation, a node whose value is a tree may be replaced by a single token that carries
this tree, under the rule for splicing of the node's nonterminal. The nodes above see a token where they saw a tree,
and once the tree is spliced in, what is built is the same.

The exception are trees that give way to their children below another node: a token that carries such a tree is kept
as it is.
-/
import GrammarKit.Grammar.Basic
import GrammarKit.Grammar.Draft
import GrammarKit.Proofs.Grammar.Shaping
import GrammarKit.Proofs.Splicing.Extension
import GrammarKit.Proofs.Tree.Splicing
import Mathlib

namespace GrammarKit

/-! ## Nodes around a derivation -/

/-- A node but for one of its parts. -/
structure Frame where
  rule : Nat
  before : List Derivation
  after : List Derivation

/-- A derivation within the nodes around it, which are given from the innermost to the root. -/
def Derivation.within : Derivation → List Frame → Derivation
  | d, [] => d
  | d, f :: fs => (Derivation.node f.rule (f.before ++ d :: f.after)).within fs

/-- Somewhere below the root, a derivation has a tree for value that gives way to its children. -/
def Dissolved (rules : List Rule) (act : Nat → Action) (t : Tree) (d : Derivation) (frames : List Frame) : Prop :=
  isInlined t.label = true ∧ ∃ inner f outer, frames = inner ++ f :: outer ∧ (d.within inner).build act = .tree t ∧
    ∃ i cs r, d.within inner = .node i cs ∧ rules[i]? = some r ∧ isInlined r.origin = true

section Trees

variable {rules rules' : List Rule} {stands : String → Token → Prop}

/-- Trees of symbols are divided with their symbols and tokens. -/
theorem Trees.divide {es : List Derivation} : ∀ {ds : List Derivation} {ss : List Symbol} {ts : List Token},
    Trees rules stands ss ts (ds ++ es) → ∃ zs ys us vs, ss = zs ++ ys ∧ ts = us ++ vs ∧
      Trees rules stands zs us ds ∧ Trees rules stands ys vs es
  | [], ss, ts, h => ⟨[], ss, [], ts, rfl, rfl, .nil, h⟩
  | d :: ds, ss, ts, h => by
    cases h with
    | token h rest =>
      obtain ⟨zs, ys, us, vs, rfl, rfl, h1, h2⟩ := Trees.divide rest
      exact ⟨_ :: zs, ys, _ :: us, vs, rfl, rfl, .token h h1, h2⟩
    | node h inner rest =>
      obtain ⟨zs, ys, us, vs, rfl, rfl, h1, h2⟩ := Trees.divide rest
      exact ⟨_ :: zs, ys, _ ++ us, vs, rfl, (List.append_assoc ..).symm, .node h inner h1, h2⟩

/-- A tree of symbols that are only one is a tree of this symbol, between trees of the symbols around it. -/
theorem Trees.around {before after : List Derivation} {d : Derivation} {ss : List Symbol} {ts : List Token}
    (h : Trees rules stands ss ts (before ++ d :: after)) : ∃ zs s ys us vs ws, ss = zs ++ s :: ys ∧
      ts = us ++ (vs ++ ws) ∧ Trees rules stands zs us before ∧ Trees rules stands [s] vs [d] ∧
      Trees rules stands ys ws after := by
  obtain ⟨zs, ys, us, vs, rfl, rfl, h1, h2⟩ := h.divide
  rw [← List.singleton_append] at h2
  obtain ⟨ss, ys, vs, ws, rfl, rfl, h2, h3⟩ := h2.divide
  obtain ⟨s, rfl⟩ := List.length_eq_one_iff.1 h2.length_eq.symm
  exact ⟨zs, s, ys, us, vs, ws, rfl, rfl, h1, h2, h3⟩

/-- Rules that are put after others change no place. -/
theorem Trees.mono_append {added : List Rule} {ss : List Symbol} {ts : List Token} {ds : List Derivation}
    (h : Trees rules stands ss ts ds) : Trees (rules ++ added) stands ss ts ds := by
  induction h with
  | nil => exact .nil
  | token h _ ih => exact .token h ih
  | node h _ _ ih1 ih2 =>
    exact .node (by rw [List.getElem?_append_left (List.getElem?_eq_some_iff.1 h).1]; exact h) ih1 ih2

/-- A node within others is a tree of its origin, over some of the tokens. -/
theorem Trees.of_within : ∀ {frames : List Frame} {d : Derivation} {s : Symbol} {ts : List Token},
    Trees rules stands [s] ts [d.within frames] → ∃ s' us, Trees rules stands [s'] us [d] ∧ us ⊆ ts
  | [], _, s, ts, h => ⟨s, ts, h, List.Subset.refl _⟩
  | f :: fs, d, s, ts, h => by
    have hrest : Trees rules stands [s] ts [(Derivation.node f.rule (f.before ++ d :: f.after)).within fs] := h
    obtain ⟨s', us, h', hsub⟩ := hrest.of_within
    cases h' with
    | node hr inner rest =>
      cases rest
      obtain ⟨zs, s'', ys, us, vs, ws, -, rfl, -, hd, -⟩ := inner.around
      exact ⟨s'', vs, hd, fun t ht => hsub (by simp [ht])⟩

/-- Another tree of the same symbol fits into the same place. -/
theorem Trees.replace {added : List Rule} {d' : Derivation} : ∀ {frames : List Frame} {d : Derivation} {s : Symbol}
    {ts : List Token}, Trees rules stands [s] ts [d.within frames] →
      (∀ s' us, Trees rules stands [s'] us [d] → ∃ us', Trees (rules ++ added) stands [s'] us' [d']) →
      ∃ ts', Trees (rules ++ added) stands [s] ts' [d'.within frames]
  | [], _, _, _, h, hd => hd _ _ h
  | f :: fs, d, s, ts, h, hd => by
    have hrest : Trees rules stands [s] ts [(Derivation.node f.rule (f.before ++ d :: f.after)).within fs] := h
    show ∃ ts', Trees (rules ++ added) stands [s] ts' [(Derivation.node f.rule (f.before ++ d' :: f.after)).within fs]
    refine hrest.replace fun s' us h' => ?_
    cases h' with
    | node hr inner rest =>
      cases rest
      obtain ⟨zs, s'', ys, us, vs, ws, hss, rfl, hb, hd1, ha⟩ := inner.around
      obtain ⟨vs', hd2⟩ := hd _ _ hd1
      have hall : Trees (rules ++ added) stands _ _ _ := hb.mono_append.append (hd2.append ha.mono_append)
      rw [List.singleton_append, ← hss] at hall
      exact ⟨_, .of_rule (by rw [List.getElem?_append_left (List.getElem?_eq_some_iff.1 hr).1]; exact hr) hall⟩

end Trees

/-! ## A token in place of a tree -/

/-- The first value is the second but for a token that stands in place of the tree it carries, somewhere in it. -/
inductive Carries (t : Tree) : Child → Child → Prop
  | token (kind : String) (span : Option Span) : Carries t (.token ⟨kind, .tree t, span⟩) (.tree t)
  | node (label : String) {before after : List Child} {c' c : Child} (s' s : Option Span) (h : Carries t c' c)
    (hb : ∀ u ∈ Child.tokensOf before, u.text?.isSome = true) (ha : ∀ u ∈ Child.tokensOf after, u.text?.isSome = true) :
    Carries t (.tree ⟨label, before ++ c' :: after, s'⟩) (.tree ⟨label, before ++ c :: after, s⟩)

namespace Carries

variable {t : Tree} {v' v : Child}

/-- Splicing leaves no difference but the spans of nodes. -/
theorem bare_splice (h : Carries t v' v) : v'.splice.bare = v.bare := by
  induction h with
  | token kind span => rw [Child.splice]
  | node label s' s _ hb ha ih =>
    rw [Child.splice, Tree.splice, Child.spliceAll_append, Child.spliceAll,
      Child.spliceAll_eq_self fun u hu => Token.tree?_eq_none (hb u hu),
      Child.spliceAll_eq_self fun u hu => Token.tree?_eq_none (ha u hu), Child.bare_tree, Child.bare_tree]
    simp [ih]

theorem same_splice (h : Carries t v' v) : v'.splice.same v = true := by
  rw [← Child.same_bare, h.bare_splice, Child.same_self]

/-- What the values at a nonterminal contribute to a node is the same but for one child, in which the tree is
carried; unless the tree itself gives way to its children. -/
theorem contribution (h : Carries t v' v) {slot : Slot} (hdrop : slot ≠ .drop)
    (hdis : slot = .inline → v = .tree t → isInlined t.label = false) : ∃ before after c' c, Carries t c' c ∧
      slot.contribution v' = before ++ c' :: after ∧ slot.contribution v = before ++ c :: after ∧
      (∀ u ∈ Child.tokensOf before, u.text?.isSome = true) ∧ ∀ u ∈ Child.tokensOf after, u.text?.isSome = true := by
  have hnone : ∀ u ∈ Child.tokensOf [], u.text?.isSome = true := fun u hu => by simp [Child.tokensOf] at hu
  cases slot with
  | keep => exact ⟨[], [], v', v, h, rfl, rfl, hnone, hnone⟩
  | drop => exact absurd rfl hdrop
  | inline =>
    cases h with
    | token kind span =>
      refine ⟨[], [], _, _, .token kind span, rfl, ?_, hnone, hnone⟩
      simp [Slot.contribution, hdis rfl rfl]
    | node label s' s h hb ha =>
      simp only [Slot.contribution]
      split
      · exact ⟨_, _, _, _, h, rfl, rfl, hb, ha⟩
      · exact ⟨[], [], _, _, .node label s' s h hb ha, rfl, rfl, hnone, hnone⟩

end Carries

namespace Shaping

theorem contributions_append (keepAll : Bool) (vs : List Child) : ∀ {ps qs : List Part} {us : List Child},
    us.length = ps.length → contributions keepAll (ps ++ qs) (us ++ vs) =
      contributions keepAll ps us ++ contributions keepAll qs vs
  | [], qs, [], _ => by cases vs <;> simp [contributions]
  | p :: ps, qs, u :: us, h => by
    rw [List.cons_append, List.cons_append, contributions, contributions,
      contributions_append keepAll vs (Nat.succ.inj h), List.append_assoc]

/-- What a rule makes of its children carries the tree that one of the children carries, if the others are over text. -/
theorem action_carries_of_kept {s : Shaping} (hs : s.actions = []) {r : Rule} {t : Tree} {vs' vs before after : List Child}
    {c' c : Child} (hc : Carries t c' c) (hk' : s.kept r vs' = before ++ c' :: after)
    (hk : s.kept r vs = before ++ c :: after) (hb : ∀ u ∈ Child.tokensOf before, u.text?.isSome = true)
    (ha : ∀ u ∈ Child.tokensOf after, u.text?.isSome = true) : Carries t (s.action r vs') (s.action r vs) := by
  by_cases hone : r.options.expandSingle = true ∧ before = [] ∧ after = []
  · obtain ⟨hr, rfl, rfl⟩ := hone
    rw [action_eq_only hs hr hk', action_eq_only hs hr hk]
    exact hc
  · have hnot : ∀ {x : Child} {k : List Child}, k = before ++ x :: after →
        ¬ (r.options.expandSingle = true ∧ k.length = 1) := by
      rintro x k rfl ⟨hr, hl⟩
      rw [List.length_append, List.length_cons] at hl
      exact hone ⟨hr, List.eq_nil_of_length_eq_zero (by omega), List.eq_nil_of_length_eq_zero (by omega)⟩
    obtain ⟨s', ha'⟩ := action_eq_node hs (hnot hk')
    obtain ⟨s'', ha''⟩ := action_eq_node hs (hnot hk)
    rw [ha', ha'', hk', hk]
    exact .node _ s' s'' hc hb ha

/-- The node of a rule carries the tree that the value at one of its nonterminals carries, if all other values are
over text. -/
theorem action_carries {s : Shaping} (hs : s.actions = []) {r : Rule} {t : Tree} {v' v : Child} {us ws : List Child}
    {name : String} (hpart : r.symbols[us.length]? = some (.nonterminal name)) (h : Carries t v' v)
    (hus : ∀ u ∈ Child.tokensOf us, u.text?.isSome = true) (hws : ∀ u ∈ Child.tokensOf ws, u.text?.isSome = true)
    (hdis : isInlined name = true → v = .tree t → isInlined t.label = false) :
    Carries t (s.action r (us ++ v' :: ws)) (s.action r (us ++ v :: ws)) := by
  obtain ⟨p, hp, hname⟩ : ∃ p, r.parts[us.length]? = some p ∧ p.symbol = .nonterminal name := by
    simpa [Rule.symbols] using hpart
  have hlt := (List.getElem?_eq_some_iff.1 hp).1
  have hparts : r.parts.take us.length ++ p :: r.parts.drop (us.length + 1) = r.parts := by
    rw [← (List.getElem?_eq_some_iff.1 hp).2, ← List.drop_eq_getElem_cons hlt, List.take_append_drop]
  have hlen : us.length = (r.parts.take us.length).length := by rw [List.length_take]; omega
  -- the children before and after those of the value
  let keepAll := s.keepAllTokens || r.options.keepAllTokens
  let front := contributions keepAll (r.parts.take us.length) us
  let back := contributions keepAll (r.parts.drop (us.length + 1)) ws
  have hkept : ∀ x, s.kept r (us ++ x :: ws) = front ++ ((p.slot keepAll).contribution x ++ back) := by
    intro x
    rw [kept, ← hparts, contributions_append _ _ hlen, contributions]
  have hslot : p.slot keepAll = if isInlined name then .inline else .keep := by rw [Part.slot, hname]
  have hdrop : p.slot keepAll ≠ .drop := by rw [hslot]; split <;> simp
  obtain ⟨before, after, c', c, hc, hv', hv, hb, ha⟩ := h.contribution hdrop fun hi =>
    hdis (by rw [hslot] at hi; by_contra hn; simp [hn] at hi)
  have hk' : s.kept r (us ++ v' :: ws) = (front ++ before) ++ c' :: (after ++ back) := by simp [hkept, hv']
  have hk : s.kept r (us ++ v :: ws) = (front ++ before) ++ c :: (after ++ back) := by simp [hkept, hv]
  refine action_carries_of_kept hs hc hk' hk (fun u hu => ?_) fun u hu => ?_
  · rw [Child.tokensOf_append, List.mem_append] at hu
    exact hu.elim (fun hu => hus u ((tokensOf_contributions ..).subset hu)) (hb u)
  · rw [Child.tokensOf_append, List.mem_append] at hu
    exact hu.elim (ha u) fun hu => hws u ((tokensOf_contributions ..).subset hu)

end Shaping

/-! ## Actions of the extended grammar -/

namespace SplicedGrammar

theorem find?_foldl_insert (f : Action) (r : Rule) : ∀ (rs : List Rule) (a : Actions),
    (rs.foldl (fun a r' => a.insert r' f) a).find? r =
      if ∃ r' ∈ rs, r'.production = r.production then some f else a.find? r
  | [], a => by simp
  | r' :: rs, a => by
    rw [List.foldl_cons, find?_foldl_insert f r rs, Actions.find?_insert]
    by_cases h : ∃ r' ∈ rs, r'.production = r.production
    · obtain ⟨r'', hr'', hp⟩ := h
      rw [if_pos ⟨r'', hr'', hp⟩, if_pos ⟨r'', List.mem_cons_of_mem _ hr'', hp⟩]
    · rw [if_neg h]
      by_cases hp : r.production = r'.production
      · rw [if_pos hp, if_pos ⟨r', List.mem_cons_self .., hp.symm⟩]
      · rw [if_neg hp, if_neg]
        rintro ⟨r'', hr'', hp'⟩
        rcases List.mem_cons.1 hr'' with rfl | hr''
        exacts [hp hp'.symm, h ⟨r'', hr'', hp'⟩]

/-- The token of a rule for splicing is the rule's value. -/
theorem apply_addActions_of_forSplicing {g : SplicedGrammar} {a : Actions} {r : Rule} (hr : r ∈ g.rules)
    (hm : r.options.forSplicing = true) : (g.addActions a).apply r = passThrough := by
  rw [Actions.apply, addActions, find?_foldl_insert, if_pos ⟨r, List.mem_filter.2 ⟨hr, hm⟩, rfl⟩, Option.getD_some]

/-- The actions of a grammar without rules for splicing stay as they are. -/
theorem apply_addActions_extend {rules : List Rule} (terminals : List Terminal) (a : Actions)
    (hm : ∀ r ∈ rules, r.options.forSplicing = false) {r : Rule} (hr : r ∈ rules) :
    ((extend rules terminals).addActions a).apply r = a.apply r := by
  rw [Actions.apply, addActions, find?_foldl_insert, if_neg, ← Actions.apply]
  rintro ⟨r', hr', hp⟩
  obtain ⟨added, hadded, hnew⟩ := (extend_extends rules terminals).1.rules
  rw [List.mem_filter, hadded, List.mem_append] at hr'
  obtain ⟨hr' | hr', hs⟩ := hr'
  · rw [hm r' hr'] at hs
    cases hs
  · exact (hnew r' hr').2 r hr hp.symm

/-- The action at the place of a rule of the grammar stays as it is. -/
theorem atPlace_addActions_extend {rules : List Rule} (terminals : List Terminal) (a : Actions)
    (hm : ∀ r ∈ rules, r.options.forSplicing = false) {i : Nat} {r : Rule} (hr : rules[i]? = some r) :
    ((extend rules terminals).addActions a).atPlace (extend rules terminals).rules i = a.atPlace rules i := by
  obtain ⟨added, hadded, -⟩ := (extend_extends rules terminals).1.rules
  have hr' : (extend rules terminals).rules[i]? = some r := by
    rw [hadded, List.getElem?_append_left (List.getElem?_eq_some_iff.1 hr).1, hr]
  rw [Actions.atPlace_eq hr', Actions.atPlace_eq hr]
  exact apply_addActions_extend terminals a hm (List.mem_of_getElem? hr)

end SplicedGrammar

/-! ## A node replaced by a token -/

/-- A rule with one terminal has a tree over one token of it. -/
theorem trees_of_terminal {rules : List Rule} {j : Nat} {r : Rule} {n terminal : String} (hr : rules[j]? = some r)
    (hp : r.production = ⟨n, [.terminal terminal]⟩) (value : TokenValue) (span : Option Span) :
    Trees rules IsNamed [.nonterminal n] [⟨terminal, value, span⟩] [.node j [.token ⟨terminal, value, span⟩]] := by
  rw [← show r.origin = n from congrArg Production.origin hp]
  refine .of_rule hr ?_
  rw [show r.symbols = [.terminal terminal] from congrArg Production.symbols hp]
  exact .token rfl .nil

section Within

variable {rules : List Rule} {s : Shaping} (hs : s.actions = []) {act' : Nat → Action}
  (hact : ∀ i r, rules[i]? = some r → act' i = (s.ofRules rules).atPlace rules i)
include hs hact

theorem text_buildAll {ss : List Symbol} {ts : List Token} {ds : List Derivation} (h : Trees rules IsNamed ss ts ds)
    (htext : ∀ u ∈ ts, u.text?.isSome = true) : ∀ u ∈ Child.tokensOf (Derivation.buildAll act' ds),
      u.text?.isSome = true := by
  intro u hu
  rw [h.buildAll_congr hact] at hu
  exact htext u (h.leaves_eq ▸ (Shaping.tokensOf_build hs rules ds).subset hu)

/-- A node keeps carrying what one of its parts carries, and so do the nodes around it. -/
theorem carries_within {t : Tree} : ∀ {frames : List Frame} {d d' : Derivation} {sym : Symbol} {ts : List Token},
    Trees rules IsNamed [sym] ts [d.within frames] → (∀ u ∈ ts, u.text?.isSome = true) →
    (∃ i cs, d = .node i cs) → Carries t (d'.build act') (d.build ((s.ofRules rules).atPlace rules)) →
    ¬ Dissolved rules ((s.ofRules rules).atPlace rules) t d frames →
    Carries t ((d'.within frames).build act') ((d.within frames).build ((s.ofRules rules).atPlace rules))
  | [], _, _, _, _, _, _, _, hc, _ => hc
  | f :: fs, d, d', sym, ts, hd, htext, ⟨i, cs, hnode⟩, hc, hdis => by
    have hd' : Trees rules IsNamed [sym] ts [(Derivation.node f.rule (f.before ++ d :: f.after)).within fs] := hd
    show Carries t (((Derivation.node f.rule (f.before ++ d' :: f.after)).within fs).build act') _
    refine carries_within hd' htext ⟨_, _, rfl⟩ ?_
      fun ⟨hl, inner, f', outer, hfs, hrest⟩ => hdis ⟨hl, f :: inner, f', outer, by rw [hfs, List.cons_append], hrest⟩
    obtain ⟨_, us, hnodes, hsub⟩ := hd'.of_within
    cases hnodes with
    | @node _ r _ _ _ _ _ hr inner rest =>
      cases rest
      obtain ⟨zs, part, ys, vs, ws, xs, hss, rfl, hb, hpart, ha⟩ := inner.around
      obtain ⟨r', -, hp, haction⟩ := s.apply_ofRules (List.mem_of_getElem? hr)
      subst hnode
      cases hpart with
      | @node _ q _ _ _ _ _ hq hcs hend =>
        cases hend
        have hlen : (Derivation.buildAll act' f.before).length = zs.length := by
          rw [Derivation.buildAll_eq_map, List.length_map, hb.length_eq]
        have hsyms : r'.symbols = r.symbols := congrArg Production.symbols hp
        rw [Derivation.build, Derivation.build, hact _ _ hr, Actions.atPlace_eq hr, haction,
          Derivation.buildAll_append, Derivation.buildAll_append, Derivation.buildAll, Derivation.buildAll,
          ← hb.buildAll_congr hact, ← ha.buildAll_congr hact]
        have hpart : r'.symbols[(Derivation.buildAll act' f.before).length]? = some (.nonterminal q.origin) := by
          rw [hsyms, hss, hlen]
          simp
        refine Shaping.action_carries hs hpart hc (text_buildAll hs hact hb fun u hu => htext u (hsub (by simp [hu])))
          (text_buildAll hs hact ha fun u hu => htext u (hsub (by simp [hu]))) fun hi hv => ?_
        by_contra hl
        exact hdis ⟨by simpa using hl, [], f, fs, rfl, hv, i, cs, q, rfl, hq, hi⟩

end Within

/-- For every grammar without rules for splicing, every derivation of it over text, and every node in the derivation
whose value is a tree with a label of the node's nonterminal: the extended grammar has a terminal for the tree and a
rule that makes the nonterminal one token of it. With this rule over a token that carries the tree in place of the node,
there is a derivation of the extended grammar, and what is built of it is the same once the tree is spliced in. The
only condition is that the tree does not give way to its children below another node. -/
theorem splice_substitutes {g : Grammar} (hm : ∀ r ∈ g.rules, r.options.forSplicing = false) {s : Shaping}
    (hs : s.actions = []) {n : String} {ts : List Token} {node : Derivation} {frames : List Frame}
    (hd : Trees g.rules IsNamed [.nonterminal n] ts [node.within frames]) (htext : ∀ u ∈ ts, u.text?.isSome = true)
    {i : Nat} {cs : List Derivation} (hnode : node = .node i cs) {r : Rule} (hr : g.rules[i]? = some r) {t : Tree}
    (ht : node.build ((g.parserConfig s).actions.atPlace g.rules) = .tree t)
    (hlabel : ∃ r' ∈ g.rules, r'.origin = r.origin ∧ r'.label = t.label)
    (hdis : ¬ Dissolved g.rules ((g.parserConfig s).actions.atPlace g.rules) t node frames) :
    let spliced := SplicedGrammar.extend g.rules g.terminals
    ∃ terminal, spliced.spliceTerminals.lookup t.label = some terminal ∧
      (∃ ρ ∈ spliced.rules, ρ.production = ⟨r.origin, [.terminal terminal]⟩ ∧
        (ρ ∈ g.rules ∨ ρ.options.forSplicing = true)) ∧
      ∀ j ρ span, spliced.rules[j]? = some ρ → ρ.production = ⟨r.origin, [.terminal terminal]⟩ →
        ρ.options.forSplicing = true →
        (∃ ts', Trees spliced.rules IsNamed [.nonterminal n] ts'
          [(Derivation.node j [.token ⟨terminal, .tree t, span⟩]).within frames]) ∧
        (((Derivation.node j [.token ⟨terminal, .tree t, span⟩]).within frames).build
          ((spliced.addActions (g.parserConfig s).actions).atPlace spliced.rules)).splice.same
          ((node.within frames).build ((g.parserConfig s).actions.atPlace g.rules)) = true := by
  intro spliced
  subst hnode
  obtain ⟨r', hr', horigin, hlabel⟩ := hlabel
  obtain ⟨terminal, hterminal, rule, hrule, hprod⟩ := SplicedGrammar.extend_allows g.terminals hr' (hm r' hr')
  obtain ⟨added, hadded, hnew⟩ := (SplicedGrammar.extend_extends g.rules g.terminals).1.rules
  rw [horigin] at hprod
  rw [hlabel] at hterminal
  refine ⟨terminal, hterminal, ⟨rule, hrule, hprod, ?_⟩, fun j ρ span hρ hp hmark => ⟨?_, ?_⟩⟩
  · rw [hadded] at hrule
    exact (List.mem_append.1 hrule).imp_right fun h => (hnew rule h).1.forSplicing
  · rw [show spliced.rules = g.rules ++ added from hadded] at hρ ⊢
    refine Trees.replace hd fun s' us h' => ?_
    cases h' with
    | @node _ q _ _ _ _ _ hq _ rest =>
      cases rest
      obtain rfl := Option.some.inj (hr.symm.trans hq)
      exact ⟨_, trees_of_terminal hρ hp (.tree t) span⟩
  · have hact : ∀ i r, g.rules[i]? = some r →
        (spliced.addActions (g.parserConfig s).actions).atPlace spliced.rules i =
          (s.ofRules g.rules).atPlace g.rules i := fun _ _ hr =>
      SplicedGrammar.atPlace_addActions_extend _ _ hm hr
    refine (carries_within hs hact hd htext ⟨_, _, rfl⟩ ?_ hdis).same_splice
    rw [show (g.parserConfig s).actions = s.ofRules g.rules from rfl] at ht
    rw [ht, Derivation.build, Actions.atPlace_eq hρ,
      SplicedGrammar.apply_addActions_of_forSplicing (List.mem_of_getElem? hρ) hmark]
    exact .token terminal span

/-- Pairs of letters, which are no nodes of their own. -/
def letterPairs : Grammar where
  terminals := [{ name := "A", pattern := .literal "a" "" }]
  rules :=
    [⟨"start", [⟨.nonterminal "_pair", false⟩], 0, none, { emptyIndices := [false] }⟩,
     ⟨"_pair", [⟨.nonterminal "letter", false⟩, ⟨.nonterminal "letter", false⟩], 0, none,
      { emptyIndices := [false, false] }⟩,
     ⟨"letter", [⟨.terminal "A", false⟩], 0, none, { emptyIndices := [false] }⟩]
  start := ["start"]
  ignore := []

def letterTree : Tree := ⟨"letter", [.token (.ofText "A" "a")], none⟩

/-- The nodes around the second letter of a pair. -/
def secondLetter : List Frame := [⟨1, [.node 2 [.token (.ofText "A" "a")]], []⟩, ⟨0, [], []⟩]

/-- The second letter of a pair is replaced, below a node that gives way to its children. -/
theorem splice_letterPairs :
    (((Derivation.node 5 [.token ⟨"TREE__LETTER", .tree letterTree, none⟩]).within secondLetter).build
      (((SplicedGrammar.extend letterPairs.rules letterPairs.terminals).addActions
        (letterPairs.parserConfig {}).actions).atPlace
        (SplicedGrammar.extend letterPairs.rules letterPairs.terminals).rules)).splice.same
      (((Derivation.node 2 [.token (.ofText "A" "a")]).within secondLetter).build
        ((letterPairs.parserConfig {}).actions.atPlace letterPairs.rules)) = true := by
  have hletter : Trees letterPairs.rules IsNamed [.nonterminal "letter"] [.ofText "A" "a"]
      [.node 2 [.token (.ofText "A" "a")]] :=
    Trees.of_rule (r := letterPairs.rules[2]) rfl (.token rfl .nil)
  have hd : Trees letterPairs.rules IsNamed [.nonterminal "start"] [.ofText "A" "a", .ofText "A" "a"]
      [(Derivation.node 2 [.token (.ofText "A" "a")]).within secondLetter] :=
    Trees.of_rule (r := letterPairs.rules[0]) rfl
      (Trees.of_rule (r := letterPairs.rules[1]) rfl (hletter.append hletter))
  have hdis : ¬ Dissolved letterPairs.rules ((letterPairs.parserConfig {}).actions.atPlace
      letterPairs.rules) letterTree (.node 2 [.token (.ofText "A" "a")]) secondLetter :=
    fun h => absurd h.1 (by decide)
  obtain ⟨terminal, hterminal, -, h⟩ := splice_substitutes (g := letterPairs) (s := {}) (by decide) rfl hd
    (by simp [Token.text?, Token.ofText]) rfl (r := letterPairs.rules[2]) rfl (t := letterTree) (by rfl)
    ⟨letterPairs.rules[2], by simp [letterPairs], rfl, rfl⟩ hdis
  have hspliced : (SplicedGrammar.extend letterPairs.rules letterPairs.terminals).spliceTerminals.lookup
      letterTree.label = some "TREE__LETTER" := by decide +kernel
  obtain rfl := Option.some.inj (hspliced.symm.trans hterminal)
  have hrule : (SplicedGrammar.extend letterPairs.rules letterPairs.terminals).rules[5]? =
      some (SplicedGrammar.spliceRule "letter" "TREE__LETTER" 1) := by decide +kernel
  exact (h 5 _ none hrule rfl rfl).2

/-! ## Trees that give way to their children -/

/-- Two letters in a node of their own, which gives way to them. -/
def inlinedItems : GrammarDraft where
  terminals := [{ name := "A", pattern := .literal "a" "" }, { name := "B", pattern := .literal "b" "" }]
  rules := [{ origin := "start", items := ["_items"] }, { origin := "_items", items := ["A", "B"] }]

/-- The grammar of the draft. -/
def inlinedItemsGrammar : Grammar where
  terminals := [{ name := "A", pattern := .literal "a" "" }, { name := "B", pattern := .literal "b" "" }]
  rules :=
    [⟨"start", [⟨.nonterminal "_items", false⟩], 0, none, { emptyIndices := [false] }⟩,
     ⟨"_items", [⟨.terminal "A", false⟩, ⟨.terminal "B", false⟩], 0, none, { emptyIndices := [false, false] }⟩]
  start := ["start"]
  ignore := []

def itemsTree : Tree := ⟨"_items", [.token (.ofText "A" "a"), .token (.ofText "B" "b")], none⟩

/-- A token that carries the node of the two letters is kept where the node itself gives way to them. -/
theorem splice_inlinedItems_kept : inlinedItems.build = .ok inlinedItemsGrammar ∧
    Trees inlinedItemsGrammar.rules IsNamed [.nonterminal "start"] [.ofText "A" "a", .ofText "B" "b"]
      [(Derivation.node 1 [.token (.ofText "A" "a"), .token (.ofText "B" "b")]).within [⟨0, [], []⟩]] ∧
    (Derivation.node 1 [.token (.ofText "A" "a"), .token (.ofText "B" "b")]).build
      ((inlinedItemsGrammar.parserConfig {}).actions.atPlace inlinedItemsGrammar.rules) = .tree itemsTree ∧
    (SplicedGrammar.extend inlinedItemsGrammar.rules inlinedItemsGrammar.terminals).spliceTerminals.lookup
      itemsTree.label = some "TREE___ITEMS" ∧
    (SplicedGrammar.extend inlinedItemsGrammar.rules inlinedItemsGrammar.terminals).rules[3]? =
      some (SplicedGrammar.spliceRule "_items" "TREE___ITEMS" 1) ∧
    (((Derivation.node 3 [.token ⟨"TREE___ITEMS", .tree itemsTree, none⟩]).within [⟨0, [], []⟩]).build
      (((SplicedGrammar.extend inlinedItemsGrammar.rules inlinedItemsGrammar.terminals).addActions
        (inlinedItemsGrammar.parserConfig {}).actions).atPlace
        (SplicedGrammar.extend inlinedItemsGrammar.rules inlinedItemsGrammar.terminals).rules)).splice.same
      (((Derivation.node 1 [.token (.ofText "A" "a"), .token (.ofText "B" "b")]).within [⟨0, [], []⟩]).build
        ((inlinedItemsGrammar.parserConfig {}).actions.atPlace inlinedItemsGrammar.rules)) = false :=
  ⟨by cbv, Trees.of_rule (r := inlinedItemsGrammar.rules[0]) rfl
    (Trees.of_rule (r := inlinedItemsGrammar.rules[1]) rfl (.token rfl (.token rfl .nil))), by rfl,
    by decide +kernel, by decide +kernel, by cbv⟩

end GrammarKit
