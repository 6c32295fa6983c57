/-
Shaping trees with alternatives. A node that is shaped without actions of the program keeps, drops or inlines each of
its values. Alternatives that are kept stay together, and in place of their node a single child may stand that is
alternatives; then choosing among the children is choosing among the values. But alternatives that are inlined are put
side by side, since their label starts as those of inlined rules do. So what is chosen in the value of a parse is shaped
from a single derivation if the inlined nonterminals have no alternatives, and otherwise it may hold tokens twice.
-/
import GrammarKit.Proofs.Earley.Packing
import GrammarKit.Proofs.Grammar.Shaping
import GrammarKit.Grammar.Draft
import Mathlib

namespace GrammarKit

open Earley (ambiguousLabel)

/-! ## Choosing among children -/

theorem Part.slot_eq_inline_iff {keepAll : Bool} {q : Part} :
    q.slot keepAll = .inline ↔ ∃ n, q.symbol = .nonterminal n ∧ isInlined n = true := by
  unfold slot
  rcases hq : q.symbol with n | n
  · by_cases hn : isInlined n = true <;> simp [hn]
  · by_cases hh : (q.hidden && !keepAll) = true <;> simp [hh]

theorem Slot.mem_topDownOf_contribution {slot : Slot} {t : Tree} {c : Child}
    (h : t ∈ Child.topDownOf (slot.contribution c)) : t ∈ Child.topDownOf [c] := by
  cases slot with
  | keep => exact h
  | drop => simp [contribution, Child.topDownOf] at h
  | inline =>
    cases c with
    | token u => exact h
    | tree u =>
      obtain ⟨l, cs, span⟩ := u
      rw [contribution] at h
      split at h
      · exact Child.mem_topDownOf_tree.2 (.inr h)
      · exact h

/-- Without alternatives to inline, a choice among what a value contributes is contributed by a choice of the value. -/
theorem Slot.exists_choice {slot : Slot} {c : Child} (hd : Diverse [c]) (hs : slot = .inline → Settled [c])
    {us : List Child} (hus : List.Forall₂ (fun u c => u ∈ c.choices) us (slot.contribution c)) :
    ∃ u ∈ c.choices, slot.contribution u = us := by
  -- where the value itself is contributed
  have hkeep : List.Forall₂ (fun u c => u ∈ c.choices) us [c] → ∃ u ∈ c.choices, us = [u] := by
    rintro (_ | ⟨hu, _ | _⟩)
    exact ⟨_, hu, rfl⟩
  cases slot with
  | keep =>
    obtain ⟨u, hu, rfl⟩ := hkeep hus
    exact ⟨u, hu, rfl⟩
  | drop =>
    obtain ⟨u, hu⟩ := c.exists_choice hd
    cases hus
    exact ⟨u, hu, rfl⟩
  | inline =>
    cases c with
    | token t =>
      obtain ⟨u, hu, rfl⟩ := hkeep hus
      obtain rfl := List.mem_singleton.1 hu
      exact ⟨_, hu, rfl⟩
    | tree t =>
      obtain ⟨l, cs, span⟩ := t
      have hl : l ≠ ambiguousLabel := hs rfl _ (Child.mem_topDownOf_tree.2 (.inl rfl))
      rw [contribution] at hus
      dsimp only at hus
      split at hus
      · rename_i hin
        exact ⟨_, (Tree.mem_choices_node hl).2 ⟨us, hus, rfl⟩, by rw [contribution, if_pos hin]⟩
      · rename_i hin
        obtain ⟨u, hu, rfl⟩ := hkeep hus
        obtain ⟨us, -, rfl⟩ := (Tree.mem_choices_node hl).1 hu
        exact ⟨_, hu, by rw [contribution, if_neg hin]⟩

namespace Shaping

theorem mem_topDownOf_contributions {keepAll : Bool} {t : Tree} : ∀ {ps : List Part} {vs : List Child},
    t ∈ Child.topDownOf (contributions keepAll ps vs) → t ∈ Child.topDownOf vs
  | _, [], h => by simpa [contributions] using h
  | [], _ :: _, h => by simpa [contributions] using h
  | p :: ps, v :: vs, h => by
    rw [contributions, Child.topDownOf_append] at h
    rw [← List.singleton_append, Child.topDownOf_append]
    exact List.mem_append.2 ((List.mem_append.1 h).imp Slot.mem_topDownOf_contribution mem_topDownOf_contributions)

/-- Without alternatives to inline, a choice of children comes from a choice of values. -/
theorem exists_choices_contributions {keepAll : Bool} {ps : List Part} {vs : List Child}
    (h : List.Forall₂ (fun p v => p.slot keepAll = .inline → Settled [v]) ps vs) : Diverse vs → ∀ {us : List Child},
    List.Forall₂ (fun u c => u ∈ c.choices) us (contributions keepAll ps vs) →
      ∃ ws, List.Forall₂ (fun u c => u ∈ c.choices) ws vs ∧ contributions keepAll ps ws = us := by
  induction h with
  | nil =>
    intro _ us hus
    cases hus
    exact ⟨[], .nil, rfl⟩
  | @cons p v ps vs hp _ ih =>
    intro hd us hus
    obtain ⟨hv, hvs⟩ := List.forall_mem_cons.1 (diverse_iff.1 hd)
    rw [contributions] at hus
    obtain ⟨w, hw, hfirst⟩ := Slot.exists_choice hv hp (List.forall₂_take_append _ _ _ hus)
    obtain ⟨ws, hws, hrest⟩ := ih (diverse_iff.2 hvs) (List.forall₂_drop_append _ _ _ hus)
    exact ⟨w :: ws, .cons hw hws, by rw [contributions, hfirst, hrest, List.take_append_drop]⟩

/-- Without alternatives to inline, a choice of a node is the node of a choice, but for spans. -/
theorem action_choices {s : Shaping} (hs : s.actions = []) {r : Rule} (hlabel : r.label ≠ ambiguousLabel)
    {vs : List Child} (hd : Diverse vs)
    (hin : List.Forall₂ (fun p v => p.slot (s.keepAllTokens || r.options.keepAllTokens) = .inline → Settled [v])
      r.parts vs) :
    Diverse [s.action r vs] ∧ ∀ u ∈ (s.action r vs).choices, ∃ us,
      List.Forall₂ (fun u c => u ∈ c.choices) us vs ∧ u.bare = (s.action r us).bare := by
  have hkept : Diverse (s.kept r vs) := fun t ht => hd t (mem_topDownOf_contributions ht)
  by_cases hone : r.options.expandSingle = true ∧ (s.kept r vs).length = 1
  · obtain ⟨hr, hv⟩ := hone
    obtain ⟨v, hv⟩ := List.length_eq_one_iff.1 hv
    rw [action_eq_only hs hr hv]
    refine ⟨by rwa [hv] at hkept, fun u hu => ?_⟩
    obtain ⟨us, hus, hu⟩ := exists_choices_contributions hin hd
      (by rw [← kept, hv]; exact .cons hu .nil : List.Forall₂ _ [u] _)
    exact ⟨us, hus, by rw [action_eq_only hs hr hu]⟩
  · obtain ⟨span, hv⟩ := action_eq_node hs hone
    rw [hv]
    refine ⟨(diverse_node_iff hlabel).2 hkept, fun u hu => ?_⟩
    obtain ⟨cs, hcs, rfl⟩ := (Tree.mem_choices_node hlabel).1 hu
    obtain ⟨us, hus, hu⟩ := exists_choices_contributions hin hd hcs
    rw [← kept] at hu
    obtain ⟨span', hnode⟩ : ∃ span, s.action r us = .tree ⟨r.label, s.kept r us, span⟩ :=
      action_eq_node hs (by rwa [hu, hcs.length_eq])
    exact ⟨us, hus, by rw [hnode, Child.bare_tree, Child.bare_tree, hu]⟩

end Shaping

namespace Earley

/-! ## Choosing in values of parses -/

section Shaped

variable {rules : List Rule} {stands : String → Token → Prop} {w : List Token}

variable (rules) in
/-- Wherever a rule has an inlined nonterminal, all trees of it over one stretch of the tokens have the same value. -/
def InlinesSame (act : Nat → Action) (stands : String → Token → Prop) (w : List Token) : Prop :=
  ∀ r ∈ rules, ∀ n, .nonterminal n ∈ r.symbols → isInlined n = true → ∀ us, us <:+: w → ∀ d e,
    Trees rules stands [.nonterminal n] us [d] → Trees rules stands [.nonterminal n] us [e] →
      (d.build act).same (e.build act) = true

theorem isInfix_stretch (w : List Token) (j k : Nat) : stretch w j k <:+: w :=
  (List.drop_suffix _ _).isInfix.trans (List.take_prefix _ _).isInfix

/-- What has the same value for all its trees has no alternatives. -/
theorem Packs.settled {actions : Actions} {s : Symbol} {j k : Nat} {p : Packed} (h : Packs rules stands w s j k p)
    (hp : Built rules actions Child.bare p)
    (hsame : ∀ d e, Trees rules stands [s] (stretch w j k) [d] → Trees rules stands [s] (stretch w j k) [e] →
      (d.build (actions.atPlace rules)).same (e.build (actions.atPlace rules)) = true) :
    Settled [p.build actions] := by
  refine Child.settled_of_choices_same _ hp.1 fun u hu v hv => ?_
  obtain ⟨d, hd, hud⟩ := hp.2 u hu
  obtain ⟨e, he, hve⟩ := hp.2 v hv
  rw [← Child.same_bare, hud, hve, Child.same_bare]
  exact hsame d e (h.trees hd) (h.trees he)

/-- Of parts, those that are inlined have no alternatives. -/
theorem PacksAll.settled {actions : Actions} (hin : InlinesSame rules (actions.atPlace rules) stands w) {r : Rule}
    (hr : r ∈ rules) {ss : List Symbol} {j k : Nat} {ps : List Packed} :
    PacksAll rules stands w ss j k ps → (∀ s ∈ ss, s ∈ r.symbols) → (∀ p ∈ ps, Built rules actions Child.bare p) →
      List.Forall₂ (fun s p => ∀ n, s = .nonterminal n → isInlined n = true → Settled [p.build actions]) ss ps
  | .nil, _, _ => .nil
  | .cons _ _ first rest, hss, hps => by
    obtain ⟨hs, hss⟩ := List.forall_mem_cons.1 hss
    obtain ⟨hp, hps⟩ := List.forall_mem_cons.1 hps
    refine .cons (fun n hn hi => first.settled hp ?_) (rest.settled hin hr hss hps)
    subst hn
    exact hin r hr n hs hi _ (isInfix_stretch _ _ _)

/-- Without alternatives to inline, shaping does its work on alternatives as on single values. -/
theorem distributes_shaped {s : Shaping} (hs : s.actions = []) (hlabel : ∀ r ∈ rules, r.label ≠ ambiguousLabel)
    (hin : InlinesSame rules ((s.ofRules rules).atPlace rules) stands w) :
    Distributes rules (s.ofRules rules) Child.bare stands w := by
  constructor
  · intro r hr us vs h
    obtain ⟨r', -, -, hact⟩ := s.apply_ofRules hr
    rw [hact]
    exact Shaping.action_congr hs Child.strips_bare h
  · intro r hr j k parts hpacks hparts
    obtain ⟨r', hr', hprod, hact⟩ := s.apply_ofRules hr
    have hsymbols : r'.parts.map Part.symbol = r.symbols := congrArg Production.symbols hprod
    have hsettled := hpacks.settled hin hr (fun _ h => h) hparts
    rw [← hsymbols, List.forall₂_map_left_iff] at hsettled
    have hinlined : List.Forall₂ (fun q p => q.slot (s.keepAllTokens || r'.options.keepAllTokens) = .inline →
        Settled [p.build (s.ofRules rules)]) r'.parts parts :=
      hsettled.imp fun q p h hslot =>
        let ⟨n, hn, hi⟩ := Part.slot_eq_inline_iff.1 hslot
        h n hn hi
    rw [hact, Packed.buildAll_eq_map]
    obtain ⟨hdiverse, hchoices⟩ := Shaping.action_choices hs (hlabel r' hr') (diverse_iff.2 fun v hv => by
      obtain ⟨p, hp, rfl⟩ := List.mem_map.1 hv
      exact (hparts p hp).1) (List.forall₂_map_right_iff.2 hinlined)
    refine ⟨hdiverse, fun u hu => ?_⟩
    obtain ⟨us, hus, hu⟩ := hchoices u hu
    rw [List.forall₂_map_right_iff] at hus
    exact ⟨us, hus, hu⟩

end Shaped

/-- For every grammar without rules labelled as alternatives are, whose nodes are shaped without actions of the program,
and every match that decides each terminal: if the trees of an inlined nonterminal over one stretch of the tokens have
the same value, there is something to choose in the value of a parse, and what is left of it when one child is chosen at
every node of alternatives is the same as the value of a single derivation tree of the start symbol over the tokens, and
has no token twice. -/
theorem parse_shaped {g : Grammar} {s : Shaping} {matches? : Chart.TokenMatch} {o : Options} {p : Parser}
    (hp : Parser.ofConfig (g.parserConfig s) matches? o = .ok p) (hs : s.actions = [])
    (hlabel : ∀ r ∈ g.rules, r.label ≠ ambiguousLabel) (hm : ∀ a t, ∃ b, matches? a t = .ok b) {start : String}
    {tokens : List Token}
    (hin : InlinesSame g.rules ((g.parserConfig s).actions.atPlace g.rules) matches?.Stands tokens) {value : Child}
    (h : p.parse (Listed.ofTokens tokens) start = .ok value) :
    (∃ u, u ∈ value.choices) ∧
    ∀ u ∈ value.choices, (∃ d, Trees g.rules matches?.Stands [.nonterminal start] tokens [d] ∧
      u.same (d.build ((g.parserConfig s).actions.atPlace g.rules)) = true) ∧ u.tokens.Sublist tokens := by
  obtain ⟨rfl, -⟩ := ofConfig_eq_ok hp
  have hg : (ChartRules.ofRules g.rules).Exact matches?.Stands := ChartRules.exact_ofRules _
  obtain ⟨c, packed, hc, -, hd, rfl⟩ := parse_eq_ok_iff.1 h
  have hpacks : Packs g.rules matches?.Stands tokens (.nonterminal start) 0 tokens.length packed :=
    (records_of_ofTokens hg hm hc).derivation?_packs hd
  obtain ⟨hdiverse, hbuilt⟩ := hpacks.built (distributes_shaped hs hlabel hin)
  refine ⟨Child.exists_choice _ hdiverse, fun u hu => ?_⟩
  obtain ⟨d, hpick, hud⟩ := hbuilt u hu
  have htrees : Trees g.rules matches?.Stands [.nonterminal start] tokens [d] := by simpa using hpacks.trees hpick
  have hleaves : d.leaves = tokens := by simpa using hpacks.leaves_eq hpick
  obtain ⟨hsame, htokens⟩ := Child.bare_eq_iff.1 hud
  refine ⟨⟨d, htrees, hsame⟩, ?_⟩
  rw [htokens, ← hleaves]
  exact Shaping.tokens_build hs g.rules d

/-- Sums of letters, whose signs are inlined. -/
def signSums : Grammar where
  terminals := [{ name := "X", pattern := .literal "x" "" }, { name := "PLUS", pattern := .literal "+" "" }]
  rules :=
    [⟨"sum", [⟨.nonterminal "sum", false⟩, ⟨.nonterminal "_sign", false⟩, ⟨.nonterminal "sum", false⟩], 0, none, {}⟩,
     ⟨"sum", [⟨.terminal "X", false⟩], 1, none, {}⟩, ⟨"_sign", [⟨.terminal "PLUS", false⟩], 0, none, {}⟩]
  start := ["sum"]
  ignore := []

theorem inlinesSame_signSums (act : Nat → Action) (w : List Token) :
    InlinesSame signSums.rules act Chart.byName.Stands w := by
  intro r hr n hn hi us _ d e hd he
  have hnames : ∀ r ∈ signSums.rules, ∀ s ∈ r.symbols, s = .nonterminal "_sign" ∨ isInlined s.name = false ∨
      s.isTerminal = true := by decide
  -- a sign is a token
  have hsign : ∀ d, Trees signSums.rules Chart.byName.Stands [.nonterminal "_sign"] us [d] →
      ∃ t, us = [t] ∧ d = .node 2 [.token t] := by
    intro d h
    obtain ⟨i, r, cs, hr, hn, hd, hcs⟩ := trees_nonterminal_iff.1 h
    obtain rfl := List.singleton_inj.1 hd
    rcases i with _ | _ | _ | i <;> cases hr
    · exact absurd hn (by decide)
    · exact absurd hn (by decide)
    · obtain ⟨t, rfl, rfl, -⟩ := trees_terminal_iff.1 hcs
      exact ⟨t, rfl, rfl⟩
  rcases hnames r hr _ hn with h | h | h
  · obtain rfl := Symbol.nonterminal.inj h
    obtain ⟨t, rfl, rfl⟩ := hsign d hd
    obtain ⟨t', ht, rfl⟩ := hsign e he
    obtain rfl := List.singleton_inj.1 ht
    exact Child.same_self _
  · rw [Symbol.name, hi] at h
    cases h
  · cases h

/-- The tokens of a sum of three. -/
def threeLetters : List Token :=
  [.ofText "X" "x", .ofText "PLUS" "+", .ofText "X" "x", .ofText "PLUS" "+", .ofText "X" "x"]

def letterSum : Child := .tree ⟨"sum", [.token (.ofText "X" "x")], none⟩

def signedSum (a b : Child) : Child := .tree ⟨"sum", [a, .token (.ofText "PLUS" "+"), b], none⟩

/-- A sum of three has two alternatives, and the one that is chosen is the value of a derivation. -/
theorem parse_shaped_signSums : ∃ (p : Parser) (d : Derivation),
    Parser.ofConfig (signSums.parserConfig {}) Chart.byName { ambiguity := .explicit } = .ok p ∧
      p.parse (Listed.ofTokens threeLetters) "sum" = .ok (.tree ⟨ambiguousLabel,
        [signedSum (signedSum letterSum letterSum) letterSum, signedSum letterSum (signedSum letterSum letterSum)],
        none⟩) ∧
      Trees signSums.rules Chart.byName.Stands [.nonterminal "sum"] threeLetters [d] ∧
      (signedSum (signedSum letterSum letterSum) letterSum).same
        (d.build ((signSums.parserConfig {}).actions.atPlace signSums.rules)) = true ∧
      (signedSum (signedSum letterSum letterSum) letterSum).tokens.Sublist threeLetters := by
  have hp : Parser.ofConfig (signSums.parserConfig {}) Chart.byName { ambiguity := .explicit } =
      .ok ⟨.ofRules signSums.rules, (signSums.parserConfig {}).actions, Chart.byName, { ambiguity := .explicit }⟩ := rfl
  have hv : (Parser.mk (.ofRules signSums.rules) (signSums.parserConfig {}).actions Chart.byName
      { ambiguity := .explicit }).parse (Listed.ofTokens threeLetters) "sum" = .ok (.tree ⟨ambiguousLabel,
        [signedSum (signedSum letterSum letterSum) letterSum, signedSum letterSum (signedSum letterSum letterSum)],
        none⟩) := by cbv
  have hchoice := Child.self_mem_choices (signedSum (signedSum letterSum letterSum) letterSum)
    (by unfold Settled; decide)
  obtain ⟨⟨d, hd, hsame⟩, htokens⟩ := (parse_shaped hp rfl (by decide) (fun _ _ => ⟨_, rfl⟩)
    (inlinesSame_signSums _ _) hv).2 _ ((Tree.mem_choices_alternatives (s := none)).2 ⟨_, List.mem_cons_self .., hchoice⟩)
  exact ⟨_, d, hp, hv, hd, hsame, htokens⟩

/-! ## Alternatives that are inlined -/

/-- A letter by itself or as a node, both of which are inlined. -/
def inlinedLetter : GrammarDraft where
  terminals := [{ name := "A", pattern := .literal "a" "" }]
  rules := [{ origin := "start", items := ["_x"] }, { origin := "_x", items := ["A"] },
    { origin := "_x", items := ["y"] }, { origin := "y", items := ["A"] }]

/-- The grammar of the draft. -/
def inlinedLetterGrammar : Grammar where
  terminals := [{ name := "A", pattern := .literal "a" "" }]
  rules :=
    [⟨"start", [⟨.nonterminal "_x", false⟩], 0, none, { emptyIndices := [false] }⟩,
     ⟨"_x", [⟨.terminal "A", false⟩], 0, none, { emptyIndices := [false] }⟩,
     ⟨"_x", [⟨.nonterminal "y", false⟩], 1, none, { emptyIndices := [false] }⟩,
     ⟨"y", [⟨.terminal "A", false⟩], 0, none, { emptyIndices := [false] }⟩]
  start := ["start"]
  ignore := []

/-- What is parsed of a letter has nothing to choose, holds the letter twice, and is not the value of any derivation of
it. -/
theorem parse_inlinedLetter_mixed : ∃ (p : Parser) (value : Child), inlinedLetter.build = .ok inlinedLetterGrammar ∧
    (∀ r ∈ inlinedLetterGrammar.rules, r.label ≠ ambiguousLabel) ∧
    Parser.ofConfig (inlinedLetterGrammar.parserConfig {}) Chart.byName { ambiguity := .explicit } = .ok p ∧
    p.parse (Listed.ofTokens [.ofText "A" "a"]) "start" = .ok value ∧ value ∈ value.choices ∧
    value.tokens = [.ofText "A" "a", .ofText "A" "a"] ∧
    ∀ d, Trees inlinedLetterGrammar.rules Chart.byName.Stands [.nonterminal "start"] [.ofText "A" "a"] [d] →
      value.same (d.build ((inlinedLetterGrammar.parserConfig {}).actions.atPlace inlinedLetterGrammar.rules)) =
        false := by
  refine ⟨_, .tree ⟨"start", [.tree ⟨"_x", [.token (.ofText "A" "a")], none⟩,
    .tree ⟨"_x", [.tree ⟨"y", [.token (.ofText "A" "a")], none⟩], none⟩], none⟩, by cbv, by decide, rfl, by cbv,
    Child.self_mem_choices _ (by unfold Settled; decide), rfl, fun d hd => ?_⟩
  -- the values of derivations have no more tokens than the derivations
  rw [← Bool.not_eq_true]
  intro hsame
  have hlen := Child.length_tokens_of_same hsame
  have hle := (Shaping.tokens_build (s := {}) rfl inlinedLetterGrammar.rules d).length_le
  have hleaves : d.leaves = [.ofText "A" "a"] := by simpa [Derivation.leavesAll] using hd.leaves_eq
  rw [hleaves, List.length_singleton] at hle
  exact absurd (hlen.trans_le hle) (by decide)

end Earley

end GrammarKit
