/-
Tokens of a value are leaves of its derivation. Each leaf of a derivation stands at a part of a rule. Building the value
leaves out the leaves at hidden parts, unless the rule or the shaping keeps all tokens, and nothing else: what the nodes
above do, giving way to their children or to an only child, moves tokens up without a loss, a copy or a change of order.
-/
import GrammarKit.Proofs.Grammar.Resolving
import GrammarKit.Proofs.Grammar.Shaping
import Mathlib

namespace GrammarKit

/-! ## Leaves of derivations -/

/-- A leaf of a derivation: the token, and the part that it stands at of a rule. -/
structure Leaf where
  token : Token
  rule : Rule
  part : Part

/-- A leaf at a hidden part is left out, unless all tokens are kept. -/
def Leaf.isShown (s : Shaping) (l : Leaf) : Bool :=
  !(l.part.hidden && !(s.keepAllTokens || l.rule.options.keepAllTokens))

namespace Derivation

mutual

/-- The leaves of a derivation of a nonterminal. -/
def leavesAt (rules : List Rule) : Derivation → List Leaf
  | token _ => []
  | node i ds =>
    match rules[i]? with
    | some r => leavesAtParts rules r r.parts ds
    | none => []

/-- The leaves of derivations of some parts of a rule. -/
def leavesAtParts (rules : List Rule) (r : Rule) : List Part → List Derivation → List Leaf
  | p :: ps, token t :: ds => ⟨t, r, p⟩ :: leavesAtParts rules r ps ds
  | _ :: ps, node i es :: ds => leavesAt rules (node i es) ++ leavesAtParts rules r ps ds
  | _, _ => []

end

end Derivation

section Trees

variable {rules : List Rule} {stands : String → Token → Prop}

/-- The leaves of trees are their tokens. -/
theorem Trees.map_token_leavesAtParts {ss : List Symbol} {ts : List Token} {ds : List Derivation}
    (h : Trees rules stands ss ts ds) : ∀ (r : Rule) (ps : List Part), ps.map (·.symbol) = ss →
      (Derivation.leavesAtParts rules r ps ds).map Leaf.token = ts := by
  induction h with
  | nil =>
    intro r ps hps
    obtain rfl := List.map_eq_nil_iff.1 hps
    rfl
  | token h _ ih =>
    intro r ps hps
    obtain ⟨p, ps, rfl, -, hps⟩ := List.map_eq_cons_iff.1 hps
    rw [Derivation.leavesAtParts, List.map_cons, ih r ps hps]
  | node h _ _ ih1 ih2 =>
    intro r ps hps
    obtain ⟨p, ps, rfl, -, hps⟩ := List.map_eq_cons_iff.1 hps
    rw [Derivation.leavesAtParts, List.map_append, ih2 r ps hps, Derivation.leavesAt, h]
    exact congrArg (· ++ _) (ih1 _ _ rfl)

/-- Each leaf stands at a part of its rule, for a terminal that it is named after. -/
theorem Trees.symbol_leavesAtParts {ss : List Symbol} {ts : List Token} {ds : List Derivation}
    (h : Trees rules IsNamed ss ts ds) : ∀ (r : Rule) (ps : List Part), r ∈ rules → ps ⊆ r.parts →
      ps.map (·.symbol) = ss → ∀ l ∈ Derivation.leavesAtParts rules r ps ds,
        l.rule ∈ rules ∧ l.part ∈ l.rule.parts ∧ l.part.symbol = .terminal l.token.kind := by
  induction h with
  | nil =>
    intro r ps _ _ hps
    obtain rfl := List.map_eq_nil_iff.1 hps
    simp [Derivation.leavesAtParts]
  | @token a t ss ts ds h _ ih =>
    intro r ps hr hsub hps
    obtain ⟨p, ps, rfl, hp, hps⟩ := List.map_eq_cons_iff.1 hps
    obtain ⟨hmem, hsub⟩ := List.cons_subset.1 hsub
    rw [Derivation.leavesAtParts, List.forall_mem_cons]
    exact ⟨⟨hr, hmem, hp.trans (congrArg Symbol.terminal (Eq.symm h))⟩, ih r ps hr hsub hps⟩
  | node h _ _ ih1 ih2 =>
    intro r ps hr hsub hps
    obtain ⟨p, ps, rfl, -, hps⟩ := List.map_eq_cons_iff.1 hps
    rw [Derivation.leavesAtParts, List.forall_mem_append, Derivation.leavesAt, h]
    exact ⟨ih1 _ _ (List.mem_of_getElem? h) (List.Subset.refl _) rfl,
      ih2 r ps hr (List.cons_subset.1 hsub).2 hps⟩

end Trees

/-! ## Tokens of values -/

/-- What is not dropped keeps its tokens. -/
theorem Slot.tokensOf_contribution_of_ne_drop {slot : Slot} (h : slot ≠ .drop) (c : Child) :
    Child.tokensOf (slot.contribution c) = c.tokens := by
  cases slot with
  | drop => exact absurd rfl h
  | keep => simp [contribution, Child.tokensOf]
  | inline =>
    cases c with
    | token t => simp [contribution, Child.tokensOf]
    | tree t =>
      obtain ⟨l, cs, span⟩ := t
      rw [contribution]
      split
      · rw [Child.tokens, Tree.tokens]
      · simp [Child.tokensOf]

namespace Shaping

variable {s : Shaping} {rules : List Rule} {stands : String → Token → Prop} {act : Nat → Action}

/-- What a rule keeps of the values of derivations has the tokens of the leaves that are shown. -/
theorem tokensOf_contributions_eq (hs : s.actions = []) (hact : ∀ i r, rules[i]? = some r → act i = s.action r)
    {ss : List Symbol} {ts : List Token} {ds : List Derivation} (h : Trees rules stands ss ts ds) :
    ∀ (r : Rule) (ps : List Part), ps.map (·.symbol) = ss →
      Child.tokensOf (contributions (s.keepAllTokens || r.options.keepAllTokens) ps (Derivation.buildAll act ds)) =
        ((Derivation.leavesAtParts rules r ps ds).filter (·.isShown s)).map Leaf.token := by
  induction h with
  | nil =>
    intro r ps hps
    obtain rfl := List.map_eq_nil_iff.1 hps
    rfl
  | @token a t ss ts ds h _ ih =>
    intro r ps hps
    obtain ⟨p, ps, rfl, hp, hps⟩ := List.map_eq_cons_iff.1 hps
    rw [Derivation.buildAll, Derivation.build, contributions, Child.tokensOf_append, ih r ps hps,
      Derivation.leavesAtParts, List.filter_cons, Part.slot, hp, Leaf.isShown]
    cases p.hidden && !(s.keepAllTokens || r.options.keepAllTokens) <;> rfl
  | @node i r' ss us ts cs ds h _ _ ih1 ih2 =>
    intro r ps hps
    obtain ⟨p, ps, rfl, hp, hps⟩ := List.map_eq_cons_iff.1 hps
    have hslot : p.slot (s.keepAllTokens || r.options.keepAllTokens) ≠ .drop := by
      rw [Part.slot, hp]
      dsimp only
      split <;> simp
    rw [Derivation.buildAll, Derivation.build, contributions, Child.tokensOf_append, ih2 r ps hps,
      Slot.tokensOf_contribution_of_ne_drop hslot, hact i r' h, tokens_action_eq hs, kept, ih1 r' r'.parts rfl,
      Derivation.leavesAtParts, List.filter_append, List.map_append, Derivation.leavesAt, h]

end Shaping

/-- In a grammar that was built, and without actions of the program, the tokens of a derivation's value are the leaves
that are shown, in order. -/
theorem GrammarDraft.tokens_build_eq_shown {d : GrammarDraft} {g : Grammar} (hb : d.build = .ok g) {s : Shaping}
    (hs : s.actions = []) {n : String} {ts : List Token} {D : Derivation}
    (hD : Trees g.rules IsNamed [.nonterminal n] ts [D]) :
    ((D.leavesAt g.rules).map Leaf.token = D.leaves ∧ ∀ l ∈ D.leavesAt g.rules,
      l.rule ∈ g.rules ∧ l.part ∈ l.rule.parts ∧ l.part.symbol = .terminal l.token.kind) ∧
    (D.build ((g.parserConfig s).actions.atPlace g.rules)).tokens =
      ((D.leavesAt g.rules).filter (·.isShown s)).map Leaf.token := by
  obtain ⟨i, r, ds, hr, -, hds, inner⟩ := trees_nonterminal_iff.1 hD
  obtain rfl := (List.cons.inj hds).1
  have hact : ∀ i r, g.rules[i]? = some r → (s.ofRules g.rules).atPlace g.rules i = s.action r := fun i r h => by
    rw [Actions.atPlace_eq h, s.apply_ofRules_standing (List.mem_of_getElem? h),
      Rule.standing_eq_self (rulesNumbered_build hb).productions (List.mem_of_getElem? h)]
  have hleaves : (Derivation.node i ds).leavesAt g.rules = Derivation.leavesAtParts g.rules r r.parts ds := by
    rw [Derivation.leavesAt, hr]
  rw [hleaves, Derivation.leaves, inner.leaves_eq]
  refine ⟨⟨inner.map_token_leavesAtParts r r.parts rfl,
    inner.symbol_leavesAtParts r r.parts (List.mem_of_getElem? hr) (List.Subset.refl _) rfl⟩, ?_⟩
  rw [show (g.parserConfig s).actions = s.ofRules g.rules from rfl, Derivation.build, hact i r hr,
    Shaping.tokens_action_eq hs, Shaping.kept, Shaping.tokensOf_contributions_eq hs hact inner r r.parts rfl]

/-! ## Items in brackets -/

/-- Two items in brackets. They are letters, a single one in brackets of its own, and two of them under a label with an
underscore. -/
def bracketedItems : GrammarDraft where
  terminals := [{ name := "X", pattern := .literal "x" "" }]
  rules :=
    [{ origin := "start", items := ["\"(\"", "_items", "\")\""] },
     { origin := "_items", items := ["item", "item"] },
     { origin := "item", items := ["\"<\"", "X", "\">\""], options := { expandSingle := true } },
     { origin := "item", items := ["X", "X"], nodeLabel := some "_double" }]

namespace bracketedItems

/-- The grammar of the draft. -/
def grammar : Grammar where
  terminals := [{ name := "X", pattern := .literal "x" "" }, { name := "LPAR", pattern := .literal "(" "" },
    { name := "RPAR", pattern := .literal ")" "" }, { name := "LESSTHAN", pattern := .literal "<" "" },
    { name := "MORETHAN", pattern := .literal ">" "" }]
  rules :=
    [⟨"start", [⟨.terminal "LPAR", true⟩, ⟨.nonterminal "_items", false⟩, ⟨.terminal "RPAR", true⟩], 0, none,
      { emptyIndices := [false, false, false] }⟩,
     ⟨"_items", [⟨.nonterminal "item", false⟩, ⟨.nonterminal "item", false⟩], 0, none,
      { emptyIndices := [false, false] }⟩,
     ⟨"item", [⟨.terminal "LESSTHAN", true⟩, ⟨.terminal "X", false⟩, ⟨.terminal "MORETHAN", true⟩], 0, none,
      { expandSingle := true, emptyIndices := [false, false, false] }⟩,
     ⟨"item", [⟨.terminal "X", false⟩, ⟨.terminal "X", false⟩], 1, some "_double",
      { emptyIndices := [false, false] }⟩]
  start := ["start"]
  ignore := []

def letter : Token := .ofText "X" "x"

/-- Both kinds of items. -/
def derivation : Derivation :=
  .node 0 [.token (.ofText "LPAR" "("),
    .node 1 [.node 2 [.token (.ofText "LESSTHAN" "<"), .token letter, .token (.ofText "MORETHAN" ">")],
      .node 3 [.token letter, .token letter]],
    .token (.ofText "RPAR" ")")]

theorem trees_derivation : Trees grammar.rules IsNamed [.nonterminal "start"] derivation.leaves [derivation] := by
  have hfirst : Trees grammar.rules IsNamed [.nonterminal "item"] _ _ :=
    Trees.of_rule (i := 2) (r := grammar.rules[2]) rfl (.token (t := .ofText "LESSTHAN" "<") rfl
      (.token (t := letter) rfl (.token (t := .ofText "MORETHAN" ">") rfl .nil)))
  have hsecond : Trees grammar.rules IsNamed [.nonterminal "item"] _ _ :=
    Trees.of_rule (i := 3) (r := grammar.rules[3]) rfl (.token (t := letter) rfl (.token (t := letter) rfl .nil))
  have hitems := Trees.of_rule (i := 1) (r := grammar.rules[1]) rfl (hfirst.append hsecond)
  exact Trees.of_rule (i := 0) (r := grammar.rules[0]) rfl (.token (t := .ofText "LPAR" "(") rfl
    (hitems.append (.token (t := .ofText "RPAR" ")") rfl .nil)))

end bracketedItems

open bracketedItems in
/-- Of seven tokens the letters are shown, in whatever node they end up. -/
theorem GrammarDraft.tokens_build_bracketedItems : bracketedItems.build = .ok grammar ∧
    Trees grammar.rules IsNamed [.nonterminal "start"] derivation.leaves [derivation] ∧
    (derivation.build ((grammar.parserConfig {}).actions.atPlace grammar.rules)).tokens = [letter, letter, letter] :=
  have hbuild : bracketedItems.build = .ok grammar := by cbv
  ⟨hbuild, trees_derivation, (tokens_build_eq_shown hbuild rfl trees_derivation).2⟩

end GrammarKit
