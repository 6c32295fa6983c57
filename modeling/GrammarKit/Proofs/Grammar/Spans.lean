/-
Spans of nodes. A node that is built gets the least span over the values of its branches, before any of them is left out
or gives way to its children. So the span reaches from the first token below the node to the last one, as far as the
values have the spans of what is below them. A node that gives way to an only child has not: its value has the span of
the child, and the tokens that the node has left out are no part of it. Such a node takes the span from the nodes above
it where no other token is further out, and only there.
-/
import GrammarKit.Grammar.Draft
import GrammarKit.Proofs.Grammar.Covering
import GrammarKit.Proofs.Scan.Coverage
import Mathlib

namespace GrammarKit

/-! ## Branches -/

namespace Derivation

/-- A derivation right below a node. -/
def HasBranch : Derivation → Derivation → Prop
  | node _ ds, d => d ∈ ds
  | token _, _ => False

/-- A derivation of a symbol over tokens that follow each other. -/
structure Sound (rules : List Rule) (stands : String → Token → Prop) (d : Derivation) : Prop where
  trees : ∃ x, Trees rules stands [x] d.leaves [d]
  inOrder : Token.InOrder d.leaves

end Derivation

section Trees

variable {rules : List Rule} {stands : String → Token → Prop}

namespace Derivation.Sound

theorem exists_rule {i : Nat} {ds : List Derivation} (h : (node i ds).Sound rules stands) :
    ∃ r ts, rules[i]? = some r ∧ Trees rules stands r.symbols ts ds := by
  obtain ⟨x, h⟩ := h.trees
  generalize (node i ds).leaves = ts at h
  cases h with
  | node hr inner rest =>
    cases rest
    exact ⟨_, _, hr, inner⟩

theorem branch {N d : Derivation} (h : N.Sound rules stands) (hd : N.HasBranch d) : d.Sound rules stands := by
  cases N with
  | token t => exact hd.elim
  | node i ds =>
    obtain ⟨r, ts, -, inner⟩ := h.exists_rule
    exact ⟨inner.of_mem hd, h.inOrder.sublist (sublist_leavesAll hd)⟩

theorem below {N d : Derivation} (h : N.Sound rules stands) (hd : Relation.ReflTransGen HasBranch N d) :
    d.Sound rules stands := by
  induction hd with
  | refl => exact h
  | tail _ hd ih => exact ih.branch hd

end Derivation.Sound

end Trees

/-! ## Values of derivations -/

namespace Shaping

/-- The value of a derivation. -/
def valueOf (s : Shaping) (rules : List Rule) (d : Derivation) : Child := d.build ((s.ofRules rules).atPlace rules)

theorem valueOf_node (s : Shaping) {rules : List Rule} {i : Nat} {r : Rule} (hr : rules[i]? = some r)
    (ds : List Derivation) :
    s.valueOf rules (.node i ds) = s.action (r.standing rules) (ds.map (s.valueOf rules)) := by
  rw [valueOf, Derivation.build, Actions.atPlace_eq hr, s.apply_ofRules_standing (List.mem_of_getElem? hr),
    Derivation.buildAll_eq_map]
  rfl

end Shaping

/-- A node that is no tree of its own: its value is its only child. -/
def Derivation.GivesWay (s : Shaping) (rules : List Rule) : Derivation → Prop
  | node i ds => ∃ r, rules[i]? = some r ∧ (r.standing rules).options.expandSingle = true ∧
    (s.kept (r.standing rules) (ds.map (s.valueOf rules))).length = 1
  | token _ => False

theorem Derivation.over_leavesAll {f : Derivation → Child} {ds : List Derivation}
    (h : ∀ d ∈ ds, (f d).Over d.leaves) : ∀ v ∈ ds.map f, v.Over (leavesAll ds) := by
  intro v hv
  obtain ⟨d, hd, rfl⟩ := List.mem_map.1 hv
  exact (h d hd).mono (sublist_leavesAll hd).subset

/-- The values of derivations are over their leaves. -/
theorem Trees.over_valueOf {rules : List Rule} {stands : String → Token → Prop} {s : Shaping} (hs : s.actions = [])
    (hpropagates : s.propagatePositions = true) {ss : List Symbol} {ts : List Token} {ds : List Derivation}
    (h : Trees rules stands ss ts ds) : ∀ d ∈ ds, (s.valueOf rules d).Over d.leaves := by
  induction h with
  | nil => simp
  | @token a t ss ts ds _ _ ih =>
    refine List.forall_mem_cons.2 ⟨.token fun b hb side => ⟨t, List.mem_singleton_self t, b, hb, rfl⟩, ih⟩
  | @node i r ss us ts cs ds h _ _ ih1 ih2 =>
    refine List.forall_mem_cons.2 ⟨?_, ih2⟩
    rw [s.valueOf_node h]
    exact Shaping.over_action (Derivation.over_leavesAll ih1) hs hpropagates

theorem Derivation.Sound.over_valueOf {rules : List Rule} {stands : String → Token → Prop} {s : Shaping}
    (hs : s.actions = []) (hpropagates : s.propagatePositions = true) {d : Derivation} (h : d.Sound rules stands) :
    (s.valueOf rules d).Over d.leaves := by
  obtain ⟨x, h⟩ := h.trees
  exact h.over_valueOf hs hpropagates d (List.mem_singleton_self d)

/-! ## Edges -/

namespace Side

variable {side : Side}

/-- A branch of a node that no leaf of another branch is further out than. -/
def Edge (side : Side) : Derivation → Derivation → Prop
  | .node _ ds, d => ∃ outer inner, side.arrange ds = outer ++ d :: inner ∧ ∀ e ∈ outer, e.leaves = []
  | .token _, _ => False

/-- The span of a value ends where the outermost of the derivation's tokens ends. -/
def Reaches (side : Side) (d : Derivation) (v : Child) : Prop :=
  v.span.map side.place = ((side.outer? d.leaves).bind Token.span).map side.place

theorem Edge.hasBranch {N d : Derivation} (h : side.Edge N d) : N.HasBranch d := by
  cases N with
  | token t => exact h
  | node i ds =>
    obtain ⟨outer, inner, harrange, -⟩ := h
    show d ∈ ds
    rw [← side.mem_arrange, harrange]
    simp

/-- Tokens that follow each other lie the deeper the further in they are. -/
theorem depth_lt {ts xs ys : List Token} (h : Token.InOrder ts) (harrange : side.arrange ts = xs ++ ys) {x y : Token}
    (hx : x ∈ xs) (hy : y ∈ ys) {a b : Span} (ha : a ∈ x.span) (hb : b ∈ y.span) : side.depth a < side.depth b := by
  have hnonempty : ∀ {t : Token}, t ∈ ts → ∀ c ∈ t.span, c.start < c.stop := fun ht c hc => by
    obtain ⟨c', hc', hlt⟩ := h.exists_span _ ht
    obtain rfl := Option.some.inj (hc'.symm.trans hc)
    exact hlt
  have hmem : ∀ {t : Token}, t ∈ xs ++ ys → t ∈ ts := fun ht => by rwa [← harrange, side.mem_arrange] at ht
  have hax := hnonempty (hmem (List.mem_append_left _ hx)) a ha
  have hby := hnonempty (hmem (List.mem_append_right _ hy)) b hb
  have hpairwise := h.pairwise
  cases side with
  | first =>
    obtain rfl : ts = xs ++ ys := harrange
    have := (List.pairwise_append.1 hpairwise).2.2 x hx y hy a ha b hb
    simp only [depth]
    omega
  | last =>
    obtain rfl : ts = ys.reverse ++ xs.reverse := by
      rw [← List.reverse_append, ← show ts.reverse = xs ++ ys from harrange, List.reverse_reverse]
    have := (List.pairwise_append.1 hpairwise).2.2 y (List.mem_reverse.2 hy) x (List.mem_reverse.2 hx) b hb a ha
    simp only [depth]
    omega

section Value

variable {d : Derivation} {v : Child} (hover : v.Over d.leaves)
include hover

theorem reaches_of_leaves_eq_nil (h : d.leaves = []) : side.Reaches d v := by
  have hnone : v.span = none := Option.eq_none_iff_forall_not_mem.2 fun a ha => (hover.endsIn a ha).ne_nil h
  rw [Reaches, hnone, h, outer?, arrange_eq_nil.2 rfl]
  rfl

/-- A value reaches an end as soon as it is as far out. -/
theorem reaches_iff (hord : Token.InOrder d.leaves) {e : Token} {rest : List Token} {b : Span}
    (he : side.arrange d.leaves = e :: rest) (hb : b ∈ e.span) :
    side.Reaches d v ↔ ∃ a ∈ v.span, side.depth a ≤ side.depth b := by
  have hplace : ((side.outer? d.leaves).bind Token.span).map side.place = some (side.place b) := by
    rw [outer?, he, List.head?_cons, Option.bind_some, Option.mem_def.1 hb, Option.map_some]
  rw [Reaches, hplace, Option.map_eq_some_iff]
  refine exists_congr fun a => and_congr_right fun ha => ⟨fun h => (side.depth_eq_of_place_eq h).le, fun hle => ?_⟩
  obtain ⟨u, hu, c, hc, hac⟩ := hover.endsIn a ha side
  rw [← side.mem_arrange, he] at hu
  rw [hac]
  rw [side.depth_eq_of_place_eq hac] at hle
  rcases List.mem_cons.1 hu with rfl | hu
  · rw [Option.some.inj (hc.symm.trans hb)]
  · have hlt := side.depth_lt hord (show _ = [e] ++ rest from he) (List.mem_singleton_self e) hu hb hc
    omega

end Value

/-- What is furthest out at a node is so at each of the outermost branches that have leaves. -/
theorem arrange_leaves_of_edge {i : Nat} {ds outer inner : List Derivation} {d : Derivation}
    (h : side.arrange ds = outer ++ d :: inner) (houter : ∀ e ∈ outer, e.leaves = []) :
    side.arrange (Derivation.node i ds).leaves =
      side.arrange d.leaves ++ inner.flatMap fun e => side.arrange e.leaves := by
  have hnil : outer.flatMap (fun e => side.arrange e.leaves) = [] :=
    List.flatMap_eq_nil_iff.2 fun e he => arrange_eq_nil.2 (houter e he)
  rw [Derivation.leaves, Derivation.leavesAll_eq_flatMap, arrange_flatMap, h, List.flatMap_append, hnil,
    List.nil_append, List.flatMap_cons]

/-- A node with leaves has an outermost branch with leaves. -/
theorem exists_edge {i : Nat} {ds : List Derivation} (h : (Derivation.node i ds).leaves ≠ []) :
    ∃ d, side.Edge (.node i ds) d ∧ d.leaves ≠ [] := by
  cases hfind : (side.arrange ds).find? fun d => !d.leaves.isEmpty with
  | none =>
    refine absurd ?_ h
    rw [Derivation.leaves, Derivation.leavesAll_eq_flatMap, List.flatMap_eq_nil_iff]
    exact fun d hd => by simpa using List.find?_eq_none.1 hfind d (side.mem_arrange.2 hd)
  | some d =>
    obtain ⟨hd, outer, inner, harrange, houter⟩ := List.find?_eq_some_iff_append.1 hfind
    exact ⟨d, ⟨outer, inner, harrange, fun e he => by simpa using houter e he⟩, by simpa using hd⟩

section Step

variable {rules : List Rule} {stands : String → Token → Prop} {s : Shaping} (hs : s.actions = [])
  (hpropagates : s.propagatePositions = true) {N d : Derivation} (hN : N.Sound rules stands)
include hs hpropagates hN

/-- A branch whose value is as far out as a node's tokens is the outermost branch with leaves. -/
theorem reaches_of_branch (hedge : side.Edge N d) {e : Token} {rest : List Token} {b : Span}
    (he : side.arrange d.leaves = e :: rest) (hb : b ∈ e.span) {d' : Derivation} (hd' : N.HasBranch d') {a : Span}
    (ha : a ∈ (s.valueOf rules d').span) (hle : side.depth a ≤ side.depth b) : side.Reaches d (s.valueOf rules d) := by
  cases N with
  | token t => exact hedge.elim
  | node i ds =>
    have hsound := hN.branch hd'
    obtain ⟨u, hu, c, hc, hac⟩ := (hsound.over_valueOf hs hpropagates).endsIn a ha side
    obtain ⟨outer, inner, harrange, houter⟩ := hedge
    have hmem : d' ∈ outer ++ d :: inner := by rw [← harrange, side.mem_arrange]; exact hd'
    rcases List.mem_append.1 hmem with hmem | hmem
    · rw [houter d' hmem] at hu
      cases hu
    · rcases List.mem_cons.1 hmem with rfl | hmem
      · exact (reaches_iff (hsound.over_valueOf hs hpropagates) hsound.inOrder he hb).2 ⟨a, ha, hle⟩
      · -- the leaves of the branches further in lie deeper
        have hinner : u ∈ inner.flatMap fun f => side.arrange f.leaves :=
          List.mem_flatMap.2 ⟨d', hmem, side.mem_arrange.2 hu⟩
        have hlt := side.depth_lt hN.inOrder (arrange_leaves_of_edge harrange houter)
          (he ▸ List.mem_cons_self ..) hinner hb hc
        rw [← side.depth_eq_of_place_eq hac] at hlt
        omega

omit hs hpropagates in
/-- A node and an outermost branch with leaves have their outermost leaf in common. -/
theorem exists_outermost (hedge : side.Edge N d) (hd : d.leaves ≠ []) : ∃ e rest rest' b,
    side.arrange d.leaves = e :: rest ∧ side.arrange N.leaves = e :: rest' ∧ b ∈ e.span := by
  cases N with
  | token t => exact hedge.elim
  | node i ds =>
    obtain ⟨outer, inner, harrange, houter⟩ := id hedge
    obtain ⟨e, rest, he⟩ := List.exists_cons_of_ne_nil (mt arrange_eq_nil.1 hd)
    have hmem : e ∈ d.leaves := by rw [← side.mem_arrange, he]; exact List.mem_cons_self ..
    obtain ⟨b, hb, -⟩ := (hN.branch hedge.hasBranch).inOrder.exists_span e hmem
    refine ⟨e, rest, rest ++ inner.flatMap fun f => side.arrange f.leaves, b, he, ?_, hb⟩
    rw [arrange_leaves_of_edge harrange houter, he, List.cons_append]

/-- What a node's value reaches, the values of the outermost branches reach. -/
theorem reaches_edge (hedge : side.Edge N d) (h : side.Reaches N (s.valueOf rules N)) :
    side.Reaches d (s.valueOf rules d) := by
  have hsound := hN.branch hedge.hasBranch
  by_cases hleaves : d.leaves = []
  · exact reaches_of_leaves_eq_nil (hsound.over_valueOf hs hpropagates) hleaves
  obtain ⟨e, rest, rest', b, hd, hNleaves, hb⟩ := exists_outermost hN hedge hleaves
  obtain ⟨a, ha, hle⟩ := (reaches_iff (hN.over_valueOf hs hpropagates) hN.inOrder hNleaves hb).1 h
  cases N with
  | token t => exact hedge.elim
  | node i ds =>
    obtain ⟨r, ts, hr, inner⟩ := hN.exists_rule
    rw [s.valueOf_node hr] at ha
    obtain ⟨v, hv, a', ha', hle'⟩ := Shaping.exists_of_span_action
      (Derivation.over_leavesAll (inner.over_valueOf hs hpropagates)) hs hpropagates side ha
    obtain ⟨d', hd', rfl⟩ := List.mem_map.1 hv
    exact reaches_of_branch hs hpropagates hN hedge hd hb hd' ha' (hle'.trans hle)

/-- A node that is built reaches what the value of an outermost branch with leaves reaches. -/
theorem reaches_of_edge (hbuilt : ¬ N.GivesWay s rules) (hedge : side.Edge N d) (hleaves : d.leaves ≠ [])
    (h : side.Reaches d (s.valueOf rules d)) : side.Reaches N (s.valueOf rules N) := by
  have hsound := hN.branch hedge.hasBranch
  obtain ⟨e, rest, rest', b, hd, hNleaves, hb⟩ := exists_outermost hN hedge hleaves
  obtain ⟨a, ha, hle⟩ := (reaches_iff (hsound.over_valueOf hs hpropagates) hsound.inOrder hd hb).1 h
  refine (reaches_iff (hN.over_valueOf hs hpropagates) hN.inOrder hNleaves hb).2 ?_
  cases N with
  | token t => exact hedge.elim
  | node i ds =>
    obtain ⟨r, ts, hr, inner⟩ := hN.exists_rule
    rw [s.valueOf_node hr]
    obtain ⟨a', ha', hle'⟩ := Shaping.exists_span_of_built hs hpropagates (fun hone => hbuilt ⟨r, hr, hone⟩)
      (List.mem_map_of_mem hedge.hasBranch) ha
    exact ⟨a', ha', (hle' side).trans hle⟩

/-- What a node's value reaches, the values of all nodes at this end of it reach. -/
theorem reaches_below {M : Derivation} (h : side.Reaches N (s.valueOf rules N))
    (hM : Relation.TransGen side.Edge N M) : M.Sound rules stands ∧ side.Reaches M (s.valueOf rules M) := by
  induction hM with
  | single hedge => exact ⟨hN.branch hedge.hasBranch, reaches_edge hs hpropagates hN hedge h⟩
  | tail _ hedge ih => exact ⟨ih.1.branch hedge.hasBranch, reaches_edge hs hpropagates ih.1 hedge ih.2⟩

/-- A node that is built reaches an end if the nodes there that give way to their only child do. -/
theorem reaches_of_below (hbuilt : ¬ N.GivesWay s rules)
    (h : ∀ M, Relation.TransGen side.Edge N M → M.GivesWay s rules → side.Reaches M (s.valueOf rules M)) :
    side.Reaches N (s.valueOf rules N) := by
  induction hweight : N.weight using Nat.strong_induction_on generalizing N with
  | _ n ih =>
    by_cases hleaves : N.leaves = []
    · exact reaches_of_leaves_eq_nil (hN.over_valueOf hs hpropagates) hleaves
    cases N with
    | token t => cases side <;> rfl
    | node i ds =>
      obtain ⟨d, hedge, hd⟩ := side.exists_edge hleaves
      refine reaches_of_edge hs hpropagates hN hbuilt hedge hd ?_
      by_cases hgives : d.GivesWay s rules
      · exact h d (.single hedge) hgives
      · have hlt : d.weight < n := hweight ▸ Derivation.weight_lt_of_mem hedge.hasBranch
        exact ih _ hlt (hN.branch hedge.hasBranch) hgives (fun M hM => h M (hM.head hedge)) rfl

end Step

end Side

/-! ## Whole spans -/

/-- The span from the start of the first token to the end of the last one. -/
def Token.hull? (ts : List Token) : Option Span :=
  match ts.head?.bind Token.span, ts.getLast?.bind Token.span with
  | some a, some b => some ⟨a.start, a.line, a.column, b.stop, b.stopLine, b.stopColumn⟩
  | _, _ => none

theorem Side.place_hull? {ts : List Token} (h : Token.InOrder ts) (side : Side) :
    (Token.hull? ts).map side.place = ((side.outer? ts).bind Token.span).map side.place := by
  have hspan : ∀ {e : Token}, e ∈ ts → ∃ a, e.span = some a := fun he =>
    have ⟨a, ha, _⟩ := h.exists_span _ he
    ⟨a, ha⟩
  by_cases hnil : ts = []
  · subst hnil
    cases side <;> rfl
  · have hhead := List.head?_eq_some_head hnil
    have hlast := List.getLast?_eq_some_getLast hnil
    obtain ⟨a, ha⟩ := hspan (List.head_mem hnil)
    obtain ⟨b, hb⟩ := hspan (List.getLast_mem hnil)
    have hhull : Token.hull? ts = some ⟨a.start, a.line, a.column, b.stop, b.stopLine, b.stopColumn⟩ := by
      rw [Token.hull?, hhead, hlast, Option.bind_some, Option.bind_some, ha, hb]
    rw [hhull]
    cases side with
    | first => rw [outer?, arrange, hhead, Option.bind_some, ha]; rfl
    | last => rw [outer?, arrange, List.head?_reverse, hlast, Option.bind_some, hb]; rfl

/-- A span is that of all tokens just if it reaches both ends. -/
theorem Side.eq_hull?_iff {d : Derivation} (h : Token.InOrder d.leaves) {v : Child} :
    v.span = Token.hull? d.leaves ↔ ∀ side : Side, side.Reaches d v := by
  simp only [Reaches, ← place_hull? h]
  refine ⟨fun heq side => by rw [heq], fun hplaces => ?_⟩
  cases hv : v.span with
  | none =>
    have hfirst := hplaces first
    rw [hv, Option.map_none, eq_comm, Option.map_eq_none_iff] at hfirst
    exact hfirst.symm
  | some a =>
    have hfirst := hplaces first
    rw [hv, Option.map_some, eq_comm, Option.map_eq_some_iff] at hfirst
    obtain ⟨b, hb, -⟩ := hfirst
    rw [hb]
    refine congrArg some (Side.eq_of_places_eq fun side => ?_)
    have hside := hplaces side
    rw [hv, hb] at hside
    exact Option.some.inj hside

/-- A node that is built over the tokens of a window has the span from the first token below it to the last one, and none
if there is no token below it, just if this holds, at each end, of the nodes there that give way to their only child: the
value of such a node reaches as far as its tokens. -/
theorem Shaping.span_valueOf_iff {c : LexerConfig} (hcallbacks : c.callbacks = []) {l : Lexer} (hl : l.MadeFrom c)
    (w : Window) {rules : List Rule} {s : Shaping} (hs : s.actions = []) (hpropagates : s.propagatePositions = true)
    {n : String} {D : Derivation}
    (hD : Trees rules IsNamed [.nonterminal n] (TokenSource.drain (Scanner.start l w)).1 [D]) {i : Nat}
    {ds : List Derivation} (hN : Relation.ReflTransGen Derivation.HasBranch D (.node i ds))
    (hbuilt : ¬ (Derivation.node i ds).GivesWay s rules) :
    ∃ t, s.valueOf rules (.node i ds) = .tree t ∧ (t.span = Token.hull? (Derivation.node i ds).leaves ↔
      ∀ (side : Side) (M : Derivation), Relation.TransGen side.Edge (.node i ds) M → M.GivesWay s rules →
        side.Reaches M (s.valueOf rules M)) := by
  have hleaves : D.leaves = (TokenSource.drain (Scanner.start l w)).1 := by
    rw [← hD.leaves_eq, Derivation.leavesAll, Derivation.leavesAll, List.append_nil]
  have hsound : (Derivation.node i ds).Sound rules IsNamed :=
    Derivation.Sound.below ⟨⟨_, hleaves ▸ hD⟩, hleaves ▸ Scanner.inOrder_drain hcallbacks hl w⟩ hN
  obtain ⟨r, ts, hr, -⟩ := hsound.exists_rule
  have hvalue := s.valueOf_node hr ds
  rw [Shaping.action_eq_tree hs fun hone => hbuilt ⟨r, hr, hone⟩] at hvalue
  refine ⟨_, hvalue, ?_⟩
  have hiff := Side.eq_hull?_iff hsound.inOrder (v := s.valueOf rules (.node i ds))
  rw [hvalue] at hiff
  refine hiff.trans (forall_congr' fun side => ?_)
  rw [← hvalue]
  exact ⟨fun h M hM _ => (Side.reaches_below hs hpropagates hsound h hM).2,
    Side.reaches_of_below hs hpropagates hsound hbuilt⟩

/-! ## Letters, some of them in brackets -/

/-- Three letters. Each may be in brackets, which leave no trace but in the spans. -/
def looseLetters : GrammarDraft where
  terminals := [{ name := "X", pattern := .literal "x" "" }]
  rules :=
    [{ origin := "start", items := ["item", "item", "item"] },
     { origin := "item", items := ["X"], options := { expandSingle := true } },
     { origin := "item", items := ["\"(\"", "X", "\")\""], options := { expandSingle := true } }]

namespace looseLetters

/-- The grammar of the draft. -/
def grammar : Grammar where
  terminals := [{ name := "X", pattern := .literal "x" "" }, { name := "LPAR", pattern := .literal "(" "" },
    { name := "RPAR", pattern := .literal ")" "" }]
  rules :=
    [⟨"start", [⟨.nonterminal "item", false⟩, ⟨.nonterminal "item", false⟩, ⟨.nonterminal "item", false⟩], 0, none,
      { emptyIndices := [false, false, false] }⟩,
     ⟨"item", [⟨.terminal "X", false⟩], 0, none, { expandSingle := true, emptyIndices := [false] }⟩,
     ⟨"item", [⟨.terminal "LPAR", true⟩, ⟨.terminal "X", false⟩, ⟨.terminal "RPAR", true⟩], 1, none,
      { expandSingle := true, emptyIndices := [false, false, false] }⟩]
  start := ["start"]
  ignore := []

/-- A token of one character at an offset of the first line. -/
def single (kind text : String) (offset : Nat) : Token :=
  .ofText kind text (some ⟨offset, 1, offset + 1, offset + 1, 1, offset + 2⟩)

def letter (offset : Nat) : Derivation := .node 1 [.token (single "X" "x" offset)]

def bracketed (offset : Nat) : Derivation :=
  .node 2 [.token (single "LPAR" "(" offset), .token (single "X" "x" (offset + 1)),
    .token (single "RPAR" ")" (offset + 2))]

/-- The letter in brackets is the first one. -/
def bracketedFirst : Derivation := .node 0 [bracketed 0, letter 3, letter 4]

/-- The letter in brackets is the one between the others. -/
def bracketedBetween : Derivation := .node 0 [letter 0, bracketed 1, letter 4]

theorem exists_lexicon : ∃ x, Lexicon.ofConfig grammar.lexerConfig = .ok x ∧
    (TokenSource.drain (Scanner.start (.basic x) (.whole ['(', 'x', ')', 'x', 'x']))).1 = bracketedFirst.leaves ∧
    (TokenSource.drain (Scanner.start (.basic x) (.whole ['x', '(', 'x', ')', 'x']))).1 = bracketedBetween.leaves := by
  have hfacts : (Lexicon.ofConfig grammar.lexerConfig).map (fun x =>
      [['(', 'x', ')', 'x', 'x'], ['x', '(', 'x', ')', 'x']].map fun text =>
        let s := Scanner.start (.basic x) (.whole text)
        (s.returned (List.replicate 5 (.pull none)), (s.run (List.replicate 5 (.pull none))).token? (.pull none))) =
      .ok [(bracketedFirst.leaves, none), (bracketedBetween.leaves, none)] := by cbv
  obtain ⟨x, hx, hfacts⟩ := map_eq_ok.1 hfacts
  simp only [List.map_cons, List.map_nil, List.cons.injEq, Prod.mk.injEq, and_true] at hfacts
  obtain ⟨⟨hfirst, hend⟩, hbetween, hend'⟩ := hfacts
  refine ⟨x, hx, ?_, ?_⟩
  · rw [Scanner.drain_eq_returned (n := 5) (by rw [hfirst]; rfl) hend, hfirst]
  · rw [Scanner.drain_eq_returned (n := 5) (by rw [hbetween]; rfl) hend', hbetween]

theorem trees_letter (offset : Nat) :
    Trees grammar.rules IsNamed [.nonterminal "item"] (letter offset).leaves [letter offset] :=
  Trees.of_rule (r := grammar.rules[1]) rfl (.token rfl .nil)

theorem trees_bracketed (offset : Nat) :
    Trees grammar.rules IsNamed [.nonterminal "item"] (bracketed offset).leaves [bracketed offset] :=
  Trees.of_rule (r := grammar.rules[2]) rfl (.token rfl (.token rfl (.token rfl .nil)))

theorem trees_bracketedFirst :
    Trees grammar.rules IsNamed [.nonterminal "start"] bracketedFirst.leaves [bracketedFirst] :=
  Trees.of_rule (r := grammar.rules[0]) rfl ((trees_bracketed 0).append ((trees_letter 3).append (trees_letter 4)))

theorem trees_bracketedBetween :
    Trees grammar.rules IsNamed [.nonterminal "start"] bracketedBetween.leaves [bracketedBetween] :=
  Trees.of_rule (r := grammar.rules[0]) rfl ((trees_letter 0).append ((trees_bracketed 1).append (trees_letter 4)))

/-- Positions are propagated. -/
def positioned : Shaping := { propagatePositions := true }

theorem not_givesWay (ds : List Derivation) : ¬ (Derivation.node 0 ds).GivesWay positioned grammar.rules := by
  rintro ⟨r, hr, hexpand, -⟩
  obtain rfl := Option.some.inj (show some grammar.rules[0] = some r from hr)
  exact absurd hexpand (by decide)

end looseLetters

open looseLetters

/-- Between two letters, brackets have no part in the span of the node. -/
theorem Shaping.span_bracketedBetween : looseLetters.build = .ok grammar ∧ ∃ x t,
    Lexicon.ofConfig grammar.lexerConfig = .ok x ∧
    Trees grammar.rules IsNamed [.nonterminal "start"]
      (TokenSource.drain (Scanner.start (.basic x) (.whole ['x', '(', 'x', ')', 'x']))).1 [bracketedBetween] ∧
    positioned.valueOf grammar.rules bracketedBetween = .tree t ∧ t.span = Token.hull? bracketedBetween.leaves ∧
    ∀ (side : Side) (M : Derivation), Relation.TransGen side.Edge bracketedBetween M →
      M.GivesWay positioned grammar.rules → side.Reaches M (positioned.valueOf grammar.rules M) := by
  obtain ⟨x, hx, -, hdrain⟩ := exists_lexicon
  have htrees := hdrain ▸ trees_bracketedBetween
  obtain ⟨t, ht, hiff⟩ := span_valueOf_iff rfl (.basic hx) (.whole ['x', '(', 'x', ')', 'x']) (s := positioned) rfl rfl
    htrees .refl (not_givesWay _)
  have hspan : t.span = Token.hull? bracketedBetween.leaves := by
    have hvalue : (positioned.valueOf grammar.rules bracketedBetween).span = Token.hull? bracketedBetween.leaves := by
      decide +kernel
    rw [show positioned.valueOf grammar.rules bracketedBetween = .tree t from ht] at hvalue
    exact hvalue
  exact ⟨by cbv, x, t, hx, htrees, ht, hspan, hiff.1 hspan⟩

/-- A node that begins with a bracket does not have it in its span, where the letter in brackets has taken the place of
its own node. -/
theorem Shaping.span_bracketedFirst : looseLetters.build = .ok grammar ∧ ∃ x t,
    Lexicon.ofConfig grammar.lexerConfig = .ok x ∧
    Trees grammar.rules IsNamed [.nonterminal "start"]
      (TokenSource.drain (Scanner.start (.basic x) (.whole ['(', 'x', ')', 'x', 'x']))).1 [bracketedFirst] ∧
    ¬ bracketedFirst.GivesWay positioned grammar.rules ∧
    positioned.valueOf grammar.rules bracketedFirst = .tree t ∧ t.span = some ⟨1, 1, 2, 5, 1, 6⟩ ∧
    Token.hull? bracketedFirst.leaves = some ⟨0, 1, 1, 5, 1, 6⟩ ∧ t.span ≠ Token.hull? bracketedFirst.leaves := by
  obtain ⟨x, hx, hdrain, -⟩ := exists_lexicon
  exact ⟨by cbv, x, _, hx, hdrain ▸ trees_bracketedFirst, not_givesWay _, rfl, by decide +kernel, by decide +kernel,
    by decide +kernel⟩

end GrammarKit
