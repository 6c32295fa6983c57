/-
Trees with alternatives. Choosing one child at every node of alternatives gives plain trees; trees that are the same
leave the same choices. If the alternatives of every such node differ, all choices are the same only where there is
nothing to choose.
-/
import GrammarKit.Earley.Forest
import GrammarKit.Proofs.Tree.Sameness
import Mathlib.Data.List.Forall2

namespace GrammarKit

open Earley (ambiguousLabel)

/-! ## Choosing -/

mutual

/-- What can be left of a tree when one child is chosen at every node of alternatives. -/
def Tree.choices : Tree → List Child
  | ⟨l, cs, s⟩ =>
    if l = ambiguousLabel then Child.choicesOfAny cs
    else (Child.choicesOfAll cs).map fun ds => .tree ⟨l, ds, s⟩

def Child.choices : Child → List Child
  | .tree t => t.choices
  | .token t => [.token t]

/-- A choice of one of some children. -/
def Child.choicesOfAny : List Child → List Child
  | [] => []
  | c :: cs => c.choices ++ Child.choicesOfAny cs

/-- A choice of each of some children. -/
def Child.choicesOfAll : List Child → List (List Child)
  | [] => [[]]
  | c :: cs => c.choices.flatMap fun d => (Child.choicesOfAll cs).map (d :: ·)

end

namespace Child

theorem mem_choicesOfAny {u : Child} {cs : List Child} : u ∈ choicesOfAny cs ↔ ∃ c ∈ cs, u ∈ c.choices := by
  induction cs with
  | nil => simp [choicesOfAny]
  | cons c cs ih => simp [choicesOfAny, ih]

theorem mem_choicesOfAll {us cs : List Child} :
    us ∈ choicesOfAll cs ↔ List.Forall₂ (fun u c => u ∈ c.choices) us cs := by
  induction cs generalizing us with
  | nil => simp [choicesOfAll]
  | cons c cs ih =>
    simp only [choicesOfAll, List.mem_flatMap, List.mem_map]
    constructor
    · rintro ⟨d, hd, ds, hds, rfl⟩
      exact .cons hd (ih.1 hds)
    · rintro (_ | ⟨hd, hds⟩)
      exact ⟨_, hd, _, ih.2 hds, rfl⟩

end Child

namespace Tree

/-- Of alternatives, one is chosen. -/
theorem mem_choices_alternatives {u : Child} {cs : List Child} {s : Option Span} :
    u ∈ choices ⟨ambiguousLabel, cs, s⟩ ↔ ∃ c ∈ cs, u ∈ c.choices := by
  rw [choices, if_pos rfl, Child.mem_choicesOfAny]

/-- In a node that is not of alternatives, the children are chosen one by one. -/
theorem mem_choices_node {u : Child} {l : String} {cs : List Child} {s : Option Span} (hl : l ≠ ambiguousLabel) :
    u ∈ choices ⟨l, cs, s⟩ ↔ ∃ us, List.Forall₂ (fun u c => u ∈ c.choices) us cs ∧ u = .tree ⟨l, us, s⟩ := by
  rw [choices, if_neg hl, List.mem_map]
  simp only [Child.mem_choicesOfAll, eq_comm]

end Tree

/-! ## Trees below -/

namespace Child

theorem topDownOf_append : ∀ cs ds : List Child, topDownOf (cs ++ ds) = topDownOf cs ++ topDownOf ds
  | [], _ => rfl
  | .tree t :: cs, ds => by simp [topDownOf, topDownOf_append cs ds]
  | .token t :: cs, ds => by simp [topDownOf, topDownOf_append cs ds]

theorem mem_topDownOf {t : Tree} {cs : List Child} : t ∈ topDownOf cs ↔ ∃ c ∈ cs, t ∈ topDownOf [c] := by
  induction cs with
  | nil => simp [topDownOf]
  | cons c cs ih =>
    rw [← List.singleton_append, topDownOf_append, List.mem_append, ih]
    simp

theorem mem_topDownOf_tree {t : Tree} {l : String} {cs : List Child} {s : Option Span} :
    t ∈ topDownOf [.tree ⟨l, cs, s⟩] ↔ t = ⟨l, cs, s⟩ ∨ t ∈ topDownOf cs := by
  simp [topDownOf, Tree.topDown]

end Child

/-- Wherever a node of alternatives stands in children, it has two or more, and no two of them are the same. -/
def Diverse (cs : List Child) : Prop :=
  ∀ t ∈ Child.topDownOf cs, t.label = ambiguousLabel →
    2 ≤ t.children.length ∧ t.children.Pairwise fun a b => a.same b = false

/-- No node of alternatives stands in children. -/
def Settled (cs : List Child) : Prop := ∀ t ∈ Child.topDownOf cs, t.label ≠ ambiguousLabel

section Diverse

variable {l : String} {c : Child} {cs : List Child} {s : Option Span}

theorem diverse_iff : Diverse cs ↔ ∀ c ∈ cs, Diverse [c] :=
  ⟨fun h c hc t ht => h t (Child.mem_topDownOf.2 ⟨c, hc, ht⟩), fun h t ht =>
    let ⟨c, hc, hct⟩ := Child.mem_topDownOf.1 ht
    h c hc t hct⟩

theorem settled_iff : Settled cs ↔ ∀ c ∈ cs, Settled [c] :=
  ⟨fun h c hc t ht => h t (Child.mem_topDownOf.2 ⟨c, hc, ht⟩), fun h t ht =>
    let ⟨c, hc, hct⟩ := Child.mem_topDownOf.1 ht
    h c hc t hct⟩

theorem diverse_token (t : Token) : Diverse [.token t] := fun _ h => by simp [Child.topDownOf] at h

theorem diverse_node_iff (hl : l ≠ ambiguousLabel) : Diverse [.tree ⟨l, cs, s⟩] ↔ Diverse cs := by
  refine ⟨fun h t ht => h t (Child.mem_topDownOf_tree.2 (.inr ht)), fun h t ht hlabel => ?_⟩
  rcases Child.mem_topDownOf_tree.1 ht with rfl | ht
  · exact absurd hlabel hl
  · exact h t ht hlabel

theorem diverse_alternatives_iff : Diverse [.tree ⟨ambiguousLabel, cs, s⟩] ↔
    (2 ≤ cs.length ∧ cs.Pairwise fun a b => a.same b = false) ∧ Diverse cs := by
  refine ⟨fun h => ⟨h _ (Child.mem_topDownOf_tree.2 (.inl rfl)) rfl,
    fun t ht => h t (Child.mem_topDownOf_tree.2 (.inr ht))⟩, fun h t ht hlabel => ?_⟩
  rcases Child.mem_topDownOf_tree.1 ht with rfl | ht
  · exact h.1
  · exact h.2 t ht hlabel

theorem settled_node (hl : l ≠ ambiguousLabel) (h : Settled cs) : Settled [.tree ⟨l, cs, s⟩] := by
  intro t ht
  rcases Child.mem_topDownOf_tree.1 ht with rfl | ht
  exacts [hl, h t ht]

end Diverse

/-! ## Choices of trees that are the same -/

mutual

/-- Trees that are the same have the same choices. -/
theorem Tree.exists_choice_of_same : ∀ {t t' : Tree}, t.same t' = true → ∀ u ∈ t'.choices,
    ∃ v ∈ t.choices, v.same u = true
  | ⟨l, cs, s⟩, ⟨l', ds, s'⟩, h, u, hu => by
    rw [Tree.same, Bool.and_eq_true, beq_iff_eq] at h
    obtain ⟨rfl, hcs⟩ := h
    by_cases hl : l = ambiguousLabel
    · subst hl
      obtain ⟨d, hd, hu⟩ := Tree.mem_choices_alternatives.1 hu
      obtain ⟨c, hc, v, hv, hvu⟩ := Child.exists_choice_of_any hcs d hd u hu
      exact ⟨v, Tree.mem_choices_alternatives.2 ⟨c, hc, hv⟩, hvu⟩
    · obtain ⟨us, hus, rfl⟩ := (Tree.mem_choices_node hl).1 hu
      obtain ⟨vs, hvs, hsame⟩ := Child.exists_choices_of_all hcs us hus
      refine ⟨_, (Tree.mem_choices_node hl).2 ⟨vs, hvs, rfl⟩, ?_⟩
      simp [Child.same, Tree.same, hsame]

theorem Child.exists_choice_of_same : ∀ {c d : Child}, c.same d = true → ∀ u ∈ d.choices,
    ∃ v ∈ c.choices, v.same u = true
  | .tree _, .tree _, h, u, hu => Tree.exists_choice_of_same (by rwa [Child.same] at h) u hu
  | .token t, .token t', h, u, hu => by
    obtain rfl := List.mem_singleton.1 hu
    exact ⟨.token t, List.mem_singleton.2 rfl, h⟩
  | .tree _, .token _, h, _, _ => by simp [Child.same] at h
  | .token _, .tree _, h, _, _ => by simp [Child.same] at h

theorem Child.exists_choice_of_any : ∀ {cs ds : List Child}, Child.sameAll cs ds = true → ∀ d ∈ ds, ∀ u ∈ d.choices,
    ∃ c ∈ cs, ∃ v ∈ c.choices, v.same u = true
  | [], [], _, _, hd, _, _ => by cases hd
  | [], _ :: _, h, _, _, _, _ => by simp [Child.sameAll] at h
  | _ :: _, [], h, _, _, _, _ => by simp [Child.sameAll] at h
  | c :: cs, d :: ds, h, x, hx, u, hu => by
    rw [Child.sameAll, Bool.and_eq_true] at h
    rcases List.mem_cons.1 hx with rfl | hx
    · exact ⟨c, List.mem_cons_self .., Child.exists_choice_of_same h.1 u hu⟩
    · obtain ⟨c', hc', hv⟩ := Child.exists_choice_of_any h.2 x hx u hu
      exact ⟨c', List.mem_cons_of_mem _ hc', hv⟩

theorem Child.exists_choices_of_all : ∀ {cs ds : List Child}, Child.sameAll cs ds = true → ∀ us,
    List.Forall₂ (fun u d => u ∈ d.choices) us ds →
      ∃ vs, List.Forall₂ (fun v c => v ∈ c.choices) vs cs ∧ Child.sameAll vs us = true
  | [], [], _, us, hus => by
    cases hus
    exact ⟨[], .nil, by simp⟩
  | [], _ :: _, h, _, _ => by simp [Child.sameAll] at h
  | _ :: _, [], h, _, _ => by simp [Child.sameAll] at h
  | c :: cs, d :: ds, h, us, hus => by
    rw [Child.sameAll, Bool.and_eq_true] at h
    obtain ⟨u, us', hu, hus', rfl⟩ := List.forall₂_cons_right_iff.1 hus
    obtain ⟨v, hv, hvu⟩ := Child.exists_choice_of_same h.1 u hu
    obtain ⟨vs, hvs, hsame⟩ := Child.exists_choices_of_all h.2 us' hus'
    exact ⟨v :: vs, .cons hv hvs, by simp [Child.sameAll, hvu, hsame]⟩

end

/-! ## Where there is nothing to choose -/

mutual

theorem Tree.exists_choice : ∀ t : Tree, Diverse [.tree t] → ∃ u, u ∈ t.choices
  | ⟨l, cs, s⟩, h => by
    by_cases hl : l = ambiguousLabel
    · subst hl
      obtain ⟨⟨hlen, -⟩, hcs⟩ := diverse_alternatives_iff.1 h
      obtain ⟨us, hus⟩ := Child.exists_choices cs hcs
      cases hus with
      | nil => simp at hlen
      | cons hu _ => exact ⟨_, Tree.mem_choices_alternatives.2 ⟨_, List.mem_cons_self .., hu⟩⟩
    · obtain ⟨us, hus⟩ := Child.exists_choices cs ((diverse_node_iff hl).1 h)
      exact ⟨_, (Tree.mem_choices_node hl).2 ⟨us, hus, rfl⟩⟩

/-- There is always something to choose. -/
theorem Child.exists_choice : ∀ c : Child, Diverse [c] → ∃ u, u ∈ c.choices
  | .tree t, h => Tree.exists_choice t h
  | .token t, _ => ⟨.token t, List.mem_singleton.2 rfl⟩

theorem Child.exists_choices : ∀ cs : List Child, Diverse cs → ∃ us, List.Forall₂ (fun u c => u ∈ c.choices) us cs
  | [], _ => ⟨[], .nil⟩
  | c :: cs, h => by
    have hall := diverse_iff.1 h
    obtain ⟨u, hu⟩ := Child.exists_choice c (hall c (List.mem_cons_self ..))
    obtain ⟨us, hus⟩ := Child.exists_choices cs (diverse_iff.2 fun x hx => hall x (List.mem_cons_of_mem _ hx))
    exact ⟨u :: us, .cons hu hus⟩

end

mutual

theorem Tree.self_mem_choices : ∀ t : Tree, Settled [.tree t] → .tree t ∈ t.choices
  | ⟨l, cs, s⟩, h => by
    have hl : l ≠ ambiguousLabel := h _ (Child.mem_topDownOf_tree.2 (.inl rfl))
    exact (Tree.mem_choices_node hl).2
      ⟨cs, Child.self_mem_choicesOfAll cs fun t ht => h t (Child.mem_topDownOf_tree.2 (.inr ht)), rfl⟩

/-- What has no alternatives can be left as it is. -/
theorem Child.self_mem_choices : ∀ c : Child, Settled [c] → c ∈ c.choices
  | .tree t, h => Tree.self_mem_choices t h
  | .token _, _ => List.mem_singleton.2 rfl

theorem Child.self_mem_choicesOfAll : ∀ cs : List Child, Settled cs → List.Forall₂ (fun u c => u ∈ c.choices) cs cs
  | [], _ => .nil
  | c :: cs, h => by
    have hall := settled_iff.1 h
    exact .cons (Child.self_mem_choices c (hall c (List.mem_cons_self ..)))
      (Child.self_mem_choicesOfAll cs (settled_iff.2 fun x hx => hall x (List.mem_cons_of_mem _ hx)))

end

mutual

theorem Tree.settled_of_choices_same : ∀ t : Tree, Diverse [.tree t] →
    (∀ u ∈ t.choices, ∀ v ∈ t.choices, u.same v = true) → Settled [.tree t]
  | ⟨l, cs, s⟩, h, hsame => by
    by_cases hl : l = ambiguousLabel
    · -- two alternatives would be left as they are, and they are not the same
      subst hl
      obtain ⟨⟨hlen, hdiff⟩, hcs⟩ := diverse_alternatives_iff.1 h
      have hall := Child.settled_of_any cs hcs fun c hc u hu c' hc' v hv =>
        hsame u (Tree.mem_choices_alternatives.2 ⟨c, hc, hu⟩) v (Tree.mem_choices_alternatives.2 ⟨c', hc', hv⟩)
      rcases cs with _ | ⟨c, _ | ⟨d, cs⟩⟩
      · simp at hlen
      · simp at hlen
      · have hc : c ∈ c :: d :: cs := List.mem_cons_self ..
        have hd : d ∈ c :: d :: cs := List.mem_cons_of_mem _ (List.mem_cons_self ..)
        have hself : ∀ x ∈ c :: d :: cs, x ∈ Tree.choices ⟨ambiguousLabel, c :: d :: cs, s⟩ := fun x hx =>
          Tree.mem_choices_alternatives.2 ⟨x, hx, Child.self_mem_choices x (settled_iff.1 hall x hx)⟩
        have hcd := hsame c (hself c hc) d (hself d hd)
        rw [(List.pairwise_cons.1 hdiff).1 d (List.mem_cons_self ..)] at hcd
        cases hcd
    · refine settled_node hl (Child.settled_of_all cs ((diverse_node_iff hl).1 h) fun us hus vs hvs => ?_)
      have huv := hsame _ ((Tree.mem_choices_node hl).2 ⟨us, hus, rfl⟩) _ ((Tree.mem_choices_node hl).2 ⟨vs, hvs, rfl⟩)
      simpa [Child.same, Tree.same] using huv

/-- Where all choices are the same, there are no alternatives. -/
theorem Child.settled_of_choices_same : ∀ c : Child, Diverse [c] →
    (∀ u ∈ c.choices, ∀ v ∈ c.choices, u.same v = true) → Settled [c]
  | .tree t, h, hsame => Tree.settled_of_choices_same t h hsame
  | .token t, _, _ => fun _ ht => by simp [Child.topDownOf] at ht

theorem Child.settled_of_any : ∀ cs : List Child, Diverse cs →
    (∀ c ∈ cs, ∀ u ∈ c.choices, ∀ d ∈ cs, ∀ v ∈ d.choices, u.same v = true) → Settled cs
  | [], _, _ => fun _ ht => by simp [Child.topDownOf] at ht
  | c :: cs, h, hsame => by
    have hall := diverse_iff.1 h
    have hc : c ∈ c :: cs := List.mem_cons_self ..
    refine settled_iff.2 (List.forall_mem_cons.2 ⟨?_, settled_iff.1 ?_⟩)
    · exact Child.settled_of_choices_same c (hall c hc) fun u hu v hv => hsame c hc u hu c hc v hv
    · exact Child.settled_of_any cs (diverse_iff.2 fun y hy => hall y (List.mem_cons_of_mem _ hy))
        fun y hy u hu z hz v hv => hsame y (List.mem_cons_of_mem _ hy) u hu z (List.mem_cons_of_mem _ hz) v hv

theorem Child.settled_of_all : ∀ cs : List Child, Diverse cs →
    (∀ us, List.Forall₂ (fun u c => u ∈ c.choices) us cs → ∀ vs, List.Forall₂ (fun u c => u ∈ c.choices) vs cs →
      Child.sameAll us vs = true) → Settled cs
  | [], _, _ => fun _ ht => by simp [Child.topDownOf] at ht
  | c :: cs, h, hsame => by
    have hall := diverse_iff.1 h
    have hc := hall c (List.mem_cons_self ..)
    have hcs : Diverse cs := diverse_iff.2 fun y hy => hall y (List.mem_cons_of_mem _ hy)
    obtain ⟨u, hu⟩ := Child.exists_choice c hc
    obtain ⟨us, hus⟩ := Child.exists_choices cs hcs
    refine settled_iff.2 (List.forall_mem_cons.2 ⟨?_, settled_iff.1 ?_⟩)
    · refine Child.settled_of_choices_same c hc fun v hv v' hv' => ?_
      have hsame' := hsame (v :: us) (.cons hv hus) (v' :: us) (.cons hv' hus)
      rw [Child.sameAll, Bool.and_eq_true] at hsame'
      exact hsame'.1
    · refine Child.settled_of_all cs hcs fun vs hvs vs' hvs' => ?_
      have hsame' := hsame (u :: vs) (.cons hu hvs) (u :: vs') (.cons hu hvs')
      rw [Child.sameAll, Bool.and_eq_true] at hsame'
      exact hsame'.2

end

end GrammarKit
