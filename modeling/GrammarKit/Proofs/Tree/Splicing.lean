/-
Splicing a second time. A pass of splicing changes a value exactly if one of its tokens carries a tree. What a pass puts
in place are the carried trees as they are, with the tokens they have themselves, so a second pass finds something to do
exactly if a carried tree has a token that carries a tree in turn.
-/
import GrammarKit.Proofs.Tree.Sameness
import GrammarKit.Tree.Splice

namespace GrammarKit

/-! ## Tokens after splicing -/

theorem Child.spliceAll_append : ∀ cs ds : List Child, spliceAll (cs ++ ds) = spliceAll cs ++ spliceAll ds
  | [], _ => rfl
  | c :: cs, ds => by rw [List.cons_append, spliceAll, spliceAll, spliceAll_append cs ds, List.cons_append]

/-- The tokens that come of a token: those of the tree that it carries, or else itself. -/
def Token.spliced (t : Token) : List Token :=
  match t.tree? with
  | some u => u.tokens
  | none => [t]

mutual

theorem Tree.tokens_splice : ∀ t : Tree, t.splice.tokens = t.tokens.flatMap Token.spliced
  | ⟨_, cs, _⟩ => by rw [Tree.splice, Tree.tokens, Tree.tokens, Child.tokensOf_spliceAll cs]

/-- A pass puts the tokens of carried trees in the places of the tokens that carry them. -/
theorem Child.tokens_splice : ∀ c : Child, c.splice.tokens = c.tokens.flatMap Token.spliced
  | .tree t => by rw [Child.splice, Child.tokens, Child.tokens, t.tokens_splice]
  | .token ⟨_, .tree _, _⟩ => by simp [Child.splice, Child.tokens, Token.spliced, Token.tree?]
  | .token ⟨_, .text _, _⟩ | .token ⟨_, .host _, _⟩ => by simp [Child.splice, Child.tokens, Token.spliced, Token.tree?]

theorem Child.tokensOf_spliceAll : ∀ cs : List Child,
    Child.tokensOf (Child.spliceAll cs) = (Child.tokensOf cs).flatMap Token.spliced
  | [] => by rw [Child.spliceAll, Child.tokensOf, List.flatMap_nil]
  | c :: cs => by
    rw [Child.spliceAll, Child.tokensOf, Child.tokensOf, List.flatMap_append, c.tokens_splice,
      Child.tokensOf_spliceAll cs]

end

/-! ## Values that carry no trees -/

/-- A token of text carries no tree. -/
theorem Token.tree?_eq_none {t : Token} (h : t.text?.isSome = true) : t.tree? = none := by
  rcases hv : t.value with _ | _ | _ <;> simp [Token.text?, Token.tree?, hv] at h ⊢

mutual

theorem Tree.splice_eq_self : ∀ {t : Tree}, (∀ u ∈ t.tokens, u.tree? = none) → t.splice = t
  | ⟨_, _, _⟩, h => by rw [Tree.splice, Child.spliceAll_eq_self (by rwa [Tree.tokens] at h)]

/-- Where no token carries a tree, there is nothing to splice. -/
theorem Child.splice_eq_self : ∀ {c : Child}, (∀ u ∈ c.tokens, u.tree? = none) → c.splice = c
  | .tree _, h => by rw [Child.splice, Tree.splice_eq_self (by rwa [Child.tokens] at h)]
  | .token ⟨_, .text _, _⟩, _ => rfl
  | .token ⟨_, .tree _, _⟩, h => by simp [Child.tokens, Token.tree?] at h
  | .token ⟨_, .host _, _⟩, _ => rfl

theorem Child.spliceAll_eq_self : ∀ {cs : List Child}, (∀ u ∈ Child.tokensOf cs, u.tree? = none) →
    Child.spliceAll cs = cs
  | [], _ => rfl
  | c :: cs, h => by
    rw [Child.tokensOf] at h
    rw [Child.spliceAll, Child.splice_eq_self fun u hu => h u (List.mem_append_left _ hu),
      Child.spliceAll_eq_self fun u hu => h u (List.mem_append_right _ hu)]

end

mutual

theorem Tree.tree?_eq_none_of_same : ∀ {t : Tree}, t.splice.same t = true → ∀ u ∈ t.tokens, u.tree? = none
  | ⟨_, cs, _⟩, h => by
    rw [Tree.splice, Tree.same, Bool.and_eq_true] at h
    rw [Tree.tokens]
    exact Child.tree?_eq_none_of_sameAll h.2

/-- A token that carries a tree is not the same as that tree. -/
theorem Child.tree?_eq_none_of_same : ∀ {c : Child}, c.splice.same c = true → ∀ u ∈ c.tokens, u.tree? = none
  | .tree t, h => by
    rw [Child.splice, Child.same] at h
    rw [Child.tokens]
    exact Tree.tree?_eq_none_of_same h
  | .token ⟨_, .tree _, _⟩, h => by simp [Child.splice, Child.same] at h
  | .token ⟨_, .text _, _⟩, _ | .token ⟨_, .host _, _⟩, _ => by simp [Child.tokens, Token.tree?]

theorem Child.tree?_eq_none_of_sameAll : ∀ {cs : List Child}, Child.sameAll (Child.spliceAll cs) cs = true →
    ∀ u ∈ Child.tokensOf cs, u.tree? = none
  | [], _, _, hu => by simp [Child.tokensOf] at hu
  | c :: cs, h, u, hu => by
    rw [Child.spliceAll, Child.sameAll, Bool.and_eq_true] at h
    rw [Child.tokensOf, List.mem_append] at hu
    exact hu.elim (Child.tree?_eq_none_of_same h.1 u) (Child.tree?_eq_none_of_sameAll h.2 u)

end

/-- A pass leaves a value as it is exactly if none of its tokens carries a tree, whether or not places count. -/
theorem Child.same_splice_iff (c : Child) : c.splice.same c = true ↔ ∀ u ∈ c.tokens, u.tree? = none :=
  ⟨Child.tree?_eq_none_of_same, fun h => by rw [Child.splice_eq_self h, Child.same_self]⟩

theorem Child.splice_eq_iff (c : Child) : c.splice = c ↔ ∀ u ∈ c.tokens, u.tree? = none :=
  ⟨fun h => c.same_splice_iff.1 (by rw [h, Child.same_self]), Child.splice_eq_self⟩

/-! ## The second pass -/

theorem Child.forall_tokens_splice_iff (c : Child) : (∀ u ∈ c.splice.tokens, u.tree? = none) ↔
    ∀ t ∈ c.tokens, ∀ carried, t.tree? = some carried → ∀ u ∈ carried.tokens, u.tree? = none := by
  simp only [c.tokens_splice, List.mem_flatMap, forall_exists_index, and_imp]
  rw [forall_comm]
  refine forall_congr' fun t => ⟨fun h ht carried hcarried u hu => h u ht ?_, fun h u ht hu => ?_⟩
  · rwa [Token.spliced, hcarried]
  · cases hcarried : t.tree? with
    | some carried => exact h ht carried hcarried u (by rwa [Token.spliced, hcarried] at hu)
    | none =>
      rw [Token.spliced, hcarried] at hu
      rwa [List.mem_singleton.1 hu]

/-- A second pass of splicing changes nothing exactly if no carried tree has a token that carries a tree; and where it
changes nothing but places, it changes nothing at all. -/
theorem Child.splice_splice_iff (c : Child) :
    (c.splice.splice = c.splice ↔
      ∀ t ∈ c.tokens, ∀ carried, t.tree? = some carried → ∀ u ∈ carried.tokens, u.tree? = none) ∧
    (c.splice.splice.same c.splice = true ↔ c.splice.splice = c.splice) := by
  rw [Child.splice_eq_iff, Child.same_splice_iff]
  exact ⟨c.forall_tokens_splice_iff, Iff.rfl⟩

/-- A token whose tree is over a token that carries a tree itself: the second pass goes on with the inner one. -/
theorem Child.splice_splice_nested :
    let inner : Tree := ⟨"y", [], none⟩
    let outer : Tree := ⟨"x", [.token ⟨"TREE__Y", .tree inner, none⟩], none⟩
    let c : Child := .token ⟨"TREE__X", .tree outer, none⟩
    c.splice = .tree outer ∧ c.splice.splice = .tree ⟨"x", [.tree inner], none⟩ ∧
      c.splice.splice.same c.splice = false :=
  ⟨rfl, rfl, by cbv⟩

end GrammarKit
