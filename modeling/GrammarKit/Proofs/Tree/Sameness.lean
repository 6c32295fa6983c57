/-
Trees that are the same. Where the spans of nodes are left out of account, trees are the same if they are equal, and
equal if they are the same and over the same tokens.
-/
import GrammarKit.Tree.Basic

namespace GrammarKit

/-! ## Sameness -/

mutual

@[simp] theorem Tree.same_self : ∀ t : Tree, t.same t = true
  | ⟨l, cs, s⟩ => by simp [Tree.same, Child.sameAll_self cs]

@[simp] theorem Token.same_self : ∀ t : Token, t.same t = true
  | ⟨k, v, s⟩ => by simp [Token.same, TokenValue.same_self v]

@[simp] theorem TokenValue.same_self : ∀ v : TokenValue, v.same v = true
  | .text s => by simp [TokenValue.same]
  | .tree t => by simp [TokenValue.same, Tree.same_self t]
  | .host v => by simp [TokenValue.same, HostValue.same]

@[simp] theorem Child.same_self : ∀ c : Child, c.same c = true
  | .tree t => by simp [Child.same, Tree.same_self t]
  | .token t => by simp [Child.same, Token.same_self t]

@[simp] theorem Child.sameAll_self : ∀ cs : List Child, Child.sameAll cs cs = true
  | [] => by simp [Child.sameAll]
  | c :: cs => by simp [Child.sameAll, Child.same_self c, Child.sameAll_self cs]

end

mutual

/-- Trees that are the same have as many tokens. -/
theorem Tree.length_tokens_of_same : ∀ {t u : Tree}, t.same u = true → t.tokens.length = u.tokens.length
  | ⟨_, cs, _⟩, ⟨_, ds, _⟩, h => by
    rw [Tree.same, Bool.and_eq_true] at h
    rw [Tree.tokens, Tree.tokens, Child.length_tokensOf_of_same h.2]

theorem Child.length_tokens_of_same : ∀ {c d : Child}, c.same d = true → c.tokens.length = d.tokens.length
  | .tree _, .tree _, h => Tree.length_tokens_of_same (by rwa [Child.same] at h)
  | .token _, .token _, _ => rfl
  | .tree _, .token _, h => by simp [Child.same] at h
  | .token _, .tree _, h => by simp [Child.same] at h

theorem Child.length_tokensOf_of_same : ∀ {cs ds : List Child}, Child.sameAll cs ds = true →
    (Child.tokensOf cs).length = (Child.tokensOf ds).length
  | [], [], _ => rfl
  | [], _ :: _, h => by simp [Child.sameAll] at h
  | _ :: _, [], h => by simp [Child.sameAll] at h
  | c :: cs, d :: ds, h => by
    rw [Child.sameAll, Bool.and_eq_true] at h
    rw [Child.tokensOf, Child.tokensOf, List.length_append, List.length_append, Child.length_tokens_of_same h.1,
      Child.length_tokensOf_of_same h.2]

end

/-! ## Spans of nodes -/

mutual

/-- A tree without the spans of its nodes. -/
def Tree.bare : Tree → Tree
  | ⟨l, cs, _⟩ => ⟨l, Child.bareAll cs, none⟩

def Child.bare : Child → Child
  | .tree t => .tree t.bare
  | .token t => .token t

def Child.bareAll : List Child → List Child
  | [] => []
  | c :: cs => c.bare :: Child.bareAll cs

end

theorem Child.bareAll_eq_map : ∀ cs : List Child, Child.bareAll cs = cs.map Child.bare
  | [] => rfl
  | c :: cs => by rw [Child.bareAll, Child.bareAll_eq_map cs, List.map_cons]

theorem Child.bare_tree (l : String) (cs : List Child) (s : Option Span) :
    (Child.tree ⟨l, cs, s⟩).bare = .tree ⟨l, cs.map Child.bare, none⟩ := by
  rw [Child.bare, Tree.bare, Child.bareAll_eq_map]

/-- What removes the spans of nodes, and changes nothing else but the spans of tokens. -/
structure Child.Strips (φ : Child → Child) : Prop where
  tree : ∀ l cs s, φ (.tree ⟨l, cs, s⟩) = .tree ⟨l, cs.map φ, none⟩
  token : ∀ t, ∃ s, φ (.token t) = .token { t with span := s }

namespace Child.Strips

variable {φ : Child → Child}

mutual

/-- Spans are not compared. -/
theorem same_eq (hφ : Strips φ) : ∀ c d : Child, (φ c).same (φ d) = c.same d
  | .tree ⟨l, cs, _⟩, .tree ⟨m, ds, _⟩ => by
    rw [hφ.tree, hφ.tree, Child.same, Child.same, Tree.same, Tree.same, sameAll_eq hφ cs ds]
  | .token ⟨k, v, _⟩, .token ⟨l, w, _⟩ => by
    obtain ⟨_, ht⟩ := hφ.token ⟨k, v, _⟩
    obtain ⟨_, hu⟩ := hφ.token ⟨l, w, _⟩
    rw [ht, hu, Child.same, Child.same, Token.same, Token.same]
  | .tree ⟨l, cs, _⟩, .token u => by
    obtain ⟨_, hu⟩ := hφ.token u
    simp [hφ.tree, hu, Child.same]
  | .token t, .tree ⟨l, cs, _⟩ => by
    obtain ⟨_, ht⟩ := hφ.token t
    simp [hφ.tree, ht, Child.same]

theorem sameAll_eq (hφ : Strips φ) : ∀ cs ds : List Child, Child.sameAll (cs.map φ) (ds.map φ) = Child.sameAll cs ds
  | [], [] => rfl
  | [], _ :: _ => by simp [Child.sameAll]
  | _ :: _, [] => by simp [Child.sameAll]
  | c :: cs, d :: ds => by
    rw [List.map_cons, List.map_cons, Child.sameAll, Child.sameAll, same_eq hφ c d, sameAll_eq hφ cs ds]

end

/-- Values of which the same is left are the same. -/
theorem same_of_eq (hφ : Strips φ) {c d : Child} (h : φ c = φ d) : c.same d = true := by
  rw [← hφ.same_eq, h, Child.same_self]

end Child.Strips

theorem Child.strips_bare : Child.Strips Child.bare where
  tree := Child.bare_tree
  token
    | ⟨_, _, s⟩ => ⟨s, by rw [Child.bare]⟩

/-- The spans of nodes are not compared. -/
@[simp] theorem Child.same_bare (c d : Child) : c.bare.same d.bare = c.same d := Child.strips_bare.same_eq c d

mutual

theorem Tree.bare_eq_iff : ∀ {t u : Tree}, t.bare = u.bare ↔ t.same u = true ∧ t.tokens = u.tokens
  | ⟨l, cs, _⟩, ⟨m, ds, _⟩ => by
    rw [Tree.bare, Tree.bare, Tree.same, Tree.tokens, Tree.tokens, Tree.mk.injEq, Bool.and_eq_true, beq_iff_eq,
      Child.bareAll_eq_iff]
    simp [and_assoc]

/-- Without the spans of nodes, trees are equal exactly if they are the same and over the same tokens. -/
theorem Child.bare_eq_iff : ∀ {c d : Child}, c.bare = d.bare ↔ c.same d = true ∧ c.tokens = d.tokens
  | .tree t, .tree u => by
    rw [Child.bare, Child.bare, Child.same, Child.tokens, Child.tokens, Child.tree.injEq,
      Tree.bare_eq_iff (t := t) (u := u)]
  | .token t, .token u => by
    rw [Child.bare, Child.bare, Child.tokens, Child.tokens, Child.token.injEq, List.singleton_inj]
    exact ⟨fun h => ⟨h ▸ Child.same_self _, h⟩, fun h => h.2⟩
  | .tree _, .token _ => by simp [Child.bare, Child.same]
  | .token _, .tree _ => by simp [Child.bare, Child.same]

theorem Child.bareAll_eq_iff : ∀ {cs ds : List Child}, Child.bareAll cs = Child.bareAll ds ↔
    Child.sameAll cs ds = true ∧ Child.tokensOf cs = Child.tokensOf ds
  | [], [] => by simp
  | [], _ :: _ => by simp [Child.bareAll, Child.sameAll]
  | _ :: _, [] => by simp [Child.bareAll, Child.sameAll]
  | c :: cs, d :: ds => by
    rw [Child.bareAll, Child.bareAll, Child.sameAll, Child.tokensOf, Child.tokensOf, List.cons.injEq, Bool.and_eq_true,
      Child.bare_eq_iff, Child.bareAll_eq_iff]
    constructor
    · rintro ⟨⟨hc, ht⟩, hcs, hts⟩
      exact ⟨⟨hc, hcs⟩, by rw [ht, hts]⟩
    · rintro ⟨⟨hc, hcs⟩, hts⟩
      -- as many tokens are below the first of each
      obtain ⟨ht, hts⟩ := List.append_inj hts (Child.length_tokens_of_same hc)
      exact ⟨⟨hc, ht⟩, hcs, hts⟩

end

/-! ## Spans of nodes and tokens -/

def Token.unplaced (t : Token) : Token := { t with span := none }

mutual

/-- A tree without the spans of its nodes and tokens. Trees that tokens carry are left as they are. -/
def Tree.unplaced : Tree → Tree
  | ⟨l, cs, _⟩ => ⟨l, Child.unplacedAll cs, none⟩

def Child.unplaced : Child → Child
  | .tree t => .tree t.unplaced
  | .token t => .token t.unplaced

def Child.unplacedAll : List Child → List Child
  | [] => []
  | c :: cs => c.unplaced :: Child.unplacedAll cs

end

theorem Child.unplacedAll_eq_map : ∀ cs : List Child, Child.unplacedAll cs = cs.map Child.unplaced
  | [] => rfl
  | c :: cs => by rw [Child.unplacedAll, Child.unplacedAll_eq_map cs, List.map_cons]

theorem Child.strips_unplaced : Child.Strips Child.unplaced where
  tree l cs s := by rw [Child.unplaced, Tree.unplaced, Child.unplacedAll_eq_map]
  token t := ⟨none, by rw [Child.unplaced, Token.unplaced]⟩

end GrammarKit
