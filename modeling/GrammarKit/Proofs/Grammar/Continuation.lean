/-
What may come next. After some tokens a symbol may come if it stands in a rule whose nonterminal may come
after a part of them, and the symbols before it yield the rest. Leftmost forms say the same, so the terminals
that may come after tokens are those that some leftmost form of the start symbol holds right after them, and
tokens begin a leftmost form exactly if each of them may come after those before it.
-/
import GrammarKit.Proofs.Grammar.Derives

namespace GrammarKit

variable {τ : Type} (rules : List Rule) (stands : String → τ → Prop) (start : String)

/-- A symbol that may come after tokens. -/
inductive Continues : List τ → Symbol → Prop
  | start : Continues [] (.nonterminal start)
  | inside {u v : List τ} {r : Rule} {before after : List Symbol} {s : Symbol} (h : r ∈ rules)
    (outer : Continues u (.nonterminal r.origin)) (hs : r.symbols = before ++ s :: after)
    (hv : Yields rules stands before v) : Continues (u ++ v) s

/-- Some leftmost form of the start symbol begins with terminals that the tokens stand for. -/
def Viable (u : List τ) : Prop :=
  ∃ word after, DerivesLeft rules [.nonterminal start] (word.map .terminal ++ after) ∧ List.Forall₂ stands word u

variable {rules stands start}

/-- Some leftmost form holds the symbol right after the tokens. -/
theorem Continues.derivesLeft {u : List τ} {s : Symbol} (h : Continues rules stands start u s) :
    ∃ word after, DerivesLeft rules [.nonterminal start] (word.map .terminal ++ s :: after) ∧
      List.Forall₂ stands word u := by
  induction h with
  | start => exact ⟨[], [], .refl, .nil⟩
  | @inside u v r before after s h _ hs hv ih =>
    obtain ⟨word, rest, hd, hw⟩ := ih
    obtain ⟨word2, hd2, hw2⟩ := hv.derivesLeft
    refine ⟨word ++ word2, after ++ rest, ?_, List.rel_append hw hw2⟩
    have h1 : DerivesLeft rules (word.map .terminal ++ .nonterminal r.origin :: rest)
        (word.map .terminal ++ (r.symbols ++ rest)) := .single (.mk word rest h)
    have h2 := (hd2.append_right (s :: (after ++ rest))).append_word word
    rw [hs, List.append_assoc, List.cons_append] at h1
    have h3 : DerivesLeft rules [.nonterminal start] _ := (hd.trans h1).trans h2
    simpa using h3

/-- An element of two lists in a row is in the first or in the second. -/
theorem append_eq_append_cons {α : Type} {a b c d : List α} {x : α} (h : a ++ b = c ++ x :: d) :
    (∃ m, a = c ++ x :: m ∧ d = m ++ b) ∨ ∃ m, c = a ++ m ∧ b = m ++ x :: d := by
  rcases List.append_eq_append_iff.1 h with ⟨m, hc, hb⟩ | ⟨m, ha, hd⟩
  · exact .inr ⟨m, hc, hb⟩
  · cases m with
    | nil => exact .inr ⟨[], by simpa using ha.symm, by simpa using hd.symm⟩
    | cons y m =>
      obtain ⟨rfl, hd'⟩ := List.cons.inj hd
      exact .inl ⟨m, ha, hd'⟩

/-- In every form of the start symbol, a symbol may come after what the symbols before it yield. -/
theorem continues_of_derives {form : List Symbol} (h : Derives rules [.nonterminal start] form) :
    ∀ {before after : List Symbol} {s : Symbol} {u : List τ}, form = before ++ s :: after →
      Yields rules stands before u → Continues rules stands start u s := by
  induction h with
  | refl =>
    intro before after s u hf hy
    cases before with
    | nil => cases hy; cases hf; exact .start
    | cons _ _ => simp at hf
  | tail _ hstep ih =>
    intro before after s u hf hy
    cases hstep with
    | @mk p q r hr =>
      -- the symbol stands before the rewritten place, inside what replaced it, or after it
      rcases append_eq_append_cons hf with ⟨m, rfl, rfl⟩ | ⟨m, rfl, hm⟩
      · exact ih (List.append_assoc ..) hy
      · obtain ⟨v, x, rfl, hv, hx⟩ := hy.split
        rcases append_eq_append_cons hm with ⟨k, hk, rfl⟩ | ⟨k, rfl, rfl⟩
        · exact .inside hr (ih rfl hv) hk hx
        · obtain ⟨x1, x2, rfl, hx1, hx2⟩ := hx.split
          exact ih (by simp : _ = _ ++ s :: after) (hv.append (.nonterminal hr hx1 hx2))

/-- A terminal may come after tokens exactly if some leftmost form holds it right after them. -/
theorem continues_iff_derivesLeft {u : List τ} {s : Symbol} :
    Continues rules stands start u s ↔
      ∃ word after, DerivesLeft rules [.nonterminal start] (word.map .terminal ++ s :: after) ∧
        List.Forall₂ stands word u :=
  ⟨Continues.derivesLeft, fun ⟨_, _, hd, hw⟩ => continues_of_derives hd.derives rfl (.of_word hw)⟩

theorem viable_nil : Viable rules stands start [] := ⟨[], _, .refl, .nil⟩

/-- One more token is viable exactly if it stands for a terminal that may come. -/
theorem viable_concat_iff {u : List τ} {t : τ} :
    Viable rules stands start (u ++ [t]) ↔ ∃ a, stands a t ∧ Continues rules stands start u (.terminal a) := by
  constructor
  · rintro ⟨word, after, hd, hw⟩
    have hu := List.forall₂_take_append _ _ _ hw
    have ht := List.forall₂_drop_append _ _ _ hw
    rw [← List.take_append_drop u.length word] at hd
    generalize word.drop u.length = last at hd ht
    cases ht with
    | @cons a _ _ _ ha hr =>
      cases hr
      exact ⟨a, ha, continues_iff_derivesLeft.2 ⟨word.take u.length, after, by simpa using hd, hu⟩⟩
  · rintro ⟨a, ha, hc⟩
    obtain ⟨word, after, hd, hw⟩ := hc.derivesLeft
    exact ⟨word ++ [a], after, by simpa using hd, List.rel_append hw (.cons ha .nil)⟩

theorem Viable.of_append {u v : List τ} (h : Viable rules stands start (u ++ v)) : Viable rules stands start u := by
  obtain ⟨word, after, hd, hw⟩ := h
  have hu := List.forall₂_take_append _ _ _ hw
  rw [← List.take_append_drop u.length word, List.map_append, List.append_assoc] at hd
  exact ⟨_, _, hd, hu⟩

theorem Viable.of_prefix {u v : List τ} (h : Viable rules stands start v) (hp : u <+: v) :
    Viable rules stands start u := by
  obtain ⟨x, rfl⟩ := hp
  exact h.of_append

/-- Where a prefix is viable and one more token is not, the viable prefixes are those that are no longer. -/
theorem viable_prefix_iff {u v x : List τ} {t : τ}
    (hv : Viable rules stands start u) (hn : ¬ Viable rules stands start (u ++ [t])) (hx : x <+: u ++ t :: v) :
    Viable rules stands start x ↔ x.length ≤ u.length := by
  have hu : u <+: u ++ t :: v := List.prefix_append _ _
  have hut : u ++ [t] <+: u ++ t :: v := ⟨v, by simp⟩
  constructor
  · intro hxv
    by_contra hlt
    exact hn (hxv.of_prefix (List.prefix_of_prefix_length_le hut hx (by simp; omega)))
  · intro hle
    exact hv.of_prefix (List.prefix_of_prefix_length_le hx hu hle)

theorem viable_of_yields {w : List τ} (h : Yields rules stands [.nonterminal start] w) :
    Viable rules stands start w := by
  obtain ⟨word, hd, hw⟩ := h.derivesLeft
  exact ⟨word, [], by simpa using hd, hw⟩

/-- Names in ascending order that are exactly the terminals which some leftmost form of the start symbol holds
right after the tokens. -/
structure NextTerminals (rules : List Rule) (stands : String → τ → Prop) (start : String) (u : List τ)
    (names : List String) : Prop where
  ascending : names.Pairwise (· < ·)
  mem_iff : ∀ a, a ∈ names ↔ ∃ word after,
    DerivesLeft rules [.nonterminal start] (word.map .terminal ++ .terminal a :: after) ∧ List.Forall₂ stands word u

end GrammarKit
