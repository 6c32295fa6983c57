/-
Derivations of a list of rules. A sentential form is rewritten by replacing a nonterminal by the symbols of
one of its rules. What a form yields is said a second time without forms in between, by recursion over the
symbols, and the two agree: a form yields exactly the tokens that stand, one by one, for the words it
derives. In the same way a symbol may come after some tokens exactly if some leftmost form of the start
symbol holds it right after terminals that these tokens stand for.
-/
import GrammarKit.Grammar.Rule
import Mathlib.Data.List.Forall2
import Mathlib.Logic.Relation

namespace GrammarKit

/-! ## Rewriting -/

section Rewriting

variable (rules : List Rule)

/-- One nonterminal is replaced by the symbols of one of its rules. -/
inductive Rewrites : List Symbol → List Symbol → Prop
  | mk (before after : List Symbol) {r : Rule} (h : r ∈ rules) :
    Rewrites (before ++ .nonterminal r.origin :: after) (before ++ (r.symbols ++ after))

/-- The leftmost nonterminal is replaced. -/
inductive RewritesLeft : List Symbol → List Symbol → Prop
  | mk (word : List String) (after : List Symbol) {r : Rule} (h : r ∈ rules) :
    RewritesLeft (word.map .terminal ++ .nonterminal r.origin :: after)
      (word.map .terminal ++ (r.symbols ++ after))

def Derives : List Symbol → List Symbol → Prop := Relation.ReflTransGen (Rewrites rules)

def DerivesLeft : List Symbol → List Symbol → Prop := Relation.ReflTransGen (RewritesLeft rules)

end Rewriting

variable {rules : List Rule}

theorem RewritesLeft.rewrites {a b : List Symbol} (h : RewritesLeft rules a b) : Rewrites rules a b := by
  cases h with
  | mk word after hr => exact .mk _ after hr

theorem DerivesLeft.derives {a b : List Symbol} (h : DerivesLeft rules a b) : Derives rules a b :=
  Relation.ReflTransGen.mono (fun _ _ => RewritesLeft.rewrites) _ _ h

theorem Rewrites.append_left {a b : List Symbol} (h : Rewrites rules a b) (s : List Symbol) :
    Rewrites rules (s ++ a) (s ++ b) := by
  cases h with
  | mk before after hr => simpa using Rewrites.mk (s ++ before) after hr

theorem Rewrites.append_right {a b : List Symbol} (h : Rewrites rules a b) (s : List Symbol) :
    Rewrites rules (a ++ s) (b ++ s) := by
  cases h with
  | mk before after hr => simpa using Rewrites.mk before (after ++ s) hr

theorem RewritesLeft.append_right {a b : List Symbol} (h : RewritesLeft rules a b) (s : List Symbol) :
    RewritesLeft rules (a ++ s) (b ++ s) := by
  cases h with
  | mk word after hr => simpa using RewritesLeft.mk word (after ++ s) hr

theorem RewritesLeft.append_word {a b : List Symbol} (h : RewritesLeft rules a b) (w : List String) :
    RewritesLeft rules (w.map .terminal ++ a) (w.map .terminal ++ b) := by
  cases h with
  | mk word after hr => simpa using RewritesLeft.mk (w ++ word) after hr

theorem Derives.append_left {a b : List Symbol} (h : Derives rules a b) (s : List Symbol) :
    Derives rules (s ++ a) (s ++ b) :=
  Relation.ReflTransGen.lift (s ++ ·) (fun _ _ h => Rewrites.append_left h s) _ _ h

theorem Derives.append_right {a b : List Symbol} (h : Derives rules a b) (s : List Symbol) :
    Derives rules (a ++ s) (b ++ s) :=
  Relation.ReflTransGen.lift (· ++ s) (fun _ _ h => Rewrites.append_right h s) _ _ h

theorem Derives.append {a a' b b' : List Symbol} (h : Derives rules a a') (k : Derives rules b b') :
    Derives rules (a ++ b) (a' ++ b') :=
  (h.append_right b).trans (k.append_left a')

theorem Rewrites.of_rule {r : Rule} (hr : r ∈ rules) : Rewrites rules [.nonterminal r.origin] r.symbols := by
  simpa using Rewrites.mk [] [] hr

theorem DerivesLeft.append_right {a b : List Symbol} (h : DerivesLeft rules a b) (s : List Symbol) :
    DerivesLeft rules (a ++ s) (b ++ s) :=
  Relation.ReflTransGen.lift (· ++ s) (fun _ _ h => RewritesLeft.append_right h s) _ _ h

theorem DerivesLeft.append_word {a b : List Symbol} (h : DerivesLeft rules a b) (w : List String) :
    DerivesLeft rules (w.map .terminal ++ a) (w.map .terminal ++ b) :=
  Relation.ReflTransGen.lift (w.map Symbol.terminal ++ ·) (fun _ _ h => RewritesLeft.append_word h w) _ _ h

/-! ## Yields -/

variable {τ : Type} {stands : String → τ → Prop}

/-- The tokens that symbols can be recognised as, if `stands` tells which tokens stand for a terminal. -/
inductive Yields (rules : List Rule) (stands : String → τ → Prop) : List Symbol → List τ → Prop
  | nil : Yields rules stands [] []
  | terminal {a : String} {t : τ} {ss : List Symbol} {ts : List τ} (h : stands a t)
    (rest : Yields rules stands ss ts) : Yields rules stands (.terminal a :: ss) (t :: ts)
  | nonterminal {r : Rule} {ss : List Symbol} {us ts : List τ} (h : r ∈ rules)
    (inner : Yields rules stands r.symbols us) (rest : Yields rules stands ss ts) :
    Yields rules stands (.nonterminal r.origin :: ss) (us ++ ts)

namespace Yields

theorem append {a b : List Symbol} {u v : List τ} (h : Yields rules stands a u) (k : Yields rules stands b v) :
    Yields rules stands (a ++ b) (u ++ v) := by
  induction h with
  | nil => exact k
  | terminal h _ ih => exact .terminal h ih
  | nonterminal h inner _ _ ih => simpa using Yields.nonterminal h inner ih

theorem split {a b : List Symbol} : ∀ {w : List τ}, Yields rules stands (a ++ b) w →
    ∃ u v, w = u ++ v ∧ Yields rules stands a u ∧ Yields rules stands b v := by
  induction a with
  | nil => exact fun h => ⟨[], _, rfl, .nil, h⟩
  | cons s a ih =>
    intro w h
    cases h with
    | terminal h rest =>
      obtain ⟨u, v, rfl, hu, hv⟩ := ih rest
      exact ⟨_ :: u, v, rfl, .terminal h hu, hv⟩
    | nonterminal h inner rest =>
      obtain ⟨u, v, rfl, hu, hv⟩ := ih rest
      exact ⟨_ ++ u, v, by simp, .nonterminal h inner hu, hv⟩

theorem map {σ : Type} {stands' : String → σ → Prop} (f : τ → σ) (hf : ∀ a t, stands a t → stands' a (f t))
    {a : List Symbol} {w : List τ} (h : Yields rules stands a w) : Yields rules stands' a (w.map f) := by
  induction h with
  | nil => exact .nil
  | terminal h _ ih => exact .terminal (hf _ _ h) ih
  | nonterminal h _ _ ih1 ih2 => simpa using Yields.nonterminal h ih1 ih2

theorem mono {rules' : List Rule} (hr : ∀ r ∈ rules, r ∈ rules') {a : List Symbol} {w : List τ}
    (h : Yields rules stands a w) : Yields rules' stands a w := by
  induction h with
  | nil => exact .nil
  | terminal h _ ih => exact .terminal h ih
  | nonterminal h _ _ ih1 ih2 => exact .nonterminal (hr _ h) ih1 ih2

theorem of_rule {r : Rule} {u : List τ} (h : r ∈ rules) (inner : Yields rules stands r.symbols u) :
    Yields rules stands [.nonterminal r.origin] u := by
  simpa using Yields.nonterminal h inner .nil

theorem of_word : ∀ {word : List String} {u : List τ}, List.Forall₂ stands word u →
    Yields rules stands (word.map .terminal) u
  | _, _, .nil => .nil
  | _, _, .cons h rest => .terminal h (of_word rest)

end Yields

theorem yields_nil_iff {w : List τ} : Yields rules stands [] w ↔ w = [] :=
  ⟨fun h => by cases h; rfl, fun h => h ▸ .nil⟩

theorem yields_nonterminal_iff {n : String} {w : List τ} :
    Yields rules stands [.nonterminal n] w ↔ ∃ r ∈ rules, r.origin = n ∧ Yields rules stands r.symbols w := by
  constructor
  · intro h
    cases h with
    | nonterminal h inner rest => cases rest; exact ⟨_, h, rfl, by simpa using inner⟩
  · rintro ⟨r, hr, rfl, h⟩; exact .of_rule hr h

theorem yields_terminal_iff {a : String} {w : List τ} :
    Yields rules stands [.terminal a] w ↔ ∃ t, w = [t] ∧ stands a t := by
  constructor
  · intro h
    cases h with
    | terminal h rest => cases rest; exact ⟨_, rfl, h⟩
  · rintro ⟨t, rfl, h⟩; exact .terminal h .nil

/-- Rewriting a form backwards keeps what it yields. -/
theorem Yields.of_rewrites {a b : List Symbol} {w : List τ} (h : Rewrites rules a b)
    (k : Yields rules stands b w) : Yields rules stands a w := by
  cases h with
  | mk before after hr =>
    obtain ⟨u, _, rfl, hu, k⟩ := k.split
    obtain ⟨v, x, rfl, hv, hx⟩ := k.split
    exact hu.append (.nonterminal hr hv hx)

theorem Yields.of_derives {a b : List Symbol} {w : List τ} (h : Derives rules a b)
    (k : Yields rules stands b w) : Yields rules stands a w := by
  induction h using Relation.ReflTransGen.head_induction_on with
  | refl => exact k
  | head h _ ih => exact ih.of_rewrites h

/-- Leftmost rewriting leads to the word of every yield, whatever comes after. -/
theorem Yields.derivesLeft {a : List Symbol} {w : List τ} (h : Yields rules stands a w) :
    ∃ word, DerivesLeft rules a (word.map .terminal) ∧ List.Forall₂ stands word w := by
  induction h with
  | nil => exact ⟨[], .refl, .nil⟩
  | @terminal a t ss ts h _ ih =>
    obtain ⟨word, hd, hw⟩ := ih
    exact ⟨a :: word, hd.append_word [a], .cons h hw⟩
  | @nonterminal r ss us ts h _ _ ih1 ih2 =>
    obtain ⟨word1, hd1, hw1⟩ := ih1
    obtain ⟨word2, hd2, hw2⟩ := ih2
    refine ⟨word1 ++ word2, ?_, List.rel_append hw1 hw2⟩
    have h1 : DerivesLeft rules (.nonterminal r.origin :: ss) (r.symbols ++ ss) :=
      .single (.mk [] ss h)
    have h2 := hd1.append_right ss
    have h3 := hd2.append_word word1
    rw [List.map_append]
    exact (h1.trans h2).trans h3

/-- The tokens that a form yields are those that stand for the words it derives. -/
theorem yields_iff_derives {a : List Symbol} {w : List τ} :
    Yields rules stands a w ↔ ∃ word, Derives rules a (word.map .terminal) ∧ List.Forall₂ stands word w := by
  constructor
  · intro h
    obtain ⟨word, hd, hw⟩ := h.derivesLeft
    exact ⟨word, hd.derives, hw⟩
  · rintro ⟨word, hd, hw⟩
    exact .of_derives hd (.of_word hw)

theorem Yields.derives_nil {ss : List Symbol} (h : Yields rules stands ss []) : Derives rules ss [] := by
  obtain ⟨word, hd, hw⟩ := h.derivesLeft
  cases hw
  exact hd.derives

end GrammarKit
