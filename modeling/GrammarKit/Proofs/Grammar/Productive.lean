/-
Rules without dead ends. If every nonterminal derives some word, every sentential form does, and tokens that begin a
leftmost form of the start symbol begin a sentence.
-/
import GrammarKit.Proofs.Grammar.Continuation
import GrammarKit.Proofs.Grammar.Trees

namespace GrammarKit

/-- Every nonterminal of the rules derives some word. -/
def Productive (rules : List Rule) : Prop :=
  ∀ n, (∃ r ∈ rules, r.origin = n ∨ .nonterminal n ∈ r.symbols) → ∃ word : List String,
    Derives rules [.nonterminal n] (word.map .terminal)

theorem Productive.exists_yields {rules : List Rule} (hp : Productive rules) {n : String}
    (hn : ∃ r ∈ rules, r.origin = n ∨ .nonterminal n ∈ r.symbols) : ∃ w, Yields rules IsNamed [.nonterminal n] w := by
  obtain ⟨word, hd⟩ := hp n hn
  exact ⟨word.map fun a => .ofText a "", yields_isNamed_iff.2 (by rw [kinds_ofText]; exact hd)⟩

theorem Productive.yields {rules : List Rule} (hp : Productive rules) :
    ∀ {ss : List Symbol}, (∀ s ∈ ss, ∃ r ∈ rules, s ∈ r.symbols) → ∃ w, Yields rules IsNamed ss w
  | [], _ => ⟨[], .nil⟩
  | s :: ss, h => by
    obtain ⟨w, hw⟩ := hp.yields fun s hs => h s (List.mem_cons_of_mem _ hs)
    obtain ⟨r, hr, hs⟩ := h s (List.mem_cons_self ..)
    cases s with
    | terminal a => exact ⟨.ofText a "" :: w, .terminal rfl hw⟩
    | nonterminal n =>
      obtain ⟨u, hu⟩ := hp.exists_yields ⟨r, hr, .inr hs⟩
      exact ⟨u ++ w, hu.append hw⟩

variable {rules : List Rule} {start : String}

/-- The symbols of a form are the start symbol or stand in rules. -/
theorem mem_of_derives {form : List Symbol} (h : Derives rules [.nonterminal start] form) :
    ∀ s ∈ form, s = .nonterminal start ∨ ∃ r ∈ rules, s ∈ r.symbols := by
  induction h with
  | refl => exact fun s hs => .inl (List.mem_singleton.1 hs)
  | tail _ hstep ih =>
    cases hstep with
    | @mk before after r hr =>
      intro s hs
      simp only [List.mem_append] at hs
      rcases hs with hs | hs | hs
      · exact ih s (by simp [hs])
      · exact .inr ⟨r, hr, hs⟩
      · exact ih s (by simp [hs])

/-- Tokens that begin a leftmost form of the start symbol begin a sentence. -/
theorem Viable.exists_sentence (hp : Productive rules) (hs : ∃ r ∈ rules, r.origin = start) {u : List Token}
    (h : Viable rules IsNamed start u) : ∃ v, Yields rules IsNamed [.nonterminal start] (u ++ v) := by
  obtain ⟨word, after, hd, hw⟩ := h
  obtain ⟨r, hr, ho⟩ := hs
  have hafter : ∀ s ∈ after, ∃ v, Yields rules IsNamed [s] v := by
    intro s hs
    rcases mem_of_derives hd.derives s (List.mem_append_right _ hs) with rfl | hmem
    · exact hp.exists_yields ⟨r, hr, .inl ho⟩
    · exact hp.yields fun x hx => List.mem_singleton.1 hx ▸ hmem
  obtain ⟨v, hv⟩ : ∃ v, Yields rules IsNamed after v := by
    clear hd
    induction after with
    | nil => exact ⟨[], .nil⟩
    | cons s ss ih =>
      obtain ⟨v1, h1⟩ := hafter s (List.mem_cons_self ..)
      obtain ⟨v2, h2⟩ := ih fun x hx => hafter x (List.mem_cons_of_mem _ hx)
      exact ⟨v1 ++ v2, h1.append h2⟩
  exact ⟨v, .of_derives hd.derives ((Yields.of_word hw).append hv)⟩

end GrammarKit
