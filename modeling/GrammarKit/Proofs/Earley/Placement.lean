/-
The search for ways, whatever it runs in. The nested search and the attempts of the agenda look for the ways of a goal
by the same steps; they differ in how a part of a way is derived. So what is known of the parts is known of the ways: a
way is a candidate of its goal over parts that take the goal's stretch one after the other.
-/
import GrammarKit.Proofs.Earley.Extraction

namespace GrammarKit.Earley

/-- A way to say what the results of programs are like, which follows the programs step by step. -/
structure Assures {m : Type → Type} [Monad m] (E : (α : Type) → m α → (α → Prop) → Prop) : Prop where
  pure {α : Type} {Q : α → Prop} {a : α} : Q a → E α (pure a) Q
  bind {α β : Type} {Q : α → Prop} {R : β → Prop} {x : m α} {f : α → m β} :
    E α x Q → (∀ a, Q a → E β (f a) R) → E β (x >>= f) R
  imp {α : Type} {Q R : α → Prop} {x : m α} : E α x Q → (∀ a, Q a → R a) → E α x R

/-- Results of searches that keep a property of the findings. -/
theorem Search.assures (I : Findings → Prop) : Assures (m := Search) fun _ => Search.Ensures I :=
  ⟨Search.Ensures.pure, Search.Ensures.bind, fun h k F hF => ⟨(h F hF).1, k _ (h F hF).2⟩⟩

/-- Results of programs that throw nothing. -/
theorem assures_ok {ε : Type} : Assures (m := Except ε) fun _ x Q => ∀ r, x = .ok r → Q r := by
  refine ⟨fun h r hr => by cases hr; exact h, fun {_ _ _ _ x f} hx hf r hr => ?_, fun h k r hr => k r (h r hr)⟩
  cases x with
  | error e => cases hr
  | ok a => exact hf a (hx a rfl) r hr

namespace Assures

variable {m : Type → Type} [Monad m] {E : (α : Type) → m α → (α → Prop) → Prop} (hE : Assures E) {α β : Type}
include hE

theorem onFound {x : m (Option α)} {missing : β} {go : α → m β} {Q : α → Prop} {R : β → Prop}
    (hx : E _ x fun r => ∀ a, r = some a → Q a) (hm : R missing) (hgo : ∀ a, Q a → E _ (go a) R) :
    E _ (Search.onFound x missing go) R :=
  hE.bind hx fun r hr => match r with
    | none => hE.pure hm
    | some a => hgo a (hr a rfl)

theorem first {f : α → m (Option β)} {Q : β → Prop} : ∀ {l : List α},
    (∀ a ∈ l, E _ (f a) fun r => ∀ b, r = some b → Q b) → E _ (Search.first f l) fun r => ∀ b, r = some b → Q b
  | [], _ => hE.pure fun _ h => nomatch h
  | a :: _, h => hE.bind (h a (List.mem_cons_self ..)) fun r hr => match r with
    | some _ => hE.pure hr
    | none => first fun x hx => h x (List.mem_cons_of_mem _ hx)

theorem all {f : α → m (List β)} {Q : β → Prop} : ∀ {l : List α},
    (∀ a ∈ l, E _ (f a) fun r => ∀ b ∈ r, Q b) → E _ (Search.all f l) fun r => ∀ b ∈ r, Q b
  | [], _ => hE.pure fun _ h => nomatch h
  | a :: _, h => hE.bind (h a (List.mem_cons_self ..)) fun _ hr =>
    hE.bind (all fun x hx => h x (List.mem_cons_of_mem _ hx)) fun _ hrs => hE.pure fun b hb =>
      (List.mem_append.1 hb).elim (hr b) (hrs b)

/-- The first result is that of the first element that has one, where it is known which elements have one. -/
theorem first_hit {f : α → m (Option β)} {P : α → Prop} {Q : α → β → Prop} : ∀ {l : List α},
    (∀ a ∈ l, E _ (f a) fun r => (r = none → ¬ P a) ∧ ∀ b, r = some b → Q a b) →
      E _ (Search.first f l) fun r => (r = none → ∀ a ∈ l, ¬ P a) ∧
        ∀ b, r = some b → ∃ pre a post, l = pre ++ a :: post ∧ (∀ x ∈ pre, ¬ P x) ∧ Q a b
  | [], _ => hE.pure ⟨fun _ _ h => (nomatch h), fun _ h => (nomatch h)⟩
  | a :: l, h => hE.bind (h a (List.mem_cons_self ..)) fun r hr => match r with
    | some b => hE.pure ⟨fun h => (nomatch h), fun b' hb' => ⟨[], a, l, rfl, fun _ h => (nomatch h), hr.2 b' hb'⟩⟩
    | none => hE.imp (first_hit fun x hx => h x (List.mem_cons_of_mem _ hx)) fun r' hr' => by
      have hnot := hr.1 rfl
      refine ⟨fun hn x hx => ?_, fun b hb => ?_⟩
      · rcases List.mem_cons.1 hx with rfl | hx
        exacts [hnot, hr'.1 hn x hx]
      · obtain ⟨pre, a', post, rfl, hpre, hq⟩ := hr'.2 b hb
        refine ⟨a :: pre, a', post, rfl, fun x hx => ?_, hq⟩
        rcases List.mem_cons.1 hx with rfl | hx
        exacts [hnot, hpre x hx]

/-- All results together cover what the results of the elements cover. -/
theorem all_cover {γ : Type} {f : α → m (List β)} {P : α → γ → Prop} {K : β → γ → Prop} : ∀ {l : List α},
    (∀ a ∈ l, E _ (f a) fun r => ∀ z, P a z → ∃ b ∈ r, K b z) →
      E _ (Search.all f l) fun r => ∀ a ∈ l, ∀ z, P a z → ∃ b ∈ r, K b z
  | [], _ => hE.pure fun _ ha => (nomatch ha)
  | a :: l, h => hE.bind (h a (List.mem_cons_self ..)) fun r hr =>
    hE.bind (all_cover fun x hx => h x (List.mem_cons_of_mem _ hx)) fun rs hrs => hE.pure fun x hx z hz => by
      rcases List.mem_cons.1 hx with rfl | hx
      · obtain ⟨b, hb, hk⟩ := hr z hz
        exact ⟨b, List.mem_append_left _ hb, hk⟩
      · obtain ⟨b, hb, hk⟩ := hrs x hx z hz
        exact ⟨b, List.mem_append_right _ hb, hk⟩

end Assures

namespace Chart

/-- Parts of symbols, one for each, that take a stretch one after the other. -/
inductive Placed (c : Chart) {π : Type} (R : Symbol → Nat → Nat → π → Prop) : List Symbol → Nat → Nat → List π → Prop
  | nil {j k : Nat} (h : c.joins j k = true) : Placed c R [] j k []
  | snoc {ss : List Symbol} {s : Symbol} {j m e k : Nat} {ps : List π} {p : π} (he : e ∈ c.ends k) (hj : j ≤ m)
    (hm : m ≤ e) (hp : R s m e p) (before : Placed c R ss j m ps) : Placed c R (ss ++ [s]) j k (ps ++ [p])

variable {c : Chart}

theorem mem_splits {previous : Item} {stop m e : Nat} : (m, e) ∈ c.splits previous stop ↔
    e ∈ c.ends stop ∧ previous.origin ≤ m ∧ m ≤ e ∧ previous ∈ c.column m := by
  simp only [splits, List.mem_flatMap, List.mem_map, List.mem_filter, List.mem_reverse, List.mem_range, Prod.mk.injEq,
    contains, List.contains_eq_mem, decide_eq_true_eq]
  constructor
  · rintro ⟨e', he, m', ⟨⟨i, hi, rfl⟩, hm⟩, rfl, rfl⟩
    exact ⟨he, by omega, by omega, hm⟩
  · rintro ⟨he, h1, h2, hm⟩
    exact ⟨e, he, m, ⟨⟨m - previous.origin, by omega, by omega⟩, hm⟩, rfl, rfl⟩

theorem Placed.length_eq {π : Type} {R : Symbol → Nat → Nat → π → Prop} {ss : List Symbol} {j k : Nat} {ps : List π}
    (h : c.Placed R ss j k ps) : ps.length = ss.length := by
  induction h with
  | nil => rfl
  | snoc _ _ _ _ _ ih => simp [ih]

section Ways

variable {m : Type → Type} [Monad m] {E : (α : Type) → m α → (α → Prop) → Prop} (hE : Assures E) {π : Type}
  {part : Symbol → Nat → Nat → m (Option π)} {R : Symbol → Nat → Nat → π → Prop}
  (hpart : ∀ s j k, E _ (part s j k) fun r => ∀ p, r = some p → R s j k p)
include hE hpart

theorem firstSequence_placed (rule origin : Nat) : ∀ (syms : List Symbol) (stop : Nat),
    E _ (c.firstSequence part rule origin syms stop) fun r => ∀ ps, r = some ps → c.Placed R syms.reverse origin stop ps
  | [], stop => by
    refine hE.pure fun ps hps => ?_
    split at hps
    · rename_i hj
      cases hps
      exact .nil hj
    · cases hps
  | s :: before, stop => hE.first fun x hx => by
    obtain ⟨he, ho, hm, -⟩ := mem_splits.1 hx
    refine hE.onFound (hpart s x.1 x.2) (fun _ h => nomatch h) fun p hp => ?_
    refine hE.bind (firstSequence_placed rule origin before x.1) fun r hr => hE.pure fun ps hps => ?_
    obtain ⟨ps, rfl, rfl⟩ := Option.map_eq_some_iff.1 hps
    rw [List.reverse_cons]
    exact .snoc he ho hm hp (hr ps rfl)

theorem allSequences_placed (rule origin : Nat) : ∀ (syms : List Symbol) (stop : Nat),
    E _ (c.allSequences part rule origin syms stop) fun r => ∀ ps ∈ r, c.Placed R syms.reverse origin stop ps
  | [], stop => by
    refine hE.pure fun ps hps => ?_
    split at hps
    · rename_i hj
      obtain rfl := List.mem_singleton.1 hps
      exact .nil hj
    · cases hps
  | s :: before, stop => hE.all fun x hx => by
    obtain ⟨he, ho, hm, -⟩ := mem_splits.1 hx
    refine hE.onFound (hpart s x.1 x.2) (fun _ h => nomatch h) fun p hp => ?_
    refine hE.bind (allSequences_placed rule origin before x.1) fun r hr => hE.pure fun ps hps => ?_
    obtain ⟨ps, hmem, rfl⟩ := List.mem_map.1 hps
    rw [List.reverse_cons]
    exact .snoc he ho hm hp (hr ps hmem)

/-- Every way is a candidate over parts that take its stretch. -/
theorem ways_placed {ω : Type} (a : Ambiguity) (way : Nat × Rule → List π → ω) (b : Goal) :
    E _ (c.ways a part way b) fun ws => ∀ w ∈ ws, ∃ x ∈ c.candidates b, ∃ ps, w = way x ps ∧
      c.Placed R x.2.symbols b.start b.stop ps := by
  cases a with
  | explicit =>
    refine hE.all fun x hx => ?_
    refine hE.bind (allSequences_placed hE hpart x.1 b.start x.2.symbols.reverse b.stop) fun r hr => ?_
    refine hE.pure fun w hw => ?_
    obtain ⟨ps, hps, rfl⟩ := List.mem_map.1 hw
    exact ⟨x, hx, ps, rfl, by simpa using hr ps hps⟩
  | resolve | forest =>
    refine hE.bind (hE.first (Q := fun w => ∃ x ∈ c.candidates b, ∃ ps, w = way x ps ∧
      c.Placed R x.2.symbols b.start b.stop ps) fun x hx => ?_) fun r hr => hE.pure fun w hw => ?_
    · refine hE.bind (firstSequence_placed hE hpart x.1 b.start x.2.symbols.reverse b.stop) fun r hr => ?_
      refine hE.pure fun w hw => ?_
      obtain ⟨ps, rfl, rfl⟩ := Option.map_eq_some_iff.1 hw
      exact ⟨x, hx, ps, rfl, by simpa using hr ps rfl⟩
    · exact hr w (Option.mem_toList.1 hw)

end Ways

end Chart

end GrammarKit.Earley
