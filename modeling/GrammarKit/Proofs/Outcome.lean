/-
Computations that can fail. One that succeeds has succeeded at every step: a step is taken from a state for which an
invariant holds, and leaves one for which it holds. One whose steps all succeed succeeds.
-/
import GrammarKit.Failure

namespace GrammarKit

theorem bind_eq_ok {ε α β : Type} {x : Except ε α} {f : α → Except ε β} {b : β} :
    x >>= f = .ok b ↔ ∃ a, x = .ok a ∧ f a = .ok b := by
  cases x with
  | error e => exact ⟨fun h => (nomatch h), fun ⟨_, h, _⟩ => (nomatch h)⟩
  | ok a => exact ⟨fun h => ⟨a, rfl, h⟩, fun ⟨_, h, hf⟩ => by cases h; exact hf⟩

theorem map_eq_ok {ε α β : Type} {x : Except ε α} {f : α → β} {b : β} :
    x.map f = .ok b ↔ ∃ a, x = .ok a ∧ f a = b := by
  cases x with
  | error e => exact ⟨fun h => (nomatch h), fun ⟨_, h, _⟩ => (nomatch h)⟩
  | ok a => exact ⟨fun h => ⟨a, rfl, Except.ok.inj h⟩, fun ⟨_, h, hf⟩ => by cases h; exact congrArg _ hf⟩

theorem foldlM_induction {α β : Type} {f : β → α → Outcome β} {I : List α → β → Prop}
    (hf : ∀ done a b b', I done b → f b a = .ok b' → I (done ++ [a]) b') :
    ∀ (l done : List α) (b b' : β), I done b → l.foldlM f b = .ok b' → I (done ++ l) b'
  | [], done, b, b', hb, h => by
    cases h
    simpa using hb
  | a :: l, done, b, b', hb, h => by
    rw [List.foldlM_cons] at h
    cases hfa : f b a with
    | error e => rw [hfa] at h; cases h
    | ok c =>
      rw [hfa] at h
      have := foldlM_induction hf l (done ++ [a]) c b' (hf done a b c hb hfa) h
      simpa using this

theorem exists_foldlM {α β : Type} {f : β → α → Outcome β} {I : β → Prop} : ∀ (l : List α) (b : β), I b →
    (∀ a ∈ l, ∀ b, I b → ∃ b', f b a = .ok b') → (∀ a ∈ l, ∀ b b', I b → f b a = .ok b' → I b') →
    ∃ b', l.foldlM f b = .ok b'
  | [], b, _, _, _ => ⟨b, rfl⟩
  | a :: l, b, hb, hok, hI => by
    obtain ⟨c, hc⟩ := hok a (List.mem_cons_self ..) b hb
    obtain ⟨b', hb'⟩ := exists_foldlM l c (hI a (List.mem_cons_self ..) b c hb hc)
      (fun x hx => hok x (List.mem_cons_of_mem _ hx)) (fun x hx => hI x (List.mem_cons_of_mem _ hx))
    exact ⟨b', by rw [List.foldlM_cons, hc]; exact hb'⟩

theorem mapM_ok {α β : Type} {f : α → Outcome β} : ∀ {l : List α} {ys : List β}, l.mapM f = .ok ys →
    ys.length = l.length ∧ ∀ (i : Nat) (x : α), l[i]? = some x → ∃ y, f x = .ok y ∧ ys[i]? = some y
  | [], ys, h => by
    rw [List.mapM_nil] at h
    cases h
    simp
  | x :: l, ys, h => by
    rw [List.mapM_cons] at h
    cases hx : f x with
    | error e => rw [hx] at h; cases h
    | ok y =>
      rw [hx] at h
      cases hl : l.mapM f with
      | error e => rw [hl] at h; cases h
      | ok zs =>
        rw [hl] at h
        cases h
        obtain ⟨h1, h2⟩ := mapM_ok hl
        refine ⟨by simp [h1], fun i a ha => ?_⟩
        cases i with
        | zero => cases ha; exact ⟨y, hx, rfl⟩
        | succ i => exact h2 i a ha

theorem exists_mapM {α β : Type} {f : α → Outcome β} : ∀ {l : List α}, (∀ x ∈ l, ∃ y, f x = .ok y) →
    ∃ ys, l.mapM f = .ok ys
  | [], _ => ⟨[], rfl⟩
  | x :: l, h => by
    obtain ⟨y, hy⟩ := h x (List.mem_cons_self ..)
    obtain ⟨ys, hys⟩ := exists_mapM fun z hz => h z (List.mem_cons_of_mem _ hz)
    exact ⟨y :: ys, by rw [List.mapM_cons, hy, hys]; rfl⟩

end GrammarKit
