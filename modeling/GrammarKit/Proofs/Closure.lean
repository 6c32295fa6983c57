/-
Closing a list under steps reaches the least closed list: every element that the start leads to is found,
nothing else is, and each is found once. The fuel is enough as soon as all that can be found fits into a
list no longer than it.
-/
import GrammarKit.Closure
import Mathlib.Data.List.Basic
import Mathlib.Data.List.Nodup
import Mathlib.Data.List.Perm.Subperm

namespace GrammarKit

variable {α : Type} [DecidableEq α]

/-! ## Fresh elements -/

theorem nodup_fresh : ∀ seen xs : List α, (fresh seen xs).Nodup
  | _, [] => List.nodup_nil
  | seen, x :: xs => by
    unfold fresh
    split
    · exact nodup_fresh seen xs
    · exact List.nodup_cons.2 ⟨fun h => (mem_fresh.1 h).2 (List.mem_cons_self ..), nodup_fresh _ xs⟩

theorem fresh_eq_self : ∀ {seen xs : List α}, xs.Nodup → (∀ x ∈ xs, x ∉ seen) → fresh seen xs = xs
  | _, [], _, _ => rfl
  | seen, x :: xs, hn, hs => by
    obtain ⟨hx, hn⟩ := List.nodup_cons.1 hn
    rw [fresh, if_neg (hs x (List.mem_cons_self ..)), fresh_eq_self hn]
    rintro y hy (_ | ⟨_, h⟩)
    · exact hx hy
    · exact hs y (List.mem_cons_of_mem _ hy) h

/-! ## Working off a list -/

section Explore

variable (step : List α → α → List α)

/-- What was found stays where it is. -/
theorem prefix_explore : ∀ (fuel : Nat) (finished todo : List α),
    finished ++ todo <+: explore step fuel finished todo
  | 0, _, _ => List.prefix_refl _
  | _ + 1, finished, [] => by simp [explore]
  | fuel + 1, finished, x :: todo => by
    have h := prefix_explore fuel (finished ++ [x])
      (todo ++ fresh (finished ++ x :: todo) (step (finished ++ x :: todo) x))
    refine List.IsPrefix.trans ?_ h
    exact ⟨fresh (finished ++ x :: todo) (step (finished ++ x :: todo) x), by simp⟩

theorem nodup_append_fresh {finished todo : List α} (h : (finished ++ todo).Nodup) (new : List α) :
    (finished ++ todo ++ fresh (finished ++ todo) new).Nodup :=
  List.nodup_append.2 ⟨h, nodup_fresh _ _, fun _ ha _ hb hab => (mem_fresh.1 hb).2 (hab ▸ ha)⟩

theorem nodup_explore : ∀ (fuel : Nat) (finished todo : List α), (finished ++ todo).Nodup →
    (explore step fuel finished todo).Nodup
  | 0, _, _, h => h
  | _ + 1, finished, [], h => by simpa [explore] using h
  | fuel + 1, finished, x :: todo, h =>
    nodup_explore fuel _ _ (by simpa using nodup_append_fresh h (step (finished ++ x :: todo) x))

variable {step}

/-- What holds of the given elements and is kept by every step holds of all that is found. -/
theorem explore_induction {P : α → Prop}
    (hs : ∀ found x, (∀ z ∈ found, P z) → x ∈ found → ∀ y ∈ step found x, P y) :
    ∀ (fuel : Nat) (finished todo : List α), (∀ x ∈ finished ++ todo, P x) →
      ∀ x ∈ explore step fuel finished todo, P x
  | 0, _, _, h => h
  | _ + 1, finished, [], h => by simpa [explore] using h
  | fuel + 1, finished, x :: todo, h => by
    refine explore_induction hs fuel _ _ fun y hy => ?_
    have hy' : y ∈ finished ++ x :: todo ∨ y ∈ step (finished ++ x :: todo) x := by
      simp only [List.mem_append, List.mem_cons, List.not_mem_nil, or_false, mem_fresh] at hy ⊢
      tauto
    rcases hy' with hy | hy
    · exact h y hy
    · exact hs _ x h (by simp) y hy

/-- Every element that is worked off had its step taken, in view of elements that were found by then. -/
theorem explore_closed {bound : List α} : ∀ (fuel : Nat) (finished todo : List α),
    (finished ++ todo).Nodup → (∀ x ∈ explore step fuel finished todo, x ∈ bound) →
    bound.length ≤ finished.length + fuel →
    ∀ x ∈ explore step fuel finished todo, x ∉ finished →
      ∃ found, x ∈ found ∧ (∀ y ∈ found, y ∈ explore step fuel finished todo) ∧
        ∀ y ∈ step found x, y ∈ explore step fuel finished todo
  | 0, finished, todo, hn, hu, hl, x, hx, hf => by
    have hle := (List.subperm_of_subset hn hu).length_le
    have : todo = [] := List.eq_nil_of_length_eq_zero (by simp only [List.length_append] at hle; omega)
    subst this
    exact absurd (by simpa [explore] using hx) hf
  | _ + 1, finished, [], _, _, _, x, hx, hf => absurd (by simpa [explore] using hx) hf
  | fuel + 1, finished, z :: todo, hn, hu, hl, x, hx, hf => by
    have hn' := nodup_append_fresh hn (step (finished ++ z :: todo) z)
    by_cases hxz : x = z
    · subst hxz
      have hp := prefix_explore step fuel (finished ++ [x])
        (todo ++ fresh (finished ++ x :: todo) (step (finished ++ x :: todo) x))
      have hp' : ∀ y, y ∈ finished ++ x :: todo ∨ y ∈ step (finished ++ x :: todo) x →
          y ∈ explore step (fuel + 1) finished (x :: todo) := by
        intro y hy
        refine hp.subset ?_
        simp only [List.mem_append, List.mem_cons, List.not_mem_nil, or_false, mem_fresh] at hy ⊢
        tauto
      exact ⟨finished ++ x :: todo, by simp, fun y hy => hp' y (.inl hy), fun y hy => hp' y (.inr hy)⟩
    · refine explore_closed fuel (finished ++ [z]) _ (by simpa using hn') hu
        (by simp only [List.length_append, List.length_singleton]; omega) x hx ?_
      simp [hf, hxz]

end Explore

/-! ## Everything that a start leads to -/

section Reachable

variable {next : α → List α} {size : Nat} {start : List α}

theorem mem_reachable_of_mem {x : α} (h : x ∈ start) : x ∈ reachable next size start :=
  (prefix_explore _ (size + 1) [] (fresh [] start)).subset (by simpa using h)

theorem nodup_reachable : (reachable next size start).Nodup :=
  nodup_explore _ _ _ _ (by simpa using nodup_fresh [] start)

theorem prefix_reachable (h : start.Nodup) : start <+: reachable next size start := by
  have hp : fresh [] start <+: reachable next size start := prefix_explore _ (size + 1) [] (fresh [] start)
  rwa [fresh_eq_self h (by simp)] at hp

theorem reachable_induction {P : α → Prop} (h0 : ∀ x ∈ start, P x) (hs : ∀ x, P x → ∀ y ∈ next x, P y) :
    ∀ x ∈ reachable next size start, P x :=
  explore_induction (fun _ x hf hx => hs x (hf x hx)) _ _ _ (by simpa using h0)

/-- What is reachable is closed under steps if it fits into a list of the given size. -/
theorem mem_reachable_of_next (bound : List α) (h0 : ∀ x ∈ start, x ∈ bound)
    (hs : ∀ x ∈ bound, ∀ y ∈ next x, y ∈ bound) (hl : bound.length ≤ size + 1) {x y : α}
    (hx : x ∈ reachable next size start) (hy : y ∈ next x) : y ∈ reachable next size start := by
  have hu : ∀ z ∈ reachable next size start, z ∈ bound := reachable_induction h0 hs
  obtain ⟨_, -, -, hc⟩ := explore_closed (size + 1) [] (fresh [] start) (by simpa using nodup_fresh [] start)
    hu (by simpa using hl) x hx (by simp)
  exact hc y hy

end Reachable

end GrammarKit
