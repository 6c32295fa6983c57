/-
Closing a list under steps. Found elements are worked off in order of discovery, and what an element
leads to is appended unless it was found before; the result lists every element once, in that order.
A step may look at everything found so far. `fuel` bounds the number of elements worked off.
-/
namespace GrammarKit

variable {α : Type} [DecidableEq α]

/-- The candidates that are not seen yet, each once. -/
def fresh (seen : List α) : List α → List α
  | [] => []
  | x :: xs => if x ∈ seen then fresh seen xs else x :: fresh (x :: seen) xs

@[simp] theorem mem_fresh {x : α} : ∀ {seen xs : List α}, x ∈ fresh seen xs ↔ x ∈ xs ∧ x ∉ seen
  | seen, [] => by simp [fresh]
  | seen, y :: ys => by
    unfold fresh
    split
    · rename_i hy
      rw [mem_fresh, List.mem_cons]
      constructor
      · rintro ⟨h1, h2⟩; exact ⟨.inr h1, h2⟩
      · rintro ⟨rfl | h1, h2⟩
        · exact absurd hy h2
        · exact ⟨h1, h2⟩
    · rename_i hy
      rw [List.mem_cons, mem_fresh, List.mem_cons, List.mem_cons]
      by_cases hxy : x = y
      · subst hxy; simp [hy]
      · simp [hxy]

/-- Works off `todo`; `step found x` lists what `x` leads to, given all elements found so far. -/
def explore (step : List α → α → List α) : (fuel : Nat) → (finished todo : List α) → List α
  | 0, finished, todo => finished ++ todo
  | _ + 1, finished, [] => finished
  | fuel + 1, finished, x :: todo =>
    let found := finished ++ x :: todo
    explore step fuel (finished ++ [x]) (todo ++ fresh found (step found x))

/-- Everything that the start leads to; there are at most `size` such elements. -/
def reachable (next : α → List α) (size : Nat) (start : List α) : List α :=
  explore (fun _ => next) (size + 1) [] (fresh [] start)

end GrammarKit
