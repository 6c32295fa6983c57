/-
What rounds leave behind. What every step keeps holds at the end; and since the last round reported no change, so does
what a step brings about when it has nothing to change.
-/
import GrammarKit.Rounds

namespace GrammarKit

variable {α β : Type} {step : α → β → α × Bool} {steps : List β} {Good : α → Prop} {room : α → Nat}

/-- What holds at first and is kept by every step holds at the end. -/
theorem whileChanged_induction {P : α → Prop} (hs : ∀ a, Good a → P a → ∀ x ∈ steps, P (step a x).1)
    (h : Settling step steps Good room) {r : α × Bool} (hr : Good r.1) (h0 : P r.1) : P (whileChanged h r hr) := by
  have hboth : Settling step steps (fun a => Good a ∧ P a) room :=
    ⟨fun hg x hx => ⟨h.keeps hg.1 x hx, hs _ hg.1 hg.2 x hx⟩, fun hg => h.pays hg.1⟩
  induction r, hr using whileChanged.induct h with
  | case1 a ha _ => rwa [whileChanged]
  | case2 a ha _ ih =>
    rw [whileChanged]
    exact ih (hboth.sweep_keeps ⟨ha, h0⟩).2

/-- What a quiet step finds stays through quiet steps, so a round without change finds it of every step. -/
theorem sweep_settled {P : α → β → Prop} (hquiet : ∀ a x, (step a x).2 = false → P a x)
    (hkeep : ∀ a x, (step a x).2 = false → ∀ y, P a y → P (step a x).1 y) : ∀ {steps : List β} {a : α},
    (sweep step steps a).2 = false →
      (∀ x ∈ steps, P (sweep step steps a).1 x) ∧ ∀ y, P a y → P (sweep step steps a).1 y
  | [], _, _ => ⟨fun _ hx => (nomatch hx), fun _ hy => hy⟩
  | x :: steps, a, h => by
    obtain ⟨hx, hsteps⟩ := Bool.or_eq_false_iff.1 h
    obtain ⟨hall, hlater⟩ := sweep_settled hquiet hkeep hsteps
    refine ⟨fun y hy => ?_, fun y hy => hlater y (hkeep a x hx y hy)⟩
    rcases List.mem_cons.1 hy with rfl | hy
    · exact hlater y (hkeep a y hx y (hquiet a y hx))
    · exact hall y hy

/-- At the end no step has anything left to change. -/
theorem whileChanged_settled {P : α → β → Prop} (hquiet : ∀ a x, (step a x).2 = false → P a x)
    (hkeep : ∀ a x, (step a x).2 = false → ∀ y, P a y → P (step a x).1 y) (h : Settling step steps Good room)
    (a : α) (ha : Good a) : ∀ x ∈ steps, P (whileChanged h (a, true) ha) x := by
  suffices hround : ∀ (r : α × Bool) (hr : Good r.1), (r.2 = false → ∀ x ∈ steps, P r.1 x) →
      ∀ x ∈ steps, P (whileChanged h r hr) x from hround (a, true) ha fun hf => nomatch hf
  intro r hr
  induction r, hr using whileChanged.induct h with
  | case1 a ha _ =>
    rw [whileChanged]
    exact fun hlast => hlast rfl
  | case2 a ha _ ih =>
    rw [whileChanged]
    exact fun _ => ih fun hlast => (sweep_settled hquiet hkeep hlast).1

end GrammarKit
