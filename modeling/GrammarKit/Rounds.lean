/-
Rounds over a list of steps, repeated for as long as a round changes something.

A step changes a state in place and reports whether it did. A round takes the steps one after the other, each on what
the ones before it left. That the rounds come to an end is no matter of fuel: every change that is reported takes up some
of the room that the state has left.
-/
namespace GrammarKit

variable {α β γ : Type}

/-- One round of steps, and whether one of them reported a change. -/
def sweep (step : α → β → α × Bool) : List β → α → α × Bool
  | [], a => (a, false)
  | x :: xs, a =>
    let (next, changed) := step a x
    let (last, more) := sweep step xs next
    (last, changed || more)

/-- Steps whose rounds come to an end: each keeps a state good, and a change takes up room. -/
structure Settling (step : α → β → α × Bool) (steps : List β) (Good : α → Prop) (room : α → Nat) : Prop where
  keeps : ∀ {a}, Good a → ∀ x ∈ steps, Good (step a x).1
  pays : ∀ {a}, Good a → ∀ x ∈ steps, room (step a x).1 + (step a x).2.toNat ≤ room a

section Rounds

variable {step : α → β → α × Bool} {steps : List β} {Good : α → Prop} {room : α → Nat}

namespace Settling

theorem subset (h : Settling step steps Good room) {part : List β} (hs : part ⊆ steps) :
    Settling step part Good room :=
  ⟨fun ha x hx => h.keeps ha x (hs hx), fun ha x hx => h.pays ha x (hs hx)⟩

theorem sweep_keeps : ∀ {steps : List β} {a : α}, Settling step steps Good room → Good a → Good (sweep step steps a).1
  | [], _, _, ha => ha
  | x :: _, _, h, ha => (h.subset (List.subset_cons_self ..)).sweep_keeps (h.keeps ha x (List.mem_cons_self ..))

theorem sweep_pays : ∀ {steps : List β} {a : α}, Settling step steps Good room → Good a →
    room (sweep step steps a).1 + (sweep step steps a).2.toNat ≤ room a
  | [], a, _, _ => Nat.le_refl (room a)
  | x :: steps, a, h, ha => by
    have hx := h.pays ha x (List.mem_cons_self ..)
    have hsteps := (h.subset (List.subset_cons_self ..)).sweep_pays (h.keeps ha x (List.mem_cons_self ..))
    have hor : (sweep step (x :: steps) a).2.toNat ≤
        (step a x).2.toNat + (sweep step steps (step a x).1).2.toNat := by
      show ((step a x).2 || (sweep step steps (step a x).1).2).toNat ≤ _
      cases (step a x).2 <;> simp
    show room (sweep step steps (step a x).1).1 + _ ≤ _
    omega

end Settling

/-- Rounds for as long as the last one reported a change. -/
def whileChanged (h : Settling step steps Good room) : (r : α × Bool) → Good r.1 → α
  | (a, false), _ => a
  | (a, true), ha => whileChanged h (sweep step steps a) (h.sweep_keeps ha)
termination_by r => 2 * room r.1 + r.2.toNat
decreasing_by
  have hpays : room (sweep step steps a).1 + (sweep step steps a).2.toNat ≤ room a := h.sweep_pays ha
  show 2 * room (sweep step steps a).1 + (sweep step steps a).2.toNat < 2 * room a + 1
  omega

theorem whileChanged_good (h : Settling step steps Good room) (r : α × Bool) (hr : Good r.1) :
    Good (whileChanged h r hr) := by
  induction r, hr using whileChanged.induct h with
  | case1 a ha _ => rwa [whileChanged]
  | case2 a ha _ ih => rwa [whileChanged]

end Rounds

/-! ## Room -/

/-- How many elements of a list are not there yet. -/
def missing (bound : List γ) (isThere : γ → Bool) : Nat := bound.countP fun x => !isThere x

theorem missing_le (bound : List γ) {isThere isThere' : γ → Bool} (h : ∀ x, isThere x = true → isThere' x = true) :
    missing bound isThere' ≤ missing bound isThere := by
  refine List.countP_mono_left fun x _ hx => ?_
  cases hthere : isThere x
  · rfl
  · simp [h x hthere] at hx

/-- What gets there takes up room. -/
theorem missing_lt {isThere isThere' : γ → Bool} (h : ∀ x, isThere x = true → isThere' x = true) {x : γ} :
    ∀ {bound : List γ}, x ∈ bound → isThere x = false → isThere' x = true →
      missing bound isThere' < missing bound isThere
  | y :: bound, hx, hno, hyes => by
    have hle := missing_le [y] h
    simp only [missing, List.countP_cons, List.countP_nil] at hle ⊢
    rcases List.mem_cons.1 hx with rfl | hx
    · have hbound := missing_le bound h
      simp only [missing] at hbound
      simp only [hno, hyes, Bool.not_true, Bool.not_false, if_true, Bool.false_eq_true, if_false]
      omega
    · have hbound := missing_lt h hx hno hyes
      simp only [missing] at hbound
      omega

end GrammarKit
