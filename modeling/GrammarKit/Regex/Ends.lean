/-
Where matches end. An expression that is matched at a place goes over characters from this place on, so that it ends at
places further on in the same text, and a match at the start of a text is no longer than the text.
-/
import GrammarKit.Regex.Search

namespace GrammarKit.Regex

/-- The second place is reached from the first by going over the characters between. -/
def Place.Leads (p q : Place) : Prop := ∃ cs, p.rest = cs ++ q.rest ∧ q.index = p.index + cs.length

namespace Place.Leads

variable {p q r : Place}

theorem refl (p : Place) : p.Leads p := ⟨[], rfl, rfl⟩

theorem trans (h : p.Leads q) (k : q.Leads r) : p.Leads r := by
  obtain ⟨cs, hcs, hq⟩ := h
  obtain ⟨ds, hds, hr⟩ := k
  refine ⟨cs ++ ds, by rw [hcs, hds, List.append_assoc], ?_⟩
  rw [List.length_append]
  omega

end Place.Leads

/-- Turns that never go back. -/
def Forward (turn : Place → List Place) : Prop := ∀ p, ∀ q ∈ turn p, p.Leads q

theorem mem_of_mem_firstPlaces {ps : List Place} {q : Place} (h : q ∈ firstPlaces ps) : q ∈ ps := by
  unfold firstPlaces at h
  rw [List.mem_reverse] at h
  refine List.foldlRecOn (motive := fun kept => q ∈ kept → q ∈ ps) ps _ (by simp) (fun kept ih p hp hq => ?_) h
  split at hq
  · exact ih hq
  · rcases List.mem_cons.1 hq with rfl | hq
    · exact hp
    · exact ih hq

/-! ## Repetitions -/

section Turns

variable {turn : Place → List Place} (hturn : Forward turn)
include hturn

theorem leads_of_mem_exactlyEnds {p : Place} : ∀ {n : Nat} {ps : List Place}, (∀ q ∈ ps, p.Leads q) →
    ∀ q ∈ exactlyEnds turn n ps, p.Leads q
  | 0, _, h => h
  | n + 1, ps, h => by
    unfold exactlyEnds
    refine leads_of_mem_exactlyEnds fun q hq => ?_
    obtain ⟨r, hr, hq⟩ := List.mem_flatMap.1 (mem_of_mem_firstPlaces hq)
    exact (h r hr).trans (hturn r q hq)

theorem leads_of_mem_upToEnds {greedy : Bool} : ∀ {n : Nat} {p : Place} {visited : List (Nat × Nat)},
    ∀ q ∈ (upToEnds turn greedy n p visited).1, p.Leads q
  | 0, p, _ => fun q hq => by
    obtain rfl := List.mem_singleton.1 hq
    exact .refl q
  | n + 1, p, visited => by
    intro q hq
    unfold upToEnds at hq
    dsimp only at hq
    generalize hfound : List.foldl _ _ (turn p) = found at hq
    -- the places after a first turn, as far as they are found
    have hfurther : ∀ q ∈ found.1, p.Leads q := by
      rw [← hfound]
      refine List.foldlRecOn (motive := fun acc : List Place × List (Nat × Nat) => ∀ q ∈ acc.1, p.Leads q) (turn p) _
        (by simp) fun acc ih r hr q hq => ?_
      split at hq
      · exact ih q hq
      · rcases List.mem_append.1 hq with hq | hq
        · exact ih q hq
        · exact (hturn p r hr).trans (leads_of_mem_upToEnds q hq)
    split at hq
    · rcases List.mem_append.1 hq with hq | hq
      · exact hfurther q hq
      · obtain rfl := List.mem_singleton.1 hq
        exact .refl q
    · rcases List.mem_cons.1 hq with rfl | hq
      · exact .refl q
      · exact hfurther q hq

theorem leads_of_mem_manyEnds {greedy : Bool} : ∀ {fuel : Nat} {p : Place} {visited : List Nat},
    ∀ q ∈ (manyEnds turn greedy fuel p visited).1, p.Leads q
  | 0, _, _ => fun q hq => by simp [manyEnds] at hq
  | fuel + 1, p, visited => by
    unfold manyEnds
    refine List.foldlRecOn (motive := fun acc : List Place × List Nat => ∀ q ∈ acc.1, p.Leads q) (turn p) _ (by simp)
      fun acc ih r hr q hq => ?_
    have hmore : ∀ q ∈ (if p.index < r.index then manyEnds turn greedy fuel r (r.index :: acc.2)
        else (([] : List Place), r.index :: acc.2)).1, p.Leads q := by
      intro q hq
      split at hq
      · exact (hturn p r hr).trans (leads_of_mem_manyEnds q hq)
      · simp at hq
    dsimp only at hq
    split at hq
    · exact ih q hq
    · rcases List.mem_append.1 hq with hq | hq
      · exact ih q hq
      · split at hq
        · rcases List.mem_append.1 hq with hq | hq
          · exact hmore q hq
          · obtain rfl := List.mem_singleton.1 hq
            exact hturn p q hr
        · rcases List.mem_cons.1 hq with rfl | hq
          · exact hturn p q hr
          · exact hmore q hq

end Turns

/-! ## Expressions -/

theorem Expr.forward_ends : ∀ e : Expr, Forward e.ends
  | .empty => fun p q hq => by
    obtain rfl := List.mem_singleton.1 hq
    exact .refl q
  | .chars s => fun p q hq => by
    unfold ends at hq
    split at hq
    · rename_i c cs hrest
      split at hq
      · obtain rfl := List.mem_singleton.1 hq
        exact ⟨[c], hrest, rfl⟩
      · simp at hq
    · simp at hq
  | .look l => fun p q hq => by
    unfold ends at hq
    split at hq
    · obtain rfl := List.mem_singleton.1 hq
      exact .refl q
    · simp at hq
  | .seq a b => fun p q hq => by
    obtain ⟨r, hr, hq⟩ := List.mem_flatMap.1 (mem_of_mem_firstPlaces hq)
    exact (forward_ends a p r hr).trans (forward_ends b r q hq)
  | .alt a b => fun p q hq => by
    rcases List.mem_append.1 (mem_of_mem_firstPlaces hq) with hq | hq
    · exact forward_ends a p q hq
    · exact forward_ends b p q hq
  | .exactly n a => fun p q hq => by
    refine leads_of_mem_exactlyEnds (forward_ends a) (fun r hr => ?_) q hq
    obtain rfl := List.mem_singleton.1 hr
    exact .refl r
  | .upTo greedy n a => fun p q hq => leads_of_mem_upToEnds (forward_ends a) q (mem_of_mem_firstPlaces hq)
  | .many greedy a => fun p q hq => leads_of_mem_manyEnds (forward_ends a) q hq

/-- A match takes no more than there is. -/
theorem Expr.matchLength?_le {e : Expr} {text : List Char} {n : Nat} (h : e.matchLength? text = some n) :
    n ≤ text.length := by
  obtain ⟨q, hq, rfl⟩ := Option.map_eq_some_iff.1 h
  obtain ⟨cs, hcs, hindex⟩ := e.forward_ends (.start text) q (List.mem_of_mem_head? hq)
  have hlen := congrArg List.length hcs
  rw [List.length_append] at hlen
  simp only [Place.start] at hlen hindex
  omega

end GrammarKit.Regex
