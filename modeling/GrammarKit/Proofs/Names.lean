/-
Sorted names: the same names, in strictly ascending order. Numbered names: different ones for different numbers. Names
that are given one after the other, each new when it is given. What stands under a name in a table.
-/
import GrammarKit.Failure
import Mathlib.Data.List.Sort
import Mathlib.Data.String.Basic

namespace GrammarKit

theorem mem_dedup {a : String} : ∀ {names : List String}, a ∈ sortedNames.dedup names ↔ a ∈ names
  | [] => by simp [sortedNames.dedup]
  | [b] => by simp [sortedNames.dedup]
  | b :: c :: rest => by
    unfold sortedNames.dedup
    split
    · rename_i h
      rw [mem_dedup, h]
      simp
    · rw [List.mem_cons, mem_dedup, List.mem_cons, List.mem_cons, List.mem_cons]

theorem mem_sortedNames {a : String} {names : List String} : a ∈ sortedNames names ↔ a ∈ names := by
  rw [sortedNames, mem_dedup, List.mem_mergeSort]

theorem pairwise_dedup : ∀ {names : List String}, names.Pairwise (· ≤ ·) →
    (sortedNames.dedup names).Pairwise (· < ·)
  | [], _ => List.Pairwise.nil
  | [_], _ => List.pairwise_singleton _ _
  | a :: b :: rest, h => by
    obtain ⟨ha, hr⟩ := List.pairwise_cons.1 h
    unfold sortedNames.dedup
    split
    · exact pairwise_dedup hr
    · rename_i hne
      refine List.pairwise_cons.2 ⟨fun c hc => ?_, pairwise_dedup hr⟩
      have hab : a < b := lt_of_le_of_ne (ha b (List.mem_cons_self ..)) hne
      rcases List.mem_cons.1 (mem_dedup.1 hc) with rfl | hc
      · exact hab
      · exact lt_of_lt_of_le hab ((List.pairwise_cons.1 hr).1 c hc)

theorem pairwise_sortedNames (names : List String) : (sortedNames names).Pairwise (· < ·) :=
  pairwise_dedup (List.pairwise_mergeSort' (· ≤ ·) names)

/-! ## Numbered names -/

theorem toDigits_injective : Function.Injective (Nat.toDigits 10) := by
  intro i k h
  rw [← Nat.ofDigitChars_ten_toDigits (n := i), h, Nat.ofDigitChars_ten_toDigits]

theorem numbered_injective (base : String) : Function.Injective fun n : Nat => s!"{base}_{n}" := by
  intro m n h
  have hl := congrArg String.toList h
  simp only [toString, String.toList_append, Nat.toList_repr] at hl
  exact toDigits_injective (List.append_cancel_left hl)

/-! ## New names -/

theorem nodup_map_concat {α β : Type} {f : α → β} {l : List α} (h : (l.map f).Nodup) {a : α} (ha : f a ∉ l.map f) :
    ((l ++ [a]).map f).Nodup := by
  rw [List.map_append, List.map_singleton, ← List.concat_eq_append]
  exact h.concat ha

/-! ## Tables by name -/

theorem lookup_of_mem {α β : Type} [BEq α] [LawfulBEq α] {p : α × β} :
    ∀ {l : List (α × β)}, (l.map (·.1)).Nodup → p ∈ l → l.lookup p.1 = some p.2
  | q :: l, hn, hp => by
    obtain ⟨hq, hn⟩ := List.nodup_cons.1 hn
    rcases List.mem_cons.1 hp with rfl | hp
    · exact List.lookup_cons_self
    · have hne : (p.1 == q.1) = false := beq_eq_false_iff_ne.2 fun he => hq (List.mem_map.2 ⟨p, hp, he⟩)
      rw [List.lookup_cons, hne]
      exact lookup_of_mem hn hp

end GrammarKit
