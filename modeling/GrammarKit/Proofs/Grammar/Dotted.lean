/-
Dotted rules of a list of rules: what stands before and after the dot, and how many there are.
-/
import GrammarKit.Grammar.Dotted
import GrammarKit.Proofs.Grammar.Sets

namespace GrammarKit

variable {rules : List Rule}

theorem Rule.length_symbols (r : Rule) : r.symbols.length = r.parts.length := List.length_map _

theorem mem_rulesFor {n : String} {i : Nat} : i ∈ rulesFor rules n ↔ ∃ r, rules[i]? = some r ∧ r.origin = n := by
  simp only [rulesFor, List.mem_map, List.mem_filter, beq_iff_eq, Prod.exists, exists_eq_right,
    List.mem_zipIdx_iff_getElem?]

theorem exists_rule_index {r : Rule} (h : r ∈ rules) : ∃ i : Nat, rules[i]? = some r := List.getElem?_of_mem h

namespace DottedRule

theorem next?_eq_some_iff {d : DottedRule} {s : Symbol} :
    d.next? rules = some s ↔ ∃ r, rules[d.rule]? = some r ∧ r.symbols[d.dot]? = some s := by
  unfold next?
  cases rules[d.rule]? <;> simp

theorem next?_eq_none {d : DottedRule} {r : Rule} (h : rules[d.rule]? = some r)
    (hn : d.next? rules = none) : r.symbols.length ≤ d.dot := by
  unfold next? at hn
  rw [h] at hn
  exact List.getElem?_eq_none_iff.1 hn

theorem isComplete_iff {d : DottedRule} :
    d.isComplete rules = true ↔ ∃ r, rules[d.rule]? = some r ∧ d.dot = r.symbols.length := by
  unfold isComplete
  cases rules[d.rule]? <;> simp [Rule.length_symbols]

theorem take_advance {d : DottedRule} {r : Rule} {s : Symbol} (h : r.symbols[d.dot]? = some s) :
    r.symbols.take d.advance.dot = r.symbols.take d.dot ++ [s] := by
  rw [advance, List.take_add_one, h]; rfl

theorem rest_eq {d : DottedRule} {r : Rule} (h : rules[d.rule]? = some r) :
    d.rest rules = r.symbols.drop (d.dot + 1) := by
  unfold rest; rw [h]

/-- The symbols after the dot. -/
def ahead (rules : List Rule) (d : DottedRule) : List Symbol :=
  match rules[d.rule]? with
  | some r => r.symbols.drop d.dot
  | none => []

theorem ahead_eq {d : DottedRule} {r : Rule} (h : rules[d.rule]? = some r) : d.ahead rules = r.symbols.drop d.dot := by
  unfold ahead; rw [h]

theorem ahead_of_isComplete {d : DottedRule} (h : d.isComplete rules = true) : d.ahead rules = [] := by
  obtain ⟨r, hr, hdot⟩ := isComplete_iff.1 h
  rw [ahead_eq hr, hdot, List.drop_length]

theorem ahead_of_next {d : DottedRule} {s : Symbol} (h : d.next? rules = some s) :
    d.ahead rules = s :: d.advance.ahead rules ∧ d.rest rules = d.advance.ahead rules := by
  obtain ⟨r, hr, hs⟩ := next?_eq_some_iff.1 h
  rw [ahead_eq hr, rest_eq hr, ahead_eq (d := d.advance) hr, List.drop_eq_getElem?_toList_append, hs]
  exact ⟨rfl, rfl⟩

theorem next?_of_ahead {d : DottedRule} {s : Symbol} {ss : List Symbol} (h : d.ahead rules = s :: ss) :
    d.next? rules = some s ∧ d.advance.ahead rules = ss := by
  have hn : d.next? rules = some s := by
    unfold ahead at h
    split at h
    · rename_i r hr
      exact next?_eq_some_iff.2 ⟨r, hr, by rw [← List.head?_drop, h]; rfl⟩
    · cases h
  exact ⟨hn, (List.cons.inj ((ahead_of_next hn).1.symm.trans h)).2⟩

end DottedRule

/-- Every dotted rule. -/
def allDotted (rules : List Rule) : List DottedRule :=
  rules.zipIdx.flatMap fun (r, i) => (List.range (r.parts.length + 1)).map fun dot => ⟨i, dot⟩

theorem mem_allDotted {d : DottedRule} :
    d ∈ allDotted rules ↔ ∃ r, rules[d.rule]? = some r ∧ d.dot ≤ r.symbols.length := by
  obtain ⟨i, dot⟩ := d
  simp only [allDotted, List.mem_flatMap, List.mem_map, List.mem_range, Prod.exists,
    List.mem_zipIdx_iff_getElem?, DottedRule.mk.injEq, Rule.length_symbols]
  constructor
  · rintro ⟨r, i, h, dot, hd, rfl, rfl⟩; exact ⟨r, h, by omega⟩
  · rintro ⟨r, h, hd⟩; exact ⟨r, i, h, dot, by omega, rfl, rfl⟩

theorem length_allDotted_from : ∀ (rules : List Rule) (n : Nat),
    ((rules.zipIdx n).flatMap fun (p : Rule × Nat) =>
      (List.range (p.1.parts.length + 1)).map fun dot => (⟨p.2, dot⟩ : DottedRule)).length = dottedCount rules
  | [], _ => rfl
  | r :: rules, n => by
    rw [List.zipIdx_cons, List.flatMap_cons, List.length_append, length_allDotted_from rules (n + 1)]
    simp only [List.length_map, List.length_range, dottedCount, symbolCount, List.length_cons]
    omega

theorem length_allDotted (rules : List Rule) : (allDotted rules).length = dottedCount rules :=
  length_allDotted_from rules 0

end GrammarKit
