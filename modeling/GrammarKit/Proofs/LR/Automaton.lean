/-
The automaton of the viable prefixes. The closure of a kernel holds what its dotted rules lead to and nothing
else, a symbol leads from a state to the state of the rules that move on over it, and every such state is among
those that were found: kernels are sorted lists without repetition, of which there are only so many.
-/
import GrammarKit.LR.Automaton
import GrammarKit.Proofs.Grammar.Dotted
import Mathlib.Data.List.Sort
import Mathlib.Data.List.Sublists

namespace GrammarKit

/-! ## The order of dotted rules -/

namespace DottedRule

theorem le_iff {a b : DottedRule} : a.le b = true ↔ a.rule < b.rule ∨ (a.rule = b.rule ∧ a.dot ≤ b.dot) := by
  rw [le, compare, bne_iff_ne]
  rcases Nat.lt_trichotomy a.rule b.rule with h | h | h
  · simp [Nat.compare_eq_lt.2 h, h]
  · rw [h, Nat.compare_eq_eq.2 rfl, Ordering.then, Nat.compare_ne_gt]
    simp
  · rw [Nat.compare_eq_gt.2 h]
    simp only [Ordering.then, ne_eq, not_true_eq_false, false_iff]
    omega

theorem le_trans (a b c : DottedRule) (h : a.le b = true) (k : b.le c = true) : a.le c = true := by
  rw [le_iff] at *
  omega

theorem le_total (a b : DottedRule) : (a.le b || b.le a) = true := by
  rw [Bool.or_eq_true, le_iff, le_iff]
  omega

theorem le_antisymm {a b : DottedRule} (h : a.le b = true) (k : b.le a = true) : a = b := by
  rw [le_iff] at h k
  cases a; cases b
  simp only [mk.injEq] at *
  omega

theorem advance_injective : Function.Injective advance := by
  rintro ⟨i, m⟩ ⟨j, n⟩ h
  simp only [advance, mk.injEq] at h ⊢
  omega

end DottedRule

namespace LR

/-! ## Reserved names -/

/-- Names that grammars leave to the automaton: those of root rules, of the end marker and of the mark. -/
def Reserved (name : String) : Prop := name.startsWith "$" = true

/-- No name of the rules or the start symbols is reserved. -/
structure Unreserved (rules : List Rule) (start : List String) : Prop where
  origin : ∀ r ∈ rules, ¬ Reserved r.origin
  symbol : ∀ r ∈ rules, ∀ s ∈ r.symbols, ¬ Reserved s.name
  start : ∀ n ∈ start, ¬ Reserved n

theorem reserved_iff {name : String} : Reserved name ↔ name.toList.head? = some '$' := by
  rw [Reserved, String.startsWith_string_iff]
  cases name.toList <;> simp [eq_comm]

theorem reserved_endMarker : Reserved endMarker := reserved_iff.2 rfl

theorem reserved_rootRule (name : String) : Reserved (rootRule name).origin := by
  rw [reserved_iff]
  simp only [rootRule, String.toList_append, List.head?_append]
  rfl

variable {rules : List Rule}

/-! ## Closures -/

theorem mem_begins {d e : DottedRule} : e ∈ begins rules d ↔
    ∃ r i, d.next? rules = some (.nonterminal r.origin) ∧ rules[i]? = some r ∧ e = ⟨i, 0⟩ := by
  unfold begins
  split
  · rename_i n hn
    simp only [List.mem_map, mem_rulesFor]
    constructor
    · rintro ⟨i, ⟨r, hr, rfl⟩, rfl⟩; exact ⟨r, i, hn, hr, rfl⟩
    · rintro ⟨r, i, hn', hr, rfl⟩
      rw [hn] at hn'
      cases hn'
      exact ⟨i, ⟨r, hr, rfl⟩, rfl⟩
  · rename_i hne
    simp only [List.not_mem_nil, false_iff]
    rintro ⟨r, i, hn, -⟩
    exact hne _ hn

theorem mem_allDotted_of_begins {d e : DottedRule} (h : e ∈ begins rules d) : e ∈ allDotted rules := by
  obtain ⟨r, i, -, hr, rfl⟩ := mem_begins.1 h
  exact mem_allDotted.2 ⟨r, hr, Nat.zero_le _⟩

theorem mem_allDotted_of_next {d : DottedRule} {s : Symbol} (h : d.next? rules = some s) :
    d.advance ∈ allDotted rules := by
  obtain ⟨r, hr, hs⟩ := DottedRule.next?_eq_some_iff.1 h
  exact mem_allDotted.2 ⟨r, hr, (List.getElem?_eq_some_iff.1 hs).1⟩

theorem mem_closure_of_mem {k : Kernel} {d : DottedRule} (h : d ∈ k) : d ∈ closure rules k :=
  mem_reachable_of_mem h

theorem mem_closure_of_begins {k : Kernel} {d e : DottedRule} (hd : d ∈ closure rules k) (he : e ∈ begins rules d) :
    e ∈ closure rules k :=
  mem_reachable_of_next (k ++ allDotted rules) (fun _ h => List.mem_append_left _ h)
    (fun _ _ _ hy => List.mem_append_right _ (mem_allDotted_of_begins hy))
    (by rw [List.length_append, length_allDotted]; omega) hd he

theorem closure_induction {k : Kernel} {P : DottedRule → Prop} (h0 : ∀ d ∈ k, P d)
    (hs : ∀ d, P d → ∀ e ∈ begins rules d, P e) : ∀ d ∈ closure rules k, P d :=
  reachable_induction h0 hs

/-! ## Moves -/

/-- The rules of a state that move on over a symbol. -/
def advanced (rules : List Rule) (k : Kernel) (s : Symbol) : Kernel :=
  (((closure rules k).filter (·.next? rules == some s)).map DottedRule.advance).mergeSort DottedRule.le

theorem mem_advanced {k : Kernel} {s : Symbol} {d : DottedRule} :
    d ∈ advanced rules k s ↔ ∃ e ∈ closure rules k, e.next? rules = some s ∧ e.advance = d := by
  simp [advanced, and_assoc]

theorem nodup_advanced (k : Kernel) (s : Symbol) : (advanced rules k s).Nodup :=
  (List.mergeSort_perm _ _).nodup_iff.2 ((nodup_reachable.filter _).map DottedRule.advance_injective)

theorem pairwise_advanced (k : Kernel) (s : Symbol) : (advanced rules k s).Pairwise fun a b => a.le b = true :=
  List.pairwise_mergeSort DottedRule.le_trans DottedRule.le_total _

/-- A kernel is one of the sorted lists of dotted rules. -/
theorem advanced_sublist (k : Kernel) (s : Symbol) :
    List.Sublist (advanced rules k s) ((allDotted rules).mergeSort DottedRule.le) := by
  have : Std.Antisymm (fun a b : DottedRule => a.le b = true) := ⟨fun _ _ => DottedRule.le_antisymm⟩
  refine List.sublist_of_subperm_of_pairwise (r := fun a b => DottedRule.le a b = true) ?_ (pairwise_advanced k s)
    (List.pairwise_mergeSort DottedRule.le_trans DottedRule.le_total _)
  refine List.subperm_of_subset (nodup_advanced k s) fun d hd => ?_
  obtain ⟨e, -, hn, rfl⟩ := mem_advanced.1 hd
  exact List.mem_mergeSort.2 (mem_allDotted_of_next hn)

theorem lookup_moves {k k' : Kernel} {s : Symbol} : (LR.moves rules k).lookup s = some k' ↔
    (∃ d ∈ closure rules k, d.next? rules = some s) ∧ k' = advanced rules k s := by
  have heq : LR.moves rules k = (fresh [] (((closure rules k).filterMap (·.next? rules)).mergeSort Symbol.le)).map
      fun s => (s, advanced rules k s) := rfl
  rw [heq, lookup_map_pair (advanced rules k) s]
  have hmem : s ∈ fresh [] (((closure rules k).filterMap (·.next? rules)).mergeSort Symbol.le) ↔
      ∃ d ∈ closure rules k, d.next? rules = some s := by simp
  split
  · rename_i h
    rw [← hmem]
    simp [h, eq_comm]
  · rename_i h
    rw [← hmem]
    simp [h]


theorem mem_moves {k k' : Kernel} (h : k' ∈ (LR.moves rules k).map (·.2)) :
    ∃ s, (∃ d ∈ closure rules k, d.next? rules = some s) ∧ k' = advanced rules k s := by
  simp only [LR.moves, List.map_map, List.mem_map] at h
  obtain ⟨s, hs, rfl⟩ := h
  exact ⟨s, by simpa using hs, rfl⟩

/-! ## States -/

namespace Automaton

variable {start : List String}

theorem rules_ofRules : (ofRules rules start).rules = rules ++ start.map rootRule := rfl

theorem mem_roots {name : String} {i root : Nat} :
    (name, i, root) ∈ (ofRules rules start).roots ↔ start[i]? = some name ∧ root = rules.length + i := by
  show (name, i, root) ∈ start.zipIdx.map _ ↔ _
  simp only [List.mem_map, Prod.exists, List.mem_zipIdx_iff_getElem?, Prod.mk.injEq]
  constructor
  · rintro ⟨_, _, h, rfl, rfl, rfl⟩; exact ⟨h, rfl⟩
  · rintro ⟨h, rfl⟩; exact ⟨_, _, h, rfl, rfl, rfl⟩

theorem getElem?_root {i : Nat} {name : String} (h : start[i]? = some name) :
    (ofRules rules start).rules[rules.length + i]? = some (rootRule name) := by
  rw [rules_ofRules, List.getElem?_append_right (Nat.le_add_right ..), Nat.add_sub_cancel_left, List.getElem?_map, h]
  rfl

/-- The states of the start symbols, which come first. -/
def firstStates (rules : List Rule) (start : List String) : List Kernel :=
  (List.range start.length).map fun i => [⟨rules.length + i, 0⟩]

theorem states_eq : (ofRules rules start).states =
    reachable (fun k => (LR.moves (ofRules rules start).rules k).map (·.2))
      (Nat.pow 2 (dottedCount (ofRules rules start).rules)) (firstStates rules start) := by
  have hfirst : (start.zipIdx.map fun x => (x.1, x.2, rules.length + x.2)).map
    (fun x => [(⟨x.2.2, 0⟩ : DottedRule)]) =
      firstStates rules start := by
    rw [firstStates, List.range_eq_range', ← List.zipIdx_map_snd, List.map_map, List.map_map]
    rfl
  rw [← hfirst]
  rfl

theorem mem_states_of_advanced {k : Kernel} {s : Symbol} (hk : k ∈ (ofRules rules start).states)
    (hs : ∃ d ∈ closure (ofRules rules start).rules k, d.next? (ofRules rules start).rules = some s) :
    advanced (ofRules rules start).rules k s ∈ (ofRules rules start).states := by
  rw [states_eq] at hk ⊢
  refine mem_reachable_of_next ((allDotted (ofRules rules start).rules).mergeSort DottedRule.le).sublists
    (fun k hk => ?_) (fun k _ k' hk' => ?_) ?_ hk ?_
  · obtain ⟨i, hi, rfl⟩ := List.mem_map.1 hk
    refine List.mem_sublists.2 (List.singleton_sublist.2 (List.mem_mergeSort.2 ?_))
    exact mem_allDotted.2 ⟨_, getElem?_root (List.getElem?_eq_getElem (List.mem_range.1 hi)), Nat.zero_le _⟩
  · obtain ⟨s, -, rfl⟩ := mem_moves hk'
    exact List.mem_sublists.2 (advanced_sublist k s)
  · rw [List.length_sublists, List.length_mergeSort, length_allDotted]
    exact Nat.le_succ _
  · have hl := lookup_moves.2 ⟨hs, rfl⟩
    obtain ⟨_, _, h, -⟩ := List.lookup_eq_some_iff.1 hl
    exact List.mem_map.2 ⟨_, h ▸ List.mem_append_right _ (List.mem_cons_self ..), rfl⟩

/-- A symbol leads from a state to the state of the rules that move on over it. -/
theorem target?_eq_some_iff {i j : Nat} {s : Symbol} : (ofRules rules start).target? i s = some j ↔
    ∃ k, (ofRules rules start).states[i]? = some k ∧
      (∃ d ∈ closure (ofRules rules start).rules k, d.next? (ofRules rules start).rules = some s) ∧
      j = (ofRules rules start).states.idxOf (advanced (ofRules rules start).rules k s) := by
  have hm : (ofRules rules start).moves[i]? = ((ofRules rules start).states[i]?).map fun k =>
      (LR.moves (ofRules rules start).rules k).map fun x => (x.1, (ofRules rules start).states.idxOf x.2) :=
    List.getElem?_map ..
  rw [target?, hm]
  cases (ofRules rules start).states[i]? with
  | none => simp
  | some k =>
    show (List.map _ (LR.moves (ofRules rules start).rules k)).lookup s = some j ↔ _
    rw [lookup_map_snd (fun target => (ofRules rules start).states.idxOf target), Option.map_eq_some_iff]
    simp only [lookup_moves]
    constructor
    · rintro ⟨_, ⟨h, rfl⟩, rfl⟩; exact ⟨k, rfl, h, rfl⟩
    · rintro ⟨_, hk, h, rfl⟩
      cases hk
      exact ⟨_, ⟨h, rfl⟩, rfl⟩

theorem getElem?_target {i j : Nat} {s : Symbol} {k : Kernel} (hk : (ofRules rules start).states[i]? = some k)
    (h : (ofRules rules start).target? i s = some j) :
    (ofRules rules start).states[j]? = some (advanced (ofRules rules start).rules k s) := by
  obtain ⟨k', hk', hs, rfl⟩ := target?_eq_some_iff.1 h
  obtain rfl := Option.some.inj (hk.symm.trans hk')
  have hmem := mem_states_of_advanced (List.mem_of_getElem? hk) hs
  have hlt := List.idxOf_lt_length_iff.2 hmem
  rw [List.getElem?_eq_getElem hlt, List.getElem_idxOf]

/-- The symbol after a dot leads on. -/
theorem exists_target {i : Nat} {s : Symbol} {k : Kernel} {d : DottedRule}
    (hk : (ofRules rules start).states[i]? = some k) (hd : d ∈ closure (ofRules rules start).rules k)
    (hs : d.next? (ofRules rules start).rules = some s) : ∃ j, (ofRules rules start).target? i s = some j :=
  ⟨_, target?_eq_some_iff.2 ⟨k, hk, ⟨d, hd, hs⟩, rfl⟩⟩

theorem lt_length_of_target {i j : Nat} {s : Symbol} (h : (ofRules rules start).target? i s = some j) :
    j < (ofRules rules start).states.length := by
  obtain ⟨k, hk, -⟩ := target?_eq_some_iff.1 h
  exact (List.getElem?_eq_some_iff.1 (getElem?_target hk h)).1

theorem exists_start {name : String} (h : name ∈ start) : ∃ i, (ofRules rules start).start? name = some i := by
  obtain ⟨i, hi⟩ := List.getElem?_of_mem h
  have hmem : (name, i, rules.length + i) ∈ (ofRules rules start).roots.reverse :=
    List.mem_reverse.2 (mem_roots.2 ⟨hi, rfl⟩)
  have hsome : ((ofRules rules start).roots.reverse.find? (·.1 == name)).isSome = true :=
    List.find?_isSome.2 ⟨(name, i, rules.length + i), hmem, beq_self_eq_true name⟩
  obtain ⟨x, hx⟩ := Option.isSome_iff_exists.1 hsome
  exact ⟨x.2.1, Option.map_eq_some_iff.2 ⟨x, hx, rfl⟩⟩

/-- The state of a start symbol is entered with its root rule. -/
theorem start?_eq_some {name : String} {i : Nat} (h : (ofRules rules start).start? name = some i) :
    start[i]? = some name ∧ (ofRules rules start).states[i]? = some [⟨rules.length + i, 0⟩] := by
  obtain ⟨⟨n, j, root⟩, hf, rfl⟩ := Option.map_eq_some_iff.1 h
  have hn : n = name := by simpa using List.find?_some hf
  obtain ⟨hj, -⟩ := mem_roots.1 (List.mem_reverse.1 (List.mem_of_find?_eq_some hf))
  subst hn
  refine ⟨hj, ?_⟩
  have hnodup : (firstStates rules start).Nodup := by
    refine List.Nodup.map (fun i j h => ?_) List.nodup_range
    simpa using h
  obtain ⟨more, hmore⟩ : firstStates rules start <+: (ofRules rules start).states := by
    rw [states_eq]
    exact prefix_reachable hnodup
  have hlt : j < start.length := (List.getElem?_eq_some_iff.1 hj).1
  rw [← hmore, List.getElem?_append_left (by simpa [firstStates] using hlt), firstStates, List.getElem?_map,
    List.getElem?_range hlt]
  rfl

/-- Of distinct start symbols each is begun in the state of its place. -/
theorem start?_of_nodup (hs : start.Nodup) {name : String} {i : Nat} (h : start[i]? = some name) :
    (ofRules rules start).start? name = some i := by
  obtain ⟨j, hj⟩ : ∃ j, (ofRules rules start).start? name = some j := exists_start (List.mem_of_getElem? h)
  have hlt : i < start.length := (List.getElem?_eq_some_iff.1 h).1
  rw [hj, (List.getElem?_inj hlt hs).1 (h.trans (start?_eq_some hj).1.symm)]

theorem sorted_states : ∀ k ∈ (ofRules rules start).states, k.Nodup ∧ k.Pairwise fun a b => a.le b = true := by
  rw [states_eq]
  refine reachable_induction (P := fun k : Kernel => k.Nodup ∧ k.Pairwise fun a b => a.le b = true) ?_ ?_
  · intro k hk
    obtain ⟨i, -, rfl⟩ := List.mem_map.1 hk
    exact ⟨List.nodup_singleton _, List.pairwise_singleton _ _⟩
  · intro k _ k' hk'
    obtain ⟨s, -, rfl⟩ := mem_moves hk'
    exact ⟨nodup_advanced k s, pairwise_advanced k s⟩

/-- Two states that are entered with the same dotted rules are one state. -/
theorem states_ext {i j : Nat} {k k' : Kernel} (hi : (ofRules rules start).states[i]? = some k)
    (hj : (ofRules rules start).states[j]? = some k') (h : ∀ d, d ∈ k ↔ d ∈ k') : i = j := by
  obtain ⟨hnodup, hsorted⟩ := sorted_states k (List.mem_of_getElem? hi)
  obtain ⟨hnodup', hsorted'⟩ := sorted_states k' (List.mem_of_getElem? hj)
  obtain rfl : k = k' := ((List.perm_ext_iff_of_nodup hnodup hnodup').2 h).eq_of_pairwise
    (fun _ _ _ _ => DottedRule.le_antisymm) hsorted hsorted'
  have hstates : (ofRules rules start).states.Nodup := by
    rw [states_eq]
    exact nodup_reachable
  exact (List.getElem?_inj (List.getElem?_eq_some_iff.1 hi).1 hstates).1 (hi.trans hj.symm)

end Automaton

end LR

end GrammarKit
