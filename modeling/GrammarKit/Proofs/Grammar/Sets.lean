/-
What is nullable and what comes first is right. Every round notes only what is derived: the nullable names derive
nothing, and the terminals that come first in a nonterminal begin forms that it derives. When a round changes nothing,
all of this is noted, for what is noted then is kept by rewriting a form backwards. Every terminal that comes first
stands somewhere in the rules.
-/
import GrammarKit.Grammar.Sets
import GrammarKit.Proofs.Closure
import GrammarKit.Proofs.Rounds
import GrammarKit.Proofs.Grammar.Derives

namespace GrammarKit

variable {rules : List Rule}

theorem lookup_map_snd {α β γ : Type} [BEq α] (f : β → γ) (a : α) : ∀ l : List (α × β),
    (l.map fun x => (x.1, f x.2)).lookup a = (l.lookup a).map f
  | [] => rfl
  | (b, x) :: l => by
    rw [List.map_cons, List.lookup_cons, List.lookup_cons, lookup_map_snd f a l]
    cases a == b <;> rfl

/-- The value of an element in a table that gives every element its value. -/
theorem lookup_map_pair {α β : Type} [DecidableEq α] (f : α → β) (n : α) : ∀ names : List α,
    (names.map fun m => (m, f m)).lookup n = if n ∈ names then some (f n) else none
  | [] => rfl
  | m :: names => by
    rw [List.map_cons, List.lookup_cons, lookup_map_pair f n names]
    by_cases h : n = m
    · subst h; simp
    · simp [h, beq_eq_false_iff_ne.2 h]

/-- Where nothing new is added, all that is to be added is there, and every set stays as it is. -/
theorem NamedSets.setOf_of_quiet {t : NamedSets} {name : String} {new : List String} (h : (t.add name new).2 = false) :
    (∀ a ∈ new, a ∈ t.setOf name) ∧ (t.add name new).1.setOf = t.setOf := by
  have hfresh : fresh (t.setOf name) new = [] := by simpa [add_changed] using h
  refine ⟨fun a ha => ?_, funext fun n => ?_⟩
  · by_contra hn
    have hmem : a ∈ fresh (t.setOf name) new := mem_fresh.2 ⟨ha, hn⟩
    rw [hfresh] at hmem
    cases hmem
  · rw [setOf_add, hfresh, List.append_nil]
    split
    · rename_i hn
      rw [hn]
    · rfl

/-! ## Sequences -/

theorem allNullable_iff {known : List String} {symbols : List Symbol} :
    allNullable known symbols = true ↔ ∀ s ∈ symbols, ∃ n ∈ known, s = .nonterminal n := by
  unfold allNullable
  rw [List.all_eq_true]
  refine forall₂_congr fun s _ => ?_
  cases s <;> simp

theorem allNullable_append {known : List String} {xs ys : List Symbol} :
    allNullable known (xs ++ ys) = (allNullable known xs && allNullable known ys) := List.all_append

theorem allNullable_nonterminal {known : List String} {n : String} {rest : List Symbol} :
    allNullable known (.nonterminal n :: rest) = true ↔ n ∈ known ∧ allNullable known rest = true := by
  simp [allNullable]

namespace FirstSets

theorem firstOfSequence_snd (g : FirstSets) : ∀ symbols : List Symbol,
    (g.firstOfSequence symbols).2 = allNullable g.nullable symbols
  | [] => rfl
  | .terminal n :: rest => rfl
  | .nonterminal n :: rest => by
    have hcons : allNullable g.nullable (.nonterminal n :: rest) =
        (g.nullable.contains n && allNullable g.nullable rest) := rfl
    rw [hcons, ← g.firstOfSequence_snd rest, firstOfSequence]
    cases g.nullable.contains n <;> rfl

theorem mem_firstOfSequence_append {g : FirstSets} {a : String} {ys : List Symbol} : ∀ {xs : List Symbol},
    a ∈ (g.firstOfSequence (xs ++ ys)).1 ↔
      a ∈ (g.firstOfSequence xs).1 ∨ allNullable g.nullable xs = true ∧ a ∈ (g.firstOfSequence ys).1
  | [] => by simp [firstOfSequence, allNullable]
  | .terminal n :: xs => by simp [firstOfSequence, allNullable]
  | .nonterminal n :: xs => by
    rw [List.cons_append, mem_firstOfSequence_nonterminal, mem_firstOfSequence_nonterminal, mem_firstOfSequence_append,
      allNullable_nonterminal, and_or_left, or_assoc, and_assoc]

/-! ## What is noted is derived -/

/-- Everything that is noted is derived. -/
structure Sound (rules : List Rule) (g : FirstSets) : Prop where
  nullable : ∀ n ∈ g.nullable, Derives rules [.nonterminal n] []
  firsts : ∀ n, ∀ a ∈ g.firsts.setOf n, ∃ rest, Derives rules [.nonterminal n] (.terminal a :: rest)

namespace Sound

variable {g : FirstSets}

theorem derives_nil (h : g.Sound rules) : ∀ {symbols : List Symbol}, allNullable g.nullable symbols = true →
    Derives rules symbols []
  | [], _ => .refl
  | .terminal n :: rest, hall => by simp [allNullable] at hall
  | .nonterminal n :: rest, hall => by
    obtain ⟨hn, hall⟩ := allNullable_nonterminal.1 hall
    exact ((h.nullable n hn).append_right rest).trans (h.derives_nil hall)

/-- What is known to come first in a sequence begins a form that is derived from it. -/
theorem derives_cons (h : g.Sound rules) {a : String} : ∀ {symbols : List Symbol},
    a ∈ (g.firstOfSequence symbols).1 → ∃ rest, Derives rules symbols (.terminal a :: rest)
  | [], ha => nomatch ha
  | .terminal n :: rest, ha => ⟨rest, List.mem_singleton.1 ha ▸ .refl⟩
  | .nonterminal n :: rest, ha => by
    rcases mem_firstOfSequence_nonterminal.1 ha with ha | ⟨hn, ha⟩
    · obtain ⟨more, hmore⟩ := h.firsts n a ha
      exact ⟨more ++ rest, hmore.append_right rest⟩
    · obtain ⟨more, hmore⟩ := h.derives_cons ha
      exact ⟨more, ((h.nullable n hn).append_right rest).trans hmore⟩

theorem noteNullable (h : g.Sound rules) {r : Rule} (hr : r ∈ rules) : (g.noteNullable r).1.Sound rules := by
  unfold FirstSets.noteNullable
  split
  · rename_i hnew
    have hall : allNullable g.nullable r.symbols = true := (Bool.and_eq_true _ _ ▸ hnew).2
    refine ⟨fun n hn => ?_, h.firsts⟩
    rcases List.mem_append.1 hn with hn | hn
    · exact h.nullable n hn
    · rw [List.mem_singleton.1 hn]
      exact .head (.of_rule hr) (h.derives_nil hall)
  · exact h

theorem noteFirst (h : g.Sound rules) {r : Rule} (hr : r ∈ rules) : (g.noteFirst r).1.Sound rules := by
  refine ⟨h.nullable, fun n a ha => ?_⟩
  rcases NamedSets.mem_setOf_add.1 ha with hold | ⟨rfl, hnew⟩
  · exact h.firsts n a hold
  · obtain ⟨rest, hrest⟩ := h.derives_cons hnew
    exact ⟨rest, .head (.of_rule hr) hrest⟩

end Sound

theorem sound_ofRules (rules : List Rule) : (ofRules rules).Sound rules := by
  refine whileChanged_induction (fun g _ h r hr => (h.noteNullable hr).noteFirst hr) _ _ ⟨by simp [initial], ?_⟩
  intro n a ha
  simp [initial, NamedSets.mem_setOf_addToEach] at ha

/-! ## What is derived is noted -/

/-- All that a rule says about its origin is noted. -/
structure Noted (g : FirstSets) (r : Rule) : Prop where
  nullable : allNullable g.nullable r.symbols = true → r.origin ∈ g.nullable
  first : ∀ a ∈ (g.firstOfSequence r.symbols).1, a ∈ g.firsts.setOf r.origin

/-- Two states that know the same. -/
structure Same (g g' : FirstSets) : Prop where
  nullable : g.nullable = g'.nullable
  firsts : g.firsts.setOf = g'.firsts.setOf

namespace Same

variable {g g' : FirstSets}

theorem firstOfSequence (h : g.Same g') : ∀ symbols : List Symbol, g.firstOfSequence symbols = g'.firstOfSequence symbols
  | [] => rfl
  | .terminal _ :: _ => rfl
  | .nonterminal n :: rest => by
    simp only [FirstSets.firstOfSequence, h.nullable, h.firsts, h.firstOfSequence rest]

theorem noted (h : g.Same g') {r : Rule} (hr : g.Noted r) : g'.Noted r := by
  refine ⟨?_, ?_⟩
  · rw [← h.nullable]
    exact hr.nullable
  · rw [← h.firstOfSequence, ← h.firsts]
    exact hr.first

end Same

/-- Where noting a rule changes nothing, all that it says is noted. -/
theorem noted_of_quiet {g : FirstSets} {r : Rule} (h : (g.note r).2 = false) : g.Noted r ∧ g.Same (g.note r).1 := by
  have hor : ((g.noteNullable r).2 || ((g.noteNullable r).1.noteFirst r).2) = false := h
  obtain ⟨hnullable, hfirst⟩ := Bool.or_eq_false_iff.1 hor
  have hquiet : ¬ (!g.nullable.contains r.origin && allNullable g.nullable r.symbols) = true := by
    intro hnew
    rw [noteNullable, if_pos hnew] at hnullable
    cases hnullable
  have hstill : g.noteNullable r = (g, false) := by rw [noteNullable, if_neg hquiet]
  have hnote : (g.note r).1 = (g.noteFirst r).1 := by
    show ((g.noteNullable r).1.noteFirst r).1 = _
    rw [hstill]
  rw [hstill] at hfirst
  obtain ⟨hall, hsame⟩ := NamedSets.setOf_of_quiet hfirst
  refine ⟨⟨fun hempty => ?_, hall⟩, hnote ▸ ⟨rfl, hsame.symm⟩⟩
  by_contra hn
  exact hquiet (by simp [hempty, hn])

/-- When the rounds have come to an end, all that the rules say is noted. -/
theorem noted_ofRules : ∀ r ∈ rules, (ofRules rules).Noted r :=
  whileChanged_settled (P := Noted) (fun _ _ h => (noted_of_quiet h).1)
    (fun _ _ h _ hr => (noted_of_quiet h).2.noted hr) _ _ _

end FirstSets

/-! ## Nullable nonterminals -/

theorem mem_nullableNames_of_rule {r : Rule} (hr : r ∈ rules)
    (h : allNullable (nullableNames rules) r.symbols = true) : r.origin ∈ nullableNames rules :=
  (FirstSets.noted_ofRules r hr).nullable h

theorem allNullable_of_rewrites {form form' : List Symbol} (h : Rewrites rules form form')
    (hn : allNullable (nullableNames rules) form' = true) : allNullable (nullableNames rules) form = true := by
  cases h with
  | @mk before after r hr =>
    simp only [allNullable_append, Bool.and_eq_true] at hn ⊢
    exact ⟨hn.1, allNullable_nonterminal.2 ⟨mem_nullableNames_of_rule hr hn.2.1, hn.2.2⟩⟩

theorem allNullable_iff_derives {symbols : List Symbol} :
    allNullable (nullableNames rules) symbols = true ↔ Derives rules symbols [] := by
  refine ⟨(FirstSets.sound_ofRules rules).derives_nil, fun h => ?_⟩
  induction h using Relation.ReflTransGen.head_induction_on with
  | refl => rfl
  | head hstep _ ih => exact allNullable_of_rewrites hstep ih

section Nullable

variable {τ : Type} {stands : String → τ → Prop}

theorem allNullable_nullableNames_iff {symbols : List Symbol} :
    allNullable (nullableNames rules) symbols = true ↔ Yields rules stands symbols [] :=
  allNullable_iff_derives.trans ⟨fun h => .of_derives h .nil, Yields.derives_nil⟩

/-- The nullable names are the nonterminals that yield no token. -/
theorem mem_nullableNames_iff {n : String} :
    n ∈ nullableNames rules ↔ Yields rules stands [.nonterminal n] [] := by
  rw [← allNullable_nullableNames_iff, allNullable_iff]
  simp

/-- Every rule has a symbol. -/
def NoEmptyRule (rules : List Rule) : Prop := ∀ r ∈ rules, r.symbols ≠ []

theorem NoEmptyRule.eq_nil (hne : NoEmptyRule rules) {ss : List Symbol} {w : List τ} (h : Yields rules stands ss w) :
    w = [] → ss = [] := by
  induction h with
  | nil => exact fun _ => rfl
  | terminal _ _ _ => exact fun hw => (by cases hw)
  | nonterminal hr _ _ ih _ => exact fun hw => absurd (ih (List.append_eq_nil_iff.1 hw).1) (hne _ hr)

theorem NoEmptyRule.nullableNames_eq (hne : NoEmptyRule rules) : nullableNames rules = [] := by
  refine List.eq_nil_iff_forall_not_mem.2 fun n hn => ?_
  have hy : Yields rules (fun a (t : String) => a = t) [.nonterminal n] [] := mem_nullableNames_iff.1 hn
  cases hne.eq_nil hy rfl

end Nullable

/-! ## Terminals that come first -/

theorem symbolCount_eq : ∀ rules : List Rule, symbolCount rules = (rules.flatMap Rule.symbols).length
  | [] => rfl
  | r :: rules => by simp [symbolCount, symbolCount_eq rules, Rule.symbols]

theorem length_ruleTerminals_le (rules : List Rule) : (ruleTerminals rules).length ≤ symbolCount rules := by
  rw [symbolCount_eq]
  exact List.length_filterMap_le _ _

namespace GrammarSets

variable {start : List String}

theorem firstOfSequence_snd {symbols : List Symbol} :
    ((ofRules rules start).firstOfSequence symbols).2 = allNullable (nullableNames rules) symbols :=
  FirstSets.firstOfSequence_snd _ symbols

theorem mem_firstOfSequence_append {xs ys : List Symbol} {a : String} :
    a ∈ ((ofRules rules start).firstOfSequence (xs ++ ys)).1 ↔ a ∈ ((ofRules rules start).firstOfSequence xs).1 ∨
      allNullable (nullableNames rules) xs = true ∧ a ∈ ((ofRules rules start).firstOfSequence ys).1 :=
  FirstSets.mem_firstOfSequence_append

theorem mem_ruleTerminals_of_firstOfSequence {symbols : List Symbol} {a : String}
    (hs : ∀ b, .terminal b ∈ symbols → b ∈ ruleTerminals rules)
    (h : a ∈ ((ofRules rules start).firstOfSequence symbols).1) : a ∈ ruleTerminals rules :=
  (FirstSets.within_ofRules rules).firstOfSequence hs h

/-- What comes first in a sequence comes first in what the sequence was rewritten from. -/
theorem first_of_rewrites {form form' : List Symbol} (h : Rewrites rules form form') {a : String}
    (ha : a ∈ ((ofRules rules start).firstOfSequence form').1) :
    a ∈ ((ofRules rules start).firstOfSequence form).1 := by
  cases h with
  | @mk before after r hr =>
    -- it comes first before the nonterminal, in the rule, or after it where all of the rule is nullable
    rw [mem_firstOfSequence_append, mem_firstOfSequence_append] at ha
    rw [mem_firstOfSequence_append]
    rcases ha with ha | ⟨hbefore, ha | ⟨hrule, ha⟩⟩
    · exact .inl ha
    · have hfirst := (FirstSets.noted_ofRules r hr).first a ha
      exact .inr ⟨hbefore, FirstSets.mem_firstOfSequence_nonterminal.2 (.inl hfirst)⟩
    · have hnull := mem_nullableNames_of_rule hr hrule
      exact .inr ⟨hbefore, FirstSets.mem_firstOfSequence_nonterminal.2 (.inr ⟨hnull, ha⟩)⟩

/-- The terminals that come first are those that begin a form derived from the sequence. -/
theorem mem_firstOfSequence_iff {symbols : List Symbol} {a : String} :
    a ∈ ((ofRules rules start).firstOfSequence symbols).1 ↔ ∃ rest, Derives rules symbols (.terminal a :: rest) := by
  refine ⟨(FirstSets.sound_ofRules rules).derives_cons, ?_⟩
  rintro ⟨rest, h⟩
  induction h using Relation.ReflTransGen.head_induction_on with
  | refl => exact List.mem_singleton_self a
  | head hstep _ ih => exact first_of_rewrites hstep ih

/-- A terminal that begins a yield is among those that come first. -/
theorem first_of_yields {symbols : List Symbol} {w : List String} (h : Yields rules Eq symbols w) {a : String}
    {v : List String} (hw : w = a :: v) : a ∈ ((ofRules rules start).firstOfSequence symbols).1 := by
  obtain ⟨word, hd, heq⟩ := yields_iff_derives.1 h
  rw [List.forall₂_eq_eq_eq] at heq
  subst heq hw
  exact mem_firstOfSequence_iff.2 ⟨_, hd⟩

end GrammarSets

end GrammarKit
