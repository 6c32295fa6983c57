/-
What the names and rules of the normal form mean. A nonterminal of the grammar means itself, a wrapper its terminal,
and a piece what a long rule has after its first symbols. Every rule of the normal form has one terminal or two
nonterminals, whose meanings together are the symbols of a rule of the grammar or the meaning of its own origin; and
whatever symbols of the grammar yield, the names that stand for them have binary derivations of it.
-/
import GrammarKit.Cyk.Table
import GrammarKit.Proofs.Closure
import GrammarKit.Proofs.Grammar.Sets
import GrammarKit.Proofs.Grammar.Trees
import GrammarKit.Proofs.Names

namespace GrammarKit.Cyk

/-! ## Names -/

theorem wrapperName_injective : Function.Injective wrapperName := by
  intro a b h
  have hl := congrArg String.toList h
  rw [wrapperName, wrapperName, String.toList_append, String.toList_append] at hl
  exact String.toList_inj.1 (List.append_cancel_left hl)

theorem toList_splitName (i k : Nat) :
    (splitName i k).toList = splitPrefix.toList ++ (Nat.toDigits 10 i ++ '_' :: Nat.toDigits 10 k) := by
  simp only [splitName, String.toList_append, List.append_assoc]
  rw [show toString i = i.repr from rfl, show toString k = k.repr from rfl, Nat.toList_repr, Nat.toList_repr]
  rfl

/-- What stands before the first mark and after it. -/
theorem eq_of_append_mark {α : Type} {mark : α} {x y : List α} : ∀ {a b : List α}, mark ∉ a → mark ∉ b →
    a ++ mark :: x = b ++ mark :: y → a = b ∧ x = y
  | [], [], _, _, h => ⟨rfl, (List.cons.inj h).2⟩
  | [], c :: b, _, hb, h => absurd (List.cons.inj h).1 fun he => hb (he ▸ List.mem_cons_self ..)
  | c :: a, [], ha, _, h => absurd (List.cons.inj h).1 fun he => ha (he ▸ List.mem_cons_self ..)
  | c :: a, d :: b, ha, hb, h => by
    obtain ⟨rfl, ht⟩ := List.cons.inj h
    obtain ⟨rfl, hxy⟩ := eq_of_append_mark (fun hm => ha (List.mem_cons_of_mem _ hm))
      (fun hm => hb (List.mem_cons_of_mem _ hm)) ht
    exact ⟨rfl, hxy⟩

theorem splitName_inj {i j k l : Nat} (h : splitName i k = splitName j l) : i = j ∧ k = l := by
  have hl := congrArg String.toList h
  rw [toList_splitName, toList_splitName] at hl
  obtain ⟨h1, h2⟩ := eq_of_append_mark Nat.underscore_not_in_toDigits Nat.underscore_not_in_toDigits
    (List.append_cancel_left hl)
  exact ⟨toDigits_injective h1, toDigits_injective h2⟩

theorem isHelper_iff {n : String} : isHelper n = true ↔
    wrapperPrefix.toList <+: n.toList ∨ splitPrefix.toList <+: n.toList := by
  rw [isHelper, Bool.or_eq_true, String.startsWith_string_iff, String.startsWith_string_iff]

theorem isHelper_wrapperName (a : String) : isHelper (wrapperName a) = true := by
  rw [isHelper_iff, wrapperName, String.toList_append]
  exact .inl (List.prefix_append ..)

theorem isHelper_splitName (i k : Nat) : isHelper (splitName i k) = true := by
  rw [isHelper_iff, toList_splitName]
  exact .inr (List.prefix_append ..)

theorem wrapperName_ne_splitName (a : String) (i k : Nat) : wrapperName a ≠ splitName i k := by
  intro h
  have hl := congrArg String.toList h
  rw [toList_splitName, wrapperName, String.toList_append] at hl
  have := congrArg (fun l : List Char => l[2]?) hl
  simp [wrapperPrefix, splitPrefix] at this

/-! ## Meanings -/

/-- No name of the rules looks like one of the normal form. -/
def Plain (rules : List Rule) : Prop :=
  ∀ r ∈ rules, isHelper r.origin = false ∧ ∀ s ∈ r.symbols, isHelper s.name = false

/-- The symbols of the grammar that a name of the normal form stands for. -/
inductive Means (rules : List Rule) : String → List Symbol → Prop
  | own {n : String} (h : isHelper n = false) : Means rules n [.nonterminal n]
  | wrapper (a : String) : Means rules (wrapperName a) [.terminal a]
  | piece {i k : Nat} {r : Rule} (h : rules[i]? = some r) : Means rules (splitName i k) (r.symbols.drop k)

/-- The places of single nonterminal rules that lead from one nonterminal to another. -/
inductive Leads (rules : List Rule) : List Nat → String → String → Prop
  | nil {n : String} : Leads rules [] n n
  | cons {i : Nat} {is : List Nat} {r : Rule} {m n : String} (hr : rules[i]? = some r)
      (hs : r.symbols = [.nonterminal m])
    (rest : Leads rules is m n) : Leads rules (i :: is) r.origin n

/-- What the symbols of a rule of the normal form mean. -/
inductive Body (rules : List Rule) : List Symbol → List Symbol → Prop
  | terminal (a : String) : Body rules [.terminal a] [.terminal a]
  | pair {a b : String} {α β : List Symbol} (ha : Means rules a α) (hb : Means rules b β) :
    Body rules [.nonterminal a, .nonterminal b] (α ++ β)

/-- What a rule of the normal form adds to a derivation: a node of a rule of the grammar, below those that were skipped,
or what its origin means. -/
inductive NormalRule.Gives (rules : List Rule) (r : NormalRule) : List Symbol → Prop
  | rule {i : Nat} {base : Rule} (hs : r.source = .rule i) (hb : rules[i]? = some base)
    (hc : Leads rules r.skipped r.origin base.origin) : Gives rules r base.symbols
  | helper {α : List Symbol} (hs : r.source = .split ∨ r.source = .wrapper) (hh : isHelper r.origin = true)
    (hm : Means rules r.origin α) : Gives rules r α

def NormalRule.Fits (rules : List Rule) (r : NormalRule) : Prop := ∃ α, Body rules r.symbols α ∧ r.Gives rules α

section Meanings

variable {rules : List Rule}

theorem Means.unique {n m : String} {α β : List Symbol} (h : Means rules n α) (h' : Means rules m β)
    (hnm : n = m) : α = β := by
  cases h with
  | own hn =>
    cases h' with
    | own _ => rw [hnm]
    | wrapper a => rw [hnm, isHelper_wrapperName] at hn; cases hn
    | piece _ => rw [hnm, isHelper_splitName] at hn; cases hn
  | wrapper a =>
    cases h' with
    | own hm => rw [← hnm, isHelper_wrapperName] at hm; cases hm
    | wrapper b => rw [wrapperName_injective hnm]
    | piece _ => exact absurd hnm (wrapperName_ne_splitName _ _ _)
  | piece hr =>
    cases h' with
    | own hm => rw [← hnm, isHelper_splitName] at hm; cases hm
    | wrapper b => exact absurd hnm.symm (wrapperName_ne_splitName _ _ _)
    | piece hr' =>
      obtain ⟨rfl, rfl⟩ := splitName_inj hnm
      rw [Option.some.inj (hr.symm.trans hr')]

theorem Means.eq_own {n : String} {α : List Symbol} (h : Means rules n α) (hn : isHelper n = false) :
    α = [.nonterminal n] :=
  h.unique (.own hn) rfl

theorem wrap_eq (s : Symbol) : wrap s = .nonterminal (wrap s).name := by cases s <;> rfl

theorem means_wrap {s : Symbol} (h : isHelper s.name = false) : Means rules (wrap s).name [s] := by
  cases s with
  | terminal a => exact .wrapper a
  | nonterminal n => exact .own h

theorem NormalRule.Fits.unit?_eq {r : NormalRule} (h : r.Fits rules) : r.unit? = none := by
  obtain ⟨α, hb, -⟩ := h
  unfold NormalRule.unit?
  cases hs : r.symbols with
  | nil => rfl
  | cons s ss =>
    rw [hs] at hb
    cases hb <;> rfl

theorem Leads.eq_of_nil {m n : String} (h : Leads rules [] m n) : m = n := by
  cases h
  rfl

theorem Leads.append {is js : List Nat} {l m n : String} (h : Leads rules is l m) (h' : Leads rules js m n) :
    Leads rules (is ++ js) l n := by
  induction h with
  | nil => exact h'
  | cons hr hs _ ih => exact .cons hr hs (ih h')

/-! ## Pieces of long rules -/

/-- Every piece of a rule means what the rule has left there. -/
theorem pieces_fit {i : Nat} {base : Rule} (hr : rules[i]? = some base)
    (hplain : ∀ s ∈ base.symbols, isHelper s.name = false) :
    ∀ (zs : List Symbol) (k : Nat) (origin : String) (source : Source), zs = base.symbols.drop k → 2 ≤ zs.length →
      (∀ symbols, NormalRule.Gives rules { origin, symbols, source } zs) →
      ∀ r ∈ pieces i (k + 1) origin source (zs.map wrap), r.Fits rules
  | [], _, _, _, _, hl, _ => absurd hl (by simp)
  | [a], _, _, _, _, hl, _ => absurd hl (by simp)
  | [a, b], k, origin, source, hz, _, hg => by
    have hmem : ∀ s ∈ [a, b], isHelper s.name = false := fun s hs => hplain s (List.mem_of_mem_drop (hz ▸ hs))
    intro r hm
    obtain rfl := List.mem_singleton.1 hm
    refine ⟨[a, b], ?_, hg _⟩
    rw [wrap_eq a, wrap_eq b]
    exact .pair (means_wrap (hmem a (by simp))) (means_wrap (hmem b (by simp)))
  | a :: b :: c :: zs, k, origin, source, hz, _, hg => by
    have ha : isHelper a.name = false := hplain a (List.mem_of_mem_drop (hz ▸ List.mem_cons_self ..))
    have hz' : b :: c :: zs = base.symbols.drop (k + 1) := by
      rw [← List.tail_drop, ← hz]
      rfl
    intro r hm
    rcases List.mem_cons.1 hm with rfl | hm
    · refine ⟨a :: b :: c :: zs, ?_, hg _⟩
      rw [wrap_eq a, hz']
      exact .pair (means_wrap ha) (.piece hr)
    · refine pieces_fit hr hplain (b :: c :: zs) (k + 1) _ _ hz' (by simp) (fun symbols => ?_) r hm
      rw [hz']
      exact .helper (.inl rfl) (isHelper_splitName _ _) (.piece hr)

end Meanings

/-! ## Short rules -/

/-- The terminals of a long rule. -/
def wrappedTerminals (r : Rule) : List String :=
  match r.symbols with
  | a :: b :: rest => (a :: b :: rest).filterMap fun
    | .terminal n => some n
    | .nonterminal _ => none
  | _ => []

/-- A short rule as it is, or the pieces of a long one. -/
def shortened (index : Nat) (r : Rule) : List NormalRule :=
  match r.symbols with
  | a :: b :: rest => pieces index 1 r.origin (.rule index) ((a :: b :: rest).map wrap)
  | symbols => [{ origin := r.origin, symbols, source := .rule index }]

theorem mem_wrappedTerminals {r : Rule} {a : String} :
    a ∈ wrappedTerminals r ↔ 2 ≤ r.symbols.length ∧ .terminal a ∈ r.symbols := by
  unfold wrappedTerminals
  split
  · rename_i x y rest hs
    rw [hs, List.mem_filterMap]
    refine ⟨fun ⟨s, hm, ha⟩ => ⟨by simp, ?_⟩, fun ⟨_, hm⟩ => ⟨_, hm, rfl⟩⟩
    cases s with
    | terminal n => cases ha; exact hm
    | nonterminal n => cases ha
  · rename_i hne
    refine ⟨fun h => (by cases h), fun ⟨hl, _⟩ => ?_⟩
    match hs : r.symbols, hl with
    | x :: y :: rest, _ => exact absurd hs (hne x y rest)

theorem normalize_eq (wrapped : List String) (index : Nat) (r : Rule) : normalize wrapped index r =
    (fresh wrapped (wrappedTerminals r), (fresh wrapped (wrappedTerminals r)).map wrapper ++ shortened index r) := by
  unfold normalize wrappedTerminals shortened
  rcases r.symbols with _ | ⟨a, _ | ⟨b, rest⟩⟩ <;> rfl

/-- The wrapped terminals and the short rules, after one more rule. -/
def shortStep (state : List String × List NormalRule) (x : Rule × Nat) : List String × List NormalRule :=
  (state.1 ++ fresh state.1 (wrappedTerminals x.1),
    state.2 ++ ((fresh state.1 (wrappedTerminals x.1)).map wrapper ++ shortened x.2 x.1))

theorem shorten_eq (rules : List Rule) : shorten rules = (rules.zipIdx.foldl shortStep ([], [])).2 := by
  have hstep : (fun (x : List String × List NormalRule) (y : Rule × Nat) =>
      (x.1 ++ (normalize x.1 y.2 y.1).1, x.2 ++ (normalize x.1 y.2 y.1).2)) = shortStep := by
    funext x y
    rw [normalize_eq]
    rfl
  rw [← hstep]
  rfl

theorem mem_foldl_shortStep {r : NormalRule} : ∀ (l : List (Rule × Nat)) (state : List String × List NormalRule),
    (∀ a ∈ state.1, wrapper a ∈ state.2) → (r ∈ (l.foldl shortStep state).2 ↔
      r ∈ state.2 ∨ ∃ x ∈ l, r ∈ shortened x.2 x.1 ∨ ∃ a ∈ wrappedTerminals x.1, r = wrapper a)
  | [], state, _ => by simp
  | y :: l, state, hw => by
    rw [List.foldl_cons, mem_foldl_shortStep l]
    · simp only [shortStep, List.mem_append, List.mem_map, mem_fresh, List.mem_cons]
      constructor
      · rintro ((h | ⟨a, ⟨ha, -⟩, rfl⟩ | h) | ⟨x, hx, h⟩)
        · exact .inl h
        · exact .inr ⟨_, .inl rfl, .inr ⟨a, ha, rfl⟩⟩
        · exact .inr ⟨_, .inl rfl, .inl h⟩
        · exact .inr ⟨x, .inr hx, h⟩
      · rintro (h | ⟨x, rfl | hx, h | ⟨a, ha, rfl⟩⟩)
        · exact .inl (.inl h)
        · exact .inl (.inr (.inr h))
        · by_cases haw : a ∈ state.1
          · exact .inl (.inl (hw a haw))
          · exact .inl (.inr (.inl ⟨a, ⟨ha, haw⟩, rfl⟩))
        · exact .inr ⟨x, hx, .inl h⟩
        · exact .inr ⟨x, hx, .inr ⟨a, ha, rfl⟩⟩
    · intro a ha
      rcases List.mem_append.1 ha with ha | ha
      · exact List.mem_append_left _ (hw a ha)
      · exact List.mem_append_right _ (List.mem_append_left _ (List.mem_map_of_mem ha))

/-- The short rules are those of the rules of the grammar, and the wrappers of terminals in long ones. -/
theorem mem_shorten {rules : List Rule} {r : NormalRule} : r ∈ shorten rules ↔
    ∃ (i : Nat) (base : Rule), rules[i]? = some base ∧ (r ∈ shortened i base ∨ ∃ a ∈ wrappedTerminals base, r = wrapper a) := by
  rw [shorten_eq, mem_foldl_shortStep _ _ (by simp)]
  simp only [List.not_mem_nil, false_or, Prod.exists, List.mem_zipIdx_iff_getElem?]
  exact ⟨fun ⟨base, i, h⟩ => ⟨i, base, h⟩, fun ⟨i, base, h⟩ => ⟨base, i, h⟩⟩

theorem source_of_mem_pieces {i k : Nat} {origin : String} {source : Source} {symbols : List Symbol} :
    ∀ r ∈ pieces i k origin source symbols,
      r.skipped = [] ∧ (r.source = source ∧ r.origin = origin ∨ r.source = .split) := by
  fun_induction pieces i k origin source symbols with
  | case1 k origin source a b c rest next ih =>
    intro r hr
    rcases List.mem_cons.1 hr with rfl | hr
    · exact ⟨rfl, .inl ⟨rfl, rfl⟩⟩
    · obtain ⟨hskip, ⟨hs, -⟩ | hs⟩ := ih r hr
      · exact ⟨hskip, .inr hs⟩
      · exact ⟨hskip, .inr hs⟩
  | case2 k origin source symbols _ =>
    intro r hr
    obtain rfl := List.mem_singleton.1 hr
    exact ⟨rfl, .inl ⟨rfl, rfl⟩⟩

/-- No rule was skipped on the way to a short rule, and one that comes from a rule is of its nonterminal. -/
theorem source_of_mem_shorten {rules : List Rule} {r : NormalRule} (h : r ∈ shorten rules) : r.skipped = [] ∧
    ∀ i, r.source = .rule i → ∃ base, rules[i]? = some base ∧ r.origin = base.origin ∧
      ∀ n, base.symbols = [.nonterminal n] → r.unit? = some n := by
  obtain ⟨j, base, hb, h | ⟨a, -, rfl⟩⟩ := mem_shorten.1 h
  · unfold shortened at h
    split at h
    · rename_i x y rest hs
      obtain ⟨hskip, hsource⟩ := source_of_mem_pieces r h
      refine ⟨hskip, fun i hi => ?_⟩
      rcases hsource with ⟨hsource, horigin⟩ | hsource
      · cases hsource.symm.trans hi
        refine ⟨base, hb, horigin, fun n hn => ?_⟩
        rw [hs] at hn
        cases hn
      · cases hsource.symm.trans hi
    · obtain rfl := List.mem_singleton.1 h
      refine ⟨rfl, fun i hi => ?_⟩
      cases hi
      exact ⟨base, hb, rfl, fun n hn => by rw [NormalRule.unit?, hn]⟩
  · exact ⟨rfl, fun i hi => by cases hi⟩

section Short

variable {rules : List Rule} (hplain : Plain rules) (hne : NoEmptyRule rules)
include hplain hne

/-- A short rule has a single nonterminal, which a rule of the grammar has too, or its symbols mean what it gives. -/
theorem fits_of_mem_shorten {r : NormalRule} (h : r ∈ shorten rules) : r.Fits rules ∨
    ∃ (i : Nat) (base : Rule) (n : String), rules[i]? = some base ∧ base.symbols = [.nonterminal n] ∧
      r = { origin := base.origin, symbols := [.nonterminal n], source := .rule i } := by
  obtain ⟨i, base, hb, h⟩ := mem_shorten.1 h
  have hmem := List.mem_of_getElem? hb
  rcases h with h | ⟨a, -, rfl⟩
  · unfold shortened at h
    split at h
    · rename_i x y rest hs
      rw [← hs] at h
      refine .inl (pieces_fit hb (hplain base hmem).2 base.symbols 0 base.origin (.rule i) List.drop_zero.symm
        (by rw [hs]; simp)
        (fun symbols => .rule rfl hb .nil) r h)
    · rename_i hlong
      obtain rfl := List.mem_singleton.1 h
      rcases hs : base.symbols with _ | ⟨n | a, _ | ⟨y, rest⟩⟩
      · exact absurd hs (hne base hmem)
      · exact .inr ⟨i, base, n, hb, hs, rfl⟩
      · exact absurd hs (hlong _ y rest)
      · refine .inl ⟨base.symbols, ?_, .rule rfl hb .nil⟩
        rw [hs]
        exact .terminal a
      · exact absurd hs (hlong _ y rest)
  · exact .inl ⟨[.terminal a], .terminal a, .helper (.inr rfl) (isHelper_wrapperName a) (.wrapper a)⟩

end Short

end GrammarKit.Cyk
