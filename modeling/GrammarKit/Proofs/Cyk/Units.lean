/-
Single nonterminals are replaced without loss. The chains from a nonterminal lead along single nonterminal rules, and
they reach everything that such rules reach. So a rule of the normal form is a short rule under the nonterminals that
were skipped on the way to it, and wherever single nonterminal rules lead to a short rule, there is a copy of it.
-/
import GrammarKit.Proofs.Cyk.NormalForm
import Mathlib.Data.List.Induction
import Mathlib.Data.List.Nodup
import Mathlib.Data.List.Perm.Subperm

namespace GrammarKit.Cyk

/-! ## Chains -/

section Chains

variable (us : List (String × String × Nat))

/-- What holds of the new chains while single nonterminal rules are looked through. -/
structure Extending (found : List Chain) (c : Chain) (done : List (String × String × Nat))
    (new : List Chain) : Prop where
  nodup : ((found ++ new).map Prod.fst).Nodup
  steps : ∀ x ∈ new, ∃ i, (c.1, x.1, i) ∈ us ∧ x.2 = c.2 ++ [i]
  covers : ∀ u ∈ done, u.1 = c.1 → u.2.1 ∈ (found ++ new).map Prod.fst

variable {us}

namespace Extending

variable {found new : List Chain} {c : Chain} {done : List (String × String × Nat)}

theorem add (h : Extending us found c done new) {target : String} {index : Nat} (hu : (c.1, target, index) ∈ us)
    (hnew : ∀ x ∈ found ++ new, x.1 ≠ target) :
    Extending us found c (done ++ [(c.1, target, index)]) (new ++ [(target, c.2 ++ [index])]) := by
  refine ⟨?_, fun x hx => ?_, fun u hu ho => ?_⟩
  · rw [← List.append_assoc, List.map_append]
    refine List.nodup_append.2 ⟨h.nodup, List.nodup_singleton _, fun x hx y hy => ?_⟩
    obtain ⟨z, hz, rfl⟩ := List.mem_map.1 hx
    rw [List.map_singleton, List.mem_singleton] at hy
    rw [hy]
    exact hnew z hz
  · rcases List.mem_append.1 hx with hx | hx
    · exact h.steps x hx
    · rw [List.mem_singleton.1 hx]
      exact ⟨index, hu, rfl⟩
  · rw [← List.append_assoc, List.map_append]
    rcases List.mem_append.1 hu with hu | hu
    · exact List.mem_append_left _ (h.covers u hu ho)
    · rw [List.mem_singleton.1 hu]
      simp

theorem skip (h : Extending us found c done new) {u : String × String × Nat}
    (hu : u.1 = c.1 → u.2.1 ∈ (found ++ new).map Prod.fst) : Extending us found c (done ++ [u]) new := by
  refine ⟨h.nodup, h.steps, fun v hv ho => ?_⟩
  rcases List.mem_append.1 hv with hv | hv
  · exact h.covers v hv ho
  · rw [List.mem_singleton.1 hv] at ho ⊢
    exact hu ho

theorem foldl : ∀ (l : List (String × String × Nat)) {done : List (String × String × Nat)} {new : List Chain},
    (∀ u ∈ l, u ∈ us) → Extending us found c done new → Extending us found c (done ++ l)
      (l.foldl (fun new (origin, target, index) =>
        if origin = c.1 && !(found ++ new).any (·.1 == target) then new ++ [(target, c.2 ++ [index])] else new) new)
  | [], done, new, _, h => by simpa using h
  | (origin, target, index) :: l, done, new, hl, h => by
    rw [List.foldl_cons, ← List.singleton_append, ← List.append_assoc]
    refine foldl l (fun u hu => hl u (List.mem_cons_of_mem _ hu)) ?_
    dsimp only
    split
    · rename_i hcond
      simp only [Bool.and_eq_true, decide_eq_true_eq, Bool.not_eq_true', List.any_eq_false, beq_iff_eq] at hcond
      obtain ⟨rfl, hnew⟩ := hcond
      exact h.add (hl _ (List.mem_cons_self ..)) hnew
    · rename_i hcond
      refine h.skip fun ho => ?_
      by_contra hno
      refine hcond ?_
      simp only [Bool.and_eq_true, decide_eq_true_eq, Bool.not_eq_true', List.any_eq_false, beq_iff_eq]
      exact ⟨ho, fun x hx hxt => hno (List.mem_map.2 ⟨x, hx, hxt⟩)⟩

end Extending

theorem extend_spec {found : List Chain} (hn : (found.map Prod.fst).Nodup) (c : Chain) :
    Extending us found c us (extend us found c) := by
  have h0 : Extending us found c [] [] := ⟨by simpa using hn, by simp, by simp⟩
  exact h0.foldl us fun _ h => h

/-- What is kept while chains from a nonterminal are looked for: there is one to each nonterminal that was reached, each
of them one rule longer than another, and nothing else is reached from those that are finished. -/
structure Search (us : List (String × String × Nat)) (m : String) (finished all : List Chain) : Prop where
  start : (m, []) ∈ all
  nodup : (all.map Prod.fst).Nodup
  grown : ∀ x ∈ all, x = (m, []) ∨ ∃ y ∈ all, ∃ i, (y.1, x.1, i) ∈ us ∧ x.2 = y.2 ++ [i]
  closed : ∀ x ∈ finished, ∀ u ∈ us, u.1 = x.1 → u.2.1 ∈ all.map Prod.fst

namespace Search

variable {m : String} {finished all : List Chain}

theorem step (h : Search us m finished all) {c : Chain} (hc : c ∈ all) :
    Search us m (finished ++ [c]) (all ++ extend us all c) := by
  have hext : Extending us all c us (extend us all c) := extend_spec h.nodup c
  refine ⟨List.mem_append_left _ h.start, hext.nodup, fun x hx => ?_, fun x hx u hu ho => ?_⟩
  · rcases List.mem_append.1 hx with hx | hx
    · exact (h.grown x hx).imp_right fun ⟨y, hy, hi⟩ => ⟨y, List.mem_append_left _ hy, hi⟩
    · exact .inr ⟨c, List.mem_append_left _ hc, hext.steps x hx⟩
  · rcases List.mem_append.1 hx with hx | hx
    · rw [List.map_append]
      exact List.mem_append_left _ (h.closed x hx u hu ho)
    · rw [List.mem_singleton.1 hx] at ho
      exact hext.covers u hu ho

theorem length_le (h : Search us m finished all) : all.length ≤ us.length + 1 := by
  have hsub : List.Subperm (all.map Prod.fst) (m :: us.map (·.2.1)) := h.nodup.subperm fun n hn => by
    obtain ⟨x, hx, rfl⟩ := List.mem_map.1 hn
    rcases h.grown x hx with rfl | ⟨y, -, i, hu, -⟩
    · exact List.mem_cons_self ..
    · exact List.mem_cons_of_mem _ (List.mem_map.2 ⟨_, hu, rfl⟩)
  simpa using hsub.length_le

/-- With fuel for all nonterminals the search goes on until all that was found is finished. -/
theorem finish : ∀ (fuel : Nat) {finished todo : List Chain}, Search us m finished (finished ++ todo) →
    us.length + 1 ≤ fuel + finished.length → Search us m (chains us fuel finished todo) (chains us fuel finished todo)
  | 0, finished, todo, h, hfuel => by
    -- everything that can be reached is finished, so there is nothing left to do
    have hle := h.length_le
    rw [List.length_append] at hle
    obtain rfl : todo = [] := List.length_eq_zero_iff.1 (by omega)
    rw [chains, List.append_nil]
    rwa [List.append_nil] at h
  | fuel + 1, finished, [], h, _ => by
    rw [chains]
    rwa [List.append_nil] at h
  | fuel + 1, finished, c :: todo, h, hfuel => by
    rw [chains]
    have hstep := h.step (c := c) (by simp)
    have heq : finished ++ c :: todo ++ extend us (finished ++ c :: todo) c =
        finished ++ [c] ++ (todo ++ extend us (finished ++ c :: todo) c) := by simp
    rw [heq] at hstep
    exact finish fuel hstep (by rw [List.length_append, List.length_singleton]; omega)

/-- What holds at the start and is kept by one more rule holds of everything that was found. -/
theorem induction (h : Search us m finished all) {P : Chain → Prop} (hstart : P (m, []))
    (hstep : ∀ x, P x → ∀ n i, (x.1, n, i) ∈ us → P (n, x.2 ++ [i])) : ∀ x ∈ all, P x := by
  have hlength : ∀ (k : Nat) (x : Chain), x.2.length = k → x ∈ all → P x := by
    intro k
    induction k with
    | zero =>
      intro x hk hx
      rcases h.grown x hx with rfl | ⟨y, -, i, -, hi⟩
      · exact hstart
      · simp [hi] at hk
    | succ k ih =>
      intro x hk hx
      rcases h.grown x hx with rfl | ⟨y, hy, i, hu, hi⟩
      · simp at hk
      · have hp := hstep y (ih y (by simpa [hi] using hk) hy) x.1 i hu
        rwa [← hi] at hp
  exact fun x hx => hlength _ x rfl hx

end Search

end Chains

/-! ## Copies -/

section Copies

variable {rules : List Rule}

/-- The chains that begin at a nonterminal. -/
abbrev chainsFrom (rules : List Rule) (m : String) : List Chain :=
  chains (units (shorten rules)) ((units (shorten rules)).length + 1) [] [(m, [])]

theorem search_chainsFrom (m : String) :
    Search (units (shorten rules)) m (chainsFrom rules m) (chainsFrom rules m) :=
  .finish _ ⟨by simp, by simp, fun x hx => .inl (by simpa using hx), fun x hx => by cases hx⟩ (by simp)

theorem mem_copies {r : NormalRule} {m : String} : r ∈ copies (shorten rules) (units (shorten rules)) m ↔
    ∃ n is, (n, is) ∈ chainsFrom rules m ∧ n ≠ m ∧ ∃ r0 ∈ shorten rules, r0.origin = n ∧ r0.unit? = none ∧
      r = { r0 with origin := m, skipped := is ++ r0.skipped } := by
  simp only [copies, List.mem_flatMap, List.mem_mergeSort, List.mem_filter, List.mem_map, Bool.and_eq_true, beq_iff_eq,
    bne_iff_ne, Option.isNone_iff_eq_none, Prod.exists, and_assoc]
  constructor
  · rintro ⟨n, is, hx, hne, r0, hr0, ho, hu, rfl⟩; exact ⟨n, is, hx, hne, r0, hr0, ho, hu, rfl⟩
  · rintro ⟨n, is, hx, hne, r0, hr0, ho, hu, rfl⟩; exact ⟨n, is, hx, hne, r0, hr0, ho, hu, rfl⟩

/-- A rule of the normal form is a short rule at the end of a chain. -/
theorem exists_short {r : NormalRule} (h : r ∈ eliminateUnits (shorten rules)) : ∃ r0 ∈ shorten rules, ∃ is,
    r0.unit? = none ∧ (r0.origin, is) ∈ chainsFrom rules r.origin ∧
    r = { r0 with origin := r.origin, skipped := is ++ r0.skipped } := by
  rcases List.mem_append.1 h with h | h
  · obtain ⟨hr, hu⟩ := List.mem_filter.1 h
    exact ⟨r, hr, [], Option.isNone_iff_eq_none.1 hu, (search_chainsFrom _).start, rfl⟩
  · obtain ⟨m, -, h⟩ := List.mem_flatMap.1 h
    obtain ⟨n, is, hx, -, r0, hr0, rfl, hu, rfl⟩ := mem_copies.1 h
    exact ⟨r0, hr0, is, hu, hx, rfl⟩

/-- A rule of the normal form that comes from a rule of the grammar stands at the end of a chain to that rule, which is
not a single nonterminal. -/
theorem exists_base {r : NormalRule} (h : r ∈ eliminateUnits (shorten rules)) {i : Nat} (hs : r.source = .rule i) :
    ∃ base, rules[i]? = some base ∧ (base.origin, r.skipped) ∈ chainsFrom rules r.origin ∧
      ∀ n, base.symbols ≠ [.nonterminal n] := by
  obtain ⟨r0, hr0, is, hu, hx, hr⟩ := exists_short h
  obtain ⟨hskip, hsource⟩ := source_of_mem_shorten hr0
  rw [hr] at hs
  obtain ⟨base, hb, ho, hunit⟩ := hsource i hs
  refine ⟨base, hb, ?_, fun n hn => by rw [hunit n hn] at hu; cases hu⟩
  have hskipped : r.skipped = is := by rw [hr, hskip, List.append_nil]
  rw [hskipped, ← ho]
  exact hx

variable (hplain : Plain rules) (hne : NoEmptyRule rules)
include hplain hne

theorem mem_units {m n : String} {i : Nat} : (m, n, i) ∈ units (shorten rules) ↔
    ∃ base, rules[i]? = some base ∧ base.symbols = [.nonterminal n] ∧ base.origin = m := by
  simp only [units, List.mem_filterMap]
  constructor
  · rintro ⟨r, hr, h⟩
    rcases fits_of_mem_shorten hplain hne hr with hfits | ⟨j, base, k, hb, hs, rfl⟩
    · rw [hfits.unit?_eq] at h
      cases h
    · cases h
      exact ⟨base, hb, hs, rfl⟩
  · rintro ⟨base, hb, hs, rfl⟩
    refine ⟨{ origin := base.origin, symbols := [.nonterminal n], source := .rule i },
      mem_shorten.2 ⟨i, base, hb, .inl ?_⟩, rfl⟩
    rw [shortened, hs]
    exact List.mem_singleton_self _

theorem leads_of_chainsFrom {m n : String} {is : List Nat} (h : (n, is) ∈ chainsFrom rules m) :
    Leads rules is m n := by
  refine (search_chainsFrom m).induction (P := fun x => Leads rules x.2 m x.1) .nil (fun x hx n i hu => ?_) _ h
  obtain ⟨base, hb, hs, ho⟩ := (mem_units hplain hne).1 hu
  exact hx.append (ho ▸ .cons hb hs .nil)

theorem exists_chain {is : List Nat} {l m n : String} (h : Leads rules is l n) :
    (∃ js, (l, js) ∈ chainsFrom rules m) → ∃ js, (n, js) ∈ chainsFrom rules m := by
  induction h with
  | nil => exact fun h => h
  | @cons i is r k n hr hs _ ih =>
    rintro ⟨js, hjs⟩
    refine ih ?_
    have hu : (r.origin, k, i) ∈ units (shorten rules) := (mem_units hplain hne).2 ⟨r, hr, hs, rfl⟩
    obtain ⟨x, hx, hk⟩ := List.mem_map.1 ((search_chainsFrom m).closed _ hjs _ hu rfl)
    obtain ⟨n, js'⟩ := x
    obtain rfl : n = k := hk
    exact ⟨js', hx⟩

/-- A chain to another nonterminal has a copy of every short rule there. -/
theorem mem_of_chain {r0 : NormalRule} (hr0 : r0 ∈ shorten rules) (hu : r0.unit? = none) {is : List Nat} {m : String}
    (hx : (r0.origin, is) ∈ chainsFrom rules m) (hm : r0.origin ≠ m) :
    { r0 with origin := m, skipped := is ++ r0.skipped } ∈ eliminateUnits (shorten rules) := by
  refine List.mem_append_right _ (List.mem_flatMap.2 ⟨m, ?_, mem_copies.2 ⟨_, is, hx, hm, r0, hr0, rfl, hu, rfl⟩⟩)
  rw [mem_sortedNames]
  have hl := leads_of_chainsFrom hplain hne hx
  cases hl with
  | nil => exact absurd rfl hm
  | @cons i is r k n hr hs rest => exact List.mem_map.2 ⟨(r.origin, k, i),
      (mem_units hplain hne).2 ⟨r, hr, hs, rfl⟩, rfl⟩

/-- Where single nonterminal rules lead to a short rule, there is a copy of it. -/
theorem exists_copy {r0 : NormalRule} (hr0 : r0 ∈ shorten rules) (hu : r0.unit? = none) {is : List Nat} {m : String}
    (h : Leads rules is m r0.origin) : ∃ r ∈ eliminateUnits (shorten rules), r.origin = m ∧ r.symbols = r0.symbols := by
  by_cases hm : r0.origin = m
  · exact ⟨r0, List.mem_append_left _ (List.mem_filter.2 ⟨hr0, Option.isNone_iff_eq_none.2 hu⟩), hm, rfl⟩
  · obtain ⟨js, hjs⟩ := exists_chain hplain hne h ⟨[], (search_chainsFrom m).start⟩
    exact ⟨_, mem_of_chain hplain hne hr0 hu hjs hm, rfl, rfl⟩

omit hne in
theorem isHelper_of_leads {is : List Nat} {m n : String} (h : Leads rules is m n) : is ≠ [] → isHelper n = false := by
  induction h with
  | nil => exact fun h => absurd rfl h
  | @cons i is r k n hr hs rest ih =>
    intro _
    cases rest with
    | nil => exact (hplain r (List.mem_of_getElem? hr)).2 (.nonterminal _) (by rw [hs]; exact List.mem_singleton_self _)
    | cons _ _ _ => exact ih (List.cons_ne_nil _ _)

/-- Every rule of the normal form fits. -/
theorem fits_of_mem {r : NormalRule} (h : r ∈ eliminateUnits (shorten rules)) : r.Fits rules := by
  obtain ⟨r0, hr0, is, hu, hx, hr⟩ := exists_short h
  have hl : Leads rules is r.origin r0.origin := leads_of_chainsFrom hplain hne hx
  rcases fits_of_mem_shorten hplain hne hr0 with ⟨α, hb, hg⟩ | ⟨i, base, n, -, -, rfl⟩
  · rw [hr]
    refine ⟨α, hb, ?_⟩
    cases hg with
    | rule hs hbase hc => exact .rule hs hbase (hl.append hc)
    | helper hs hh hm =>
      -- nothing leads to a piece or a wrapper but itself
      cases is with
      | nil =>
        rw [← hl.eq_of_nil] at hh hm
        exact .helper hs hh hm
      | cons j is =>
        rw [isHelper_of_leads hplain hl (List.cons_ne_nil _ _)] at hh
        cases hh
  · cases hu

end Copies

/-! ## Simple chains -/

/-- Places of single nonterminal rules that lead from one nonterminal to another and never come back to a nonterminal
that they left. -/
inductive Simple (rules : List Rule) : List Nat → String → String → Prop
  | nil {n : String} : Simple rules [] n n
  | cons {i : Nat} {is : List Nat} {r : Rule} {m n : String} (hr : rules[i]? = some r)
    (hs : r.symbols = [.nonterminal m]) (rest : Simple rules is m n) (hn : n ≠ r.origin)
    (his : ∀ j ∈ is, ∀ s, rules[j]? = some s → s.origin ≠ r.origin) : Simple rules (i :: is) r.origin n

section Simple

variable {rules : List Rule}

theorem Simple.leads {is : List Nat} {m n : String} (h : Simple rules is m n) : Leads rules is m n := by
  induction h with
  | nil => exact .nil
  | cons hr hs _ _ _ ih => exact .cons hr hs ih

theorem eq_of_mem_chainsFrom {m n : String} {p q : List Nat} (hp : (n, p) ∈ chainsFrom rules m)
    (hq : (n, q) ∈ chainsFrom rules m) : p = q :=
  congrArg Prod.snd (List.inj_on_of_nodup_map (search_chainsFrom m).nodup hp hq rfl)

variable (hplain : Plain rules) (hne : NoEmptyRule rules)
include hplain hne

/-- Where a chain goes on, the chain up to there was found. -/
theorem mem_chainsFrom_of_append {m : String} {p : List Nat} {j : Nat} {q : List Nat} : ∀ {n : String},
    (n, p ++ j :: q) ∈ chainsFrom rules m → ∃ s, rules[j]? = some s ∧ (s.origin, p) ∈ chainsFrom rules m := by
  induction q using List.reverseRecOn with
  | nil =>
    intro n h
    rcases (search_chainsFrom m).grown _ h with h | ⟨⟨k, ks⟩, hk, i, hu, hi⟩
    · simp at h
    · obtain ⟨rfl, hij⟩ := List.append_inj' hi rfl
      cases hij
      obtain ⟨base, hb, -, rfl⟩ := (mem_units hplain hne).1 hu
      exact ⟨base, hb, hk⟩
  | append_singleton q l ih =>
    intro n h
    rcases (search_chainsFrom m).grown _ h with h | ⟨⟨k, ks⟩, hk, i, hu, hi⟩
    · simp at h
    · have heq : (p ++ j :: q) ++ [l] = ks ++ [i] := by simpa using hi
      obtain ⟨rfl, -⟩ := List.append_inj' heq rfl
      exact ih hk

theorem simple_of_append {m n z : String} {q : List Nat} (h : Leads rules q z n) : ∀ {p : List Nat},
    (z, p) ∈ chainsFrom rules m → (n, p ++ q) ∈ chainsFrom rules m → Simple rules q z n := by
  induction h with
  | nil => exact fun _ _ => .nil
  | @cons i is r k n hr hs rest ih =>
    intro p hp hn
    have happ : p ++ i :: is = (p ++ [i]) ++ is := by simp
    -- the nonterminal that comes next was found with the chain up to there
    have hk : (k, p ++ [i]) ∈ chainsFrom rules m := by
      cases rest with
      | nil => exact hn
      | cons hr' _ _ =>
        rw [happ] at hn
        obtain ⟨s, hs', hmem⟩ := mem_chainsFrom_of_append hplain hne hn
        obtain rfl := Option.some.inj (hr'.symm.trans hs')
        exact hmem
    refine .cons hr hs (ih hk (happ ▸ hn)) (fun hback => ?_) fun j hj s hs' hback => ?_
    · have := congrArg List.length (eq_of_mem_chainsFrom hp (hback ▸ hn))
      simp at this
    · obtain ⟨q1, q2, rfl⟩ := List.append_of_mem hj
      have hsplit : p ++ i :: (q1 ++ j :: q2) = (p ++ i :: q1) ++ j :: q2 := by simp
      rw [hsplit] at hn
      obtain ⟨s', hs'', hmem⟩ := mem_chainsFrom_of_append hplain hne hn
      obtain rfl := Option.some.inj (hs'.symm.trans hs'')
      have := congrArg List.length (eq_of_mem_chainsFrom hp (hback ▸ hmem))
      simp at this

/-- The chains that are found are simple. -/
theorem simple_of_chainsFrom {m n : String} {is : List Nat} (h : (n, is) ∈ chainsFrom rules m) :
    Simple rules is m n :=
  simple_of_append hplain hne (leads_of_chainsFrom hplain hne h) (search_chainsFrom m).start h

end Simple

end GrammarKit.Cyk
