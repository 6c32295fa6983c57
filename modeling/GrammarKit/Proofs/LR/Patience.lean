/-
A parser that is patient enough. Reductions before one terminal depend on the states alone, and while the stack stays
above a height, they do not depend on what is below it. So if a state recurs above such a height, what has led from
it to itself leads on forever; reductions that come to an end leave no state twice there. There are only so many stacks
then, and none of them comes back. The patience of a machine is not shorter than that.
-/
import GrammarKit.LR.Machine
import Mathlib.Algebra.Group.Nat.Defs
import Mathlib.Data.List.Basic
import Mathlib.Data.List.Chain
import Mathlib.Data.List.Infix
import Mathlib.Data.List.Nodup
import Mathlib.Data.List.Perm.Subperm
import Mathlib.Logic.Relation

namespace GrammarKit.LR

/-! ## Steps that come to an end -/

section Halting

variable {α : Type}

/-- Partial steps. -/
abbrev Steps (f : α → Option α) : α → α → Prop := Relation.ReflTransGen fun x y => f x = some y

/-- A number of steps leads to where there is no further one. -/
inductive Halts (f : α → Option α) : Nat → α → Prop
  | done {x : α} (h : f x = none) : Halts f 0 x
  | step {n : Nat} {x y : α} (h : f x = some y) (rest : Halts f n y) : Halts f (n + 1) x

variable {f : α → Option α}

theorem Halts.unique {m n : Nat} {x : α} (h : Halts f m x) (h' : Halts f n x) : m = n := by
  induction h generalizing n with
  | done h =>
    cases h' with
    | done _ => rfl
    | step h' _ => rw [h] at h'; cases h'
  | step h _ ih =>
    cases h' with
    | done h' => rw [h] at h'; cases h'
    | step h' rest =>
      obtain rfl := Option.some.inj (h.symm.trans h')
      rw [ih rest]

theorem Halts.after {x y : α} (hs : Steps f x y) : ∀ {n : Nat}, Halts f n x → ∃ m ≤ n, Halts f m y := by
  induction hs with
  | refl => exact fun h => ⟨_, Nat.le_refl _, h⟩
  | tail _ hf ih =>
    intro n h
    obtain ⟨m, hm, h⟩ := ih h
    cases h with
    | done h => rw [h] at hf; cases hf
    | step h rest =>
      obtain rfl := Option.some.inj (h.symm.trans hf)
      exact ⟨_, by omega, rest⟩

theorem Halts.before {x y : α} (hs : Steps f x y) {n : Nat} (h : Halts f n y) : ∃ m, n ≤ m ∧ Halts f m x := by
  induction hs using Relation.ReflTransGen.head_induction_on with
  | refl => exact ⟨n, Nat.le_refl _, h⟩
  | head hf _ ih =>
    obtain ⟨m, hm, h⟩ := ih
    exact ⟨m + 1, by omega, .step hf h⟩

/-- Steps that come to an end pass through as many different places as there are steps. -/
theorem Halts.exists_trail {n : Nat} {x : α} (h : Halts f n x) :
    ∃ trail : List α, trail.length = n + 1 ∧ trail.Nodup ∧ ∀ y ∈ trail, Steps f x y ∧ ∃ m ≤ n, Halts f m y := by
  induction h with
  | @done x h => exact ⟨[x], rfl, List.nodup_singleton x, by simpa using ⟨.refl, .done h⟩⟩
  | @step n x y h rest ih =>
    obtain ⟨trail, hlen, hnd, hmem⟩ := ih
    refine ⟨x :: trail, by rw [List.length_cons, hlen], List.nodup_cons.2 ⟨fun hx => ?_, hnd⟩, fun z hz => ?_⟩
    · obtain ⟨-, m, hm, hh⟩ := hmem x hx
      have := hh.unique (.step h rest)
      omega
    · rcases List.mem_cons.1 hz with rfl | hz
      · exact ⟨.refl, n + 1, Nat.le_refl _, .step h rest⟩
      · obtain ⟨hs, m, hm, hh⟩ := hmem z hz
        exact ⟨.head h hs, m, by omega, hh⟩

theorem Halts.lt_length {n : Nat} {x : α} (h : Halts f n x) {all : List α} (hall : ∀ y, Steps f x y → y ∈ all) :
    n < all.length := by
  obtain ⟨trail, hlen, hnd, hmem⟩ := h.exists_trail
  have := (hnd.subperm fun y hy => hall y (hmem y hy).1).length_le
  omega

end Halting

/-! ## Words -/

section Words

variable {α : Type}

/-- The lists of at most a number of letters. -/
def wordsUpTo (letters : List α) : Nat → List (List α)
  | 0 => [[]]
  | k + 1 => [] :: letters.flatMap fun x => (wordsUpTo letters k).map (x :: ·)

theorem mem_wordsUpTo {letters : List α} : ∀ {k : Nat} {w : List α}, (∀ x ∈ w, x ∈ letters) → w.length ≤ k →
    w ∈ wordsUpTo letters k
  | 0, [], _, _ => List.mem_singleton_self _
  | k + 1, [], _, _ => List.mem_cons_self ..
  | k + 1, x :: w, h, hk =>
    List.mem_cons_of_mem _ (List.mem_flatMap.2 ⟨x, h x (List.mem_cons_self ..), List.mem_map.2
      ⟨w, mem_wordsUpTo (fun y hy => h y (List.mem_cons_of_mem _ hy)) (by simpa using hk), rfl⟩⟩)

theorem length_wordsUpTo_le (letters : List α) : ∀ k : Nat, (wordsUpTo letters k).length ≤ (letters.length + 1) ^ k
  | 0 => Nat.le_refl _
  | k + 1 => by
    have hlen : (wordsUpTo letters (k + 1)).length = letters.length * (wordsUpTo letters k).length + 1 := by
      simp [wordsUpTo, List.length_flatMap]
    have ih := Nat.mul_le_mul_left letters.length (length_wordsUpTo_le letters k)
    have hpos : 0 < (letters.length + 1) ^ k := Nat.pow_pos (Nat.succ_pos _)
    rw [hlen, Nat.pow_succ, Nat.mul_add, Nat.mul_one, Nat.mul_comm _ letters.length]
    omega

/-- A list without repetition among numbers below a bound is no longer than the bound. -/
theorem length_le_of_nodup_lt {n : Nat} {l : List Nat} (h : l.Nodup) (hl : ∀ x ∈ l, x < n) : l.length ≤ n := by
  have hsub : List.Subperm l (List.range n) := h.subperm fun x hx => List.mem_range.2 (hl x hx)
  simpa using hsub.length_le

theorem nodup_of_no_recurrence : ∀ {l : List α}, (∀ pre x mid post, l ≠ pre ++ x :: (mid ++ x :: post)) → l.Nodup
  | [], _ => List.nodup_nil
  | x :: l, h => by
    refine List.nodup_cons.2 ⟨fun hx => ?_, nodup_of_no_recurrence fun pre y mid post he => h (x :: pre) y mid post ?_⟩
    · obtain ⟨mid, post, rfl⟩ := List.append_of_mem hx
      exact h [] x mid post rfl
    · rw [he]
      rfl

end Words

/-! ## Reductions on states -/

/-- What a reduction before a terminal makes of the states. -/
def Parser.reduceStates (p : Parser) (terminal : String) (states : List Nat) : Option (List Nat) :=
  match p.table.move? (states.headD 0) terminal with
  | some (.reduce i) => do
    let r ← p.table.rules[i]?
    let below := states.drop r.parts.length
    return (← p.table.goto? (below.headD 0) r.origin) :: below
  | _ => none

section Reductions

variable {p : Parser} {terminal : String}

theorem Parser.reduceStates_eq_some_iff {states states' : List Nat} : p.reduceStates terminal states = some states' ↔
    ∃ i r j, p.table.move? (states.headD 0) terminal = some (.reduce i) ∧ p.table.rules[i]? = some r ∧
      p.table.goto? ((states.drop r.parts.length).headD 0) r.origin = some j ∧
      states' = j :: states.drop r.parts.length := by
  unfold Parser.reduceStates
  split
  · rename_i i hm
    simp only [bind, Option.bind_eq_some_iff, pure, Option.some.injEq]
    constructor
    · rintro ⟨r, hr, j, hj, rfl⟩; exact ⟨i, r, j, hm, hr, hj, rfl⟩
    · rintro ⟨i', r, j, hm', hr, hj, rfl⟩
      rw [hm] at hm'
      cases hm'
      exact ⟨r, hr, j, hj, rfl⟩
  · rename_i hne
    simp only [reduceCtorEq, false_iff]
    rintro ⟨i, r, j, hm, -⟩
    exact hne i hm

/-- A state that was put on another one while that stayed where it was, whatever was below. -/
def Parser.PutOn (p : Parser) (terminal : String) (upper lower : Nat) : Prop :=
  ∀ below, Steps (p.reduceStates terminal) (lower :: below) (upper :: lower :: below)

theorem steps_of_putOn {y : Nat} (below : List Nat) : ∀ tops : List Nat, (tops ++ [y]).IsChain (p.PutOn terminal) →
    Steps (p.reduceStates terminal) (y :: below) (tops ++ y :: below)
  | [], _ => .refl
  | [x], h => by
    simp only [List.singleton_append, List.isChain_cons_cons] at h
    exact h.1 below
  | x :: z :: tops, h => by
    simp only [List.cons_append, List.isChain_cons_cons] at h
    exact (steps_of_putOn below (z :: tops) h.2).trans (h.1 _)

/-- From a state that recurs above itself reductions never end. -/
theorem not_halts_of_recurrence {y : Nat} {mid : List Nat} (h : (y :: (mid ++ [y])).IsChain (p.PutOn terminal)) :
    ∀ (n : Nat) (below : List Nat), ¬ Halts (p.reduceStates terminal) n (y :: below) := by
  intro n
  induction n using Nat.strongRecOn with
  | ind n ih =>
    intro below hn
    have hs := steps_of_putOn below (y :: mid) h
    rcases Relation.ReflTransGen.cases_head hs with heq | ⟨c, hc, hs⟩
    · have := congrArg List.length heq
      simp only [List.cons_append, List.length_cons, List.length_append] at this
      omega
    · cases hn with
      | done hn => rw [hn] at hc; cases hc
      | @step n _ _ hn rest =>
        obtain rfl := Option.some.inj (hn.symm.trans hc)
        obtain ⟨k, hk, hh⟩ := rest.after hs
        exact ih k (by omega) _ (by simpa using hh)

/-- A stack that reductions make of another one: new states on what is left of the other. -/
structure Parser.Built (p : Parser) (terminal : String) (states : List Nat) (tops base : List Nat) : Prop where
  base : base <:+ states
  chain : tops.IsChain (p.PutOn terminal)
  lt : ∀ x ∈ tops, x < p.table.rows.length

/-- No state is twice among the new ones, if reductions come to an end. -/
theorem Parser.Built.nodup {states tops base : List Nat} (h : p.Built terminal states tops base) {n : Nat}
    (hn : Halts (p.reduceStates terminal) n (tops ++ base)) : tops.Nodup := by
  refine nodup_of_no_recurrence fun pre y mid post he => ?_
  subst he
  have hchain : (pre ++ [y] ++ (mid ++ y :: post)).IsChain (p.PutOn terminal) := by simpa using h.chain
  have hcycle : (y :: (mid ++ [y]) ++ post).IsChain (p.PutOn terminal) := by
    have := h.chain.right_of_append
    simpa using this
  obtain ⟨m, -, hm⟩ := Halts.before (steps_of_putOn (mid ++ y :: post ++ base) pre hchain.left_of_append)
    (by simpa using hn)
  exact not_halts_of_recurrence hcycle.left_of_append m _ hm

variable (hgoto : ∀ state n j, p.table.goto? state n = some j → j < p.table.rows.length)
include hgoto

theorem Parser.Built.step {states tops base s : List Nat} (h : p.Built terminal states tops base)
    (hs : p.reduceStates terminal (tops ++ base) = some s) :
    ∃ tops' base', s = tops' ++ base' ∧ p.Built terminal states tops' base' := by
  obtain ⟨i, r, j, hm, hr, hj, rfl⟩ := Parser.reduceStates_eq_some_iff.1 hs
  have hlt := hgoto _ _ _ hj
  rcases Nat.lt_or_ge r.parts.length tops.length with hk | hk
  · -- the state below the rule's symbols is a new one, and stays
    obtain ⟨pre, v, rest, rfl, hpre⟩ : ∃ pre v rest, tops = pre ++ v :: rest ∧ pre.length = r.parts.length :=
      ⟨tops.take r.parts.length, tops[r.parts.length], tops.drop (r.parts.length + 1),
        by rw [← List.drop_eq_getElem_cons hk, List.take_append_drop], by rw [List.length_take]; omega⟩
    have hdrop : ∀ below : List Nat, (pre ++ v :: below).drop r.parts.length = v :: below := by
      intro below
      rw [← hpre, List.drop_left]
    have hhead : ∀ below below' : List Nat, (pre ++ v :: below).headD 0 = (pre ++ v :: below').headD 0 := by
      intro below below'
      cases pre <;> rfl
    rw [List.append_assoc, List.cons_append] at hm hj ⊢
    rw [hdrop] at hj ⊢
    refine ⟨j :: v :: rest, base, rfl, h.base, ?_, ?_⟩
    · have hchain := h.chain
      rw [show pre ++ v :: rest = (pre ++ [v]) ++ rest by simp] at hchain
      refine List.isChain_cons_cons.2 ⟨fun below => ?_, ?_⟩
      · refine (steps_of_putOn below pre hchain.left_of_append).tail ?_
        refine Parser.reduceStates_eq_some_iff.2 ⟨i, r, j, ?_, hr, ?_, ?_⟩
        · rw [hhead below (rest ++ base)]; exact hm
        · rw [hdrop]; exact hj
        · rw [hdrop]
      · exact h.chain.right_of_append
    · intro x hx
      rcases List.mem_cons.1 hx with rfl | hx
      · exact hlt
      · exact h.lt x (List.mem_append_right _ hx)
  · refine ⟨[j], base.drop (r.parts.length - tops.length), ?_, ?_, List.isChain_singleton _, by simpa using hlt⟩
    · rw [List.drop_append, List.drop_eq_nil_of_le hk]
      rfl
    · exact (List.drop_suffix ..).trans h.base

theorem Parser.Built.of_steps {states s : List Nat} (h : Steps (p.reduceStates terminal) states s) :
    ∃ tops base, s = tops ++ base ∧ p.Built terminal states tops base := by
  induction h with
  | refl => exact ⟨[], states, rfl, List.suffix_refl _, List.isChain_nil, by simp⟩
  | tail _ hs ih =>
    obtain ⟨tops, base, rfl, hb⟩ := ih
    exact hb.step hgoto hs

/-- Reductions before a terminal that come to an end do so before the patience of the machine does. -/
theorem Halts.le_patience {m : Machine} {n : Nat} (h : Halts (p.reduceStates terminal) n m.states) :
    n < m.patience p := by
  let words := wordsUpTo (List.range p.table.rows.length) p.table.rows.length
  have hlt : n < (words.flatMap fun tops => m.states.tails.map (tops ++ ·)).length := by
    refine h.lt_length fun s hs => ?_
    obtain ⟨tops, base, rfl, hb⟩ := Parser.Built.of_steps hgoto hs
    obtain ⟨k, -, hk⟩ := h.after hs
    refine List.mem_flatMap.2 ⟨tops, mem_wordsUpTo (fun x hx => List.mem_range.2 (hb.lt x hx)) ?_, ?_⟩
    · exact length_le_of_nodup_lt (hb.nodup hk) hb.lt
    · exact List.mem_map.2 ⟨base, (List.mem_tails _ _).2 hb.base, rfl⟩
  have hlen : (words.flatMap fun tops => m.states.tails.map (tops ++ ·)).length =
    words.length * (m.states.length + 1) := by
    simp [List.length_flatMap]
  have hwords : words.length ≤ (p.table.rows.length + 1) ^ p.table.rows.length := by
    have := length_wordsUpTo_le (List.range p.table.rows.length) p.table.rows.length
    rwa [List.length_range] at this
  have hpow : (p.table.rows.length + 1) ^ p.table.rows.length ≤
    (p.table.rows.length + 1) ^ (p.table.rows.length + 1 + 1) :=
    Nat.pow_le_pow_right (Nat.succ_pos _) (by omega)
  calc n < words.length * (m.states.length + 1) := hlen ▸ hlt
    _ ≤ (p.table.rows.length + 1) ^ (p.table.rows.length + 1 + 1) * (m.states.length + 1) :=
      Nat.mul_le_mul_right _ (Nat.le_trans hwords hpow)
    _ = m.patience p := Nat.mul_comm ..

end Reductions

end GrammarKit.LR
