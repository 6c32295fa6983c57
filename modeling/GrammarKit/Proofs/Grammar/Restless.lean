/-
Nonterminals that come back before anything was read. A nonterminal is restless if it derives a form in which it
stands again, behind symbols that derive nothing, and either there are such symbols or nothing has to come of what
stands after it. In the first case it can be begun again and again, in the second it can stand for itself again and
again. Where a start symbol leads to no restless nonterminal, a tree is no larger than its tokens allow: on a path
down the tree on which no token is left behind, no nonterminal comes twice. Where a form is derived in one step or more,
on the other hand, the trees of what derives it are larger, over the same tokens.
-/
import GrammarKit.Proofs.Grammar.Trees
import Mathlib.Algebra.Group.Nat.Defs
import Mathlib.Data.List.Perm.Subperm

namespace GrammarKit

/-- A nonterminal derives, in one step or more, a form in which another one stands between given symbols. -/
def Nests (rules : List Rule) (a b : String) (u v : List Symbol) : Prop :=
  Relation.TransGen (Rewrites rules) [.nonterminal a] (u ++ .nonterminal b :: v)

/-- A nonterminal that comes back behind symbols that vanish, or with everything around it vanishing. -/
def Restless (rules : List Rule) (n : String) : Prop :=
  ∃ u v, Nests rules n n u v ∧ Derives rules u [] ∧ (u ≠ [] ∨ Derives rules v [])

/-- A nonterminal that derives itself, in one step or more. -/
def DerivesItself (rules : List Rule) (n : String) : Prop :=
  Relation.TransGen (Rewrites rules) [.nonterminal n] [.nonterminal n]

/-- A nonterminal stands somewhere in a form that another one derives. -/
def LeadsTo (rules : List Rule) (a b : String) : Prop :=
  ∃ u v, Derives rules [.nonterminal a] (u ++ .nonterminal b :: v)

variable {rules : List Rule}

/-! ## Nested nonterminals -/

/-- A nonterminal that stands alone is replaced by the symbols of one of its rules. -/
theorem rewrites_nonterminal_iff {n : String} {b : List Symbol} : Rewrites rules [.nonterminal n] b ↔
    ∃ r ∈ rules, r.origin = n ∧ b = r.symbols := by
  constructor
  · intro h
    generalize ha : [Symbol.nonterminal n] = a at h
    cases h with
    | @mk before after r hr =>
      obtain ⟨rfl, hs⟩ | ⟨-, hs⟩ := List.singleton_eq_append_iff.1 ha
      · obtain ⟨hn, rfl⟩ := List.cons.inj hs
        exact ⟨r, hr, Symbol.nonterminal.inj hn, by simp⟩
      · cases hs
  · rintro ⟨r, hr, rfl, rfl⟩
    exact .of_rule hr

theorem not_rewrites_nil {b : List Symbol} : ¬ Rewrites rules [] b := by
  intro h
  generalize ha : [] = x at h
  cases h with
  | mk before after hr => simp at ha

theorem not_rewrites_terminal {a : String} {b : List Symbol} : ¬ Rewrites rules [.terminal a] b := by
  intro h
  generalize ha : [Symbol.terminal a] = x at h
  cases h with
  | mk before after hr =>
    obtain ⟨rfl, hs⟩ | ⟨-, hs⟩ := List.singleton_eq_append_iff.1 ha <;> cases hs

namespace Nests

theorem of_rule {r : Rule} {b : String} {u v : List Symbol} (hr : r ∈ rules)
    (hs : r.symbols = u ++ .nonterminal b :: v) : Nests rules r.origin b u v :=
  .single (hs ▸ .of_rule hr)

theorem lift {a b : List Symbol} (h : Relation.TransGen (Rewrites rules) a b) (u v : List Symbol) :
    Relation.TransGen (Rewrites rules) (u ++ (a ++ v)) (u ++ (b ++ v)) :=
  Relation.TransGen.lift (fun x => u ++ (x ++ v))
    (fun x y (h : Rewrites rules x y) => (h.append_right v).append_left u) _ _ h

theorem trans {a b c : String} {u v u' v' : List Symbol} (h : Nests rules a b u v) (k : Nests rules b c u' v') :
    Nests rules a c (u ++ u') (v' ++ v) := by
  have hk := lift k u v
  have : Relation.TransGen (Rewrites rules) [.nonterminal a] (u ++ (u' ++ .nonterminal c :: v' ++ v)) :=
    Relation.TransGen.trans h hk
  simpa [Nests] using this

/-- What the inner nonterminal derives stands between the symbols around it. -/
theorem derives {a b c : String} {u v w : List Symbol} (h : Nests rules a b u v)
    (k : Derives rules [.nonterminal b] (.nonterminal c :: w)) : Nests rules a c u (w ++ v) := by
  have hk := (k.append_right v).append_left u
  have : Relation.TransGen (Rewrites rules) [.nonterminal a] (u ++ (.nonterminal c :: w ++ v)) :=
    Relation.TransGen.trans_left h hk
  simpa [Nests] using this

end Nests

/-- An origin of a rule in which a nonterminal stands alone, with everything around it vanishing. -/
def Shrouds (rules : List Rule) (a b : String) : Prop :=
  (∃ r ∈ rules, r.origin = a) ∧ ∃ u v, Nests rules a b u v ∧ Derives rules u [] ∧ Derives rules v []

namespace Shrouds

theorem of_rule {r : Rule} {b : String} {u v : List Symbol} (hr : r ∈ rules)
    (hs : r.symbols = u ++ .nonterminal b :: v) (hu : Derives rules u []) (hv : Derives rules v []) :
    Shrouds rules r.origin b :=
  ⟨⟨r, hr, rfl⟩, u, v, .of_rule hr hs, hu, hv⟩

theorem trans {a b c : String} (h : Shrouds rules a b) (k : Shrouds rules b c) : Shrouds rules a c := by
  obtain ⟨ha, u, v, hnest, hu, hv⟩ := h
  obtain ⟨-, u', v', hnest', hu', hv'⟩ := k
  exact ⟨ha, _, _, hnest.trans hnest', hu.append hu', hv'.append hv⟩

theorem restless {a : String} (h : Shrouds rules a a) : Restless rules a := by
  obtain ⟨-, u, v, hnest, hu, hv⟩ := h
  exact ⟨u, v, hnest, hu, .inr hv⟩

end Shrouds

namespace LeadsTo

theorem refl (a : String) : LeadsTo rules a a := ⟨[], [], .refl⟩

theorem step {a : String} {r : Rule} {b : String} (h : LeadsTo rules a r.origin) (hr : r ∈ rules)
    (hb : .nonterminal b ∈ r.symbols) : LeadsTo rules a b := by
  obtain ⟨u, v, hd⟩ := h
  obtain ⟨x, y, hs⟩ := List.append_of_mem hb
  refine ⟨u ++ x, y ++ v, hd.tail ?_⟩
  have := (Rewrites.of_rule hr).append_right v |>.append_left u
  rw [hs] at this
  simpa using this

end LeadsTo

/-! ## Grammars without restless nonterminals -/

section Ranked

variable {rank : String → Nat} (hne : ∀ r ∈ rules, r.symbols ≠ [])
  (hrank : ∀ r ∈ rules, ∀ n, r.symbols = [.nonterminal n] → rank n < rank r.origin)
include hne

theorem Rewrites.length_le {a b : List Symbol} (h : Rewrites rules a b) : a.length ≤ b.length := by
  cases h with
  | @mk before after r hr =>
    have := List.length_pos_iff.2 (hne r hr)
    simp only [List.length_append, List.length_cons]
    omega

theorem Derives.length_le {a b : List Symbol} (h : Derives rules a b) : a.length ≤ b.length := by
  induction h with
  | refl => exact Nat.le_refl _
  | tail _ hs ih => exact Nat.le_trans ih (hs.length_le hne)

include hrank

/-- A nonterminal derives no other one but of a lower rank. -/
theorem rank_lt_of_derives {n : String} {x : List Symbol}
    (h : Relation.TransGen (Rewrites rules) x [.nonterminal n]) : ∀ {m : String}, x = [.nonterminal m] →
    rank n < rank m := by
  induction h using Relation.TransGen.head_induction_on with
  | single h =>
    rintro m rfl
    obtain ⟨r, hr, rfl, hs⟩ := rewrites_nonterminal_iff.1 h
    exact hrank r hr n hs.symm
  | @head a c h hrest ih =>
    rintro m rfl
    obtain ⟨r, hr, rfl, rfl⟩ := rewrites_nonterminal_iff.1 h
    -- what comes to a single symbol was no longer than that
    have hle : r.symbols.length ≤ 1 := Derives.length_le hne hrest.to_reflTransGen
    obtain ⟨s, hs⟩ : ∃ s, r.symbols = [s] := by
      have hpos := List.length_pos_iff.2 (hne r hr)
      exact List.length_eq_one_iff.1 (by omega)
    cases s with
    | nonterminal b => exact Nat.lt_trans (ih hs) (hrank r hr b hs)
    | terminal a =>
      rw [hs] at hrest
      obtain ⟨c, hc, -⟩ := Relation.TransGen.head'_iff.1 hrest
      exact absurd hc not_rewrites_terminal

/-- Where no rule is empty, and every rule of a single nonterminal goes down in rank, nothing derives itself. -/
theorem not_derivesItself (n : String) : ¬ DerivesItself rules n := fun h =>
  Nat.lt_irrefl _ (rank_lt_of_derives hne hrank h rfl)

/-- Under the same conditions, nothing is restless. -/
theorem not_restless (n : String) : ¬ Restless rules n := by
  rintro ⟨u, v, hnest, hu, hv⟩
  obtain rfl : u = [] := List.eq_nil_of_length_eq_zero (Nat.le_zero.1 (hu.length_le hne))
  have hv := hv.resolve_left (· rfl)
  obtain rfl : v = [] := List.eq_nil_of_length_eq_zero (Nat.le_zero.1 (hv.length_le hne))
  exact not_derivesItself hne hrank n hnest

end Ranked

/-- Where no rule is empty or a single nonterminal, nothing derives itself. -/
theorem not_derivesItself_of_single (hne : ∀ r ∈ rules, r.symbols ≠ [])
    (hsingle : ∀ r ∈ rules, ∀ s ∈ r.symbols, r.symbols = [s] → s.isTerminal = true) (n : String) :
    ¬ DerivesItself rules n := by
  have hrank : ∀ r ∈ rules, ∀ n, r.symbols = [.nonterminal n] → n.length < r.origin.length := fun r hr n hs =>
    absurd (hsingle r hr _ (by simp [hs]) hs) Bool.false_ne_true
  exact not_derivesItself hne hrank n

/-! ## Trees of bounded size -/

variable {stands : String → Token → Prop}

/-- A tree among trees of symbols is the tree of one of the symbols, and the others yield the tokens around its own. -/
theorem Trees.exists_part {ss : List Symbol} {ts : List Token} {ds : List Derivation} (h : Trees rules stands ss ts ds)
    {d : Derivation} : d ∈ ds → ∃ pre s post us ws vs, ss = pre ++ s :: post ∧ ts = us ++ (ws ++ vs) ∧
      Yields rules stands pre us ∧ Trees rules stands [s] ws [d] ∧ Yields rules stands post vs := by
  induction h with
  | nil => exact fun hd => by cases hd
  | @token a t ss ts ds ha rest ih =>
    intro hd
    rcases List.mem_cons.1 hd with rfl | hd
    · exact ⟨[], _, ss, [], [t], ts, rfl, rfl, .nil, .token ha .nil, rest.yields⟩
    · obtain ⟨pre, s, post, us, ws, vs, rfl, rfl, hpre, hs, hpost⟩ := ih hd
      exact ⟨_ :: pre, s, post, t :: us, ws, vs, rfl, rfl, .terminal ha hpre, hs, hpost⟩
  | @node i r ss us ts cs ds hr inner rest _ ih =>
    intro hd
    rcases List.mem_cons.1 hd with rfl | hd
    · exact ⟨[], _, ss, [], us, ts, rfl, rfl, .nil, .of_rule hr inner, rest.yields⟩
    · obtain ⟨pre, s, post, us', ws, vs, rfl, rfl, hpre, hs, hpost⟩ := ih hd
      exact ⟨_ :: pre, s, post, us ++ us', ws, vs, rfl, by simp,
        .nonterminal (List.mem_of_getElem? hr) inner.yields hpre, hs, hpost⟩

namespace Derivation

theorem size_le_of_mem {d : Derivation} : ∀ {ds : List Derivation}, d ∈ ds → d.size ≤ sizeAll ds
  | e :: ds, h => by
    rcases List.mem_cons.1 h with rfl | h
    · simp [sizeAll]
    · have := size_le_of_mem h
      simp only [sizeAll]; omega

theorem sizeAll_le {b : Nat} : ∀ {ds : List Derivation}, (∀ d ∈ ds, d.size ≤ b) → sizeAll ds ≤ ds.length * b
  | [], _ => Nat.zero_le _
  | d :: ds, h => by
    have := sizeAll_le fun e he => h e (List.mem_cons_of_mem _ he)
    have := h d (List.mem_cons_self ..)
    rw [sizeAll, List.length_cons, Nat.succ_mul]
    omega

theorem leavesAll_eq_nil {ds : List Derivation} (h : ∀ d ∈ ds, d.leaves = []) : leavesAll ds = [] := by
  rw [leavesAll_eq_flatMap]
  exact List.flatMap_eq_nil_iff.2 h

end Derivation

/-- Number of symbols of the longest rule. -/
def longestRule : List Rule → Nat
  | [] => 0
  | r :: rules => max r.symbols.length (longestRule rules)

theorem length_le_longestRule {r : Rule} : ∀ {rules : List Rule}, r ∈ rules → r.symbols.length ≤ longestRule rules
  | s :: rules, h => by
    rw [longestRule]
    rcases List.mem_cons.1 h with rfl | h
    · exact Nat.le_max_left ..
    · exact Nat.le_trans (length_le_longestRule h) (Nat.le_max_right ..)

/-- Different origins are no more than the rules. -/
theorem length_le_of_origins {names : List String} (h : names.Nodup) (hn : ∀ n ∈ names, ∃ r ∈ rules, r.origin = n) :
    names.length ≤ rules.length := by
  have hsub : List.Subperm names (rules.map (·.origin)) := h.subperm fun n hm => List.mem_map.2 (hn n hm)
  simpa using hsub.length_le

/-- Beside a new origin, names that are origins leave a rule over. -/
theorem exists_succ_of_origins {n : String} {names : List String} {j : Nat} (h : (n :: names).Nodup)
    (hn : ∃ r ∈ rules, r.origin = n) (hnames : ∀ x ∈ names, ∃ r ∈ rules, r.origin = x)
    (hj : rules.length ≤ j + names.length) : ∃ k, j = k + 1 := by
  have hle := length_le_of_origins h (List.forall_mem_cons.2 ⟨hn, hnames⟩)
  rw [List.length_cons] at hle
  exact ⟨j - 1, by omega⟩

/-- Size of a tree of a number of levels, if no rule is longer than the longest. -/
def treeBound (rules : List Rule) (levels : Nat) : Nat := (longestRule rules + 1) ^ levels

theorem treeBound_mono {m n : Nat} (h : m ≤ n) : treeBound rules m ≤ treeBound rules n :=
  Nat.pow_le_pow_right (Nat.succ_pos _) h

theorem one_le_treeBound (n : Nat) : 1 ≤ treeBound rules n := Nat.one_le_pow _ _ (Nat.succ_pos _)

theorem treeBound_succ (n : Nat) :
    treeBound rules (n + 1) = longestRule rules * treeBound rules n + treeBound rules n := by
  simp only [treeBound]
  rw [Nat.pow_succ, Nat.mul_add, Nat.mul_one, Nat.mul_comm]

/-- A node is a level above its children. -/
theorem Trees.size_node_le {i m : Nat} {r : Rule} {ts : List Token} {cs : List Derivation} (hr : r ∈ rules)
    (h : Trees rules stands r.symbols ts cs) (hc : ∀ c ∈ cs, c.size ≤ treeBound rules m) :
    (Derivation.node i cs).size ≤ treeBound rules (m + 1) := by
  have hsum := Derivation.sizeAll_le hc
  have hlen : cs.length ≤ longestRule rules := by
    rw [h.length_eq]
    exact length_le_longestRule hr
  have hone : 1 ≤ treeBound rules m := one_le_treeBound _
  calc (Derivation.node i cs).size = Derivation.sizeAll cs + 1 := rfl
    _ ≤ cs.length * treeBound rules m + 1 := by omega
    _ ≤ longestRule rules * treeBound rules m + treeBound rules m :=
      Nat.add_le_add (Nat.mul_le_mul_right _ hlen) hone
    _ = treeBound rules (m + 1) := (treeBound_succ _).symm

/-- Size of a tree over a number of tokens, if the start symbol leads to no restless nonterminal. -/
def sizeLimit (rules : List Rule) (tokens : Nat) : Nat :=
  treeBound rules (tokens * (rules.length + 1) + rules.length + 1)

theorem sizeLimit_mono {m n : Nat} (h : m ≤ n) : sizeLimit rules m ≤ sizeLimit rules n := by
  have := Nat.mul_le_mul_right (rules.length + 1) h
  exact treeBound_mono (by omega)

section Calm

variable {start : String} (hcalm : ∀ n, LeadsTo rules start n → ¬ Restless rules n)
include hcalm

/-- The levels of a tree are as many as its tokens and the nonterminals allow; `seen` are those on the way to the tree
since the last token was left behind. -/
theorem Trees.size_le_of_seen : ∀ (d : Derivation) {n : String} {ts : List Token} {seen : List String} {j : Nat},
    Trees rules stands [.nonterminal n] ts [d] → LeadsTo rules start n → seen.Nodup →
    (∀ x ∈ seen, Shrouds rules x n) → rules.length ≤ j + seen.length →
    d.size ≤ treeBound rules (ts.length * (rules.length + 1) + j + 1) := by
  intro d
  induction hsize : d.size using Nat.strongRecOn generalizing d with
  | ind size ih =>
    subst hsize
    intro n ts seen j h hn hnodup hseen hj
    obtain ⟨i, r, cs, hr, rfl, hd, htrees⟩ := trees_nonterminal_iff.1 h
    obtain rfl := List.singleton_inj.1 hd
    have hmem := List.mem_of_getElem? hr
    have hnew : r.origin ∉ seen := fun hx => hcalm _ hn (hseen _ hx).restless
    have hnodup' : (r.origin :: seen).Nodup := List.nodup_cons.2 ⟨hnew, hnodup⟩
    obtain ⟨j, rfl⟩ := exists_succ_of_origins hnodup' ⟨r, hmem, rfl⟩ (fun x hx => (hseen x hx).1) hj
    refine Trees.size_node_le hmem htrees fun c hc => ?_
    have hlt : c.size < (Derivation.node i cs).size := by
      have := Derivation.size_le_of_mem hc
      rw [Derivation.size]
      omega
    -- every child is smaller by a token or by a nonterminal
    obtain ⟨pre, s, post, us, ws, vs, hs, rfl, hpre, hcs, hpost⟩ := htrees.exists_part hc
    cases s with
    | terminal a =>
      obtain ⟨t, rfl, hd, -⟩ := trees_terminal_iff.1 hcs
      obtain rfl := List.singleton_inj.1 hd
      exact one_le_treeBound _
    | nonterminal m =>
      have hm : LeadsTo rules start m := hn.step hmem (by rw [hs]; simp)
      rcases Nat.lt_or_ge ws.length (us ++ (ws ++ vs)).length with hlen | hlen
      · refine Nat.le_trans (ih c.size hlt c rfl hcs hm List.nodup_nil (by simp) (Nat.le_refl _)) (treeBound_mono ?_)
        have := Nat.mul_le_mul_right (rules.length + 1) (Nat.succ_le_of_lt hlen)
        rw [Nat.succ_mul] at this
        omega
      · simp only [List.length_append] at hlen
        obtain rfl : us = [] := List.eq_nil_of_length_eq_zero (by omega)
        obtain rfl : vs = [] := List.eq_nil_of_length_eq_zero (by omega)
        have hstep := Shrouds.of_rule hmem hs hpre.derives_nil hpost.derives_nil
        refine ih c.size hlt c rfl (by simpa using hcs) hm hnodup' (fun x hx => ?_) ?_
        · rcases List.mem_cons.1 hx with rfl | hx
          · exact hstep
          · exact (hseen x hx).trans hstep
        · rw [List.length_cons]
          omega

/-- A tree of a symbol is no larger than its tokens allow. -/
theorem Trees.size_le {s : Symbol} {ts : List Token} {d : Derivation} (h : Trees rules stands [s] ts [d])
    (hs : ∀ n, s = .nonterminal n → LeadsTo rules start n) :
    d.size ≤ sizeLimit rules ts.length := by
  cases s with
  | terminal a =>
    obtain ⟨t, rfl, hd, -⟩ := trees_terminal_iff.1 h
    obtain rfl := List.singleton_inj.1 hd
    exact one_le_treeBound _
  | nonterminal n =>
    exact Trees.size_le_of_seen hcalm d h (hs n rfl) List.nodup_nil (by simp) (Nat.le_refl _)

end Calm

/-! ## Trees that grow -/

section Growing

variable {ts : List Token} {ds : List Derivation}

/-- What is rewritten to a form has one node more over the same tokens. -/
theorem Trees.of_rewrites {a b : List Symbol} (h : Rewrites rules a b) (k : Trees rules stands b ts ds) :
    ∃ ds', Trees rules stands a ts ds' ∧ Derivation.sizeAll ds' = Derivation.sizeAll ds + 1 := by
  cases h with
  | mk before after hr =>
    obtain ⟨i, hi⟩ := List.getElem?_of_mem hr
    obtain ⟨us, vs, cs, es, rfl, rfl, hbefore, h⟩ := k.split
    obtain ⟨us', vs', xs, ys, rfl, rfl, hinner, hafter⟩ := h.split
    refine ⟨cs ++ .node i xs :: ys, hbefore.append (.node hi hinner hafter), ?_⟩
    simp only [Derivation.sizeAll_append, Derivation.sizeAll, Derivation.size]
    omega

theorem Trees.of_derives {a b : List Symbol} (h : Relation.TransGen (Rewrites rules) a b)
    (k : Trees rules stands b ts ds) :
    ∃ ds', Trees rules stands a ts ds' ∧ Derivation.sizeAll ds < Derivation.sizeAll ds' := by
  induction h using Relation.TransGen.head_induction_on with
  | single h =>
    obtain ⟨ds', h', hsize⟩ := k.of_rewrites h
    exact ⟨ds', h', by omega⟩
  | head h _ ih =>
    obtain ⟨ds1, h1, hlt⟩ := ih
    obtain ⟨ds', h', hsize⟩ := h1.of_rewrites h
    exact ⟨ds', h', by omega⟩

end Growing

end GrammarKit
