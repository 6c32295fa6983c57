/-
What the search for derivations finds. Where one derivation is kept of every stretch, a packed derivation that
is found for a goal has the value of a derivation tree of the goal's nonterminal over its stretch, whatever
the actions are; this holds for what is kept of earlier goals as well.
-/
import GrammarKit.Proofs.Earley.Stretch
import GrammarKit.Proofs.Grammar.Actions
import GrammarKit.Proofs.Grammar.Trees

namespace GrammarKit

namespace Earley

theorem Packed.buildAll_append (a : Actions) : ∀ ps qs : List Packed,
    buildAll a (ps ++ qs) = buildAll a ps ++ buildAll a qs
  | [], _ => rfl
  | p :: ps, qs => by simp [buildAll, buildAll_append a ps qs]

/-! ## Runs of a search -/

namespace Search

variable {α β : Type}

theorem run_bind (m : Search α) (f : α → Search β) (F : Findings) : (m >>= f) F = f (m F).1 (m F).2 := rfl

theorem run_get (F : Findings) : (get : Search Findings) F = (F, F) := rfl

theorem first_cons (f : α → Search (Option β)) (a : α) (l : List α) (F : Findings) :
    first f (a :: l) F = match f a F with
      | (some b, F) => (some b, F)
      | (none, F) => first f l F := by
  simp only [first, run_bind]
  rcases f a F with ⟨_ | b, F'⟩ <;> rfl

theorem all_cons (f : α → Search (List β)) (a : α) (l : List α) (F : Findings) :
    all f (a :: l) F = ((f a F).1 ++ (all f l (f a F).2).1, (all f l (f a F).2).2) := rfl

/-- A run keeps what holds of the findings, and its results are as they should be. -/
def Ensures (I : Findings → Prop) (m : Search α) (Q : α → Prop) : Prop :=
  ∀ F, I F → I (m F).2 ∧ Q (m F).1

variable {I : Findings → Prop}

theorem Ensures.pure {Q : α → Prop} {a : α} (h : Q a) : Ensures I (pure a) Q := fun _ hF => ⟨hF, h⟩

theorem Ensures.bind {Q : α → Prop} {R : β → Prop} {m : Search α} {f : α → Search β} (h : Ensures I m Q)
    (k : ∀ a, Q a → Ensures I (f a) R) : Ensures I (m >>= f) R := fun F hF =>
  k _ (h F hF).2 _ (h F hF).1

theorem Ensures.first {Q : Option β → Prop} {f : α → Search (Option β)} (hn : Q none) : ∀ {l : List α},
    (∀ a ∈ l, Ensures I (f a) Q) → Ensures I (first f l) Q
  | [], _ => .pure hn
  | a :: l, h => by
    refine .bind (h a (List.mem_cons_self ..)) fun r hr => ?_
    cases r with
    | some b => exact .pure hr
    | none => exact .first hn fun a ha => h a (List.mem_cons_of_mem _ ha)

end Search

namespace Chart

theorem solve_succ (c : Chart) (a : Ambiguity) (fuel : Nat) (active : List Goal) (b : Goal) (F : Findings) :
    c.solve a (fuel + 1) active b F =
      match F.lookup b with
      | some known => (known, F)
      | none =>
        if active.contains b then (none, F)
        else
          let r := c.ways a (c.part (c.solve a fuel (b :: active))) (fun x => Way.mk x.2) b F
          let found := if r.1.isEmpty then none else some (Packed.node r.1)
          (found, (b, found) :: r.2) := by
  simp only [solve, Search.run_bind, Search.run_get]
  cases F.lookup b with
  | some known => rfl
  | none =>
    simp only
    split <;> rfl

/-- Every derivation that was found is as it should be. -/
def Fulfils (Q : Goal → Packed → Prop) (F : Findings) : Prop := ∀ b p, F.lookup b = some (some p) → Q b p

/-- What the ways of every goal are like, if the parts that they are made of are, that is what is found. -/
theorem solve_fulfils {c : Chart} {a : Ambiguity} {Q : Goal → Packed → Prop}
    (hways : ∀ solve : Goal → Search (Option Packed),
      (∀ b, Search.Ensures (Fulfils Q) (solve b) fun r => ∀ p, r = some p → Q b p) →
      ∀ b, Search.Ensures (Fulfils Q) (c.ways a (c.part solve) (fun x => Way.mk x.2) b) fun ways =>
        ways ≠ [] → Q b (.node ways)) : ∀ (fuel : Nat) (active : List Goal) (b : Goal),
    Search.Ensures (Fulfils Q) (c.solve a fuel active b) fun r => ∀ p, r = some p → Q b p
  | 0, _, _ => .pure fun _ hp => nomatch hp
  | fuel + 1, active, b => by
    intro F hF
    rw [solve_succ]
    rcases hb : F.lookup b with _ | known
    · by_cases hc : active.contains b = true
      · simp only [hc, if_true]
        exact ⟨hF, fun _ hp => nomatch hp⟩
      · simp only [hc, Bool.false_eq_true, if_false]
        obtain ⟨hkept, hnode⟩ := hways _ (fun b' => solve_fulfils hways fuel (b :: active) b') b F hF
        generalize c.ways a (c.part (c.solve a fuel (b :: active))) (fun x => Way.mk x.2) b F = r at hkept hnode ⊢
        have hfound : ∀ p, (if r.1.isEmpty then none else some (Packed.node r.1)) = some p → Q b p := by
          intro p hp
          split at hp
          · cases hp
          · rename_i hne
            cases hp
            exact hnode (by simpa using hne)
        refine ⟨fun b' p hp => ?_, hfound⟩
        by_cases hbb : b' = b
        · subst hbb
          rw [List.lookup_cons_self] at hp
          exact hfound p (Option.some.inj hp)
        · rw [List.lookup_cons, beq_eq_false_iff_ne.2 hbb] at hp
          exact hkept b' p hp
    · exact ⟨hF, fun p hp => hF b p (by rw [hb, ← hp])⟩

/-! ## Derivations that are found -/

section Sound

variable (rules : List Rule) (stands : String → Token → Prop) (w : List Token)

/-- A packed derivation has the value of a tree of the symbol over a stretch. -/
def PacksTree (s : Symbol) (j k : Nat) (p : Packed) : Prop :=
  ∃ d, Trees rules stands [s] (stretch w j k) [d] ∧ ∀ a : Actions, p.build a = d.build (a.atPlace rules)

/-- Packed derivations have the values of trees of symbols over a stretch. -/
def PackTrees (ss : List Symbol) (j k : Nat) (ps : List Packed) : Prop :=
  ∃ ds, Trees rules stands ss (stretch w j k) ds ∧
    ∀ a : Actions, Packed.buildAll a ps = Derivation.buildAll (a.atPlace rules) ds

/-- Everything that was found packs a tree. -/
def SoundFindings : Findings → Prop :=
  Fulfils fun b p => PacksTree rules stands w (.nonterminal b.name) b.start b.stop p

end Sound

/-- The value of a stretch with one way to derive it. -/
theorem build_single (a : Actions) (r : Rule) (ps : List Packed) :
    (Packed.node [.mk r ps]).build a = a.apply r (Packed.buildAll a ps) := by
  simp [Packed.build, Way.buildAll, Way.build, joinAlternatives, distinctChildren]

namespace Records

open Search

variable {g : ChartRules} {stands : String → Token → Prop} {start : String} {w : List Token} {c : Chart}
  (h : c.Records g stands start w)
include h

section Sequence

variable {solve : Goal → Search (Option Packed)}
  (hsolve : ∀ b, Ensures (SoundFindings g.rules stands w) (solve b)
    fun r => ∀ p, r = some p → PacksTree g.rules stands w (.nonterminal b.name) b.start b.stop p)
include hsolve

theorem part_sound (s : Symbol) (j k : Nat) : Ensures (SoundFindings g.rules stands w) (c.part solve s j k)
    fun r => ∀ p, r = some p → PacksTree g.rules stands w s j k p := by
  unfold part
  split
  · rename_i n
    refine .pure fun p hp => ?_
    obtain ⟨t, ht, rfl⟩ := Option.map_eq_some_iff.1 hp
    obtain ⟨rfl, hw, ha⟩ := h.token?_eq_some ht
    exact ⟨.token t, by rw [stretch_succ hw]; exact .token ha .nil, fun a => rfl⟩
  · split
    · exact .pure fun p hp => nomatch hp
    · exact hsolve _

theorem firstSequence_sound (rule origin : Nat) : ∀ (syms : List Symbol) (stop : Nat),
    Ensures (SoundFindings g.rules stands w) (c.firstSequence (c.part solve) rule origin syms stop)
      fun r => ∀ ps, r = some ps → PackTrees g.rules stands w syms.reverse origin stop ps
  | [], stop => by
    refine .pure fun ps hps => ?_
    split at hps
    · rename_i hj
      cases hps
      obtain rfl := h.joins_iff.1 hj
      exact ⟨[], by rw [stretch_self]; exact .nil, fun a => rfl⟩
    · cases hps
  | s :: before, stop => by
    refine .first (fun _ hp => nomatch hp) fun ⟨j, e⟩ hje => ?_
    obtain ⟨rfl, ho, hs, -⟩ := h.mem_splits_iff.1 hje
    refine .bind (h.part_sound hsolve s j e) fun r hr => ?_
    cases r with
    | none => exact .pure fun _ hp => nomatch hp
    | some p =>
      -- the trees before the split and the tree after it are trees of all symbols
      refine .bind (firstSequence_sound rule origin before j) fun qs hqs => .pure fun ps hps => ?_
      obtain ⟨qs, rfl, rfl⟩ := Option.map_eq_some_iff.1 hps
      obtain ⟨d, hd, hdv⟩ := hr p rfl
      obtain ⟨ds, hds, hdsv⟩ := hqs qs rfl
      refine ⟨ds ++ [d], ?_, fun a => ?_⟩
      · rw [List.reverse_cons, ← stretch_append ho hs]
        exact hds.append hd
      · rw [Packed.buildAll_append, Derivation.buildAll_append, hdsv]
        simp [Packed.buildAll, Derivation.buildAll, hdv]

theorem ways_sound {a : Ambiguity} (ha : a ≠ .explicit) (b : Goal) :
    Ensures (SoundFindings g.rules stands w) (c.ways a (c.part solve) (fun x => Way.mk x.2) b) fun ways =>
      ways ≠ [] → PacksTree g.rules stands w (.nonterminal b.name) b.start b.stop (.node ways) := by
  have hfirst : Ensures (SoundFindings g.rules stands w)
      (Search.first (fun x => do
        return (← c.firstSequence (c.part solve) x.1 b.start x.2.symbols.reverse b.stop).map (Way.mk x.2))
        (c.candidates b))
      fun r => ∀ way, r = some way →
        PacksTree g.rules stands w (.nonterminal b.name) b.start b.stop (.node [way]) := by
    refine .first (fun _ hp => nomatch hp) fun ⟨i, r⟩ hi => ?_
    obtain ⟨hn, hr, -⟩ := h.complete_of_mem_candidates hi
    refine .bind (h.firstSequence_sound hsolve i b.start r.symbols.reverse b.stop) fun qs hqs => .pure fun way hw => ?_
    obtain ⟨ps, rfl, rfl⟩ := Option.map_eq_some_iff.1 hw
    obtain ⟨ds, hds, hdsv⟩ := hqs ps rfl
    rw [List.reverse_reverse] at hds
    refine ⟨.node i ds, hn ▸ .of_rule hr hds, fun a => ?_⟩
    rw [build_single, hdsv, Derivation.build, Actions.atPlace_eq hr]
  cases a with
  | explicit => exact absurd rfl ha
  | resolve | forest =>
    refine .bind hfirst fun r hr => .pure fun hne => ?_
    cases r with
    | none => exact absurd rfl hne
    | some way => exact hr way rfl

end Sequence

/-- Where one derivation is kept, what a search finds packs a tree of its goal. -/
theorem solve_sound {a : Ambiguity} (ha : a ≠ .explicit) : ∀ (fuel : Nat) (active : List Goal) (b : Goal),
    Ensures (SoundFindings g.rules stands w) (c.solve a fuel active b)
      fun r => ∀ p, r = some p → PacksTree g.rules stands w (.nonterminal b.name) b.start b.stop p :=
  solve_fulfils fun _ hsolve b => h.ways_sound hsolve ha b

/-- The derivation that is read off a chart has the value of a tree of the start symbol over all tokens. -/
theorem derivation?_sound {a : Ambiguity} (ha : a ≠ .explicit) {name : String} {p : Packed}
    (hp : c.derivation? a name = some p) :
    ∃ d, Trees g.rules stands [.nonterminal name] w [d] ∧ ∀ a : Actions, p.build a = d.build (a.atPlace g.rules) := by
  have hsound := (h.solve_sound ha (c.goalCount + 1) [] ⟨name, 0, c.stop⟩ [] fun _ _ hp => nomatch hp).2 p hp
  rw [PacksTree, h.stop_eq, stretch_all] at hsound
  exact hsound

end Records

end Chart

end Earley

end GrammarKit
