/-
Charts that mirror one another. A search for derivations sees where a chart has tokens, but not which ones. So on a
chart that differs in its tokens alone the same goals are finished in the same ways, and the derivation that is read off
is the same with other tokens in it.
-/
import GrammarKit.Proofs.Earley.Assembly
import GrammarKit.Proofs.Grammar.Sets

namespace GrammarKit.Earley

/-! ## Tokens of packed derivations -/

mutual

/-- A packed derivation with its tokens changed. -/
def Packed.mapTokens (f : Token → Token) : Packed → Packed
  | .token t => .token (f t)
  | .node ways => .node (Way.mapTokensAll f ways)

def Way.mapTokens (f : Token → Token) : Way → Way
  | .mk r parts => .mk r (Packed.mapTokensAll f parts)

def Way.mapTokensAll (f : Token → Token) : List Way → List Way
  | [] => []
  | w :: ws => w.mapTokens f :: Way.mapTokensAll f ws

def Packed.mapTokensAll (f : Token → Token) : List Packed → List Packed
  | [] => []
  | p :: ps => p.mapTokens f :: Packed.mapTokensAll f ps

end

theorem Way.mapTokensAll_eq_map (f : Token → Token) : ∀ ws : List Way, Way.mapTokensAll f ws = ws.map (Way.mapTokens f)
  | [] => rfl
  | w :: ws => by rw [Way.mapTokensAll, Way.mapTokensAll_eq_map f ws, List.map_cons]

theorem Packed.mapTokensAll_eq_map (f : Token → Token) : ∀ ps : List Packed,
    Packed.mapTokensAll f ps = ps.map (Packed.mapTokens f)
  | [] => rfl
  | p :: ps => by rw [Packed.mapTokensAll, Packed.mapTokensAll_eq_map f ps, List.map_cons]

mutual

@[simp] theorem Packed.mapTokens_id : ∀ p : Packed, p.mapTokens id = p
  | .token t => by rw [Packed.mapTokens, id]
  | .node ways => by rw [Packed.mapTokens, Way.mapTokensAll_id ways]

theorem Way.mapTokens_id : ∀ w : Way, w.mapTokens id = w
  | .mk r parts => by rw [Way.mapTokens, Packed.mapTokensAll_id parts]

theorem Way.mapTokensAll_id : ∀ ws : List Way, Way.mapTokensAll id ws = ws
  | [] => by rw [Way.mapTokensAll]
  | w :: ws => by rw [Way.mapTokensAll, Way.mapTokens_id w, Way.mapTokensAll_id ws]

theorem Packed.mapTokensAll_id : ∀ ps : List Packed, Packed.mapTokensAll id ps = ps
  | [] => by rw [Packed.mapTokensAll]
  | p :: ps => by rw [Packed.mapTokensAll, Packed.mapTokens_id p, Packed.mapTokensAll_id ps]

end

/-- What was found for goals, with its tokens changed. -/
def Findings.mapTokens (f : Token → Token) (F : Findings) : Findings :=
  F.map fun x => (x.1, x.2.map (Packed.mapTokens f))

/-! ## Charts from which the same derivations are read off -/

open Search

theorem Search.first_congr {m : Type → Type} [Monad m] {α β : Type} {f g : α → m (Option β)} : ∀ {l : List α},
    (∀ a ∈ l, f a = g a) → first f l = first g l
  | [], _ => rfl
  | a :: l, h => by
    rw [first, first, h a (List.mem_cons_self ..), first_congr fun x hx => h x (List.mem_cons_of_mem _ hx)]

theorem Search.all_congr {m : Type → Type} [Monad m] {α β : Type} {f g : α → m (List β)} : ∀ {l : List α},
    (∀ a ∈ l, f a = g a) → all f l = all g l
  | [], _ => rfl
  | a :: l, h => by
    rw [all, all, h a (List.mem_cons_self ..), all_congr fun x hx => h x (List.mem_cons_of_mem _ hx)]

namespace Chart

/-- Two charts agree on all that derivations are read off from, except that tokens are changed. -/
structure Mirrors (f : Token → Token) (c d : Chart) : Prop where
  stop : d.stop = c.stop
  tokens : ∀ j k a, d.token? j k a = (c.token? j k a).map f
  ends : d.ends = c.ends
  candidates : d.candidates = c.candidates
  completed : ∀ k n j, (d.completed k n j).isEmpty = (c.completed k n j).isEmpty
  contains : ∀ g, ∀ x ∈ c.candidates g, ∀ k dot j, d.contains k ⟨⟨x.1, dot⟩, j⟩ = c.contains k ⟨⟨x.1, dot⟩, j⟩
  goalCount : c.goalCount ≤ d.goalCount

namespace Mirrors

variable {f : Token → Token} {c d : Chart} (h : Mirrors f c d)
include h

theorem link_eq (F : Finished) (active : List Goal) : d.link F active = c.link F active := by
  funext s j k
  cases s with
  | terminal n => rw [link, link, h.tokens, Option.isSome_map]
  | nonterminal n => simp only [link, h.completed]

theorem joins_eq : d.joins = c.joins := by
  funext j k
  rw [joins, joins, h.ends]

section Sequences

variable {g : Goal} {x : Nat × Rule} (hx : x ∈ c.candidates g)
include hx

theorem splits_eq (dot j stop : Nat) : d.splits ⟨⟨x.1, dot⟩, j⟩ stop = c.splits ⟨⟨x.1, dot⟩, j⟩ stop := by
  rw [splits, splits, h.ends]
  simp only [h.contains g x hx]

variable {m : Type → Type} [Monad m] {π : Type} (part : Symbol → Nat → Nat → m (Option π)) (origin : Nat)

theorem firstSequence_eq : ∀ (syms : List Symbol) (stop : Nat),
    d.firstSequence part x.1 origin syms stop = c.firstSequence part x.1 origin syms stop
  | [], stop => by rw [firstSequence, firstSequence, h.joins_eq]
  | s :: before, stop => by
    rw [firstSequence, firstSequence, h.splits_eq hx]
    simp only [firstSequence_eq before]

theorem allSequences_eq : ∀ (syms : List Symbol) (stop : Nat),
    d.allSequences part x.1 origin syms stop = c.allSequences part x.1 origin syms stop
  | [], stop => by rw [allSequences, allSequences, h.joins_eq]
  | s :: before, stop => by
    rw [allSequences, allSequences, h.splits_eq hx]
    simp only [allSequences_eq before]

end Sequences

theorem ways_eq {m : Type → Type} [Monad m] {π ω : Type} (a : Ambiguity) (part : Symbol → Nat → Nat → m (Option π))
    (way : Nat × Rule → List π → ω) (g : Goal) : d.ways a part way g = c.ways a part way g := by
  cases a with
  | explicit =>
    rw [ways, ways, h.candidates]
    exact all_congr fun x hx => by rw [h.allSequences_eq hx]
  | resolve | forest =>
    simp only [ways, h.candidates]
    rw [first_congr fun x hx => by rw [h.firstSequence_eq hx]]

theorem attempt_eq (a : Ambiguity) (F : Finished) (active : List Goal) (g : Goal) :
    d.attempt a F active g = c.attempt a F active g := by
  rw [attempt, attempt, h.link_eq, h.ways_eq]

theorem run_eq (a : Ambiguity) : ∀ (n : Nat) (s : Agenda), Agenda.run d a n s = Agenda.run c a n s
  | 0, _ => rfl
  | n + 1, s => by
    have hstep : Agenda.step d a s = Agenda.step c a s := by simp only [Agenda.step, h.attempt_eq]
    rw [Agenda.run, Agenda.run, run_eq a n, hstep]

omit h in
/-- More steps change nothing once no goal is left. -/
theorem run_of_pending_eq_nil {a : Ambiguity} : ∀ (m n : Nat) {s : Agenda}, (Agenda.run c a m s).pending = [] →
    Agenda.run c a (m + n) s = Agenda.run c a m s
  | 0, n, s, hs => by
    have hs : s.pending = [] := hs
    cases n <;> simp [Agenda.run, hs]
  | m + 1, n, s, hs => by
    rw [show m + 1 + n = m + n + 1 by omega, Agenda.run, Agenda.run]
    rw [Agenda.run] at hs
    split
    · rfl
    · rename_i hne
      rw [if_neg hne] at hs
      exact run_of_pending_eq_nil m n hs

/-- The same goals are finished in the same ways. -/
theorem ofGoal_eq_ofGoal (a : Ambiguity) (g : Goal) : Agenda.ofGoal d a g = Agenda.ofGoal c a g := by
  have hpending : (Agenda.run c a (2 * c.goalCount) { pending := [g] }).pending = [] := by
    obtain ⟨found, rest, hs, -⟩ := ofGoal_eq (c := c) a g
    exact congrArg Agenda.pending hs
  have hle := h.goalCount
  rw [Agenda.ofGoal, h.run_eq, show 2 * d.goalCount = 2 * c.goalCount + 2 * (d.goalCount - c.goalCount) by omega,
    run_of_pending_eq_nil _ _ hpending]
  rfl

section Unpack

-- the default is what stands for a link without token
variable (hf : f default = default)
include hf

theorem unpack_link (F : Findings) (l : Link) :
    Link.unpack d (Findings.mapTokens f F) l = (Link.unpack c F l).mapTokens f := by
  cases l with
  | token j k a =>
    rw [Link.unpack, Link.unpack, h.tokens, Packed.mapTokens]
    cases c.token? j k a with
    | none => exact congrArg Packed.token hf.symm
    | some t => rfl
  | goal g =>
    rw [Link.unpack, Link.unpack, Findings.mapTokens, lookup_map_snd]
    rcases F.lookup g with _ | _ | p
    · simp [Packed.mapTokens, Way.mapTokensAll]
    · simp [Packed.mapTokens, Way.mapTokensAll]
    · rfl

theorem unpack_way (F : Findings) (w : LinkedWay) :
    w.unpack d (Findings.mapTokens f F) = (w.unpack c F).mapTokens f := by
  rw [LinkedWay.unpack, LinkedWay.unpack, Way.mapTokens, Packed.mapTokensAll_eq_map, List.map_map]
  exact congrArg (Way.mk w.rule) (List.map_congr_left fun l _ => h.unpack_link hf F l)

theorem unpack_eq : ∀ F : Finished, Finished.unpack d F = Findings.mapTokens f (Finished.unpack c F)
  | [] => rfl
  | (g, found) :: F => by
    have ih := unpack_eq F
    have hways : ∀ ways : List LinkedWay, ways.map (LinkedWay.unpack d (Finished.unpack d F)) =
        Way.mapTokensAll f (ways.map (LinkedWay.unpack c (Finished.unpack c F))) := fun ways => by
      rw [Way.mapTokensAll_eq_map, List.map_map, ih]
      exact List.map_congr_left fun w _ => h.unpack_way hf _ w
    rw [Finished.unpack, Finished.unpack, Findings.mapTokens, List.map_cons]
    refine congrArg₂ List.cons (congrArg (Prod.mk g) ?_) ih
    cases found with
    | none => rfl
    | some ways => rw [Option.map_some, Option.map_some, Option.map_some, Packed.mapTokens, hways]

/-- The same derivation is read off, with its tokens changed. -/
theorem derivation?_eq (a : Ambiguity) (name : String) :
    d.derivation? a name = (c.derivation? a name).map (Packed.mapTokens f) := by
  have hwhole : d.whole name = c.whole name := by rw [whole, whole, h.stop]
  have hd := lookup_unpack_finished (c := d) a name
  have hc := lookup_unpack_finished (c := c) a name
  rw [finished, hwhole, h.ofGoal_eq_ofGoal, h.unpack_eq hf, Findings.mapTokens, lookup_map_snd] at hd
  rw [finished] at hc
  rw [hc] at hd
  exact (Option.some.inj hd).symm

end Unpack

end Mirrors

end Chart

end GrammarKit.Earley
