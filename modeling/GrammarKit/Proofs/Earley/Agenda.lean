/-
The agenda finds what nested search finds. Where an attempt needs a goal that is not finished, nested search would
derive that goal next and go on; if the attempt is made again later, it comes to the same place in the same way, since
by then more goals are finished and still none of the active ones. So an attempt that is not given up has the result of
the nested search, however often it was begun, and the goals are finished in the order in which nested search finds
them. Each goal is put on the agenda once and finished once, which bounds the number of steps.
-/
import GrammarKit.Earley.Agenda
import GrammarKit.Proofs.Earley.Completeness
import GrammarKit.Proofs.Earley.Placement

namespace GrammarKit.Earley

/-! ## Findings of finished goals -/

/-- What a link stands for, if `F` was found for goals. -/
def Link.unpack (c : Chart) (F : Findings) : Link → Packed
  | .token start stop terminal => .token ((c.token? start stop terminal).getD default)
  | .goal g => (F.lookup g).join.getD (.node [])

def LinkedWay.unpack (c : Chart) (F : Findings) (w : LinkedWay) : Way := .mk w.rule (w.links.map (Link.unpack c F))

/-- The findings of nested search for finished goals. -/
def Finished.unpack (c : Chart) : Finished → Findings
  | [] => []
  | (g, found) :: f =>
    (g, found.map fun ways => .node (ways.map (LinkedWay.unpack c (unpack c f)))) :: unpack c f

namespace Finished

variable {c : Chart}

theorem lookup_unpack_isSome (g : Goal) : ∀ f : Finished,
    ((f.unpack c).lookup g).map (·.isSome) = (f.lookup g).map (·.isSome)
  | [] => rfl
  | (h, found) :: f => by
    by_cases hgh : g = h
    · subst hgh
      simp [unpack]
    · rw [unpack, lookup_cons_of_ne hgh, lookup_cons_of_ne hgh, lookup_unpack_isSome g f]

theorem lookup_unpack_eq_none {f : Finished} {g : Goal} : (f.unpack c).lookup g = none ↔ f.lookup g = none := by
  have h := lookup_unpack_isSome (c := c) g f
  cases hf : f.lookup g <;> cases hu : (f.unpack c).lookup g <;> simp_all

theorem lookup_unpack_eq_none_none {f : Finished} {g : Goal} (h : f.lookup g = some none) :
    (f.unpack c).lookup g = some none := by
  have h' := lookup_unpack_isSome (c := c) g f
  rw [h] at h'
  obtain ⟨v, hv, hn⟩ := Option.map_eq_some_iff.1 h'
  cases v with
  | none => exact hv
  | some p => cases hn

theorem exists_lookup_unpack {f : Finished} {g : Goal} {ways : List LinkedWay} (h : f.lookup g = some (some ways)) :
    ∃ p, (f.unpack c).lookup g = some (some p) := by
  have h' := lookup_unpack_isSome (c := c) g f
  rw [h] at h'
  obtain ⟨v, hv, hn⟩ := Option.map_eq_some_iff.1 h'
  obtain ⟨p, rfl⟩ := Option.isSome_iff_exists.1 hn
  exact ⟨p, hv⟩

end Finished

/-! ## Attempts that are made again -/

/-- What may be known when a search is made again: all that was known, and no more of the active goals. -/
structure Resumes (active : List Goal) (F F' : Findings) : Prop where
  keeps : ∀ b v, F.lookup b = some v → F'.lookup b = some v
  same : ∀ b ∈ active, F'.lookup b = F.lookup b

namespace Resumes

variable {active : List Goal} {F F' F'' : Findings}

theorem refl : Resumes active F F := ⟨fun _ _ h => h, fun _ _ => rfl⟩

theorem trans (h : Resumes active F F') (k : Resumes active F' F'') : Resumes active F F'' :=
  ⟨fun b v hb => k.keeps b v (h.keeps b v hb), fun b hb => (k.same b hb).trans (h.same b hb)⟩

theorem of_cons {b : Goal} (h : Resumes (b :: active) F F') : Resumes active F F' :=
  ⟨h.keeps, fun x hx => h.same x (List.mem_cons_of_mem _ hx)⟩

theorem insert {b : Goal} (h : Resumes active F F') (hnew : F.lookup b = none) (hb : b ∉ active) (v : Option Packed) :
    Resumes active F ((b, v) :: F') := by
  refine ⟨fun x u hx => ?_, fun x hx => ?_⟩
  · have hxb : x ≠ b := by
      rintro rfl
      rw [hnew] at hx
      cases hx
    rw [lookup_cons_of_ne hxb]
    exact h.keeps x u hx
  · have hxb : x ≠ b := by
      rintro rfl
      exact hb hx
    rw [lookup_cons_of_ne hxb]
    exact h.same x hx

end Resumes

/-- Nested search of goals inside the active ones. -/
structure Nested (active : List Goal) (solve : Goal → Search (Option Packed)) : Prop where
  known : ∀ b v F, F.lookup b = some v → solve b F = (v, F)
  cut : ∀ b F, F.lookup b = none → b ∈ active → solve b F = (none, F)
  found : ∀ b F, F.lookup b = none → b ∉ active → (solve b F).2.lookup b = some (solve b F).1
  resumes : ∀ b F, Resumes active F (solve b F).2

namespace Chart

variable {c : Chart} {a : Ambiguity}

/-- What the derivation of every goal keeps is kept by the search for ways. -/
theorem ways_keeps {I : Findings → Prop} {solve : Goal → Search (Option Packed)}
    (hsolve : ∀ b F, I F → I (solve b F).2) {ω : Type} (way : Nat × Rule → List Packed → ω) (b : Goal) (F : Findings)
    (hF : I F) : I (c.ways a (c.part solve) way b F).2 := by
  refine (ways_placed (Search.assures I) (R := fun _ _ _ _ => True) (fun s j k => ?_) a way b F hF).1
  unfold part
  split
  · exact .pure fun _ _ => trivial
  · split
    · exact .pure fun _ _ => trivial
    · exact fun F hF => ⟨hsolve _ F hF, fun _ _ => trivial⟩

theorem solve_resumes : ∀ (fuel : Nat) (active : List Goal) (b : Goal) (F : Findings),
    Resumes active F (c.solve a fuel active b F).2
  | 0, _, _, _ => .refl
  | fuel + 1, active, b, F => by
    rw [solve_succ]
    cases hb : F.lookup b with
    | some known => exact .refl
    | none =>
      by_cases hm : b ∈ active
      · simp only [List.contains_eq_mem, hm, decide_true, if_true]
        exact .refl
      · simp only [List.contains_eq_mem, hm, decide_false, Bool.false_eq_true, if_false]
        refine .insert (Resumes.of_cons (b := b) ?_) hb hm _
        exact ways_keeps (I := Resumes (b :: active) F) (fun b' F' hF' =>
          hF'.trans (solve_resumes fuel (b :: active) b' F')) _ b F .refl

theorem solve_nested (fuel : Nat) (active : List Goal) : Nested active (c.solve a (fuel + 1) active) where
  known b v F h := by rw [solve_succ, h]
  cut b F h hb := by rw [solve_succ, h]; simp [hb]
  found b F h hb := by rw [solve_succ, h]; simp [hb]
  resumes := solve_resumes (fuel + 1) active

/-- A goal that the derivation of others may depend on. -/
def HasGoal (c : Chart) (b : Goal) : Prop := c.Covers b ∧ b.start < c.columns.length

theorem lt_length_of_covers {b : Goal} (h : c.Covers b) : b.stop < c.columns.length := by
  by_contra hlt
  exact h (by rw [completed, column_eq_nil (by omega)]; rfl)

theorem lt_length_of_mem_column {m : Nat} {i : Item} (h : i ∈ c.column m) : m < c.columns.length := by
  by_contra hlt
  rw [column_eq_nil (by omega)] at h
  cases h

/-- An attempt does what nested search does. Its result is the one of the nested search, whatever else is found by
then; and where it throws a goal, that goal is new, and nested search does the same if the goal is derived first. -/
structure Follows (c : Chart) {α β : Type} (F : Findings) (active : List Goal) (solve : Goal → Search (Option Packed))
    (x : Except Goal α) (y : Search β) (f : α → β) : Prop where
  result : ∀ r, x = .ok r → ∀ F', Resumes active F F' → y F' = (f r, F')
  thrown : ∀ b, x = .error b → c.HasGoal b ∧ F.lookup b = none ∧ b ∉ active ∧ y F = y (solve b F).2

namespace Follows

variable {F : Findings} {active : List Goal} {solve : Goal → Search (Option Packed)} {α β γ δ : Type}

theorem pure {f : α → β} {r : α} {r' : β} (h : f r = r') : c.Follows F active solve (Pure.pure r) (Pure.pure r') f := by
  refine ⟨fun s hs F' _ => ?_, fun b hb => nomatch hb⟩
  cases hs
  rw [h]
  rfl

section

variable (hsolve : ∀ b F, Resumes active F (solve b F).2)
include hsolve

theorem bind {x : Except Goal α} {y : Search β} {f : α → β} {k : α → Except Goal γ} {l : β → Search δ} {g : γ → δ}
    (h : c.Follows F active solve x y f) (hk : ∀ r, c.Follows F active solve (k r) (l (f r)) g) :
    c.Follows F active solve (x >>= k) (y >>= l) g := by
  cases x with
  | error b =>
    refine ⟨fun _ h => (nomatch h), fun b' hb => ?_⟩
    cases hb
    obtain ⟨h1, h2, h3, heq⟩ := h.thrown b rfl
    exact ⟨h1, h2, h3, by rw [Search.run_bind, Search.run_bind, heq]⟩
  | ok r =>
    have hy := h.result r rfl
    refine ⟨fun r' hr F' hF => ?_, fun b hb => ?_⟩
    · rw [Search.run_bind, hy F' hF]
      exact (hk r).result r' hr F' hF
    · obtain ⟨h1, h2, h3, heq⟩ := (hk r).thrown b hb
      refine ⟨h1, h2, h3, ?_⟩
      rw [Search.run_bind, Search.run_bind, hy F .refl, hy _ (hsolve b F)]
      exact heq

theorem onFound {x : Except Goal (Option α)} {y : Search (Option β)} {f : α → β} {missing : γ} {missing' : δ}
    {k : α → Except Goal γ} {l : β → Search δ} {g : γ → δ} (h : c.Follows F active solve x y (Option.map f))
    (hm : g missing = missing') (hk : ∀ r, c.Follows F active solve (k r) (l (f r)) g) :
    c.Follows F active solve (Search.onFound x missing k) (Search.onFound y missing' l) g :=
  .bind hsolve h fun r => match r with
    | none => .pure hm
    | some r => hk r

theorem first {p : γ → Except Goal (Option α)} {q : γ → Search (Option β)} {f : α → β} : ∀ {l : List γ},
    (∀ a ∈ l, c.Follows F active solve (p a) (q a) (Option.map f)) →
      c.Follows F active solve (Search.first p l) (Search.first q l) (Option.map f)
  | [], _ => .pure rfl
  | a :: _, h => .bind hsolve (h a (List.mem_cons_self ..)) fun r => match r with
    | none => first fun x hx => h x (List.mem_cons_of_mem _ hx)
    | some _ => .pure rfl

theorem all {p : γ → Except Goal (List α)} {q : γ → Search (List β)} {f : α → β} : ∀ {l : List γ},
    (∀ a ∈ l, c.Follows F active solve (p a) (q a) (List.map f)) →
      c.Follows F active solve (Search.all p l) (Search.all q l) (List.map f)
  | [], _ => .pure rfl
  | a :: _, h => .bind hsolve (h a (List.mem_cons_self ..)) fun _ =>
      .bind hsolve (all fun x hx => h x (List.mem_cons_of_mem _ hx)) fun _ => .pure List.map_append

end

end Follows

section Attempt

variable {active : List Goal} {solve : Goal → Search (Option Packed)} (hsolve : Nested active solve) (f : Finished)
include hsolve

theorem link_follows (s : Symbol) {j : Nat} (hj : j < c.columns.length) (k : Nat) :
    c.Follows (f.unpack c) active solve (c.link f active s j k) (c.part solve s j k)
      (Option.map (Link.unpack c (f.unpack c))) := by
  cases s with
  | terminal n =>
    refine .pure ?_
    cases ht : c.token? j k n with
    | none => rfl
    | some t => simp [Link.unpack, ht]
  | nonterminal n =>
    simp only [link, part]
    by_cases hempty : (c.completed k n j).isEmpty = true
    · simp only [hempty, if_true]
      exact .pure rfl
    simp only [hempty, Bool.false_eq_true, if_false]
    have hgoal : c.HasGoal ⟨n, j, k⟩ := ⟨fun h => hempty (by rw [h]; rfl), hj⟩
    rcases hf : f.lookup ⟨n, j, k⟩ with _ | _ | ways
    · have hu := (Finished.lookup_unpack_eq_none (c := c)).2 hf
      simp only [hf]
      by_cases hact : (⟨n, j, k⟩ : Goal) ∈ active
      · simp only [List.contains_eq_mem, hact, decide_true, if_true]
        refine ⟨fun r hr F' hF => ?_, fun _ h => by cases h⟩
        cases hr
        exact hsolve.cut _ F' (by rw [hF.same _ hact, hu]) hact
      · simp only [List.contains_eq_mem, hact, decide_false, Bool.false_eq_true, if_false]
        refine ⟨fun _ h => (by cases h), fun b hb => ?_⟩
        cases hb
        refine ⟨hgoal, hu, hact, ?_⟩
        rw [hsolve.known _ _ _ (hsolve.found _ _ hu hact)]
        rfl
    · have hu := Finished.lookup_unpack_eq_none_none (c := c) hf
      simp only [hf]
      refine ⟨fun r hr F' hF => ?_, fun _ h => by cases h⟩
      cases hr
      exact hsolve.known _ _ F' (hF.keeps _ _ hu)
    · obtain ⟨p, hu⟩ := Finished.exists_lookup_unpack (c := c) hf
      simp only [hf]
      refine ⟨fun r hr F' hF => ?_, fun _ h => by cases h⟩
      cases hr
      rw [hsolve.known _ _ F' (hF.keeps _ _ hu), Option.map_some, Link.unpack, hu]
      rfl

theorem firstSequence_follows (rule origin : Nat) : ∀ (syms : List Symbol) (stop : Nat),
    c.Follows (f.unpack c) active solve (c.firstSequence (c.link f active) rule origin syms stop)
      (c.firstSequence (c.part solve) rule origin syms stop) (Option.map (List.map (Link.unpack c (f.unpack c))))
  | [], stop => by
    refine .pure ?_
    split <;> rfl
  | s :: before, stop => .first hsolve.resumes fun x hx => by
    obtain ⟨-, -, -, hm⟩ := mem_splits.1 hx
    refine .onFound hsolve.resumes (link_follows hsolve f s (lt_length_of_mem_column hm) x.2) rfl fun l => ?_
    refine .bind hsolve.resumes (firstSequence_follows rule origin before x.1) fun r => .pure ?_
    cases r <;> simp

theorem allSequences_follows (rule origin : Nat) : ∀ (syms : List Symbol) (stop : Nat),
    c.Follows (f.unpack c) active solve (c.allSequences (c.link f active) rule origin syms stop)
      (c.allSequences (c.part solve) rule origin syms stop) (List.map (List.map (Link.unpack c (f.unpack c))))
  | [], stop => by
    refine .pure ?_
    split <;> rfl
  | s :: before, stop => .all hsolve.resumes fun x hx => by
    obtain ⟨-, -, -, hm⟩ := mem_splits.1 hx
    refine .onFound hsolve.resumes (link_follows hsolve f s (lt_length_of_mem_column hm) x.2) rfl fun l => ?_
    refine .bind hsolve.resumes (allSequences_follows rule origin before x.1) fun lss => .pure ?_
    simp

/-- The ways that are found in an attempt are those of the nested search. -/
theorem ways_follows (b : Goal) :
    c.Follows (f.unpack c) active solve (c.ways a (c.link f active) (fun x links => LinkedWay.mk x.1 x.2 links) b)
      (c.ways a (c.part solve) (fun x => Way.mk x.2) b) (List.map (LinkedWay.unpack c (f.unpack c))) := by
  cases a with
  | explicit =>
    refine .all hsolve.resumes fun x _ => ?_
    refine .bind hsolve.resumes (allSequences_follows hsolve f x.1 b.start x.2.symbols.reverse b.stop) fun lss => ?_
    exact .pure (by simp [LinkedWay.unpack])
  | resolve | forest =>
    refine .bind hsolve.resumes (f := Option.map (LinkedWay.unpack c (f.unpack c)))
      (.first hsolve.resumes fun x _ => ?_) fun r => .pure (by cases r <;> rfl)
    refine .bind hsolve.resumes (firstSequence_follows hsolve f x.1 b.start x.2.symbols.reverse b.stop) fun r => ?_
    exact .pure (by cases r <;> rfl)

end Attempt

/-! ## Runs of the agenda -/

/-- Different goals that a search for the root may come to. -/
structure Goals (c : Chart) (root : Goal) (gs : List Goal) : Prop where
  nodup : gs.Nodup
  inside : ∀ b ∈ gs, c.HasGoal b ∨ b = root

theorem Goals.length_le {root : Goal} {gs : List Goal} (h : c.Goals root gs) : gs.length ≤ c.goalCount := by
  let bound : List Goal := root :: c.grammar.rules.flatMap fun r => (List.range c.columns.length).flatMap fun j =>
    (List.range c.columns.length).map fun k => ⟨r.origin, j, k⟩
  have hsub : ∀ b ∈ gs, b ∈ bound := by
    intro b hb
    rcases h.inside b hb with ⟨hc, hj⟩ | rfl
    · obtain ⟨i, hi⟩ := List.exists_mem_of_ne_nil _ hc
      obtain ⟨r, hr, hn, -⟩ := ChartRules.mem_completed.1 hi
      exact List.mem_cons_of_mem _ (List.mem_flatMap.2 ⟨r, List.mem_of_getElem? hr, List.mem_flatMap.2 ⟨b.start,
        List.mem_range.2 hj, List.mem_map.2 ⟨b.stop, List.mem_range.2 (lt_length_of_covers hc), by rw [hn]⟩⟩⟩)
    · exact List.mem_cons_self ..
  have hle := (List.subperm_of_subset h.nodup hsub).length_le
  have hlen : bound.length = c.goalCount := by simp [bound, goalCount, List.length_flatMap]
  rwa [hlen] at hle

end Chart

/-- The finished goals with a derivation, the first one first. -/
def Finished.completed : Finished → List Goal
  | [] => []
  | (g, found) :: f => completed f ++ if found.isSome then [g] else []

namespace Chart

variable {c : Chart} {a : Ambiguity}

theorem attempt_eq_ok {f : Finished} {active : List Goal} {b : Goal} {found : Option (List LinkedWay)}
    (h : c.attempt a f active b = .ok found) :
    ∃ ws, c.ways a (c.link f active) (fun x links => LinkedWay.mk x.1 x.2 links) b = .ok ws ∧
      found = if ws.isEmpty then none else some ws := by
  unfold attempt at h
  cases hw : c.ways a (c.link f active) (fun x links => LinkedWay.mk x.1 x.2 links) b with
  | error e => rw [hw] at h; cases h
  | ok ws => rw [hw] at h; cases h; exact ⟨ws, rfl, rfl⟩

theorem attempt_eq_error {f : Finished} {active : List Goal} {b b' : Goal}
    (h : c.attempt a f active b = .error b') :
    c.ways a (c.link f active) (fun x links => LinkedWay.mk x.1 x.2 links) b = .error b' := by
  unfold attempt at h
  cases hw : c.ways a (c.link f active) (fun x links => LinkedWay.mk x.1 x.2 links) b with
  | error e => rw [hw] at h; cases h; rfl
  | ok ws => rw [hw] at h; cases h

/-- A search that is not given up is a step of the agenda. -/
theorem step_of_ok {f : Finished} {active act : List Goal} {b : Goal} {found : Option (List LinkedWay)}
    (hb : f.lookup b = none) (hact : act.insert b = b :: active) (h : c.attempt a f (b :: active) b = .ok found)
    (waiting : List Goal) : Agenda.step c a ⟨b :: waiting, act, f, f.completed⟩ =
      ⟨waiting, active, (b, found) :: f, Finished.completed ((b, found) :: f)⟩ := by
  simp only [Agenda.step, hb, Option.isSome_none, Bool.false_eq_true, if_false, hact, h, List.erase_cons_head,
    Finished.completed]
  cases found <;> simp

theorem step_of_error {f : Finished} {active act : List Goal} {b b' : Goal}
    (hb : f.lookup b = none) (hact : act.insert b = b :: active) (h : c.attempt a f (b :: active) b = .error b')
    (waiting : List Goal) : Agenda.step c a ⟨b :: waiting, act, f, f.completed⟩ =
      ⟨b' :: b :: waiting, b :: active, f, f.completed⟩ := by
  simp only [Agenda.step, hb, Option.isSome_none, Bool.false_eq_true, if_false, hact, h]

theorem run_succ {s : Agenda} {b : Goal} {waiting : List Goal} (h : s.pending = b :: waiting) (n : Nat) :
    Agenda.run c a (n + 1) s = Agenda.run c a n (s.step c a) := by
  rw [Agenda.run, h]
  rfl

theorem lookup_eq_none_iff {f : Finished} {b : Goal} : f.lookup b = none ↔ b ∉ f.map (·.1) := by
  rw [List.lookup_eq_none_iff, List.mem_map]
  constructor
  · rintro h ⟨x, hx, rfl⟩
    simpa using h x hx
  · intro h x hx
    rw [bne_iff_ne]
    rintro rfl
    exact h ⟨x, hx, rfl⟩

theorem solve_new {active : List Goal} {b : Goal} {F : Findings} (fuel : Nat) (hF : F.lookup b = none)
    (hb : b ∉ active) : c.solve a (fuel + 1) active b F =
      let r := c.ways a (c.part (c.solve a fuel (b :: active))) (fun x => .mk x.2) b F
      let found := if r.1.isEmpty then none else some (Packed.node r.1)
      (found, (b, found) :: r.2) := by
  rw [solve_succ, hF]
  simp [hb]

section Solve

variable {f : Finished} {active : List Goal} {b : Goal} (hf : f.lookup b = none) (hb : b ∉ active)
include hf hb

/-- Nested search finds what an attempt finds. -/
theorem solve_of_ok (fuel : Nat) {found : Option (List LinkedWay)} (h : c.attempt a f (b :: active) b = .ok found) :
    (c.solve a (fuel + 2) active b (f.unpack c)).2 = Finished.unpack c ((b, found) :: f) := by
  obtain ⟨ws, hws, rfl⟩ := attempt_eq_ok h
  have hsolve := solve_nested (c := c) (a := a) fuel (b :: active)
  have hr := (ways_follows hsolve f b).result ws hws _ .refl
  rw [solve_new _ (Finished.lookup_unpack_eq_none.2 hf) hb, hr]
  cases ws <;> rfl

/-- Where an attempt throws a goal, nested search does the same as if the goal is derived first. -/
theorem solve_of_error (fuel : Nat) {b' : Goal} (h : c.attempt a f (b :: active) b = .error b') :
    c.HasGoal b' ∧ f.lookup b' = none ∧ b' ∉ b :: active ∧ ∀ f' : Finished, f'.lookup b = none →
      f'.unpack c = (c.solve a (fuel + 1) (b :: active) b' (f.unpack c)).2 →
      c.solve a (fuel + 2) active b (f.unpack c) = c.solve a (fuel + 2) active b (f'.unpack c) := by
  have hsolve := solve_nested (c := c) (a := a) fuel (b :: active)
  obtain ⟨hgoal, hu, hb', heq⟩ := (ways_follows hsolve f b).thrown b' (attempt_eq_error h)
  refine ⟨hgoal, Finished.lookup_unpack_eq_none.1 hu, hb', fun f' hf' hu' => ?_⟩
  rw [solve_new _ (Finished.lookup_unpack_eq_none.2 hf) hb, solve_new _ (Finished.lookup_unpack_eq_none.2 hf') hb,
    hu', heq]

end Solve

/-- The agenda finishes the goal at hand with everything that it depends on, in the order of the nested search and
with two steps for each goal, and goes on with the goals that wait. -/
theorem run_goal (root : Goal) (n : Nat) : ∀ (f : Finished) (active : List Goal) (b : Goal),
    c.Goals root (b :: (active ++ f.map (·.1))) → n + active.length + f.length = c.goalCount →
    ∃ found new, (c.solve a (c.goalCount + 1 - active.length) active b (f.unpack c)).2 =
        Finished.unpack c ((b, found) :: (new ++ f)) ∧
      c.Goals root (active ++ ((b, found) :: (new ++ f)).map (·.1)) ∧
      ∀ act waiting m, act.insert b = b :: active →
        Agenda.run c a (2 * new.length + 1 + m) ⟨b :: waiting, act, f, f.completed⟩ =
          Agenda.run c a m
            ⟨waiting, active, (b, found) :: (new ++ f), Finished.completed ((b, found) :: (new ++ f))⟩ := by
  induction n using Nat.strongRecOn with
  | ind n ih =>
    intro f active b hgoals hn
    have hle := hgoals.length_le
    simp only [List.length_cons, List.length_append, List.length_map] at hle
    obtain ⟨k, hk⟩ : ∃ k, c.goalCount + 1 - active.length = k + 2 := ⟨c.goalCount - active.length - 1, by omega⟩
    obtain ⟨hnew, hnodup⟩ := List.nodup_cons.1 hgoals.nodup
    rw [List.mem_append, not_or] at hnew
    have hlook := lookup_eq_none_iff.2 hnew.2
    have hperm : (active ++ b :: f.map (·.1)).Perm (b :: (active ++ f.map (·.1))) := List.perm_middle
    rw [hk]
    rcases hatt : c.attempt a f (b :: active) b with b' | found
    · -- the goal that is needed is finished first, and then the goal at hand is attempted again
      obtain ⟨hgoal, hlook', hb', hagain⟩ := solve_of_error hlook hnew.1 k hatt
      have hgoals' : c.Goals root (b' :: (b :: active ++ f.map (·.1))) := by
        refine ⟨List.nodup_cons.2 ⟨fun hm => ?_, hgoals.nodup⟩, fun x hx => ?_⟩
        · exact (List.mem_append.1 hm).elim hb' (lookup_eq_none_iff.1 hlook')
        · rcases List.mem_cons.1 hx with rfl | hx
          exacts [.inl hgoal, hgoals.inside x hx]
      obtain ⟨found', new', hu', hg', hrun'⟩ := ih (n - 1) (by omega) f (b :: active) b' hgoals'
        (by simp only [List.length_cons]; omega)
      have hk' : c.goalCount + 1 - (b :: active).length = k + 1 := by simp only [List.length_cons]; omega
      rw [hk'] at hu'
      have hlen := hg'.length_le
      simp only [List.length_cons, List.length_append, List.length_map, List.map_cons, List.map_append] at hlen
      obtain ⟨found, new, hu, hg, hrun⟩ := ih (n - (new'.length + 1)) (by omega) ((b', found') :: (new' ++ f)) active b
        hg' (by simp only [List.length_cons, List.length_append]; omega)
      rw [hk] at hu
      refine ⟨found, new ++ (b', found') :: new', ?_, ?_, fun act waiting m hact => ?_⟩
      · have hb := (List.nodup_cons.1 hg'.nodup).1
        rw [hagain _ (lookup_eq_none_iff.2 fun hm => hb (List.mem_append_right _ hm)) hu'.symm, hu]
        simp
      · simpa using hg
      · have hsteps : 2 * (new ++ (b', found') :: new').length + 1 + m =
            (2 * new'.length + 1 + (2 * new.length + 1 + m)) + 1 := by
          simp only [List.length_append, List.length_cons]; omega
        rw [hsteps, run_succ rfl, step_of_error hlook hact hatt, hrun' _ _ _ (List.insert_of_not_mem hb'),
          hrun _ _ _ (List.insert_of_mem (List.mem_cons_self ..))]
        simp
    · refine ⟨found, [], solve_of_ok hlook hnew.1 k hatt, ?_, fun act waiting m hact => ?_⟩
      · exact ⟨hperm.nodup_iff.2 hgoals.nodup, fun x hx => hgoals.inside x (hperm.subset hx)⟩
      · rw [List.length_nil, Nat.mul_zero, Nat.zero_add, Nat.add_comm, run_succ rfl, step_of_ok hlook hact hatt]
        rfl

/-- The agenda of a goal ends: in the given number of steps nothing is left on it, and what it finished is what nested
search finds. -/
theorem ofGoal_eq (a : Ambiguity) (root : Goal) : ∃ found rest,
    Agenda.ofGoal c a root = ⟨[], [], (root, found) :: rest, Finished.completed ((root, found) :: rest)⟩ ∧
    (((root, found) :: rest).map (·.1)).Nodup ∧
    (c.solve a (c.goalCount + 1) [] root []).2 = Finished.unpack c ((root, found) :: rest) := by
  have hroot : c.Goals root [root] := ⟨List.nodup_singleton _, by simp⟩
  obtain ⟨found, rest, hsolve, hgoals, hrun⟩ := run_goal (c := c) (a := a) root c.goalCount [] [] root hroot rfl
  simp only [List.append_nil] at hsolve hrun
  rw [List.nil_append, List.append_nil] at hgoals
  have hlen := hgoals.length_le
  rw [List.length_map, List.length_cons] at hlen
  refine ⟨found, rest, ?_, hgoals.nodup, hsolve⟩
  have hrun := hrun [] [] (2 * c.goalCount - (2 * rest.length + 1)) rfl
  rw [Nat.add_sub_cancel' (by omega)] at hrun
  refine Eq.trans hrun ?_
  cases 2 * c.goalCount - (2 * rest.length + 1) <;> rfl

/-! ## Ways of finished goals -/

/-- What stands for a symbol over a stretch, where goals are finished. -/
inductive Fits (c : Chart) (f : Finished) : Symbol → Nat → Nat → Link → Prop
  | token {n : String} {j k : Nat} (h : (c.token? j k n).isSome = true) : Fits c f (.terminal n) j k (.token j k n)
  | goal {n : String} {j k : Nat} {ways : List LinkedWay} (h : f.lookup ⟨n, j, k⟩ = some (some ways)) :
    Fits c f (.nonterminal n) j k (.goal ⟨n, j, k⟩)

theorem link_fits {f : Finished} {active : List Goal} {s : Symbol} {j k : Nat} {l : Link}
    (h : c.link f active s j k = .ok (some l)) : c.Fits f s j k l := by
  cases s with
  | terminal n =>
    rw [link] at h
    by_cases ht : (c.token? j k n).isSome = true
    · rw [if_pos ht] at h
      cases h
      exact .token ht
    · rw [if_neg ht] at h
      cases h
  | nonterminal n =>
    simp only [link] at h
    split at h
    · cases h
    · split at h
      · rename_i ways hw
        cases h
        exact .goal hw
      · cases h
      · split at h <;> cases h

/-- The ways of a goal are candidates over what was finished before it, and only one is kept unless all are. -/
structure MadeOf (c : Chart) (a : Ambiguity) (f : Finished) (g : Goal) (ways : List LinkedWay) : Prop where
  ne_nil : ways ≠ []
  way : ∀ w ∈ ways, (w.index, w.rule) ∈ c.candidates g ∧ c.Placed (c.Fits f) w.rule.symbols g.start g.stop w.links
  single : a ≠ .explicit → ∃ w, ways = [w]

theorem attempt_madeOf {f : Finished} {active : List Goal} {g : Goal} {ways : List LinkedWay}
    (h : c.attempt a f active g = .ok (some ways)) : c.MadeOf a f g ways := by
  obtain ⟨ws, hws, hsome⟩ := attempt_eq_ok h
  obtain ⟨hne, rfl⟩ : ws ≠ [] ∧ ws = ways := by
    split at hsome
    · cases hsome
    · rename_i hne
      exact ⟨by simpa using hne, (Option.some.inj hsome).symm⟩
  have hplaced := ways_placed assures_ok (R := c.Fits f)
    (fun s j k r (hr : c.link f active s j k = .ok r) l hl => link_fits (hl ▸ hr)) a
    (fun x links => LinkedWay.mk x.1 x.2 links) g ws hws
  refine ⟨hne, fun w hw => ?_, fun ha => ?_⟩
  · obtain ⟨x, hx, links, rfl, hl⟩ := hplaced w hw
    exact ⟨hx, hl⟩
  · have htoList : ∃ o : Option LinkedWay, ws = o.toList := by
      cases a with
      | explicit => exact absurd rfl ha
      | resolve | forest =>
        simp only [Chart.ways] at hws
        cases hf : Search.first (fun x => do
          return (← c.firstSequence (c.link f active) x.1 g.start x.2.symbols.reverse g.stop).map
            (LinkedWay.mk x.1 x.2)) (c.candidates g) with
        | error e => rw [hf] at hws; cases hws
        | ok o => rw [hf] at hws; cases hws; exact ⟨o, rfl⟩
    obtain ⟨_ | w, rfl⟩ := htoList
    · exact absurd rfl hne
    · exact ⟨w, rfl⟩

/-- Every goal was finished with ways over goals that were finished before. -/
def Grounded (c : Chart) (a : Ambiguity) : Finished → Prop
  | [] => True
  | (g, found) :: f => (∀ ways, found = some ways → c.MadeOf a f g ways) ∧ Grounded c a f

theorem grounded_step {s : Agenda} (h : c.Grounded a s.finished) : c.Grounded a (s.step c a).finished := by
  unfold Agenda.step
  split
  · exact h
  · dsimp only
    split
    · exact h
    · split
      · rename_i found hatt
        refine ⟨fun ways hw => ?_, h⟩
        subst hw
        exact attempt_madeOf hatt
      · exact h

theorem grounded_run : ∀ (n : Nat) {s : Agenda}, c.Grounded a s.finished → c.Grounded a (s.run c a n).finished
  | 0, _, h => h
  | n + 1, s, h => by
    rw [Agenda.run]
    split
    exacts [h, grounded_run n (grounded_step h)]

theorem grounded_ofGoal (a : Ambiguity) (root : Goal) : c.Grounded a (Agenda.ofGoal c a root).finished :=
  grounded_run _ trivial

end Chart

end GrammarKit.Earley
