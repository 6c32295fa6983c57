/-
Building takes every node where it is needed. The goals that are built are those that the root refers to, directly or
through others, in the order in which they were finished, so a way only refers to goals that were built before. The
uses of a goal are its references among those goals. While goals are built, the uses of each say how often it is still
referred to, and the nodes of goals with references left, and of the root, are there: no reference comes too late.
-/
import GrammarKit.Earley.Assembly
import GrammarKit.Earley.Parser
import GrammarKit.Proofs.Closure
import GrammarKit.Proofs.Earley.Agenda
import GrammarKit.Proofs.Earley.Recognition
import Mathlib.Data.List.Flatten
import Mathlib.Data.List.Perm.Basic

namespace GrammarKit.Earley

/-! ## The values that are built from packed derivations -/

theorem Packed.buildAll_eq_map (actions : Actions) : ∀ ps : List Packed,
    Packed.buildAll actions ps = ps.map (Packed.build actions)
  | [] => rfl
  | p :: ps => by rw [Packed.buildAll, Packed.buildAll_eq_map actions ps, List.map_cons]

theorem Way.buildAll_eq_map (actions : Actions) : ∀ ws : List Way,
    Way.buildAll actions ws = ws.map (Way.build actions)
  | [] => rfl
  | w :: ws => by rw [Way.buildAll, Way.buildAll_eq_map actions ws, List.map_cons]

/-! ## The findings of goals that were finished earlier -/

namespace Finished

variable {c : Chart}

/-- What is looked up behind new goals stays. -/
theorem lookup_append {α : Type} {pre f : List (Goal × α)} (hn : ((pre ++ f).map (·.1)).Nodup) {g : Goal}
    (hg : g ∈ f.map (·.1)) : (pre ++ f).lookup g = f.lookup g := by
  induction pre with
  | nil => rfl
  | cons x pre ih =>
    rw [List.cons_append, List.map_cons, List.nodup_cons] at hn
    have hgx : g ≠ x.1 := fun h => hn.1 (by rw [List.map_append, ← h]; exact List.mem_append_right _ hg)
    rw [List.cons_append, lookup_cons_of_ne hgx, ih hn.2]

theorem map_fst_unpack (f : Finished) : (f.unpack c).map (·.1) = f.map (·.1) := by
  induction f with
  | nil => rfl
  | cons x f ih => rw [unpack, List.map_cons, List.map_cons, ih]

theorem exists_unpack_append (pre f : Finished) : ∃ pre', (pre ++ f).unpack c = pre' ++ f.unpack c := by
  induction pre with
  | nil => exact ⟨[], rfl⟩
  | cons x pre ih =>
    obtain ⟨pre', h⟩ := ih
    exact ⟨_ :: pre', by rw [List.cons_append, unpack, h]; rfl⟩

theorem lookup_unpack_append {pre f : Finished} (hn : ((pre ++ f).map (·.1)).Nodup) {g : Goal}
    (hg : g ∈ f.map (·.1)) : ((pre ++ f).unpack c).lookup g = (f.unpack c).lookup g := by
  obtain ⟨pre', h⟩ := exists_unpack_append (c := c) pre f
  rw [← map_fst_unpack (c := c), h] at hn
  rw [h, lookup_append hn (by rwa [map_fst_unpack])]

theorem mem_of_lookup {α : Type} {f : List (Goal × α)} {g : Goal} {found : α} (h : f.lookup g = some found) :
    g ∈ f.map (·.1) := by
  induction f with
  | nil => cases h
  | cons x f ih =>
    by_cases hgx : g = x.1
    · exact List.mem_cons.2 (.inl hgx)
    · exact List.mem_cons_of_mem _ (ih (by rwa [lookup_cons_of_ne hgx] at h))

theorem mem_completed {f : Finished} (hn : (f.map (·.1)).Nodup) {g : Goal} :
    g ∈ f.completed ↔ ∃ ways, f.lookup g = some (some ways) := by
  induction f with
  | nil => simp [completed]
  | cons x f ih =>
    obtain ⟨h, found⟩ := x
    obtain ⟨hh, hn⟩ := List.nodup_cons.1 hn
    rw [completed, List.mem_append, ih hn]
    by_cases hgh : g = h
    · subst hgh
      have hnone : f.lookup g = none := Chart.lookup_eq_none_iff.2 hh
      cases found <;> simp [hnone]
    · rw [lookup_cons_of_ne hgh]
      cases found <;> simp [hgh]

theorem completed_subset (f : Finished) : f.completed ⊆ f.map (·.1) := by
  induction f with
  | nil => exact List.Subset.refl _
  | cons x f ih =>
    intro g hg
    obtain ⟨h, found⟩ := x
    rcases List.mem_append.1 hg with hg | hg
    · exact List.mem_cons_of_mem _ (ih hg)
    · cases found with
      | none => cases hg
      | some ways => exact List.mem_cons.2 (.inl (List.mem_singleton.1 hg))

theorem nodup_completed {f : Finished} (hn : (f.map (·.1)).Nodup) : f.completed.Nodup := by
  induction f with
  | nil => exact List.nodup_nil
  | cons x f ih =>
    obtain ⟨h, found⟩ := x
    obtain ⟨hh, hn⟩ := List.nodup_cons.1 hn
    refine List.nodup_append.2 ⟨ih hn, by cases found <;> simp, fun g hg b hb hgb => hh ?_⟩
    cases found with
    | none => cases hb
    | some ways =>
      obtain rfl := List.mem_singleton.1 hb
      exact hgb ▸ completed_subset f hg

/-- The goals with a derivation among some, in the order in which they were finished. -/
def order (needed : List Goal) (f : Finished) : List Goal := f.completed.filter needed.contains

theorem order_cons (needed : List Goal) (g : Goal) (found : Option (List LinkedWay)) (f : Finished) :
    order needed ((g, found) :: f) = f.order needed ++ if found.isSome = true ∧ g ∈ needed then [g] else [] := by
  rw [order, completed, List.filter_append]
  cases found <;> by_cases hg : g ∈ needed <;> simp [order, hg]

theorem mem_order {needed : List Goal} {f : Finished} {g : Goal} :
    g ∈ f.order needed ↔ g ∈ f.completed ∧ g ∈ needed := by
  simp [order]

/-- The root and the goals that it refers to, directly or through others. -/
def needed (f : Finished) (root : Goal) : List Goal := reachable f.references f.length [root]

/-- The value of a link to what was finished. -/
def value (c : Chart) (actions : Actions) (f : Finished) (l : Link) : Child := (l.unpack c (f.unpack c)).build actions

/-- The calls that are to be made for a goal: one for each of its ways, with the values of its links. -/
def calls (c : Chart) (actions : Actions) (f : Finished) (g : Goal) : List Call :=
  match f.lookup g with
  | some (some ways) => ways.map fun w => ⟨g, w.index, w.rule, w.links.map (f.value c actions)⟩
  | _ => []

theorem calls_eq {actions : Actions} {f : Finished} {g : Goal} {ways : List LinkedWay}
    (h : f.lookup g = some (some ways)) : f.calls c actions g =
      ways.map fun w => ⟨g, w.index, w.rule, w.links.map (f.value c actions)⟩ := by
  rw [calls, h]

theorem references_eq {f : Finished} {g : Goal} {ways : List LinkedWay} (h : f.lookup g = some (some ways)) :
    f.references g = ways.flatMap LinkedWay.references := by
  rw [references, h]

end Finished

namespace Chart

variable {c : Chart} {a : Ambiguity} {actions : Actions}

theorem Placed.forall_mem {π : Type} {R : Symbol → Nat → Nat → π → Prop} {ss : List Symbol} {j k : Nat} {ps : List π}
    (h : c.Placed R ss j k ps) : ∀ p ∈ ps, ∃ s m e, R s m e p := by
  induction h with
  | nil => exact fun _ h => nomatch h
  | snoc _ _ _ hp _ ih =>
    intro p hmem
    rcases List.mem_append.1 hmem with hmem | hmem
    · exact ih p hmem
    · exact ⟨_, _, _, List.mem_singleton.1 hmem ▸ hp⟩

/-- A goal with a derivation was finished with ways over goals that were finished before. -/
theorem Grounded.exists_madeOf {f : Finished} (hf : c.Grounded a f) {g : Goal} {ways : List LinkedWay}
    (h : f.lookup g = some (some ways)) : ∃ pre f', f = pre ++ (g, some ways) :: f' ∧ c.MadeOf a f' g ways := by
  induction f with
  | nil => cases h
  | cons x f ih =>
    obtain ⟨b, found⟩ := x
    by_cases hgb : g = b
    · subst hgb
      obtain rfl : found = some ways := by simpa using h
      exact ⟨[], f, rfl, hf.1 ways rfl⟩
    · rw [lookup_cons_of_ne hgb] at h
      obtain ⟨pre, f', rfl, hm⟩ := ih hf.2 h
      exact ⟨(b, found) :: pre, f', rfl, hm⟩

/-- What stands for a symbol keeps its meaning when more goals are finished. -/
theorem Fits.unpack_eq {pre f : Finished} (hn : ((pre ++ f).map (·.1)).Nodup) {s : Symbol} {j k : Nat} {l : Link}
    (h : c.Fits f s j k l) : l.unpack c ((pre ++ f).unpack c) = l.unpack c (f.unpack c) := by
  cases h with
  | token => rfl
  | goal hw => rw [Link.unpack, Link.unpack, Finished.lookup_unpack_append hn (Finished.mem_of_lookup hw)]

/-- Nested search packs the ways of a goal over what their links stand for. -/
theorem Grounded.lookup_unpack {f : Finished} (hf : c.Grounded a f) (hn : (f.map (·.1)).Nodup) {g : Goal}
    {ways : List LinkedWay} (h : f.lookup g = some (some ways)) :
    (f.unpack c).lookup g = some (some (.node (ways.map (LinkedWay.unpack c (f.unpack c))))) := by
  obtain ⟨pre, f', rfl, hm⟩ := hf.exists_madeOf h
  rw [Finished.lookup_unpack_append hn (by simp), Finished.unpack]
  simp only [List.lookup_cons, beq_self_eq_true, Option.map_some, Option.some.injEq, Packed.node.injEq]
  refine List.map_congr_left fun w hw => ?_
  rw [LinkedWay.unpack, LinkedWay.unpack]
  congr 1
  refine List.map_congr_left fun l hl => ?_
  obtain ⟨s, j, k, hfits⟩ := (hm.way w hw).2.forall_mem l hl
  rw [List.append_cons] at hn ⊢
  exact (hfits.unpack_eq hn).symm

/-- The value of a goal is made by its calls. -/
theorem Grounded.value_goal {f : Finished} (hf : c.Grounded a f) (hn : (f.map (·.1)).Nodup) {g : Goal}
    {ways : List LinkedWay} (h : f.lookup g = some (some ways)) :
    f.value c actions (.goal g) = joinAlternatives ((f.calls c actions g).map (·.value actions)) := by
  rw [Finished.value, Link.unpack, hf.lookup_unpack hn h, Finished.calls_eq h]
  simp only [Option.join_some, Option.getD_some, Packed.build, Way.buildAll_eq_map, List.map_map]
  congr 1
  refine List.map_congr_left fun w _ => ?_
  simp only [Function.comp_apply, LinkedWay.unpack, Way.build, Packed.buildAll_eq_map, List.map_map, Call.value]
  rfl

end Chart

/-! ## Taking nodes -/

/-- A link that can be taken: its token is there, or its goal is among those that were built. -/
def Link.Taken (c : Chart) (done : List Goal) : Link → Prop
  | .token start stop terminal => (c.token? start stop terminal).isSome = true
  | .goal g => g ∈ done

namespace Assembly

/-- Enough is there to go on: the uses count the references that are left, and the nodes that are referred to, or that
are asked for in the end, are there. -/
structure Ready (value : Link → Child) (root : Goal) (done left : List Goal) (s : Assembly) : Prop where
  uses : ∀ g ∈ left, s.uses.lookup g = some (left.count g)
  built : ∀ g ∈ done, g ∈ left ∨ g = root → s.built.lookup g = some (value (.goal g))
  unreferenced : root ∉ left

variable {c : Chart} {actions : Actions} {f : Finished} {root : Goal} {done left : List Goal} {s : Assembly}

theorem lookup_uses (g h : Goal) (n : Nat) : ∀ uses : List (Goal × Nat),
    (uses.map fun (b, m) => if b = g then (b, n) else (b, m)).lookup h =
      if h = g then (uses.lookup h).map fun _ => n else uses.lookup h
  | [] => by simp
  | (b, m) :: uses => by
    have ih := lookup_uses g h n uses
    by_cases hb : h = b
    · subst hb
      by_cases hg : h = g <;> simp [hg]
    · rw [lookup_cons_of_ne hb, ← ih, List.map_cons]
      dsimp only
      split <;> exact lookup_cons_of_ne hb _ _

theorem lookup_filter_ne {g h : Goal} (hne : h ≠ g) : ∀ built : List (Goal × Child),
    (built.filter (·.1 != g)).lookup h = built.lookup h
  | [] => rfl
  | (b, v) :: built => by
    have ih := lookup_filter_ne hne built
    by_cases hb : b = g
    · subst hb
      rw [lookup_cons_of_ne hne, ← ih]
      simp
    · rw [List.filter_cons_of_pos (by simpa using hb)]
      by_cases hh : h = b
      · subst hh
        simp
      · rw [lookup_cons_of_ne hh, lookup_cons_of_ne hh, ih]

/-- The value of a link is there when it is taken, and afterwards enough is there for the references that are left. -/
theorem take_eq {l : Link} (hl : l.Taken c done)
    (h : s.Ready (f.value c actions) root done (l.goal?.toList ++ left)) :
    ∃ s', take c l s = (some (f.value c actions l), s') ∧ s'.Ready (f.value c actions) root done left := by
  cases l with
  | token start stop terminal =>
    obtain ⟨t, ht⟩ := Option.isSome_iff_exists.1 hl
    refine ⟨s, ?_, by simpa [Link.goal?] using h⟩
    simp [take, ht, Finished.value, Link.unpack, Packed.build]
    rfl
  | goal g =>
    replace h : s.Ready (f.value c actions) root done (g :: left) := h
    have huses := h.uses g (List.mem_cons_self ..)
    have hbuilt := h.built g hl (.inl (List.mem_cons_self ..))
    rw [List.count_cons_self] at huses
    refine ⟨_, by simp only [take, huses, hbuilt, Nat.add_sub_cancel]; rfl, ?_, ?_, ?_⟩
    · intro b hb
      have hcount := h.uses b (List.mem_cons_of_mem _ hb)
      simp only [lookup_uses]
      split
      · rename_i hbg
        rw [hcount, hbg]
        rfl
      · rename_i hbg
        rw [hcount, List.count_cons_of_ne (Ne.symm hbg)]
    · intro b hb hleft
      have hkept : s.built.lookup b = some (f.value c actions (.goal b)) :=
        h.built b hb (hleft.imp_left (List.mem_cons_of_mem _))
      dsimp only
      split
      · -- the node that goes is not referred to any more
        rename_i hzero
        have hbg : b ≠ g := by
          rintro rfl
          rcases hleft with hm | rfl
          · exact List.count_eq_zero.1 hzero hm
          · exact h.unreferenced (List.mem_cons_self ..)
        rw [lookup_filter_ne hbg, hkept]
      · exact hkept
    · exact fun hr => h.unreferenced (List.mem_cons_of_mem _ hr)

theorem takeAll_eq : ∀ {ls : List Link} {s : Assembly}, (∀ l ∈ ls, l.Taken c done) →
    s.Ready (f.value c actions) root done (ls.filterMap Link.goal? ++ left) →
    ∃ s', takeAll c ls s = (ls.map (f.value c actions), s') ∧ s'.Ready (f.value c actions) root done left
  | [], s, _, h => ⟨s, rfl, h⟩
  | l :: ls, s, hl, h => by
    have hcons : (l :: ls).filterMap Link.goal? = l.goal?.toList ++ ls.filterMap Link.goal? := by cases l <;> rfl
    rw [hcons, List.append_assoc] at h
    obtain ⟨s', htake, h'⟩ := take_eq (hl l (List.mem_cons_self ..)) h
    obtain ⟨s'', htakeAll, h''⟩ := takeAll_eq (fun x hx => hl x (List.mem_cons_of_mem _ hx)) h'
    refine ⟨s'', ?_, h''⟩
    simp only [takeAll, bind, StateT.bind, htake, htakeAll]
    rfl

theorem callAll_eq (g : Goal) : ∀ {ways : List LinkedWay} {s : Assembly}, (∀ w ∈ ways, ∀ l ∈ w.links, l.Taken c done) →
    s.Ready (f.value c actions) root done (ways.flatMap LinkedWay.references ++ left) →
    ∃ s', callAll c g ways s = (ways.map fun w => ⟨g, w.index, w.rule, w.links.map (f.value c actions)⟩, s') ∧
      s'.Ready (f.value c actions) root done left
  | [], s, _, h => ⟨s, rfl, h⟩
  | w :: ways, s, hw, h => by
    rw [List.flatMap_cons, List.append_assoc] at h
    obtain ⟨s', htake, h'⟩ := takeAll_eq (hw w (List.mem_cons_self ..)) h
    obtain ⟨s'', hcall, h''⟩ := callAll_eq g (fun x hx => hw x (List.mem_cons_of_mem _ hx)) h'
    refine ⟨s'', ?_, h''⟩
    simp only [callAll, bind, StateT.bind, htake, hcall]
    rfl

/-- A goal whose references were built is built by its calls. -/
theorem build_eq {g : Goal} {ways : List LinkedWay} (hways : f.lookup g = some (some ways))
    (hvalue : f.value c actions (.goal g) = joinAlternatives ((f.calls c actions g).map (·.value actions)))
    (hl : ∀ w ∈ ways, ∀ l ∈ w.links, l.Taken c done)
    (h : s.Ready (f.value c actions) root done (f.references g ++ left)) :
    ∃ s', build c actions f g s = (f.calls c actions g, s') ∧ s'.Ready (f.value c actions) root (g :: done) left := by
  rw [Finished.references_eq hways] at h
  obtain ⟨s', hcall, h'⟩ := callAll_eq g hl h
  rw [← Finished.calls_eq hways] at hcall
  refine ⟨{ s' with built := (g, f.value c actions (.goal g)) :: s'.built }, ?_, h'.uses, fun b hb hleft => ?_,
    h'.unreferenced⟩
  · simp only [build, hways, bind, StateT.bind, hcall, hvalue]
    rfl
  · by_cases hbg : b = g
    · subst hbg
      simp
    · rw [lookup_cons_of_ne hbg]
      exact h'.built b ((List.mem_cons.1 hb).resolve_left hbg) hleft

theorem buildAll_nil (s : Assembly) : buildAll c actions f [] s = ([], s) := rfl

theorem buildAll_cons (g : Goal) (gs : List Goal) (s : Assembly) :
    buildAll c actions f (g :: gs) s =
      ((build c actions f g s).1 ++ (buildAll c actions f gs (build c actions f g s).2).1,
        (buildAll c actions f gs (build c actions f g s).2).2) := rfl

theorem buildAll_append (gs hs : List Goal) (s : Assembly) :
    buildAll c actions f (gs ++ hs) s =
      ((buildAll c actions f gs s).1 ++ (buildAll c actions f hs (buildAll c actions f gs s).2).1,
        (buildAll c actions f hs (buildAll c actions f gs s).2).2) := by
  induction gs generalizing s with
  | nil => rfl
  | cons g gs ih =>
    rw [List.cons_append, buildAll_cons, buildAll_cons, ih, List.append_assoc]

theorem Ready.subset {value : Link → Child} {done' : List Goal} (h : s.Ready value root done left)
    (hd : ∀ g ∈ done', g ∈ done) : s.Ready value root done' left :=
  ⟨h.uses, fun g hg => h.built g (hd g hg), h.unreferenced⟩

/-- A link of a finished goal can be taken when the goals that are needed before it are built. -/
theorem taken_of_fits {f' : Finished} {needed : List Goal} (hn : (f'.map (·.1)).Nodup) {x : Symbol} {j k : Nat}
    {l : Link} (h : c.Fits f' x j k l) (hl : ∀ b, l.goal? = some b → b ∈ needed) : l.Taken c (f'.order needed) := by
  cases h with
  | token ht => exact ht
  | goal hw => exact Finished.mem_order.2 ⟨(Finished.mem_completed hn).2 ⟨_, hw⟩, hl _ rfl⟩

/-- The goals that are needed are built by their calls, in the order in which they were finished. -/
theorem buildAll_eq {a : Ambiguity} {needed : List Goal} (hf : c.Grounded a f) (hn : (f.map (·.1)).Nodup)
    (hclosed : ∀ g ∈ needed, ∀ b ∈ f.references g, b ∈ needed) : ∀ (f' pre : Finished), f = pre ++ f' →
    c.Grounded a f' → ∀ left (s : Assembly),
      s.Ready (f.value c actions) root [] ((f'.order needed).flatMap f.references ++ left) →
      ∃ s', buildAll c actions f (f'.order needed) s = ((f'.order needed).flatMap (f.calls c actions), s') ∧
        s'.Ready (f.value c actions) root (f'.order needed) left
  | [], _, _, _, left, s, h => ⟨s, rfl, h⟩
  | (g, found) :: (f' : Finished), pre, hpre, hg, left, s, h => by
    have ih := buildAll_eq hf hn hclosed f' (pre ++ [(g, found)]) (by rw [hpre, List.append_assoc]; rfl) hg.2
    have hn' : (f'.map (·.1)).Nodup := by
      rw [hpre, List.map_append, List.nodup_append] at hn
      exact (List.nodup_cons.1 hn.2.1).2
    rw [Finished.order_cons] at h ⊢
    by_cases hnew : found.isSome = true ∧ g ∈ needed
    · obtain ⟨ways, rfl⟩ := Option.isSome_iff_exists.1 hnew.1
      have hways : f.lookup g = some (some ways) := by
        rw [hpre, Finished.lookup_append (hpre ▸ hn) (by simp)]
        simp
      have hlinks : ∀ w ∈ ways, ∀ l ∈ w.links, l.Taken c (f'.order needed) := by
        intro w hw l hl
        obtain ⟨x, j, k, hfits⟩ := ((hg.1 ways rfl).way w hw).2.forall_mem l hl
        refine taken_of_fits hn' hfits fun b hb => hclosed g hnew.2 b ?_
        rw [Finished.references_eq hways]
        exact List.mem_flatMap.2 ⟨w, hw, List.mem_filterMap.2 ⟨l, hl, hb⟩⟩
      rw [if_pos hnew] at h ⊢
      simp only [List.flatMap_append, List.flatMap_singleton, List.append_assoc] at h ⊢
      obtain ⟨s', hbuildAll, h'⟩ := ih _ s h
      obtain ⟨s'', hbuild, h''⟩ := build_eq hways (hf.value_goal hn hways) hlinks h'
      refine ⟨s'', ?_, h''.subset fun b hb => ?_⟩
      · rw [buildAll_append, hbuildAll]
        rw [buildAll_cons, hbuild, buildAll_nil, List.append_nil]
      · exact (List.mem_append.1 hb).elim (List.mem_cons_of_mem _) fun hb => by simp_all
    · rw [if_neg hnew, List.append_nil] at h ⊢
      exact ih left s h

end Assembly

/-! ## The goals that a root needs -/

namespace Agenda

variable {c : Chart} {a : Ambiguity} {f : Finished} {root : Goal}

/-- What a goal refers to was finished before it. -/
theorem exists_of_mem_references (hf : c.Grounded a f) {g b : Goal} (hb : b ∈ f.references g) :
    ∃ pre ways ways' f', f = pre ++ (g, some ways) :: f' ∧ f'.lookup b = some (some ways') := by
  rw [Finished.references] at hb
  split at hb
  · rename_i ways hways
    obtain ⟨pre, f', rfl, hm⟩ := hf.exists_madeOf hways
    obtain ⟨w, hw, hb⟩ := List.mem_flatMap.1 hb
    obtain ⟨l, hl, hlb⟩ := List.mem_filterMap.1 hb
    obtain ⟨x, j, k, hfits⟩ := (hm.way w hw).2.forall_mem l hl
    cases hfits with
    | token => cases hlb
    | goal hw' =>
      cases hlb
      exact ⟨pre, ways, _, f', rfl, hw'⟩
  · cases hb

theorem references_subset (hf : c.Grounded a f) (hn : (f.map (·.1)).Nodup) {g b : Goal} (hb : b ∈ f.references g) :
    b ∈ f.completed := by
  obtain ⟨pre, ways, ways', f', rfl, hw⟩ := exists_of_mem_references hf hb
  rw [List.append_cons] at hn ⊢
  exact (Finished.mem_completed hn).2 ⟨ways', (Finished.lookup_append hn (Finished.mem_of_lookup hw)).trans hw⟩

/-- No goal refers to the goal that was finished last. -/
theorem last_not_mem_references {found : Option (List LinkedWay)} {rest : Finished}
    (hf : c.Grounded a ((root, found) :: rest)) (hn : (((root, found) :: rest).map (·.1)).Nodup) (g : Goal) :
    root ∉ Finished.references ((root, found) :: rest) g := by
  intro hb
  obtain ⟨pre, ways, ways', f', heq, hw⟩ := exists_of_mem_references hf hb
  have hmem : root ∈ rest.map (·.1) := by
    cases pre <;> cases heq <;> simp [Finished.mem_of_lookup hw]
  exact (List.nodup_cons.1 hn).1 hmem

theorem self_mem_needed : root ∈ f.needed root := mem_reachable_of_mem (List.mem_singleton.2 rfl)

theorem needed_subset (hf : c.Grounded a f) (hn : (f.map (·.1)).Nodup) {ways : List LinkedWay}
    (hroot : f.lookup root = some (some ways)) : ∀ g ∈ f.needed root, g ∈ f.completed := by
  refine reachable_induction (fun g hg => ?_) fun g hg b hb => references_subset hf hn hb
  obtain rfl := List.mem_singleton.1 hg
  exact (Finished.mem_completed hn).2 ⟨ways, hroot⟩

/-- Goals that are needed need what they refer to. -/
theorem references_needed (hf : c.Grounded a f) (hn : (f.map (·.1)).Nodup) (hroot : root ∈ f.map (·.1)) :
    ∀ g ∈ f.needed root, ∀ b ∈ f.references g, b ∈ f.needed root := fun g hg b hb => by
  refine mem_reachable_of_next (f.map (·.1)) (fun x hx => ?_) (fun x hx y hy => ?_) (by simp) hg hb
  · obtain rfl := List.mem_singleton.1 hx
    exact hroot
  · exact Finished.completed_subset f (references_subset hf hn hy)

theorem lookup_map_count (l : List Goal) {g : Goal} : ∀ {gs : List Goal}, g ∈ gs →
    (gs.map fun b => (b, l.count b)).lookup g = some (l.count g)
  | b :: gs, h => by
    by_cases hgb : g = b
    · subst hgb
      simp
    · rw [List.map_cons, lookup_cons_of_ne hgb, lookup_map_count l ((List.mem_cons.1 h).resolve_left hgb)]

/-- The root and all that it needs are built by their calls, and its node is there in the end. -/
theorem assemble_eq (actions : Actions) {ways : List LinkedWay} {rest : Finished} {s : Agenda}
    (hs : s.finished = (root, some ways) :: rest) (hc : s.completed = s.finished.completed)
    (hf : c.Grounded a s.finished) (hn : (s.finished.map (·.1)).Nodup) :
    (s.assemble c actions root).1 =
      (s.finished.order (s.finished.needed root)).flatMap (s.finished.calls c actions) ∧
    (s.assemble c actions root).2.built.lookup root = some (s.finished.value c actions (.goal root)) := by
  set f := s.finished with hfin
  set needed := f.needed root with hneeded
  have hroot : f.lookup root = some (some ways) := by rw [hs]; simp
  have hsub := needed_subset hf hn hroot
  have hclosed := references_needed hf hn (Finished.mem_of_lookup hroot)
  -- what is needed is what is built, in another order, so the counts agree
  have hperm : (f.order needed).Perm needed := by
    refine (List.perm_ext_iff_of_nodup ((Finished.nodup_completed hn).filter _) nodup_reachable).2 fun g => ?_
    exact Finished.mem_order.trans ⟨And.right, fun hg => ⟨hsub g hg, hg⟩⟩
  have hcount := hperm.flatMap_right f.references
  have hstart : ({ uses := (fresh [] (needed.flatMap f.references)).map fun g =>
      (g, (needed.flatMap f.references).count g) } : Assembly).Ready (f.value c actions) root []
        ((f.order needed).flatMap f.references ++ []) := by
    rw [List.append_nil]
    refine ⟨fun g hg => ?_, fun _ hg => absurd hg List.not_mem_nil, fun hm => ?_⟩
    · rw [hcount.count_eq]
      exact lookup_map_count _ (mem_fresh.2 ⟨hcount.subset hg, List.not_mem_nil⟩)
    · obtain ⟨g, -, hg⟩ := List.mem_flatMap.1 hm
      rw [hs] at hf hn hg
      exact last_not_mem_references hf hn g hg
  obtain ⟨s', hbuild, hready⟩ := Assembly.buildAll_eq hf hn hclosed f [] rfl hf [] _ hstart
  have hassemble : s.assemble c actions root = ((f.order needed).flatMap (f.calls c actions), s') := by
    rw [assemble, hc]
    exact hbuild
  rw [hassemble]
  refine ⟨rfl, hready.built root (Finished.mem_order.2 ?_) (.inr rfl)⟩
  exact ⟨hsub root self_mem_needed, self_mem_needed⟩

end Agenda

namespace Chart

variable {c : Chart} {a : Ambiguity} {actions : Actions} {name : String}

/-- The goals that were finished on the way to a nonterminal over the whole chart. -/
def finished (c : Chart) (a : Ambiguity) (name : String) : Finished := (Agenda.ofGoal c a (c.whole name)).finished

theorem grounded_finished (a : Ambiguity) (name : String) : c.Grounded a (c.finished a name) :=
  c.grounded_ofGoal a (c.whole name)

theorem nodup_finished (a : Ambiguity) (name : String) : ((c.finished a name).map (·.1)).Nodup := by
  obtain ⟨found, rest, hs, hn, -⟩ := ofGoal_eq (c := c) a (c.whole name)
  rw [finished, hs]
  exact hn

/-- What was found for the whole is what nested search finds. -/
theorem lookup_unpack_finished (a : Ambiguity) (name : String) :
    ((c.finished a name).unpack c).lookup (c.whole name) = some (c.derivation? a name) := by
  obtain ⟨found, rest, hs, -, hsolve⟩ := ofGoal_eq (c := c) a (c.whole name)
  have hlook := (solve_nested (c := c) (a := a) c.goalCount []).found (c.whole name) [] rfl List.not_mem_nil
  rw [finished, hs, ← hsolve, hlook]
  rfl

/-- If the whole has a derivation, then its ways were found last, and it is built. -/
theorem assemble_finished (actions : Actions) {p : Packed} (h : c.derivation? a name = some p) :
    ∃ ways rest, c.finished a name = (c.whole name, some ways) :: rest ∧
      c.calls a actions name = ((c.finished a name).order ((c.finished a name).needed (c.whole name))).flatMap
        ((c.finished a name).calls c actions) ∧
      c.derive a actions name = some ((c.finished a name).value c actions (.goal (c.whole name))) := by
  obtain ⟨found, rest, hs, hn, -⟩ := ofGoal_eq (c := c) a (c.whole name)
  have hlook := lookup_unpack_finished (c := c) a name
  have hfin : c.finished a name = (c.whole name, found) :: rest := by rw [finished, hs]
  cases found with
  | none =>
    rw [h, hfin] at hlook
    simp [Finished.unpack] at hlook
  | some ways =>
    have hroot : (c.finished a name).lookup (c.whole name) = some (some ways) := by rw [hfin]; simp
    have hasm := Agenda.assemble_eq actions hfin (by rw [hs]) (grounded_finished a name)
      (nodup_finished a name)
    refine ⟨ways, rest, hfin, hasm.1, ?_⟩
    rw [derive]
    simp only [show (Agenda.ofGoal c a (c.whole name)).finished = c.finished a name from rfl, hroot]
    exact hasm.2

/-- Goals are built from what nested search finds. -/
theorem derive_eq : c.derive a actions name = (c.derivation? a name).map (Packed.build actions) := by
  cases h : c.derivation? a name with
  | some p =>
    obtain ⟨-, -, -, -, hd⟩ := assemble_finished actions h
    rw [hd, Finished.value, Link.unpack, lookup_unpack_finished, h]
    rfl
  | none =>
    have hlook : (c.finished a name).lookup (c.whole name) = some none := by
      have hsome := Finished.lookup_unpack_isSome (c := c) (c.whole name) (c.finished a name)
      rw [lookup_unpack_finished, h] at hsome
      obtain ⟨found, hfound, hnone⟩ := Option.map_eq_some_iff.1 hsome.symm
      cases found with
      | none => exact hfound
      | some ways => cases hnone
    rw [derive]
    simp only [show (Agenda.ofGoal c a (c.whole name)).finished = c.finished a name from rfl, hlook]
    rfl

theorem value_eq : c.value a actions name =
    match c.derivation? a name with
    | some p => .ok (p.build actions)
    | none => .error (.grammar (.noFiniteDerivation name)) := by
  rw [value, derive_eq]
  cases c.derivation? a name <;> rfl

end Chart

/-- A parse succeeds with what is built from the derivation that is found on a chart that accepts. -/
theorem parse_eq_ok_iff {σ : Type} [TokenSource σ] {p : Parser} {source : σ} {start : String} {v : Child} :
    p.parse source start = .ok v ↔ ∃ c d, Chart.ofTokens p.grammar p.matches? source start = .ok c ∧
      c.accepts start = true ∧ c.derivation? p.options.ambiguity start = some d ∧ v = d.build p.actions := by
  rw [parse_eq]
  constructor
  · intro h
    split at h
    · rename_i c hc
      split at h
      · rename_i ha
        rw [Chart.value_eq] at h
        split at h
        · rename_i d hd
          cases h
          exact ⟨c, d, hc, ha, hd, rfl⟩
        · cases h
      · cases h
    · cases h
  · rintro ⟨c, d, hc, ha, hd, rfl⟩
    simp only [hc, if_pos ha, Chart.value_eq, hd]

/-- What the start symbol yields is parsed, where no nonterminals lead into each other over nothing. -/
theorem exists_parse_eq_ok {conf : ParserConfig} {matches? : Chart.TokenMatch} {o : Options} {p : Parser}
    (hp : Parser.ofConfig conf matches? o = .ok p) (hm : ∀ a t, ∃ b, matches? a t = .ok b)
    (hac : NoEmptyCycle conf.rules) {start : String} {tokens : List Token}
    (hy : Yields conf.rules matches?.Stands [.nonterminal start] tokens) :
    ∃ value, p.parse (Listed.ofTokens tokens) start = .ok value := by
  obtain ⟨rfl, -⟩ := ofConfig_eq_ok hp
  have hg : (ChartRules.ofRules conf.rules).Exact matches?.Stands := ChartRules.exact_ofRules _
  obtain ⟨c, hc, ha, hrec⟩ := exists_accepting hg hm hy
  have hcov : c.Covers ⟨start, 0, c.stop⟩ := by
    rwa [Chart.accepts, Bool.not_eq_true', List.isEmpty_eq_false_iff] at ha
  obtain ⟨d, hd⟩ := Option.isSome_iff_exists.1 (hrec.derivation?_isSome hg hac o.ambiguity hcov)
  exact ⟨_, parse_eq_ok_iff.2 ⟨c, d, hc, ha, hd, rfl⟩⟩

end GrammarKit.Earley
