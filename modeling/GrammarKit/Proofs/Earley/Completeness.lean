/-
The search for derivations is complete where no two nonterminals lead into each other by rules of nullable
symbols: every goal that the chart covers has a derivation, and the search finds one.

A goal is given up only if each of its trees runs against a wall: a part of the tree over the same stretch is
active or was given up itself. While no derivation was found over a stretch, this is kept by every step, and
once the goals that are active over the stretch are closed, the lightest tree of any goal that was given up
would have to run against a lighter one. The first derivation that is found over a stretch completes all goals
that are active, so what is given up wrongly after it does no harm. Over an empty stretch nothing is ever given
up, since there an active goal can only be met by itself.
-/
import GrammarKit.Proofs.Earley.Extraction

namespace GrammarKit

/-- The first nonterminal has a rule of nullable symbols in which the second stands. -/
def EmptyStep (rules : List Rule) (x y : String) : Prop :=
  ∃ r ∈ rules, r.origin = x ∧ .nonterminal y ∈ r.symbols ∧ allNullable (nullableNames rules) r.symbols = true

/-- No two nonterminals lead into each other by rules of nullable symbols. -/
def NoEmptyCycle (rules : List Rule) : Prop :=
  ∀ x y, Relation.ReflTransGen (EmptyStep rules) x y → Relation.ReflTransGen (EmptyStep rules) y x → x = y

namespace Earley

/-! ## Goals that are given up -/

/-- What was found is kept, and nothing is found outside the stretch. -/
structure Steady (j e : Nat) (F F' : Findings) : Prop where
  keeps : ∀ b v, F.lookup b = some v → F'.lookup b = some v
  frame : ∀ b : Goal, b.start < j ∨ e < b.stop → F'.lookup b = F.lookup b

theorem Steady.refl {j e : Nat} {F : Findings} : Steady j e F F := ⟨fun _ _ h => h, fun _ _ => rfl⟩

theorem Steady.trans {j e : Nat} {F F' F'' : Findings} (h : Steady j e F F') (k : Steady j e F' F'') :
    Steady j e F F'' :=
  ⟨fun b v hb => k.keeps b v (h.keeps b v hb), fun b hb => (k.frame b hb).trans (h.frame b hb)⟩

theorem Steady.widen {j s e k : Nat} {F F' : Findings} (h : Steady s e F F') (hs : j ≤ s) (he : e ≤ k) :
    Steady j k F F' :=
  ⟨h.keeps, fun b hb => h.frame b (by omega)⟩

theorem lookup_cons_of_ne {β : Type} {b x : Goal} (h : x ≠ b) (v : β) (F : List (Goal × β)) :
    List.lookup x ((b, v) :: F) = F.lookup x := by
  rw [List.lookup_cons, beq_eq_false_iff_ne.2 h]

/-- What is found for a goal itself is inside its stretch. -/
theorem Steady.insert {b : Goal} {F F' : Findings} (h : Steady b.start b.stop F F') (hb : b.start ≤ b.stop)
    (hnew : F.lookup b = none) (v : Option Packed) : Steady b.start b.stop F ((b, v) :: F') := by
  constructor
  · intro x u hx
    have hxb : x ≠ b := by
      rintro rfl
      rw [hnew] at hx
      cases hx
    rw [lookup_cons_of_ne hxb]
    exact h.keeps x u hx
  · intro x hx
    have hxb : x ≠ b := by
      rintro rfl
      omega
    rw [lookup_cons_of_ne hxb]
    exact h.frame x hx

namespace Chart

/-- No goal over an empty stretch was given up. -/
def Bright (c : Chart) (F : Findings) : Prop := ∀ b : Goal, b.start = b.stop → c.Covers b → F.lookup b ≠ some none

section Walls

variable (c : Chart) (rules : List Rule) (stands : String → Token → Prop) (w : List Token)

/-- One of the trees is a tree over the whole stretch of a goal that was given up or is active. -/
def HitsWall (F : Findings) (active : List Goal) (j k : Nat) (ds : List Derivation) : Prop :=
  ∃ n, ∃ d ∈ ds, Trees rules stands [.nonterminal n] (stretch w j k) [d] ∧ c.Covers ⟨n, j, k⟩ ∧
    (F.lookup ⟨n, j, k⟩ = some none ∨ ⟨n, j, k⟩ ∈ active)

/-- The findings before the part up to `e` of the stretch of a goal is derived: nothing was given up within that
part, and what was given up over the whole stretch has only trees that run against a wall. -/
structure Ready (active : List Goal) (j k e : Nat) (F : Findings) : Prop where
  bright : c.Bright F
  inner : ∀ n j' k', j ≤ j' → j' < k' → k' ≤ e → (j < j' ∨ k' < k) → c.Covers ⟨n, j', k'⟩ →
    F.lookup ⟨n, j', k'⟩ ≠ some none
  walled : e = k → ∀ n, c.Covers ⟨n, j, k⟩ → F.lookup ⟨n, j, k⟩ = some none → ∀ r ∈ rules, r.origin = n →
    ∀ ds, Trees rules stands r.symbols (stretch w j k) ds → c.HitsWall rules stands w F active j k ds

end Walls

section

variable {c : Chart} {rules : List Rule} {stands : String → Token → Prop} {w : List Token} {F F' : Findings}
  {active : List Goal} {j k e : Nat} {ds : List Derivation}

theorem HitsWall.mono (h : c.HitsWall rules stands w F active j k ds) {s t : Nat} (hF : Steady s t F F')
    {es : List Derivation} (hds : ∀ d ∈ ds, d ∈ es) : c.HitsWall rules stands w F' active j k es := by
  obtain ⟨n, d, hd, ht, hc, hn⟩ := h
  exact ⟨n, d, hds d hd, ht, hc, hn.imp (hF.keeps _ _) id⟩

/-- A goal that becomes active is one more wall. -/
theorem Ready.activate {b : Goal} (h : c.Ready rules stands w active j k e F) :
    c.Ready rules stands w (b :: active) j k e F := by
  refine ⟨h.bright, h.inner, fun h0 n hc hn r hr ho ds hds => ?_⟩
  obtain ⟨m, d, hd, hdt, hmc, hm⟩ := h.walled h0 n hc hn r hr ho ds hds
  exact ⟨m, d, hd, hdt, hmc, hm.imp id (List.mem_cons_of_mem _)⟩

/-- Over an empty stretch findings are always ready. -/
theorem Bright.ready (h : c.Bright F) : c.Ready rules stands w active j j j F :=
  ⟨h, fun _ _ _ _ _ _ _ => by omega, fun _ n hc hn => absurd hn (h ⟨n, j, j⟩ rfl hc)⟩

theorem Bright.found {b : Goal} (h : c.Bright F) (p : Packed) : c.Bright ((b, some p) :: F) := by
  intro x hx hc
  by_cases hxb : x = b
  · rw [hxb, List.lookup_cons_self]
    simp
  · rw [lookup_cons_of_ne hxb]
    exact h x hx hc

/-- Where no goal over a stretch is active, none that the chart covers was given up. -/
theorem Ready.not_givenUp (h : c.Ready rules stands w active j k k F) (ha : ∀ n, (⟨n, j, k⟩ : Goal) ∉ active)
    {n : String} : ∀ d : Derivation, Trees rules stands [.nonterminal n] (stretch w j k) [d] → c.Covers ⟨n, j, k⟩ →
      F.lookup ⟨n, j, k⟩ ≠ some none := by
  intro d
  -- a tree that runs against a wall has a lighter tree of a goal that was given up
  induction hw : d.weight using Nat.strongRecOn generalizing d n with
  | ind size ih =>
    intro ht hc hn
    obtain ⟨i, r, cs, hr, rfl, hd, hcs⟩ := trees_nonterminal_iff.1 ht
    obtain rfl := List.singleton_inj.1 hd
    obtain ⟨m, d, hd, hmt, hmc, hm⟩ := h.walled rfl _ hc hn r (List.mem_of_getElem? hr) rfl cs hcs
    rcases hm with hm | hm
    · exact ih d.weight (hw ▸ Derivation.weight_lt_of_mem hd) d rfl hmt hmc hm
    · exact ha m hm

/-- What is ready for a goal is ready for the parts of its stretch. -/
theorem Ready.part (h : c.Ready rules stands w active j k e F) {s : Nat} (hs : j ≤ s) (hse : s ≤ e) (he : e ≤ k) :
    c.Ready rules stands w active s e e F := by
  refine ⟨h.bright, fun n j' k' h1 h2 h3 h4 => h.inner n j' k' (by omega) h2 h3 (by omega),
    fun _ n hc hn r hr ho ds hds => ?_⟩
  rcases Nat.lt_or_eq_of_le hse with hlt | heq
  · by_cases hsame : s = j ∧ e = k
    · obtain ⟨rfl, rfl⟩ := hsame
      exact h.walled rfl n hc hn r hr ho ds hds
    · exact absurd hn (h.inner n s e hs hlt (Nat.le_refl _) (by omega) hc)
  · exact absurd hn (h.bright ⟨n, s, e⟩ heq hc)

/-- What is ready for a goal up to `e` is still ready up to `s` after a part between them was derived. -/
theorem Ready.before (h : c.Ready rules stands w active j k e F) {s : Nat} (hj : j ≤ s) (hs : s ≤ e) (he : e ≤ k)
    (hb : c.Bright F') (hF : Steady s e F F') : c.Ready rules stands w active j k s F' := by
  refine ⟨hb, fun n j' k' h1 h2 h3 h4 hc => ?_, ?_⟩
  · rw [hF.frame ⟨n, j', k'⟩ (.inl (Nat.lt_of_lt_of_le h2 h3))]
    exact h.inner n j' k' h1 h2 (Nat.le_trans h3 hs) h4 hc
  · rintro rfl n hc hn r hr ho ds hds
    obtain rfl : e = s := Nat.le_antisymm he hs
    -- a part between `s` and `s` leaves what is known of the whole stretch, unless that is empty itself
    rcases Nat.lt_or_eq_of_le hj with hlt | heq
    · rw [hF.frame ⟨n, j, e⟩ (.inl hlt)] at hn
      exact (h.walled rfl n hc hn r hr ho ds hds).mono hF fun _ hd => hd
    · exact absurd hn (hb ⟨n, j, e⟩ heq hc)

end

/-! ## Tries -/

/-- A run within a stretch that finds something, or misses and leaves the findings ready. -/
def Tries {γ : Type} (c : Chart) (m : Search γ) (hit : γ → Prop) (j e : Nat) (ready missed : Findings → Prop) : Prop :=
  ∀ F, c.Bright F → c.Bright (m F).2 ∧ Steady j e F (m F).2 ∧ (ready F → hit (m F).1 ∨ ready (m F).2 ∧ missed (m F).2)

section Tries

variable {α γ δ : Type} {c : Chart} {j e : Nat} {ready : Findings → Prop}

theorem Tries.map {m : Search γ} (hit : γ → Prop) {hit' : δ → Prop} {missed : Findings → Prop} {f : γ → δ}
    (hf : ∀ r, hit r → hit' (f r)) (h : c.Tries m hit j e ready missed) :
    c.Tries (m >>= fun r => pure (f r)) hit' j e ready missed := fun F hF =>
  ⟨(h F hF).1, (h F hF).2.1, fun hr => ((h F hF).2.2 hr).imp (hf _) id⟩

theorem Tries.imp {m : Search γ} {hit : γ → Prop} {missed missed' : Findings → Prop}
    (hm : ∀ F, missed F → missed' F) (h : c.Tries m hit j e ready missed) :
    c.Tries m hit j e ready missed' := fun F hF =>
  ⟨(h F hF).1, (h F hF).2.1, fun hr => ((h F hF).2.2 hr).imp id fun ⟨h1, h2⟩ => ⟨h1, hm _ h2⟩⟩

theorem Tries.first {f : α → Search (Option γ)} {missed : α → Findings → Prop}
    (hm : ∀ a F F', Steady j e F F' → missed a F → missed a F') : ∀ {l : List α},
    (∀ a ∈ l, c.Tries (f a) (·.isSome = true) j e ready (missed a)) →
      c.Tries (Search.first f l) (·.isSome = true) j e ready fun F => ∀ a ∈ l, missed a F
  | [], _ => fun F hF => ⟨hF, .refl, fun hr => .inr ⟨hr, fun _ h => nomatch h⟩⟩
  | a :: l, h => by
    intro F hF
    obtain ⟨hb, hs, ht⟩ := h a (List.mem_cons_self ..) F hF
    rw [Search.first_cons]
    rcases hfa : f a F with ⟨_ | b, F'⟩
    · rw [hfa] at hb hs ht
      obtain ⟨hb', hs', ht'⟩ := Tries.first hm (fun a ha => h a (List.mem_cons_of_mem _ ha)) F' hb
      refine ⟨hb', hs.trans hs', fun hr => ?_⟩
      obtain ⟨hr', hmiss⟩ := (ht hr).resolve_left (by simp)
      refine (ht' hr').imp id fun ⟨h1, h2⟩ => ⟨h1, fun x hx => ?_⟩
      rcases List.mem_cons.1 hx with rfl | hx
      · exact hm x F' _ hs' hmiss
      · exact h2 x hx
    · rw [hfa] at hb hs
      exact ⟨hb, hs, fun _ => .inl rfl⟩

theorem Tries.all {f : α → Search (List γ)} {missed : α → Findings → Prop}
    (hm : ∀ a F F', Steady j e F F' → missed a F → missed a F') : ∀ {l : List α},
    (∀ a ∈ l, c.Tries (f a) (· ≠ []) j e ready (missed a)) →
      c.Tries (Search.all f l) (· ≠ []) j e ready fun F => ∀ a ∈ l, missed a F
  | [], _ => fun F hF => ⟨hF, .refl, fun hr => .inr ⟨hr, fun _ h => nomatch h⟩⟩
  | a :: l, h => by
    intro F hF
    obtain ⟨hb, hs, ht⟩ := h a (List.mem_cons_self ..) F hF
    obtain ⟨hb', hs', ht'⟩ := Tries.all hm (fun a ha => h a (List.mem_cons_of_mem _ ha)) _ hb
    rw [Search.all_cons]
    refine ⟨hb', hs.trans hs', fun hr => ?_⟩
    rcases ht hr with hne | ⟨hr', hmiss⟩
    · exact .inl (by simp [hne])
    · rcases ht' hr' with hne | ⟨h1, h2⟩
      · exact .inl (by simp [hne])
      · refine .inr ⟨h1, fun x hx => ?_⟩
        rcases List.mem_cons.1 hx with rfl | hx
        · exact hm x _ _ hs' hmiss
        · exact h2 x hx

end Tries

/-! ## The symbols of a rule -/

/-- The goals of a rule's symbols within a stretch are tried. -/
def Solves (c : Chart) (rules : List Rule) (stands : String → Token → Prop) (w : List Token)
    (solve : Goal → Search (Option Packed)) (active : List Goal) (j k : Nat) (r : Rule) : Prop :=
  ∀ n s e, .nonterminal n ∈ r.symbols → j ≤ s → s ≤ e → e ≤ k → c.Covers ⟨n, s, e⟩ →
    c.Tries (solve ⟨n, s, e⟩) (·.isSome = true) s e (c.Ready rules stands w active s e e)
      fun F => F.lookup ⟨n, s, e⟩ = some none ∨ ⟨n, s, e⟩ ∈ active

namespace Records

variable {g : ChartRules} {stands : String → Token → Prop} {start : String} {w : List Token} {c : Chart}
  (h : c.Records g stands start w) (hg : g.Exact stands) {active : List Goal} {j k : Nat}
  (hactive : ∀ b ∈ active, b.start ≤ j ∧ k ≤ b.stop) {solve : Goal → Search (Option Packed)} {r : Rule}
  (hsolve : c.Solves g.rules stands w solve active j k r)

section Part

include h hg hactive hsolve

/-- A part is derived unless it takes the whole stretch and runs against a wall. -/
theorem part_tries {x : Item} {s : Symbol} {m e : Nat} (hx : x ∈ c.column m) (hn : x.next? g.rules = some s)
    (hs : s ∈ r.symbols) (hj : j ≤ m) (hm : m ≤ e) (he : e ≤ k) (hw : e ≤ w.length) :
    c.Tries (c.part solve s m e) (·.isSome = true) m e (c.Ready g.rules stands w active j k e) fun F =>
      ∀ d, Trees g.rules stands [s] (stretch w m e) [d] → c.HitsWall g.rules stands w F active j k [d] := by
  intro F hF
  unfold part
  split
  · rename_i a
    refine ⟨hF, .refl, fun hr => ?_⟩
    show (Option.map Packed.token (c.token? m e a)).isSome = true ∨ _
    rw [Option.isSome_map]
    refine or_iff_not_imp_left.2 fun hnone => ⟨hr, fun d hd => ?_⟩
    obtain ⟨t, ht, -, ha⟩ := trees_terminal_iff.1 hd
    obtain ⟨rfl, htw⟩ := stretch_eq_singleton hw ht
    exact absurd (by simpa using hnone) (h.token?_ne_none hx hn htw ha)
  · rename_i n
    split
    · rename_i hempty
      refine ⟨hF, .refl, fun hr => .inr ⟨hr, fun d hd => ?_⟩⟩
      exact absurd (List.isEmpty_iff.1 hempty) (h.covers_of_waiting hg hx hn hm hw hd.yields)
    · rename_i hne
      have hc : c.Covers ⟨n, m, e⟩ := fun h0 => hne (List.isEmpty_iff.2 h0)
      obtain ⟨hb, hst, ht⟩ := hsolve n m e hs hj hm he hc F hF
      refine ⟨hb, hst, fun hr => (ht (hr.part hj hm he)).imp id fun ⟨hr', hmiss⟩ => ?_⟩
      by_cases hsame : m = j ∧ e = k
      · obtain ⟨rfl, rfl⟩ := hsame
        exact ⟨hr', fun d hd => ⟨n, d, List.mem_singleton_self _, hd, hc, hmiss⟩⟩
      · -- a goal over less than the stretch is not active, and is not given up
        have hna : ∀ n', (⟨n', m, e⟩ : Goal) ∉ active := by
          intro n' hn'
          have := hactive _ hn'
          simp only at this
          omega
        obtain ⟨d, hd⟩ := ((h.covers_iff hg).1 hc).2.2.2.exists_tree
        exact absurd (hmiss.resolve_right (hna n)) (hr'.not_givenUp hna _ hd hc)

end Part

/-- Trees that run against a wall over the whole stretch have at least as many tokens. -/
theorem length_le_of_hitsWall {F : Findings} {ss : List Symbol} {ts : List Token} {ds : List Derivation}
    (hk : k ≤ w.length) (ht : Trees g.rules stands ss ts ds) (hd : c.HitsWall g.rules stands w F active j k ds) :
    k - j ≤ ts.length := by
  obtain ⟨n, d, hd, hdt, -⟩ := hd
  have hle := Derivation.length_leaves_le_of_mem hd
  have hdl := hdt.leaves_eq
  rw [Derivation.leavesAll, Derivation.leavesAll, List.append_nil] at hdl
  rwa [hdl, ht.leaves_eq, length_stretch hk] at hle

/-- A part, and then the symbols before it. -/
theorem tries_split {γ δ : Type} {hit : γ → Prop} {hit' : δ → Prop} {first : Search (Option Packed)} {rest : Search γ}
    {none' : δ} {join : Packed → γ → δ} (hjoin : ∀ p r, hit r → hit' (join p r)) {s : Symbol}
    {ss : List Symbol} {m e : Nat} (hj : j ≤ m) (hm : m ≤ e) (he : e ≤ k) (hk : k ≤ w.length)
    (hfirst : c.Tries first (·.isSome = true) m e (c.Ready g.rules stands w active j k e) fun F =>
      ∀ d, Trees g.rules stands [s] (stretch w m e) [d] → c.HitsWall g.rules stands w F active j k [d])
    (hrest : c.Tries rest hit j m (c.Ready g.rules stands w active j k m) fun F =>
      ∀ ds, Trees g.rules stands ss (stretch w j m) ds → c.HitsWall g.rules stands w F active j k ds)
    (htrees : Yields g.rules stands ss (stretch w j m)) :
    c.Tries (Search.onFound first none' fun p => rest >>= fun r => pure (join p r)) hit' j e
        (c.Ready g.rules stands w active j k e) fun F =>
      ∀ ds d, Trees g.rules stands ss (stretch w j m) ds → Trees g.rules stands [s] (stretch w m e) [d] →
        c.HitsWall g.rules stands w F active j k (ds ++ [d]) := by
  intro F hF
  obtain ⟨hb, hst, ht⟩ := hfirst F hF
  rw [Search.onFound, Search.run_bind]
  rcases hf : first F with ⟨_ | p, F'⟩
  · rw [hf] at hb hst ht
    refine ⟨hb, hst.widen hj (Nat.le_refl _), fun hr => .inr ?_⟩
    obtain ⟨hr', hmiss⟩ := (ht hr).resolve_left (by simp)
    exact ⟨hr', fun ds d _ hd => (hmiss d hd).mono (.refl (j := j) (e := e)) fun x hx => List.mem_append_right _ hx⟩
  · rw [hf] at hb hst
    obtain ⟨hb', hst', ht'⟩ := hrest F' hb
    refine ⟨hb', (hst.widen hj (Nat.le_refl _)).trans (hst'.widen (Nat.le_refl _) hm), fun hr => ?_⟩
    refine (ht' (hr.before hj hm he hb hst)).imp (hjoin p _) fun ⟨hr', hmiss⟩ => ?_
    -- the symbols before a part that takes tokens have too few left to run against a wall
    obtain rfl : m = e := by
      by_contra hne
      obtain ⟨ds, hds⟩ := htrees.trees
      have hle := length_le_of_hitsWall hk hds (hmiss ds hds)
      rw [length_stretch (by omega)] at hle
      omega
    exact ⟨hr', fun ds d hds _ => (hmiss ds hds).mono (.refl (j := j) (e := m)) fun x hx => List.mem_append_left _ hx⟩

section Sequence

include h hg hactive hsolve

/-- The symbols before a dot are derived, unless each of their trees runs against a wall. -/
theorem sequence_tries {γ : Type} (hit : γ → Prop) (none' : γ) (join : Packed → γ → γ)
    (seq : List Symbol → Nat → Search γ) (hjoin : ∀ p r, hit r → hit (join p r))
    {i : Nat} (hr : g.rules[i]? = some r) (hk : k ≤ w.length)
    (hnil : ∀ F, (seq [] j F).2 = F ∧ hit (seq [] j F).1)
    (hcons : ∀ s before e ready (missed : Nat × Nat → Findings → Prop),
      (∀ x F F', Steady j e F F' → missed x F → missed x F') →
      (∀ x ∈ c.splits ⟨⟨i, before.length⟩, j⟩ e, c.Tries (Search.onFound (c.part solve s x.1 x.2) none'
        fun p => seq before x.1 >>= fun r => pure (join p r)) hit j e ready (missed x)) →
      c.Tries (seq (s :: before) e) hit j e ready fun F => ∀ x ∈ c.splits ⟨⟨i, before.length⟩, j⟩ e, missed x F) :
    ∀ (syms : List Symbol) (e : Nat), (⟨⟨i, syms.length⟩, j⟩ : Item) ∈ c.column e →
    r.symbols.take syms.length = syms.reverse →
      e ≤ k → c.Tries (seq syms e) hit j e (c.Ready g.rules stands w active j k e) fun F =>
        ∀ ds, Trees g.rules stands syms.reverse (stretch w j e) ds → c.HitsWall g.rules stands w F active j k ds
  | [], e, hi, _, he => by
    obtain ⟨hj, hw, hy⟩ := h.yields_of_mem_column hg hi hr
    have hlen := length_stretch (j := j) hw
    rw [yields_nil_iff.1 hy, List.length_nil] at hlen
    obtain rfl : j = e := by simp only at hj; omega
    intro F hF
    obtain ⟨h1, h2⟩ := hnil F
    rw [h1]
    exact ⟨hF, .refl, fun _ => .inl h2⟩
  | s :: before, e, hi, htake, he => by
    have hn : r.symbols[before.length]? = some s := by
      have := congrArg (·[before.length]?) htake
      simpa [List.getElem?_take] using this
    have hbefore : r.symbols.take before.length = before.reverse := by
      have := congrArg (List.take before.length) htake
      rwa [List.take_take, List.length_cons, Nat.min_eq_left (Nat.le_succ _), List.reverse_cons,
        List.take_left' (List.length_reverse)] at this
    obtain ⟨hj, hw, -⟩ := h.yields_of_mem_column hg hi hr
    refine (hcons s before e _ (fun x F => ∀ ds d, Trees g.rules stands before.reverse (stretch w j x.1) ds →
      Trees g.rules stands [s] (stretch w x.1 e) [d] → c.HitsWall g.rules stands w F active j k (ds ++ [d]))
      (fun x F F' hF hm ds d hds hd => (hm ds d hds hd).mono hF fun _ hx => hx) fun ⟨m, e'⟩ hx => ?_).imp
      fun F hmiss ds hds => ?_
    · obtain ⟨rfl, hjm, hme, hprev⟩ := h.mem_splits_iff.1 hx
      have hnext : Item.next? g.rules ⟨⟨i, before.length⟩, j⟩ = some s := Item.next?_eq_some_iff.2 ⟨r, hr, hn⟩
      have hyb := (h.yields_of_mem_column hg hprev hr).2.2
      simp only [hbefore] at hyb
      exact tries_split hjoin hjm hme he hk
        (h.part_tries hg hactive hsolve hprev hnext (List.mem_of_getElem? hn) hjm hme he hw)
        (sequence_tries hit none' join seq hjoin hr hk hnil hcons before m hprev hbefore (by omega)) hyb
    · -- a tree of all symbols is a tree after some split and trees before it
      rw [List.reverse_cons] at hds
      obtain ⟨us, vs, cs, es, heq, rfl, hcs, hes⟩ := hds.split
      obtain ⟨d, rfl⟩ := List.length_eq_one_iff.1 hes.length_eq
      obtain ⟨m, hjm, hme, rfl, rfl⟩ := stretch_divide hj hw heq
      refine hmiss (m, e) (h.mem_splits_iff.2 ⟨rfl, hjm, hme, ?_⟩) cs d hcs hes
      exact h.mem_column_before hg hi hr (Nat.le_succ _) hjm hme (hbefore ▸ hcs.yields)

end Sequence

/-! ## Goals -/

section Ways

variable {b : Goal} (hb : c.Covers b) (hstretch : ∀ b' ∈ active, b'.start ≤ b.start ∧ b.stop ≤ b'.stop)
  (hways : ∀ r ∈ g.rules, r.origin = b.name → Yields g.rules stands r.symbols (stretch w b.start b.stop) →
    c.Solves g.rules stands w solve active b.start b.stop r)
include h hg hb hstretch hways

/-- A goal has a way, unless every tree of its rules runs against a wall. -/
theorem ways_tries (a : Ambiguity) :
    c.Tries (c.ways a (c.part solve) (fun x => Way.mk x.2) b) (· ≠ []) b.start b.stop
      (c.Ready g.rules stands w active b.start b.stop b.stop) fun F => ∀ x ∈ c.candidates b, ∀ ds,
        Trees g.rules stands x.2.symbols (stretch w b.start b.stop) ds →
          c.HitsWall g.rules stands w F active b.start b.stop ds := by
  obtain ⟨-, hk, -⟩ := (h.covers_iff hg).1 hb
  have hmono : ∀ (x : Nat × Rule) F F', Steady b.start b.stop F F' →
      (∀ ds, Trees g.rules stands x.2.symbols (stretch w b.start b.stop) ds →
        c.HitsWall g.rules stands w F active b.start b.stop ds) →
      ∀ ds, Trees g.rules stands x.2.symbols (stretch w b.start b.stop) ds →
        c.HitsWall g.rules stands w F' active b.start b.stop ds :=
    fun x F F' hF hm ds hds => (hm ds hds).mono hF fun _ hx => hx
  have hall : ∀ (x : Nat × Rule), x ∈ c.candidates b → g.rules[x.1]? = some x.2 ∧
      c.Solves g.rules stands w solve active b.start b.stop x.2 ∧
      (⟨⟨x.1, x.2.symbols.reverse.length⟩, b.start⟩ : Item) ∈ c.column b.stop := by
    rintro ⟨i, r⟩ hx
    obtain ⟨hn, hr, hi⟩ := h.complete_of_mem_candidates hx
    refine ⟨hr, hways r (List.mem_of_getElem? hr) hn ((h.mem_candidates hg hb).1 hx).2.2, ?_⟩
    rwa [List.length_reverse]
  cases a with
  | explicit =>
    refine .all hmono fun x hx => ?_
    obtain ⟨hr, hsolve, hi⟩ := hall x hx
    refine .map (· ≠ []) (fun r hr => by simpa using hr) ?_
    have hseq := h.sequence_tries hg hstretch hsolve (· ≠ []) [] (fun p r => r.map (· ++ [p]))
      (c.allSequences (c.part solve) x.1 b.start) (fun p r hr => by simpa using hr) hr hk
      (fun F => ⟨rfl, by
        show (if c.joins b.start b.start then [[]] else []) ≠ []
        rw [if_pos (h.joins_iff.2 rfl)]; simp⟩)
      (fun s before e ready missed hm hx => Tries.all hm hx) _ b.stop hi (by simp) (Nat.le_refl _)
    rwa [List.reverse_reverse] at hseq
  | resolve | forest =>
    refine .map (·.isSome = true) (fun r hr => by cases r <;> simp_all) (.first hmono fun x hx => ?_)
    obtain ⟨hr, hsolve, hi⟩ := hall x hx
    refine .map (·.isSome = true) (fun r hr => by simpa using hr) ?_
    have hseq := h.sequence_tries hg hstretch hsolve (·.isSome = true) none (fun p r => r.map (· ++ [p]))
      (c.firstSequence (c.part solve) x.1 b.start) (fun p r hr => by simpa using hr) hr hk
      (fun F => ⟨rfl, by
        show (if c.joins b.start b.start then some [] else none).isSome = true
        rw [if_pos (h.joins_iff.2 rfl)]; rfl⟩)
      (fun s before e ready missed hm hx => Tries.first hm hx) _ b.stop hi (by simp) (Nat.le_refl _)
    rwa [List.reverse_reverse] at hseq

end Ways

end Records

/-- Active goals, with the goal that is to be derived inside all of them. -/
structure Path (c : Chart) (rules : List Rule) (active : List Goal) (b : Goal) : Prop where
  nodup : active.Nodup
  covered : ∀ h ∈ active, c.Covers h
  nested : ∀ h ∈ active, h.start ≤ b.start ∧ b.stop ≤ h.stop
  leads : ∀ h ∈ active, h.start = h.stop → Relation.ReflTransGen (EmptyStep rules) h.name b.name

theorem Path.nested_cons {c : Chart} {rules : List Rule} {active : List Goal} {b : Goal} (h : c.Path rules active b) :
    ∀ x ∈ b :: active, x.start ≤ b.start ∧ b.stop ≤ x.stop := by
  rintro x (_ | ⟨_, hx⟩)
  · exact ⟨Nat.le_refl _, Nat.le_refl _⟩
  · exact h.nested x hx

namespace Records

variable {g : ChartRules} {stands : String → Token → Prop} {start : String} {w : List Token} {c : Chart}
  (h : c.Records g stands start w) (hg : g.Exact stands) {active : List Goal} {b : Goal}
include h hg

/-- There are no more goals than `goalCount`. -/
theorem length_active_lt (hn : active.Nodup) (hc : ∀ b ∈ active, c.Covers b) : active.length < c.goalCount := by
  let bound : List Goal := g.rules.flatMap fun r => (List.range (w.length + 1)).flatMap fun j =>
    (List.range (w.length + 1)).map fun k => ⟨r.origin, j, k⟩
  have hsub : ∀ b ∈ active, b ∈ bound := by
    intro b hb
    obtain ⟨hj, hk, -, hy⟩ := (h.covers_iff hg).1 (hc b hb)
    obtain ⟨r, hr, hn, -⟩ := yields_nonterminal_iff.1 hy
    exact List.mem_flatMap.2 ⟨r, hr, List.mem_flatMap.2 ⟨b.start, List.mem_range.2 (by omega),
      List.mem_map.2 ⟨b.stop, List.mem_range.2 (by omega), by rw [hn]⟩⟩⟩
  have hle := (List.subperm_of_subset hn hsub).length_le
  have hlen : bound.length = g.rules.length * ((w.length + 1) * (w.length + 1)) := by
    simp [bound, List.length_flatMap]
  rw [goalCount, h.grammar, h.length]
  omega

/-- A goal of a candidate's symbols lies inside the goal and all that are active. -/
theorem path_child (hp : c.Path g.rules active b) (hb : c.Covers b) (hnew : b ∉ active) {r : Rule} (hr : r ∈ g.rules)
    (ho : r.origin = b.name) (hy : Yields g.rules stands r.symbols (stretch w b.start b.stop)) {n : String} {s e : Nat}
    (hn : .nonterminal n ∈ r.symbols) (hs : b.start ≤ s) (he : e ≤ b.stop) :
    c.Path g.rules (b :: active) ⟨n, s, e⟩ := by
  have hnested := hp.nested_cons
  refine ⟨List.nodup_cons.2 ⟨hnew, hp.nodup⟩, ?_, fun x hx => ?_, fun x hx hempty => ?_⟩
  · rintro x (_ | ⟨_, hx⟩)
    exacts [hb, hp.covered x hx]
  · have := hnested x hx
    exact ⟨Nat.le_trans this.1 hs, Nat.le_trans he this.2⟩
  · -- the goal's own stretch is empty too, so all symbols of the rule are nullable
    have hle := (h.covers_iff hg).1 hb |>.1
    have hbs : b.start = b.stop := by have := hnested x hx; omega
    rw [hbs, stretch_self] at hy
    have hstep : EmptyStep g.rules b.name n := ⟨r, hr, ho, hn, allNullable_nullableNames_iff.2 hy⟩
    rcases List.mem_cons.1 hx with rfl | hx
    · exact .single hstep
    · exact .tail (hp.leads x hx hempty) hstep

/-- Over an empty stretch the lightest tree of a new goal meets no wall. -/
theorem not_missed_of_empty (hac : NoEmptyCycle g.rules) (hp : c.Path g.rules active b) (hb : c.Covers b)
    (hempty : b.start = b.stop) {F : Findings} (hF : c.Bright F)
    (hmiss : ∀ x ∈ c.candidates b, ∀ ds, Trees g.rules stands x.2.symbols (stretch w b.start b.stop) ds →
      c.HitsWall g.rules stands w F (b :: active) b.start b.stop ds) :
    ∀ d : Derivation, ¬ Trees g.rules stands [.nonterminal b.name] (stretch w b.start b.stop) [d] := by
  intro d
  induction hw : d.weight using Nat.strongRecOn generalizing d with
  | ind size ih =>
    intro ht
    obtain ⟨i, r, cs, hr, ho, hd, hcs⟩ := trees_nonterminal_iff.1 ht
    obtain rfl := List.singleton_inj.1 hd
    obtain ⟨n, d, hd, hdt, hc, hn⟩ := hmiss (i, r) ((h.mem_candidates hg hb).2 ⟨hr, ho, hcs.yields⟩) cs hcs
    have hnb : n = b.name := by
      rcases hn with hn | hn
      · exact absurd hn (hF _ hempty hc)
      · rcases List.mem_cons.1 hn with hn | hn
        · exact congrArg Goal.name hn
        · -- an active goal leads to the new one, and the new one to it
          obtain ⟨i', r', cs', hr', rfl, hd', -⟩ := trees_nonterminal_iff.1 hdt
          obtain rfl := List.singleton_inj.1 hd'
          have hy := hcs.yields
          rw [hempty, stretch_self] at hy
          have hstep : EmptyStep g.rules b.name r'.origin :=
            ⟨r, List.mem_of_getElem? hr, ho, hcs.origin_mem hr' hd, allNullable_nullableNames_iff.2 hy⟩
          exact hac _ _ (hp.leads _ hn hempty) (.single hstep)
    subst hnb
    exact ih d.weight (hw ▸ Derivation.weight_lt_of_mem hd) d rfl hdt

/-- Giving up a goal that was missed keeps what is ready. -/
theorem ready_giveUp (hb : c.Covers b) {F : Findings} (hF : c.Bright ((b, none) :: F))
    (hr : c.Ready g.rules stands w (b :: active) b.start b.stop b.stop F)
    (hmiss : ∀ x ∈ c.candidates b, ∀ ds, Trees g.rules stands x.2.symbols (stretch w b.start b.stop) ds →
      c.HitsWall g.rules stands w F (b :: active) b.start b.stop ds) :
    c.Ready g.rules stands w active b.start b.stop b.stop ((b, none) :: F) := by
  -- a wall that is the goal itself is now a goal that was given up
  have hwall : ∀ {ds}, c.HitsWall g.rules stands w F (b :: active) b.start b.stop ds →
      c.HitsWall g.rules stands w ((b, none) :: F) active b.start b.stop ds := by
    rintro ds ⟨n, d, hd, hdt, hc, hn⟩
    refine ⟨n, d, hd, hdt, hc, ?_⟩
    by_cases hnb : (⟨n, b.start, b.stop⟩ : Goal) = b
    · exact .inl (by rw [hnb, List.lookup_cons_self])
    · rw [lookup_cons_of_ne hnb]
      exact hn.imp id fun hm => (List.mem_cons.1 hm).resolve_left hnb
  refine ⟨hF, fun n j' k' h1 h2 h3 h4 hc => ?_, fun _ n hc hn r hr' ho ds hds => ?_⟩
  · rw [lookup_cons_of_ne (by rintro rfl; simp only at h4; omega)]
    exact hr.inner n j' k' h1 h2 h3 h4 hc
  · refine hwall ?_
    by_cases hnb : (⟨n, b.start, b.stop⟩ : Goal) = b
    · obtain ⟨i, hi⟩ := exists_rule_index hr'
      exact hmiss (i, r) ((h.mem_candidates hg hb).2 ⟨hi, by rw [ho, ← hnb], hds.yields⟩) ds hds
    · rw [lookup_cons_of_ne hnb] at hn
      exact hr.walled rfl n hc hn r hr' ho ds hds

/-- A goal over an empty stretch has a way, so it is not given up. -/
theorem bright_giveUp (hac : NoEmptyCycle g.rules) (hp : c.Path g.rules active b) (hb : c.Covers b) {F : Findings}
    (hF : c.Bright F) (hmiss : b.start = b.stop → ∀ x ∈ c.candidates b, ∀ ds,
    Trees g.rules stands x.2.symbols (stretch w b.start b.stop) ds →
      c.HitsWall g.rules stands w F (b :: active) b.start b.stop ds) : c.Bright ((b, none) :: F) := by
  intro x hx hc
  by_cases hxb : x = b
  · subst hxb
    obtain ⟨d, hd⟩ := ((h.covers_iff hg).1 hb).2.2.2.exists_tree
    exact absurd hd (h.not_missed_of_empty hg hac hp hb hx hF (hmiss hx) _)
  · rw [lookup_cons_of_ne hxb]
    exact hF x hx hc

/-- A new goal is closed with the ways that were found for it, or it is given up. -/
theorem close_tries (hac : NoEmptyCycle g.rules) (hp : c.Path g.rules active b) (hb : c.Covers b)
    {m : Search (List Way)}
    (hm : c.Tries m (· ≠ []) b.start b.stop (c.Ready g.rules stands w (b :: active) b.start b.stop b.stop) fun F =>
      ∀ x ∈ c.candidates b, ∀ ds, Trees g.rules stands x.2.symbols (stretch w b.start b.stop) ds →
        c.HitsWall g.rules stands w F (b :: active) b.start b.stop ds) {F : Findings} (hF : c.Bright F)
    (hnew : F.lookup b = none) {found : Option Packed}
    (hfound : found = if (m F).1.isEmpty then none else some (.node (m F).1)) :
    c.Bright ((b, found) :: (m F).2) ∧ Steady b.start b.stop F ((b, found) :: (m F).2) ∧
      (c.Ready g.rules stands w active b.start b.stop b.stop F → found.isSome = true ∨
        c.Ready g.rules stands w active b.start b.stop b.stop ((b, found) :: (m F).2) ∧
          List.lookup b ((b, found) :: (m F).2) = some none) := by
  obtain ⟨hb1, hst, ht⟩ := hm F hF
  have hsteady := hst.insert ((h.covers_iff hg).1 hb).1 hnew found
  cases hways : (m F).1 with
  | cons way ways =>
    rw [hways, List.isEmpty_cons, if_neg Bool.false_ne_true] at hfound
    subst hfound
    exact ⟨hb1.found _, hsteady, fun _ => .inl rfl⟩
  | nil =>
    rw [hways, List.isEmpty_nil, if_pos rfl] at hfound
    subst hfound
    have hbright : c.Bright ((b, none) :: (m F).2) := by
      refine h.bright_giveUp hg hac hp hb hb1 fun hempty => ?_
      have hr : c.Ready g.rules stands w (b :: active) b.start b.stop b.stop F := hempty ▸ hF.ready
      exact ((ht hr).resolve_left (not_not_intro hways)).2
    refine ⟨hbright, hsteady, fun hr => .inr ?_⟩
    obtain ⟨hr1, hmiss⟩ := (ht hr.activate).resolve_left (not_not_intro hways)
    exact ⟨h.ready_giveUp hg hb hbright hr1 hmiss, List.lookup_cons_self⟩

/-- Every goal that the chart covers is tried. -/
theorem solve_tries (hac : NoEmptyCycle g.rules) (a : Ambiguity) : ∀ (fuel : Nat) (active : List Goal) (b : Goal),
    c.Path g.rules active b → c.Covers b → fuel + active.length = c.goalCount + 1 →
      c.Tries (c.solve a fuel active b) (·.isSome = true) b.start b.stop
        (c.Ready g.rules stands w active b.start b.stop b.stop) fun F => F.lookup b = some none ∨ b ∈ active
  | 0, active, b, hp, _, hfuel => by
    have := h.length_active_lt hg hp.nodup hp.covered
    omega
  | fuel + 1, active, b, hp, hb, hfuel => by
    intro F hF
    rw [solve_succ]
    cases hlook : F.lookup b with
    | some known =>
      refine ⟨hF, .refl, fun hr => ?_⟩
      cases known with
      | none => exact .inr ⟨hr, .inl hlook⟩
      | some p => exact .inl rfl
    | none =>
      by_cases hmem : b ∈ active
      · simp only [List.contains_eq_mem, hmem, decide_true, if_true]
        exact ⟨hF, .refl, fun hr => .inr ⟨hr, .inr trivial⟩⟩
      · simp only [List.contains_eq_mem, hmem, decide_false, Bool.false_eq_true, if_false, or_false]
        have hways := h.ways_tries hg hb hp.nested_cons (fun r hr ho hy n s e hn hs hse he hc =>
          solve_tries hac a fuel (b :: active) ⟨n, s, e⟩ (h.path_child hg hp hb hmem hr ho hy hn hs he) hc
            (by rw [List.length_cons]; omega)) a
        exact h.close_tries hg hac hp hb hways hF hlook rfl

/-- A chart that accepts has a derivation of its start symbol. -/
theorem derivation?_isSome (hac : NoEmptyCycle g.rules) (a : Ambiguity) {name : String}
    (hc : c.Covers ⟨name, 0, c.stop⟩) : (c.derivation? a name).isSome = true := by
  have hp : c.Path g.rules [] ⟨name, 0, c.stop⟩ :=
    ⟨List.nodup_nil, by simp, by simp, by simp⟩
  have hready : c.Ready g.rules stands w [] 0 c.stop c.stop [] :=
    ⟨fun _ _ _ => by simp, fun _ _ _ _ _ _ _ _ => by simp, fun _ _ _ => by simp⟩
  obtain ⟨-, -, ht⟩ := h.solve_tries hg hac a (c.goalCount + 1) [] ⟨name, 0, c.stop⟩ hp hc rfl []
    (fun _ _ _ h => nomatch h)
  rcases ht hready with hs | ⟨hr, hn⟩
  · exact hs
  · obtain ⟨d, hd⟩ := ((h.covers_iff hg).1 hc).2.2.2.exists_tree
    exact absurd (hn.resolve_right (by simp)) (hr.not_givenUp (fun _ h => nomatch h) _ hd hc)

end Records

end Chart

end Earley

end GrammarKit
