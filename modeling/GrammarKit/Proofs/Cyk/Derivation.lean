/-
Binary derivations are derivations of the grammar. A binary derivation of a name is restored to trees of the symbols that
the name means, pieces and wrappers dissolving into the nodes above them and skipped rules coming back as nodes of one
child. Conversely a nonterminal of the grammar has a binary derivation of everything that it yields.
-/
import GrammarKit.Proofs.Cyk.Units

namespace GrammarKit.Cyk

/-- Binary derivations of a name over tokens. -/
inductive Binary.Derives (g : NormalForm) : String → List Token → Binary → Prop
  | leaf {r : NormalRule} {t : Token} (hr : r ∈ g.rules) (ht : r.terminal? = some t.kind) :
      Derives g r.origin [t] (.leaf r t)
  | branch {r : NormalRule} {a b : String} {u v : List Token} {x y : Binary} (hr : r ∈ g.rules)
      (hp : r.pair? = some (a, b))
    (hx : Derives g a u x) (hy : Derives g b v y) : Derives g r.origin (u ++ v) (.branch r x y)

namespace Binary.Derives

variable {g : NormalForm} {n : String} {w : List Token} {b : Binary}

theorem origin_eq (h : b.Derives g n w) : b.rule ∈ g.rules ∧ b.rule.origin = n := by
  cases h with
  | leaf hr _ => exact ⟨hr, rfl⟩
  | branch hr _ _ _ => exact ⟨hr, rfl⟩

theorem ne_nil (h : b.Derives g n w) : w ≠ [] := by
  induction h with
  | leaf _ _ => exact List.cons_ne_nil _ _
  | branch _ _ _ _ ih _ => exact fun hw => ih (List.append_eq_nil_iff.1 hw).1

end Binary.Derives

/-! ## Restoring -/

/-- What a binary derivation has inside, below the node of its own rule. -/
def Binary.inside : Binary → List Derivation
  | leaf _ t => [.token t]
  | branch _ x y => x.parts ++ y.parts

theorem Binary.parts_eq (b : Binary) : b.parts = contribution b.rule b.inside := by
  cases b with
  | leaf r t => rw [parts]; rfl
  | branch r x y => rw [parts]; rfl

section Restore

variable {rules : List Rule}

theorem Leads.plain (hplain : Plain rules) {is : List Nat} {m n : String} (h : Leads rules is m n) :
    isHelper n = false → isHelper m = false := by
  cases h with
  | nil => exact fun h => h
  | cons hr _ _ => exact fun _ => (hplain _ (List.mem_of_getElem? hr)).1

/-- Skipped rules come back as nodes of one child. -/
theorem Leads.trees {stands : String → Token → Prop} {is : List Nat} {m n : String} (h : Leads rules is m n)
    {w : List Token} {d : Derivation} (hd : Trees rules stands [.nonterminal n] w [d]) :
    Trees rules stands [.nonterminal m] w [is.foldr (fun unit d => .node unit [d]) d] := by
  induction h with
  | nil => exact hd
  | cons hr hs _ ih => exact .of_rule hr (hs ▸ ih hd)

/-- What a node adds to the node above it are trees of what its origin means. -/
theorem NormalRule.Gives.trees (hplain : Plain rules) {stands : String → Token → Prop} {r : NormalRule}
    {α β : List Symbol} (h : r.Gives rules β) (hm : Means rules r.origin α) {w : List Token} {ds : List Derivation}
    (hd : Trees rules stands β w ds) : Trees rules stands α w (Binary.contribution r ds) := by
  cases h with
  | @rule i base hs hb hc =>
    have horigin := (hplain base (List.mem_of_getElem? hb)).1
    rw [Binary.contribution, hs, hm.eq_own (hc.plain hplain horigin)]
    exact hc.trees (.of_rule hb hd)
  | helper hs _ hm' =>
    rw [hm.unique hm' rfl]
    rcases hs with hs | hs <;> rwa [Binary.contribution, hs]

theorem NormalRule.Gives.trees_parts (hplain : Plain rules) {stands : String → Token → Prop} {b : Binary}
    {α β : List Symbol} (h : b.rule.Gives rules β) (hm : Means rules b.rule.origin α) {w : List Token}
    (hd : Trees rules stands β w b.inside) : Trees rules stands α w b.parts := by
  rw [Binary.parts_eq]
  exact h.trees hplain hm hd

theorem NormalRule.terminal?_eq_some {r : NormalRule} {a : String} (h : r.terminal? = some a) :
    r.symbols = [.terminal a] := by
  unfold NormalRule.terminal? at h
  split at h
  · rename_i hs
    cases h
    exact hs
  · cases h

theorem NormalRule.pair?_eq_some {r : NormalRule} {a b : String} (h : r.pair? = some (a, b)) :
    ∃ x y : Symbol, r.symbols = [x, y] ∧ x.name = a ∧ y.name = b := by
  unfold NormalRule.pair? at h
  split at h
  · rename_i x y hs
    cases h
    exact ⟨x, y, hs, rfl, rfl⟩
  · cases h

variable (hplain : Plain rules) (hne : NoEmptyRule rules) {g : NormalForm}
  (hg : g.rules = eliminateUnits (shorten rules))
include hplain hne hg

/-- What is inside a binary derivation are trees of the symbols that its rule gives. -/
theorem Binary.Derives.exists_gives {n : String} {w : List Token} {b : Binary} (h : b.Derives g n w) :
    ∃ α, b.rule.Gives rules α ∧ Trees rules IsNamed α w b.inside := by
  induction h with
  | @leaf r t hr ht =>
    rw [hg] at hr
    obtain ⟨β, hb, hgives⟩ := fits_of_mem hplain hne hr
    rw [NormalRule.terminal?_eq_some ht] at hb
    cases hb
    exact ⟨_, hgives, .token rfl .nil⟩
  | @branch r a b u v x y hr hp hx hy ihx ihy =>
    rw [hg] at hr
    obtain ⟨β, hb, hgives⟩ := fits_of_mem hplain hne hr
    obtain ⟨s, t, hs, rfl, rfl⟩ := NormalRule.pair?_eq_some hp
    rw [hs] at hb
    obtain ⟨α, hgx, htx⟩ := ihx
    obtain ⟨β, hgy, hty⟩ := ihy
    cases hb with
    | pair ha hb =>
      exact ⟨_, hgives, (hgx.trees_parts hplain (hx.origin_eq.2 ▸ ha) htx).append
        (hgy.trees_parts hplain (hy.origin_eq.2 ▸ hb) hty)⟩

/-- A binary derivation of a name has trees of what the name means. -/
theorem Binary.Derives.trees {n : String} {w : List Token} {b : Binary} (h : b.Derives g n w) {α : List Symbol}
    (hm : Means rules n α) : Trees rules IsNamed α w b.parts := by
  obtain ⟨β, hgives, htrees⟩ := h.exists_gives hplain hne hg
  exact hgives.trees_parts hplain (h.origin_eq.2 ▸ hm) htrees

/-- A binary derivation of a nonterminal is restored to one of its trees. -/
theorem Binary.Derives.restore? {n : String} {w : List Token} {b : Binary} (h : b.Derives g n w)
    (hn : isHelper n = false) : ∃ d, b.restore? = some d ∧ Trees rules IsNamed [.nonterminal n] w [d] := by
  have htrees := h.trees hplain hne hg (.own hn)
  obtain ⟨d, hd⟩ := List.length_eq_one_iff.1 htrees.length_eq
  rw [hd] at htrees
  refine ⟨d, ?_, htrees⟩
  obtain ⟨hr, rfl⟩ := h.origin_eq
  rw [hg] at hr
  obtain ⟨β, -, hgives⟩ := fits_of_mem hplain hne hr
  cases hgives with
  | rule hs _ _ => rw [Binary.restore?, hs, hd]; rfl
  | helper _ hh _ => rw [hn] at hh; cases hh

end Restore

/-! ## Deriving -/

/-- Symbols over tokens, with binary derivations of the nonterminals. -/
inductive Covered (g : NormalForm) : List Symbol → List Token → Prop
  | nil : Covered g [] []
  | terminal {a : String} {t : Token} {ss : List Symbol} {ts : List Token} (h : IsNamed a t) (rest : Covered g ss ts) :
    Covered g (.terminal a :: ss) (t :: ts)
  | nonterminal {n : String} {ss : List Symbol} {us ts : List Token} {b : Binary} (h : b.Derives g n us)
    (rest : Covered g ss ts) : Covered g (.nonterminal n :: ss) (us ++ ts)

section Derive

variable {rules : List Rule} {g : NormalForm}

theorem mem_normal_of_short {r : NormalRule} (hg : g.rules = eliminateUnits (shorten rules)) (h : r ∈ shorten rules)
    (hu : r.unit? = none) : r ∈ g.rules := by
  rw [hg]
  exact List.mem_append_left _ (List.mem_filter.2 ⟨h, Option.isNone_iff_eq_none.2 hu⟩)

/-- The first of several symbols has a binary derivation under its wrapped name. -/
theorem Covered.exists_wrapped {s : Symbol} {ss : List Symbol} {w : List Token}
    (hw : ∀ a, .terminal a = s → wrapper a ∈ g.rules) (h : Covered g (s :: ss) w) :
    ∃ u v b, w = u ++ v ∧ Binary.Derives g (wrap s).name u b ∧ Covered g ss v := by
  cases h with
  | @terminal a t _ ts ha rest =>
    have hleaf : Binary.Derives g (wrapper a).origin [t] (.leaf (wrapper a) t) :=
      .leaf (hw a rfl) (congrArg some (Eq.symm ha))
    exact ⟨[t], ts, _, rfl, hleaf, rest⟩
  | nonterminal h rest => exact ⟨_, _, _, rfl, h, rest⟩

/-- Binary derivations of the symbols of a long rule are put together along its pieces, with the first one at the root. -/
theorem Covered.exists_pieces {i : Nat} : ∀ (zs : List Symbol) (k : Nat) (origin : String) (source : Source)
    {w : List Token}, 2 ≤ zs.length → (∀ r ∈ pieces i k origin source (zs.map wrap), r ∈ g.rules) →
      (∀ a, .terminal a ∈ zs → wrapper a ∈ g.rules) → Covered g zs w → ∃ b, Binary.Derives g origin w b ∧
        b.rule ∈ pieces i k origin source (zs.map wrap) ∧ b.rule.source = source
  | [], _, _, _, _, hl, _, _, _ => absurd hl (by simp)
  | [a], _, _, _, _, hl, _, _, _ => absurd hl (by simp)
  | [a, b], k, origin, source, w, _, hp, hw, h => by
    obtain ⟨u, v, x, rfl, hx, h⟩ := h.exists_wrapped fun c hc => hw c (hc ▸ List.mem_cons_self ..)
    obtain ⟨v1, v2, y, rfl, hy, h⟩ := h.exists_wrapped fun c hc => hw c (hc ▸ by simp)
    cases h
    rw [List.append_nil]
    have hmem : { origin, symbols := [wrap a, wrap b], source } ∈ pieces i k origin source ([a, b].map wrap) :=
      List.mem_singleton_self _
    exact ⟨_, Binary.Derives.branch (hp _ hmem) rfl hx hy, hmem, rfl⟩
  | a :: b :: c :: zs, k, origin, source, w, _, hp, hw, h => by
    obtain ⟨u, v, x, rfl, hx, h⟩ := h.exists_wrapped fun c hc => hw c (hc ▸ List.mem_cons_self ..)
    obtain ⟨y, hy, -⟩ := exists_pieces (b :: c :: zs) (k + 1) (splitName i k) .split (by simp)
      (fun r hr => hp r (List.mem_cons_of_mem _ hr)) (fun d hd => hw d (List.mem_cons_of_mem _ hd)) h
    have hmem : { origin, symbols := [wrap a, .nonterminal (splitName i k)], source } ∈
        pieces i k origin source ((a :: b :: c :: zs).map wrap) := List.mem_cons_self ..
    exact ⟨_, Binary.Derives.branch (hp _ hmem) rfl hx hy, hmem, rfl⟩

/-- The rule at the root may be another one of the same symbols. -/
theorem Binary.Derives.exists_of_symbols {n : String} {w : List Token} {b : Binary} (h : b.Derives g n w)
    {r : NormalRule} (hr : r ∈ g.rules) (hs : r.symbols = b.rule.symbols) :
    ∃ b', Binary.Derives g r.origin w b' ∧ b'.rule = r := by
  cases h with
  | @leaf r' t _ ht => exact ⟨.leaf r t, .leaf hr (by rw [NormalRule.terminal?, hs]; exact ht), rfl⟩
  | @branch r' a b u v x y _ hp hx hy =>
    exact ⟨.branch r x y, .branch hr (by rw [NormalRule.pair?, hs]; exact hp) hx hy, rfl⟩

variable (hplain : Plain rules) (hne : NoEmptyRule rules) (hg : g.rules = eliminateUnits (shorten rules))
include hplain hne hg

/-- A single nonterminal rule derives what its nonterminal does, by a copy of the rule at the root. -/
theorem Binary.Derives.unit {i : Nat} {r : Rule} {n : String} (hr : rules[i]? = some r)
    (hs : r.symbols = [.nonterminal n])
    {w : List Token} {b : Binary} (h : b.Derives g n w) : ∃ b, Binary.Derives g r.origin w b := by
  obtain ⟨hb, horigin⟩ := h.origin_eq
  rw [hg] at hb
  obtain ⟨r0, hr0, is, hu, hx, he⟩ := exists_short hb
  have hl : Leads rules is n r0.origin := horigin ▸ leads_of_chainsFrom hplain hne hx
  obtain ⟨r', hr', ho, hsym⟩ := exists_copy hplain hne hr0 hu (.cons hr hs hl)
  obtain ⟨b', hb', -⟩ := h.exists_of_symbols (hg ▸ hr') (by rw [hsym, he])
  exact ⟨b', ho ▸ hb'⟩

/-- What the symbols of a rule derive, unless it is a single nonterminal, the rule derives with itself at the root. -/
theorem Covered.exists_proper {i : Nat} {r : Rule} (hr : rules[i]? = some r) (hunit : ∀ n, r.symbols ≠ [.nonterminal n])
    {w : List Token} (h : Covered g r.symbols w) :
    ∃ b, Binary.Derives g r.origin w b ∧ b.rule ∈ shorten rules ∧ b.rule.source = .rule i := by
  rcases hs : r.symbols with _ | ⟨s, _ | ⟨t, rest⟩⟩
  · exact absurd hs (hne r (List.mem_of_getElem? hr))
  · rw [hs] at h
    cases h with
    | @terminal a t _ _ ha rest =>
      cases rest
      have hmem : ({ origin := r.origin, symbols := [.terminal a], source := .rule i } :
        NormalRule) ∈ shorten rules := by
        refine mem_shorten.2 ⟨i, r, hr, .inl ?_⟩
        rw [shortened, hs]
        exact List.mem_singleton_self _
      exact ⟨_, .leaf (mem_normal_of_short hg hmem rfl) (congrArg some (Eq.symm ha)), hmem, rfl⟩
    | nonterminal h rest => exact absurd hs (hunit _)
  · have hlen : 2 ≤ r.symbols.length := by rw [hs]; simp
    have hshort : shortened i r = pieces i 1 r.origin (.rule i) (r.symbols.map wrap) := by rw [shortened, hs]
    have hpiece : ∀ r' ∈ pieces i 1 r.origin (.rule i) (r.symbols.map wrap), r' ∈ shorten rules := fun r' hr' =>
      mem_shorten.2 ⟨i, r, hr, .inl (by rw [hshort]; exact hr')⟩
    obtain ⟨b, hb, hmem, hsource⟩ : ∃ b, Binary.Derives g r.origin w b ∧
        b.rule ∈ pieces i 1 r.origin (.rule i) (r.symbols.map wrap) ∧ b.rule.source = .rule i := by
      refine Covered.exists_pieces r.symbols 1 r.origin (.rule i) hlen (fun r' hr' => ?_) (fun a ha => ?_) h
      · have hfits := pieces_fit hr (hplain r (List.mem_of_getElem? hr)).2 r.symbols 0 r.origin (.rule i)
          List.drop_zero.symm hlen (fun symbols => .rule rfl hr .nil) r' hr'
        exact mem_normal_of_short hg (hpiece r' hr') hfits.unit?_eq
      · exact mem_normal_of_short hg
          (mem_shorten.2 ⟨i, r, hr, .inr ⟨a, mem_wrappedTerminals.2 ⟨hlen, ha⟩, rfl⟩⟩) rfl
    exact ⟨b, hb, hpiece _ hmem, hsource⟩

theorem Covered.exists_rule {i : Nat} {r : Rule} (hr : rules[i]? = some r) {w : List Token}
    (h : Covered g r.symbols w) : ∃ b, Binary.Derives g r.origin w b := by
  by_cases hunit : ∃ n, r.symbols = [.nonterminal n]
  · obtain ⟨n, hs⟩ := hunit
    rw [hs] at h
    cases h with
    | nonterminal h rest =>
      cases rest
      rw [List.append_nil]
      exact h.unit hplain hne hg hr hs
  · obtain ⟨b, hb, -⟩ := h.exists_proper hplain hne hg hr fun n hs => hunit ⟨n, hs⟩
    exact ⟨b, hb⟩

theorem Covered.of_yields {ss : List Symbol} {ts : List Token} (h : Yields rules IsNamed ss ts) : Covered g ss ts := by
  induction h with
  | nil => exact .nil
  | terminal h _ ih => exact .terminal h ih
  | nonterminal hr _ _ ih1 ih2 =>
    obtain ⟨i, hi⟩ := List.getElem?_of_mem hr
    obtain ⟨b, hb⟩ := ih1.exists_rule hplain hne hg hi
    exact .nonterminal hb ih2

/-- A nonterminal has a binary derivation of everything that it yields. -/
theorem exists_derives {n : String} {w : List Token} (h : Yields rules IsNamed [.nonterminal n] w) :
    ∃ b, Binary.Derives g n w b := by
  cases Covered.of_yields hplain hne hg h with
  | nonterminal hb rest =>
    cases rest
    rw [List.append_nil]
    exact ⟨_, hb⟩

end Derive

end GrammarKit.Cyk
