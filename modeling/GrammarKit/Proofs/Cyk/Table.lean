/-
The table is complete. A cell is what a list of offers leaves: for every name that was offered a derivation, one whose
rule is no worse than that of any other. The offers of a stretch are the binary derivations that join two shorter
stretches, so by the length of the stretches every cell has a derivation of each name that has one over its stretch, and
all the nodes of this derivation are of rules that are no worse than others in their places.

None of this depends on the order of the offers within a stretch (`Table.Filled`). The order decides only which of
several derivations of one rank stays in a cell; the names in the cell and their ranks are the same in every order.
-/
import GrammarKit.Proofs.Cyk.Derivation

namespace GrammarKit.Cyk

/-! ## Ranks -/

namespace Rank

theorem noWorse_iff {a b : Rank} : a.noWorse b = true ↔
    b.priority < a.priority ∨ a.priority = b.priority ∧ a.order ≤ b.order := by
  simp [noWorse]

theorem noWorse_refl (a : Rank) : a.noWorse a = true := noWorse_iff.2 (.inr ⟨rfl, Nat.le_refl _⟩)

theorem noWorse_trans {a b c : Rank} (h : a.noWorse b = true) (k : b.noWorse c = true) : a.noWorse c = true := by
  rw [noWorse_iff] at *
  omega

theorem noWorse_antisymm {a b : Rank} (h : a.noWorse b = true) (k : b.noWorse a = true) : a = b := by
  rw [noWorse_iff] at h k
  obtain ⟨p, o⟩ := a
  obtain ⟨q, o'⟩ := b
  obtain rfl : p = q := by dsimp only at h k; omega
  obtain rfl : o = o' := by dsimp only at h k; omega
  rfl

theorem noWorse_total {a b : Rank} (h : ¬ a.noWorse b = true) : b.noWorse a = true := by
  rw [noWorse_iff] at *
  omega

end Rank

/-! ## Offers -/

namespace Cell

theorem lookup_replace {n m : String} {v : Rank × Binary} : ∀ c : Cell,
    (c.map fun e => if e.1 == n then (n, v) else e).lookup m = if m = n then (c.lookup n).map fun _ => v else c.lookup m
  | [] => by simp
  | (k, x) :: c => by
    have ih := lookup_replace (n := n) (m := m) (v := v) c
    by_cases hk : k = n
    · subst hk
      rw [List.map_cons, if_pos (beq_self_eq_true k), List.lookup_cons, List.lookup_cons, ih]
      by_cases hm : m = k
      · rw [if_pos hm, if_pos hm, hm, beq_self_eq_true]
        rfl
      · rw [if_neg hm, if_neg hm, List.lookup_cons, beq_eq_false_iff_ne.2 hm]
    · rw [List.map_cons, if_neg (by simpa using hk), List.lookup_cons, ih, List.lookup_cons, List.lookup_cons,
        beq_eq_false_iff_ne.2 (Ne.symm hk)]
      by_cases hm : m = n
      · rw [hm, beq_eq_false_iff_ne.2 (Ne.symm hk)]
      · simp only [if_neg hm]

theorem lookup_offer_of_ne {c : Cell} {n m : String} {rank : Rank} {b : Binary} (h : m ≠ n) :
    (c.offer n rank b).lookup m = c.lookup m := by
  unfold offer
  split
  · split
    · rfl
    · rw [lookup_replace, if_neg h]
  · rw [List.lookup_append]
    simp [List.lookup_cons, beq_eq_false_iff_ne.2 h]

/-- After an offer there is a derivation, the one that was offered or the one that was there, and it is no worse than
either. -/
theorem lookup_offer_self (c : Cell) (n : String) (rank : Rank) (b : Binary) : ∃ x,
    (c.offer n rank b).lookup n = some x ∧ (x = (rank, b) ∨ c.lookup n = some x) ∧ x.1.noWorse rank = true ∧
      ∀ y, c.lookup n = some y → x.1.noWorse y.1 = true := by
  unfold offer
  split
  · rename_i present b' hl
    split
    · rename_i hle
      refine ⟨_, hl, .inr hl, hle, fun y hy => ?_⟩
      obtain rfl := Option.some.inj (hl.symm.trans hy)
      exact Rank.noWorse_refl _
    · rename_i hle
      refine ⟨(rank, b), by rw [lookup_replace, if_pos rfl, hl]; rfl, .inl rfl, Rank.noWorse_refl _, fun y hy => ?_⟩
      obtain rfl := Option.some.inj (hl.symm.trans hy)
      exact Rank.noWorse_total hle
  · rename_i hl
    refine ⟨(rank, b), by rw [List.lookup_append, hl]; simp, .inl rfl, Rank.noWorse_refl _, fun y hy => ?_⟩
    rw [hl] at hy
    cases hy

/-- The cell after several offers. -/
def offerAll (c : Cell) (offers : List (String × Rank × Binary)) : Cell :=
  offers.foldl (fun c x => c.offer x.1 x.2.1 x.2.2) c

theorem mem_of_offerAll {n : String} {x : Rank × Binary} : ∀ (offers : List (String × Rank × Binary)) (c : Cell),
    (c.offerAll offers).lookup n = some x → c.lookup n = some x ∨ (n, x) ∈ offers
  | [], _, h => .inl h
  | (m, rank, b) :: offers, c, h => by
    rcases mem_of_offerAll offers (c.offer m rank b) h with h | h
    · by_cases hn : n = m
      · subst hn
        obtain ⟨y, hy, hcase, -⟩ := lookup_offer_self c n rank b
        obtain rfl := Option.some.inj (h.symm.trans hy)
        rcases hcase with rfl | hcase
        · exact .inr (List.mem_cons_self ..)
        · exact .inl hcase
      · rw [lookup_offer_of_ne hn] at h
        exact .inl h
    · exact .inr (List.mem_cons_of_mem _ h)

theorem exists_of_offerAll {n : String} : ∀ (offers : List (String × Rank × Binary)) (c : Cell),
    ((∃ x, c.lookup n = some x) ∨ ∃ x, (n, x) ∈ offers) → ∃ x, (c.offerAll offers).lookup n = some x
  | [], c, h => by simpa [offerAll] using h
  | (m, rank, b) :: offers, c, h => by
    refine exists_of_offerAll offers (c.offer m rank b) ?_
    by_cases hn : n = m
    · subst hn
      obtain ⟨y, hy, -⟩ := lookup_offer_self c n rank b
      exact .inl ⟨y, hy⟩
    · rw [lookup_offer_of_ne hn]
      refine h.imp_right fun ⟨x, hx⟩ => ⟨x, ?_⟩
      rcases List.mem_cons.1 hx with hx | hx
      · exact absurd (congrArg Prod.fst hx) hn
      · exact hx

/-- What several offers leave is no worse than any of them. -/
theorem noWorse_of_offerAll {n : String} {x : Rank × Binary} : ∀ (offers : List (String × Rank × Binary)) (c : Cell),
    (c.offerAll offers).lookup n = some x →
      (∀ y, c.lookup n = some y → x.1.noWorse y.1 = true) ∧ ∀ y, (n, y) ∈ offers → x.1.noWorse y.1 = true
  | [], c, h => by
    refine ⟨fun y hy => ?_, fun y hy => by cases hy⟩
    obtain rfl := Option.some.inj (hy.symm.trans h)
    exact Rank.noWorse_refl _
  | (m, rank, b) :: offers, c, h => by
    obtain ⟨hthere, hoffers⟩ := noWorse_of_offerAll offers (c.offer m rank b) h
    by_cases hn : n = m
    · subst hn
      obtain ⟨z, hz, -, hrank, hold⟩ := lookup_offer_self c n rank b
      have hxz := hthere z hz
      refine ⟨fun y hy => Rank.noWorse_trans hxz (hold y hy), fun y hy => ?_⟩
      rcases List.mem_cons.1 hy with hy | hy
      · cases hy
        exact Rank.noWorse_trans hxz hrank
      · exact hoffers y hy
    · rw [lookup_offer_of_ne hn] at hthere
      refine ⟨hthere, fun y hy => ?_⟩
      rcases List.mem_cons.1 hy with hy | hy
      · exact absurd (congrArg Prod.fst hy) hn
      · exact hoffers y hy

/-- The rank of the derivation of a name. -/
def rank? (c : Cell) (n : String) : Option Rank := (c.lookup n).map (·.1)

/-- The rank that several offers leave is the best of those that were offered. -/
theorem rank?_offerAll_eq_some {n : String} {rank : Rank} {offers : List (String × Rank × Binary)} :
    (offerAll [] offers).rank? n = some rank ↔
      (∃ b, (n, rank, b) ∈ offers) ∧ ∀ y, (n, y) ∈ offers → rank.noWorse y.1 = true := by
  rw [rank?, Option.map_eq_some_iff]
  constructor
  · rintro ⟨⟨_, b⟩, hx, rfl⟩
    exact ⟨⟨b, (mem_of_offerAll offers [] hx).resolve_left (by simp)⟩, (noWorse_of_offerAll offers [] hx).2⟩
  · rintro ⟨⟨b, hb⟩, hbest⟩
    obtain ⟨x, hx⟩ := exists_of_offerAll offers [] (.inr ⟨_, hb⟩)
    have hmem := (mem_of_offerAll offers [] hx).resolve_left (by simp)
    exact ⟨x, hx, Rank.noWorse_antisymm ((noWorse_of_offerAll offers [] hx).2 _ hb) (hbest x hmem)⟩

/-- Which ranks are offered to a name decides the rank that is left, the order of the offers does not. -/
theorem rank?_offerAll_congr {os ps : List (String × Rank × Binary)}
    (h : ∀ n rank, (∃ b, (n, rank, b) ∈ os) ↔ ∃ b, (n, rank, b) ∈ ps) :
    (offerAll [] os).rank? = (offerAll [] ps).rank? := by
  funext n
  refine Option.ext fun rank => ?_
  rw [rank?_offerAll_eq_some, rank?_offerAll_eq_some, h]
  refine and_congr_right fun _ => ⟨fun hbest y hy => ?_, fun hbest y hy => ?_⟩
  · obtain ⟨b, hb⟩ := (h n y.1).2 ⟨y.2, hy⟩
    exact hbest (y.1, b) hb
  · obtain ⟨b, hb⟩ := (h n y.1).1 ⟨y.2, hy⟩
    exact hbest (y.1, b) hb

theorem offerAll_append (c : Cell) (os ps : List (String × Rank × Binary)) :
    c.offerAll (os ++ ps) = (c.offerAll os).offerAll ps := List.foldl_append

/-! ## Cells -/

/-- What one token is offered. -/
def tokenOffers (rules : List Rule) (g : NormalForm) (t : Token) : List (String × Rank × Binary) :=
  g.terminalRules.filterMap fun (n, r) => if n == t.kind then some (r.origin, .ofNormal rules r, .leaf r t) else none

/-- What two neighbouring cells offer together. -/
def joinOffers (rules : List Rule) (g : NormalForm) (left right : Cell) : List (String × Rank × Binary) :=
  g.pairRules.filterMap fun ((a, b), r) => match left.get? a, right.get? b with
    | some x, some y => some (r.origin, .ofNormal rules r, .branch r x y)
    | _, _ => none

theorem ofToken_eq (rules : List Rule) (g : NormalForm) (t : Token) :
    ofToken rules g t = offerAll [] (tokenOffers rules g t) := by
  rw [ofToken, offerAll, tokenOffers, List.foldl_filterMap]
  congr 1
  funext c (n, r)
  dsimp only
  split <;> rfl

theorem join_eq (rules : List Rule) (g : NormalForm) (c left right : Cell) :
    c.join rules g left right = c.offerAll (joinOffers rules g left right) := by
  rw [join, offerAll, joinOffers, List.foldl_filterMap]
  congr 1
  funext c ((a, b), r)
  dsimp only
  cases left.get? a <;> cases right.get? b <;> rfl

theorem foldl_join_eq (rules : List Rule) (g : NormalForm) (left right : Nat → Cell) : ∀ (ks : List Nat) (c : Cell),
    ks.foldl (fun c k => c.join rules g (left k) (right k)) c =
    c.offerAll (ks.flatMap fun k => joinOffers rules g (left k) (right k))
  | [], _ => rfl
  | k :: ks, c => by rw [List.foldl_cons, List.flatMap_cons, offerAll_append,
      foldl_join_eq rules g left right ks, join_eq]

end Cell

/-- The rule is no worse than the rule of any derivation of its origin. -/
def NormalRule.Best (rules : List Rule) (g : NormalForm) (r : NormalRule) (w : List Token) : Prop :=
  ∀ b, Binary.Derives g r.origin w b → (Rank.ofNormal rules r).noWorse (.ofNormal rules b.rule) = true

/-- Binary derivations whose nodes are all of rules that are no worse than others in their places. -/
inductive Binary.Chosen (rules : List Rule) (g : NormalForm) : String → List Token → Binary → Prop
  | leaf {r : NormalRule} {t : Token} (hr : r ∈ g.rules) (ht : r.terminal? = some t.kind)
    (hbest : r.Best rules g [t]) : Chosen rules g r.origin [t] (.leaf r t)
  | branch {r : NormalRule} {a b : String} {u v : List Token} {x y : Binary} (hr : r ∈ g.rules)
    (hp : r.pair? = some (a, b)) (hx : Chosen rules g a u x) (hy : Chosen rules g b v y)
    (hbest : r.Best rules g (u ++ v)) : Chosen rules g r.origin (u ++ v) (.branch r x y)

theorem Binary.Chosen.derives {rules : List Rule} {g : NormalForm} {n : String} {w : List Token} {b : Binary}
    (h : b.Chosen rules g n w) : b.Derives g n w := by
  induction h with
  | leaf hr ht _ => exact .leaf hr ht
  | branch hr hp _ _ _ ihx ihy => exact .branch hr hp ihx ihy

namespace Cell

/-- A cell has chosen derivations over its stretch, and one of every name that has any derivation. -/
structure Records (rules : List Rule) (g : NormalForm) (w : List Token) (c : Cell) : Prop where
  sound : ∀ n b, c.get? n = some b → b.Chosen rules g n w
  complete : ∀ n (b : Binary), b.Derives g n w → ∃ b', c.get? n = some b'

variable {rules : List Rule} {g : NormalForm} {w : List Token}

/-- Offers leave a recorded stretch if they have the rank of their rules, if they are chosen as soon as their rule is
best, and if for every derivation there is one of the same rank. -/
theorem records_offerAll {offers : List (String × Rank × Binary)}
    (hs : ∀ x ∈ offers, x.2.2.rule.origin = x.1 ∧ x.2.1 = .ofNormal rules x.2.2.rule ∧
      (x.2.2.rule.Best rules g w → x.2.2.Chosen rules g x.1 w))
    (hc : ∀ n (b : Binary), b.Derives g n w → ∃ y, (n, .ofNormal rules b.rule, y) ∈ offers) :
    Records rules g w (offerAll [] offers) := by
  refine ⟨fun n b h => ?_, fun n b h => ?_⟩
  · obtain ⟨x, hx, rfl⟩ := Option.map_eq_some_iff.1 h
    rcases mem_of_offerAll offers [] hx with hm | hm
    · cases hm
    · obtain ⟨horigin, hrank, hchosen⟩ := hs _ hm
      refine hchosen fun b hb => ?_
      obtain ⟨y, hy⟩ := hc _ b hb
      have hle := (noWorse_of_offerAll offers [] hx).2 _ (horigin ▸ hy)
      rwa [hrank] at hle
  · obtain ⟨y, hy⟩ := hc n b h
    obtain ⟨x, hx⟩ := exists_of_offerAll offers [] (.inr ⟨_, hy⟩)
    exact ⟨x.2, Option.map_eq_some_iff.2 ⟨x, hx, rfl⟩⟩

theorem mem_terminalRules {a : String} {r : NormalRule} : (a, r) ∈ g.terminalRules ↔
    r ∈ g.rules ∧ r.terminal? = some a := by
  simp only [NormalForm.terminalRules, List.mem_filterMap, Option.map_eq_some_iff, Prod.mk.injEq]
  constructor
  · rintro ⟨r', hr, n, hn, rfl, rfl⟩; exact ⟨hr, hn⟩
  · rintro ⟨hr, hn⟩; exact ⟨r, hr, a, hn, rfl, rfl⟩

theorem mem_pairRules {a b : String} {r : NormalRule} : ((a, b), r) ∈ g.pairRules ↔
    r ∈ g.rules ∧ r.pair? = some (a, b) := by
  simp only [NormalForm.pairRules, List.mem_filterMap, Option.map_eq_some_iff, Prod.mk.injEq]
  constructor
  · rintro ⟨r', hr, p, hp, rfl, rfl⟩; exact ⟨hr, hp⟩
  · rintro ⟨hr, hp⟩; exact ⟨r, hr, _, hp, rfl, rfl⟩

theorem ofToken_records (t : Token) : Records rules g [t] (ofToken rules g t) := by
  rw [ofToken_eq]
  refine records_offerAll (fun x hx => ?_) fun n b h => ?_
  · obtain ⟨⟨a, r⟩, hr, hx⟩ := List.mem_filterMap.1 hx
    obtain ⟨hr, ha⟩ := mem_terminalRules.1 hr
    dsimp only at hx
    split at hx
    · rename_i hk
      cases hx
      exact ⟨rfl, rfl, .leaf hr (ha.trans (congrArg some (eq_of_beq hk)))⟩
    · cases hx
  · generalize hw : [t] = w at h
    cases h with
    | @leaf r t' hr ht =>
      obtain ⟨rfl, -⟩ := List.cons.inj hw
      refine ⟨.leaf r t, List.mem_filterMap.2 ⟨(t.kind, r), mem_terminalRules.2 ⟨hr, ht⟩, ?_⟩⟩
      dsimp only
      rw [if_pos (beq_self_eq_true _)]
      rfl
    | branch _ _ hx hy =>
      -- a branch has two tokens at least
      rcases List.append_eq_singleton_iff.1 hw.symm with ⟨hu, -⟩ | ⟨-, hv⟩
      · exact absurd hu hx.ne_nil
      · exact absurd hv hy.ne_nil

theorem mem_joinOffers {left right : Cell} {n : String} {x : Rank × Binary} : (n, x) ∈ joinOffers rules g left right ↔
    ∃ r a b y z, r ∈ g.rules ∧ r.pair? = some (a, b) ∧ left.get? a = some y ∧ right.get? b = some z ∧
      n = r.origin ∧ x = (.ofNormal rules r, .branch r y z) := by
  simp only [joinOffers, List.mem_filterMap, Prod.exists]
  constructor
  · rintro ⟨a, b, r, hr, h⟩
    obtain ⟨hr, hp⟩ := mem_pairRules.1 hr
    split at h
    · rename_i y z hy hz
      cases h
      exact ⟨r, a, b, y, z, hr, hp, hy, hz, rfl, rfl⟩
    · cases h
  · rintro ⟨r, a, b, y, z, hr, hp, hy, hz, rfl, rfl⟩
    exact ⟨a, b, r, mem_pairRules.2 ⟨hr, hp⟩, by rw [hy, hz]⟩

theorem exists_get?_congr {c d : Cell} (h : c.rank? = d.rank?) (n : String) :
    (∃ b, c.get? n = some b) ↔ ∃ b, d.get? n = some b := by
  have hn := congrFun h n
  unfold rank? at hn
  unfold get?
  cases hc : c.lookup n <;> cases hd : d.lookup n <;> simp_all

/-- Two neighbouring cells offer a name and a rank by which names they hold. -/
theorem exists_mem_joinOffers_congr {left right left' right' : Cell} {n : String} {rank : Rank}
    (hl : left.rank? = left'.rank?) (hr : right.rank? = right'.rank?) :
    (∃ b, (n, rank, b) ∈ joinOffers rules g left right) ↔ ∃ b, (n, rank, b) ∈ joinOffers rules g left' right' := by
  have offered : ∀ l r : Cell, (∃ b, (n, rank, b) ∈ joinOffers rules g l r) ↔ ∃ q a b, q ∈ g.rules ∧
      q.pair? = some (a, b) ∧ n = q.origin ∧ rank = .ofNormal rules q ∧
        (∃ y, l.get? a = some y) ∧ ∃ z, r.get? b = some z := by
    intro l r
    simp only [mem_joinOffers, Prod.mk.injEq]
    constructor
    · rintro ⟨_, q, a, b, y, z, hq, hp, hy, hz, hn, hrank, -⟩
      exact ⟨q, a, b, hq, hp, hn, hrank, ⟨y, hy⟩, z, hz⟩
    · rintro ⟨q, a, b, hq, hp, hn, hrank, ⟨y, hy⟩, z, hz⟩
      exact ⟨_, q, a, b, y, z, hq, hp, hy, hz, hn, hrank, rfl⟩
  rw [offered, offered]
  simp only [exists_get?_congr hl, exists_get?_congr hr]

end Cell

/-! ## Rows -/

namespace Table

/-- The cells of a table are filled from shorter ones, with the offers of all cuts of a stretch in any order. -/
structure Filled (rules : List Rule) (g : NormalForm) (tokens : List Token) (t : Table) : Prop where
  first : ∀ start (h : start < tokens.length), t.cell start 1 = Cell.ofToken rules g tokens[start]
  next : ∀ start length, 1 ≤ length → length < t.length → start + (length + 1) ≤ tokens.length →
    ∃ offers, t.cell start (length + 1) = Cell.offerAll [] offers ∧ ∀ o, o ∈ offers ↔ ∃ k, 1 ≤ k ∧ k ≤ length ∧
      o ∈ Cell.joinOffers rules g (t.cell start k) (t.cell (start + k) (length + 1 - k))

/-- Every cell up to the table's length records its stretch. -/
def Records (rules : List Rule) (g : NormalForm) (tokens : List Token) (t : Table) : Prop :=
  ∀ start length, 1 ≤ length → length ≤ t.length → start + length ≤ tokens.length →
    (t.cell start length).Records rules g ((tokens.drop start).take length)

variable {rules : List Rule} {g : NormalForm} {tokens : List Token} {t : Table}

/-! ### The rows that are computed -/

theorem cell_append_of_le {row : List Cell} {start length : Nat} (h : 1 ≤ length) (hl : length ≤ t.length) :
    (t ++ [row]).cell start length = t.cell start length := by
  rw [cell, cell, List.getElem?_append_left (by omega)]

theorem cell_append_last {row : List Cell} {start : Nat} :
    (t ++ [row]).cell start (t.length + 1) = row[start]?.getD [] := by
  rw [cell, Nat.add_sub_cancel, List.getElem?_append_right (Nat.le_refl _), Nat.sub_self]
  rfl

theorem nextRow_eq {start : Nat} (h : start + (t.length + 1) ≤ tokens.length) :
    (nextRow rules g tokens.length t)[start]?.getD [] = Cell.offerAll [] ((List.range' 1 t.length).flatMap fun k =>
      Cell.joinOffers rules g (t.cell start k) (t.cell (start + k) (t.length + 1 - k))) := by
  rw [nextRow, List.getElem?_map, List.getElem?_range (by omega), ← Cell.foldl_join_eq]
  rfl

theorem filled_first : Filled rules g tokens [tokens.map (Cell.ofToken rules g)] := by
  refine ⟨fun start h => ?_, fun start length h1 hl => ?_⟩
  · simp [cell, List.getElem?_eq_getElem h]
  · rw [List.length_singleton] at hl
    omega

theorem Filled.step (ht : 1 ≤ t.length) (h : Filled rules g tokens t) :
    Filled rules g tokens (t ++ [nextRow rules g tokens.length t]) := by
  refine ⟨fun start hs => ?_, fun start length h1 hl hs => ?_⟩
  · rw [cell_append_of_le (Nat.le_refl 1) ht]
    exact h.first start hs
  · rw [List.length_append, List.length_singleton] at hl
    -- the parts are shorter than the new row
    have hparts : ∀ k, 1 ≤ k → k ≤ length →
        Cell.joinOffers rules g ((t ++ [nextRow rules g tokens.length t]).cell start k)
          ((t ++ [nextRow rules g tokens.length t]).cell (start + k) (length + 1 - k)) =
        Cell.joinOffers rules g (t.cell start k) (t.cell (start + k) (length + 1 - k)) := by
      intro k hk hkl
      rw [cell_append_of_le hk (by omega), cell_append_of_le (by omega) (by omega)]
    rcases Nat.lt_or_ge length t.length with hlt | hge
    · obtain ⟨offers, heq, hmem⟩ := h.next start length h1 hlt hs
      refine ⟨offers, by rw [cell_append_of_le (by omega) (by omega), heq], fun o => (hmem o).trans ?_⟩
      exact exists_congr fun k => and_congr_right fun hk => and_congr_right fun hkl => by rw [hparts k hk hkl]
    · obtain rfl : length = t.length := by omega
      refine ⟨_, by rw [cell_append_last, nextRow_eq hs], fun o => ?_⟩
      simp only [List.mem_flatMap, List.mem_range'_1, and_assoc]
      refine exists_congr fun k => and_congr_right fun hk => ?_
      rw [show k < 1 + t.length ↔ k ≤ t.length by omega]
      exact and_congr_right fun hkl => by rw [hparts k hk hkl]

theorem filled_grow : ∀ (n : Nat) {t : Table}, 1 ≤ t.length → Filled rules g tokens t →
    Filled rules g tokens (grow rules g tokens.length n t) ∧ (grow rules g tokens.length n t).length = t.length + n
  | 0, _, _, h => ⟨h, rfl⟩
  | n + 1, t, ht, h => by
    rw [grow]
    obtain ⟨hfilled, hlen⟩ := filled_grow n (by rw [List.length_append]; omega) (h.step ht)
    refine ⟨hfilled, hlen.trans ?_⟩
    rw [List.length_append, List.length_singleton]
    omega

theorem filled_ofTokens : Filled rules g tokens (ofTokens rules g tokens) := (filled_grow _ (by simp) filled_first).1

theorem length_ofTokens (ht : tokens ≠ []) : (ofTokens rules g tokens).length = tokens.length := by
  have hpos := List.length_pos_iff.2 ht
  rw [ofTokens, (filled_grow _ (by simp) filled_first).2, List.length_singleton]
  omega

/-! ### What the cells hold -/

/-- Where a stretch is cut, both parts are recorded. -/
theorem cut_stretch (start k length : Nat) (hk : k ≤ length) : (tokens.drop start).take (length + 1) =
    (tokens.drop start).take k ++ (tokens.drop (start + k)).take (length + 1 - k) := by
  rw [← List.drop_drop, ← List.take_add]
  congr 1
  omega

/-- The cell of a stretch records it if the cells of its parts do. -/
theorem Filled.records_next (h : Filled rules g tokens t) {start length : Nat} (h1 : 1 ≤ length) (hl : length < t.length)
    (hs : start + (length + 1) ≤ tokens.length)
    (hparts : ∀ start k, 1 ≤ k → k ≤ length → start + k ≤ tokens.length →
      (t.cell start k).Records rules g ((tokens.drop start).take k)) :
    (t.cell start (length + 1)).Records rules g ((tokens.drop start).take (length + 1)) := by
  obtain ⟨offers, heq, hmem⟩ := h.next start length h1 hl hs
  rw [heq]
  refine Cell.records_offerAll (fun x hx => ?_) fun n b hb => ?_
  · obtain ⟨k, hk, hkl, hx⟩ := (hmem x).1 hx
    obtain ⟨n, v⟩ := x
    obtain ⟨r, a, b, y, z, hr, hp, hy, hz, rfl, rfl⟩ := Cell.mem_joinOffers.1 hx
    rw [cut_stretch start k length hkl]
    exact ⟨rfl, rfl, .branch hr hp ((hparts start k hk hkl (by omega)).sound a y hy)
      ((hparts (start + k) (length + 1 - k) (by omega) (by omega) (by omega)).sound b z hz)⟩
  · have hlen : ((tokens.drop start).take (length + 1)).length = length + 1 := by
      rw [List.length_take, List.length_drop]
      omega
    generalize hw : (tokens.drop start).take (length + 1) = w at hb hlen
    cases hb with
    | leaf => simp only [List.length_singleton] at hlen; omega
    | @branch r a b u v x y hr hp hx hy =>
      -- the left part tells where the stretch is cut
      have hu := List.length_pos_iff.2 hx.ne_nil
      have hv := List.length_pos_iff.2 hy.ne_nil
      rw [List.length_append] at hlen
      have hul : ((tokens.drop start).take u.length).length = u.length := by
        rw [List.length_take, List.length_drop]
        omega
      obtain ⟨hu', hv'⟩ := List.append_inj (hw.symm.trans (cut_stretch start u.length length (by omega))) hul.symm
      have hleft := hparts start u.length hu (by omega) (by omega)
      have hright := hparts (start + u.length) (length + 1 - u.length) (by omega) (by omega) (by omega)
      rw [← hu'] at hleft
      rw [← hv'] at hright
      obtain ⟨x', hx'⟩ := hleft.complete a x hx
      obtain ⟨y', hy'⟩ := hright.complete b y hy
      refine ⟨.branch r x' y', (hmem _).2 ⟨u.length, hu, by omega, ?_⟩⟩
      exact Cell.mem_joinOffers.2 ⟨r, a, b, x', y', hr, hp, hx', hy', rfl, rfl⟩

/-- However a table is filled, its cells record their stretches. -/
theorem Filled.records (h : Filled rules g tokens t) : t.Records rules g tokens := by
  suffices ∀ n start length, length ≤ n → 1 ≤ length → length ≤ t.length → start + length ≤ tokens.length →
      (t.cell start length).Records rules g ((tokens.drop start).take length) from
    fun start length => this length start length (Nat.le_refl _)
  intro n
  induction n with
  | zero => intro start length hn h1; omega
  | succ n ih =>
    intro start length hn h1 hl hs
    match length, h1 with
    | 1, _ =>
      have hstretch : (tokens.drop start).take 1 = [tokens[start]] := by
        rw [List.drop_eq_getElem_cons (by omega)]
        rfl
      rw [h.first start (by omega), hstretch]
      exact Cell.ofToken_records _
    | length + 2, _ =>
      exact h.records_next (by omega) (by omega) hs fun start k hk hkl hks => ih start k (by omega) hk (by omega) hks

/-- The table's last cell records the token list. -/
theorem whole_records (rules : List Rule) (g : NormalForm) (ht : tokens ≠ []) :
    ((ofTokens rules g tokens).cell 0 (ofTokens rules g tokens).length).Records rules g tokens := by
  have hfull : (ofTokens rules g tokens).length = tokens.length := length_ofTokens ht
  have hrec : Records rules g tokens (ofTokens rules g tokens) := filled_ofTokens.records
  have h := hrec 0 tokens.length (List.length_pos_iff.2 ht) (Nat.le_of_eq hfull.symm) (by omega)
  rw [List.drop_zero, List.take_length] at h
  rwa [hfull]

/-- However a table is filled, its cells hold the same names, with the same ranks: only which of several derivations of
one rank is kept depends on the order of the offers. -/
theorem Filled.rank?_eq {t t' : Table} (h : Filled rules g tokens t) (h' : Filled rules g tokens t')
    (hlen : t.length = t'.length) : ∀ start length, 1 ≤ length → length ≤ t.length → start + length ≤ tokens.length →
      (t.cell start length).rank? = (t'.cell start length).rank? := by
  suffices ∀ n start length, length ≤ n → 1 ≤ length → length ≤ t.length → start + length ≤ tokens.length →
      (t.cell start length).rank? = (t'.cell start length).rank? from
    fun start length => this length start length (Nat.le_refl _)
  intro n
  induction n with
  | zero => intro start length hn h1; omega
  | succ n ih =>
    intro start length hn h1 hl hs
    match length, h1 with
    | 1, _ => rw [h.first start (by omega), h'.first start (by omega)]
    | length + 2, _ =>
      obtain ⟨offers, heq, hmem⟩ := h.next start (length + 1) (by omega) (by omega) hs
      obtain ⟨offers', heq', hmem'⟩ := h'.next start (length + 1) (by omega) (by omega) hs
      rw [heq, heq']
      refine Cell.rank?_offerAll_congr fun n rank => ?_
      simp only [hmem, hmem', exists_comm (α := Binary)]
      refine exists_congr fun k => ?_
      simp only [exists_and_left]
      refine and_congr_right fun hk => and_congr_right fun hkl => Cell.exists_mem_joinOffers_congr ?_ ?_
      · exact ih start k (by omega) hk (by omega) (by omega)
      · exact ih (start + k) _ (by omega) (by omega) (by omega) (by omega)

end Table

end GrammarKit.Cyk
