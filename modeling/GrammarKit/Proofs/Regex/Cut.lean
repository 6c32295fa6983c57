/-
Matching in a text that ends earlier. An expression that asks only for what stands before a place is matched in the
first characters of a text as it is in the whole text, but for the places behind the cut: the others remain, and in
the same order. So the match that is preferred in a cut text is the first of all matches that ends before the cut.
-/
import GrammarKit.Regex.Ends
import Mathlib

namespace GrammarKit.Regex

/-- Conditions on what comes before a place. -/
def Look.looksBack : Look → Bool
  | .textStart | .lineStart | .wordStartHalf _ => true
  | _ => false

/-- No condition of the expression depends on what follows a place. -/
def Expr.looksBack : Expr → Bool
  | .empty | .chars _ => true
  | .look l => l.looksBack
  | .seq a b | .alt a b => a.looksBack && b.looksBack
  | .exactly _ a | .upTo _ _ a | .many _ a => a.looksBack

/-- A place in the text that ends after `stop` characters. -/
def Place.upTo (stop : Nat) (p : Place) : Place := { p with rest := p.rest.take (stop - p.index) }

@[simp] theorem Place.index_upTo (stop : Nat) (p : Place) : (p.upTo stop).index = p.index := rfl

theorem Place.holds_upTo (stop : Nat) (p : Place) {l : Look} (h : l.looksBack) :
    (p.upTo stop).holds l = p.holds l := by
  cases l <;> first | rfl | simp [Look.looksBack] at h

theorem Place.Leads.le {p q : Place} (h : p.Leads q) : p.index ≤ q.index := by
  obtain ⟨cs, -, hq⟩ := h
  omega

/-- Further on, there is less of a text before the cut. -/
theorem Place.Leads.length_upTo_lt {p q : Place} (h : p.Leads q) (hlt : p.index < q.index) {stop : Nat}
    (hq : q.index ≤ stop) :
    q.rest.length < p.rest.length ∧ (q.upTo stop).rest.length < (p.upTo stop).rest.length := by
  obtain ⟨cs, hrest, hindex⟩ := h
  have hlen := congrArg List.length hrest
  simp only [List.length_append] at hlen
  simp only [upTo, List.length_take]
  omega

/-! ## The places before the cut -/

/-- The places that are reached with `stop` characters, in the text that ends there. -/
def cutAll (stop : Nat) (ps : List Place) : List Place := (ps.filter (·.index ≤ stop)).map (·.upTo stop)

section Places

variable {stop : Nat} {p : Place}

@[simp] theorem cutAll_nil : cutAll stop [] = [] := rfl

@[simp] theorem cutAll_append (ps qs : List Place) : cutAll stop (ps ++ qs) = cutAll stop ps ++ cutAll stop qs := by
  simp [cutAll]

theorem cutAll_cons_of_le (h : p.index ≤ stop) (ps : List Place) :
    cutAll stop (p :: ps) = p.upTo stop :: cutAll stop ps := by
  simp [cutAll, h]

theorem cutAll_cons_of_lt (h : stop < p.index) (ps : List Place) : cutAll stop (p :: ps) = cutAll stop ps := by
  simp [cutAll, Nat.not_le.2 h]

theorem cutAll_eq_nil {ps : List Place} (h : ∀ q ∈ ps, stop < q.index) : cutAll stop ps = [] := by
  simpa [cutAll] using h

/-- Whether a place is known is told by the places before the cut. -/
theorem any_index_cutAll (h : p.index ≤ stop) (ps : List Place) :
    (cutAll stop ps).any (·.index == p.index) = ps.any (·.index == p.index) := by
  rw [Bool.eq_iff_iff]
  simp only [cutAll, List.any_eq_true, List.mem_map, List.mem_filter, decide_eq_true_eq, beq_iff_eq]
  constructor
  · rintro ⟨_, ⟨q, ⟨hq, -⟩, rfl⟩, he⟩
    exact ⟨q, hq, he⟩
  · rintro ⟨q, hq, he⟩
    exact ⟨_, ⟨q, ⟨hq, he ▸ h⟩, rfl⟩, he⟩

theorem cutAll_firstPlaces (ps : List Place) : cutAll stop (firstPlaces ps) = firstPlaces (cutAll stop ps) := by
  -- the places that are kept, while the list is gone through
  have hkept : ∀ (ps kept : List Place),
      cutAll stop (ps.foldl (fun kept p => if kept.any (·.index == p.index) then kept else p :: kept) kept) =
        (cutAll stop ps).foldl (fun kept p => if kept.any (·.index == p.index) then kept else p :: kept)
          (cutAll stop kept) := by
    intro ps
    induction ps with
    | nil => exact fun _ => rfl
    | cons p ps ih =>
      intro kept
      rw [List.foldl_cons, ih]
      rcases Nat.lt_or_ge stop p.index with h | h
      · rw [cutAll_cons_of_lt h]
        split <;> simp only [cutAll_cons_of_lt h]
      · rw [cutAll_cons_of_le h, List.foldl_cons, Place.index_upTo, any_index_cutAll h]
        split <;> simp only [cutAll_cons_of_le h]
  have h := hkept ps []
  rw [cutAll_nil] at h
  unfold firstPlaces
  rw [← h]
  simp only [cutAll, List.filter_reverse, List.map_reverse]

end Places

/-- Turns that take the cut into account by themselves. -/
def CutsAt (stop : Nat) (turn : Place → List Place) : Prop :=
  ∀ p, p.index ≤ stop → turn (p.upTo stop) = cutAll stop (turn p)

section Turns

variable {stop : Nat} {turn : Place → List Place} (hturn : Forward turn) (hcut : CutsAt stop turn)
include hturn

/-- No way leads back before the cut. -/
theorem cutAll_turn_eq_nil {p : Place} (h : stop < p.index) : cutAll stop (turn p) = [] :=
  cutAll_eq_nil fun q hq => Nat.lt_of_lt_of_le h (hturn p q hq).le

include hcut

theorem cutAll_flatMap (ps : List Place) : cutAll stop (ps.flatMap turn) = (cutAll stop ps).flatMap turn := by
  induction ps with
  | nil => rfl
  | cons p ps ih =>
    rw [List.flatMap_cons, cutAll_append, ih]
    rcases Nat.lt_or_ge stop p.index with h | h
    · rw [cutAll_turn_eq_nil hturn h, cutAll_cons_of_lt h, List.nil_append]
    · rw [← hcut p h, cutAll_cons_of_le h, List.flatMap_cons]

theorem cutAll_exactlyEnds : ∀ (n : Nat) (ps : List Place),
    cutAll stop (exactlyEnds turn n ps) = exactlyEnds turn n (cutAll stop ps)
  | 0, _ => rfl
  | n + 1, ps => by
    unfold exactlyEnds
    rw [cutAll_exactlyEnds n, cutAll_firstPlaces, cutAll_flatMap hturn hcut]

end Turns

/-! ## Repetitions -/

/-- Visits places in order, each only if it was not visited before. -/
def explore {α : Type} [BEq α] (key : Place → α) (visit : Place → List α → List Place × List α) (qs : List Place)
    (found : List Place × List α) : List Place × List α :=
  qs.foldl (fun found q =>
    if found.2.contains (key q) then found else (found.1 ++ (visit q found.2).1, (visit q found.2).2)) found

/-- A greedy repetition stops at a place after it went on from there, any other one before. -/
def stopAt {α : Type} (greedy : Bool) (p : Place) (further : List Place × List α) : List Place × List α :=
  (if greedy then further.1 ++ [p] else p :: further.1, further.2)

theorem manyEnds_succ (turn : Place → List Place) (greedy : Bool) (fuel : Nat) (p : Place) (v : List Nat) :
    manyEnds turn greedy (fuel + 1) p v =
      explore (·.index) (fun q v => stopAt greedy q <|
        if p.index < q.index then manyEnds turn greedy fuel q (q.index :: v) else ([], q.index :: v))
        (turn p) ([], v) := rfl

theorem upToEnds_succ (turn : Place → List Place) (greedy : Bool) (n : Nat) (p : Place) (v : List (Nat × Nat)) :
    upToEnds turn greedy (n + 1) p v =
      stopAt greedy p (explore (fun q => (n, q.index))
        (fun q v => upToEnds turn greedy n q ((n, q.index) :: v)) (turn p) ([], v)) := rfl

/-- The same things are visited before the cut. `place` is where a thing stands. -/
def SameVisits {α : Type} (stop : Nat) (place : α → Nat) (v v' : List α) : Prop :=
  ∀ x, place x ≤ stop → (x ∈ v' ↔ x ∈ v)

/-- What is found and visited in the cut text, against the whole text. -/
structure CutOf {α : Type} (stop : Nat) (place : α → Nat) (whole cut : List Place × List α) : Prop where
  ends : cut.1 = cutAll stop whole.1
  visits : SameVisits stop place whole.2 cut.2

section Visits

variable {α : Type} {stop : Nat} {place : α → Nat}

theorem SameVisits.cons {v v' : List α} (h : SameVisits stop place v v') (a : α) :
    SameVisits stop place (a :: v) (a :: v') :=
  fun x hx => by rw [List.mem_cons, List.mem_cons, h x hx]

/-- What is visited behind the cut does not count. -/
theorem SameVisits.cons_left {v v' : List α} (h : SameVisits stop place v v') {a : α} (ha : stop < place a) :
    SameVisits stop place (a :: v) v' := fun x hx => by
  rw [List.mem_cons, h x hx, or_iff_right]
  rintro rfl
  omega

namespace CutOf

variable {found found' : List Place × List α} (h : CutOf stop place found found')
include h

theorem stopAt {p : Place} (hp : p.index ≤ stop) (greedy : Bool) :
    CutOf stop place (stopAt greedy p found) (Regex.stopAt greedy (p.upTo stop) found') := by
  refine ⟨?_, h.visits⟩
  cases greedy with
  | false => simp only [Regex.stopAt, Bool.false_eq_true, if_false, cutAll_cons_of_le hp, h.ends]
  | true => simp only [Regex.stopAt, if_true, cutAll_append, cutAll_cons_of_le hp, cutAll_nil, h.ends]

theorem stopAt_left {p : Place} (hp : stop < p.index) (greedy : Bool) :
    CutOf stop place (Regex.stopAt greedy p found) found' := by
  refine ⟨?_, h.visits⟩
  cases greedy with
  | false => simp only [Regex.stopAt, Bool.false_eq_true, if_false, cutAll_cons_of_lt hp, h.ends]
  | true =>
    simp only [Regex.stopAt, if_true, cutAll_append, cutAll_cons_of_lt hp, cutAll_nil, List.append_nil, h.ends]

/-- A search in the cut text is the search in the whole text if each visit is: before the cut in both texts, behind
it in the whole text only. -/
theorem explore [BEq α] [LawfulBEq α] (key : Place → α) {visit visit' : Place → List α → List Place × List α}
    (hkey : ∀ q, place (key q) = q.index) (hupTo : ∀ q : Place, key (q.upTo stop) = key q) {qs : List Place}
    (hbefore : ∀ q ∈ qs, q.index ≤ stop → ∀ v v', SameVisits stop place v v' →
      CutOf stop place (visit q v) (visit' (q.upTo stop) v'))
    (hbehind : ∀ q ∈ qs, stop < q.index → ∀ v v', SameVisits stop place v v' →
      CutOf stop place (visit q v) ([], v')) :
    CutOf stop place (explore key visit qs found) (Regex.explore key visit' (cutAll stop qs) found') := by
  induction qs generalizing found found' with
  | nil => exact h
  | cons q qs ih =>
    have hqs {r r' : List Place × List α} (h : CutOf stop place r r') :=
      ih h (fun r hr => hbefore r (.tail q hr)) fun r hr => hbehind r (.tail q hr)
    rcases Nat.lt_or_ge stop q.index with hq | hq
    · rw [cutAll_cons_of_lt hq]
      refine hqs ?_
      dsimp only
      split
      · exact h
      · have hvisit := hbehind q (.head qs) hq _ _ h.visits
        exact ⟨by rw [cutAll_append, ← hvisit.ends, List.append_nil, h.ends], hvisit.visits⟩
    · rw [cutAll_cons_of_le hq]
      refine hqs ?_
      have hseen : found'.2.contains (key (q.upTo stop)) = found.2.contains (key q) := by
        rw [Bool.eq_iff_iff, List.contains_iff_mem, List.contains_iff_mem, hupTo, h.visits _ (by rwa [hkey])]
      dsimp only
      rw [hseen]
      split
      · exact h
      · have hvisit := hbefore q (.head qs) hq _ _ h.visits
        exact ⟨by rw [cutAll_append, ← hvisit.ends, h.ends], hvisit.visits⟩

/-- Places behind the cut are searched in vain. -/
theorem explore_left [BEq α] [LawfulBEq α] (key : Place → α) {visit : Place → List α → List Place × List α}
    (hkey : ∀ q, place (key q) = q.index) (hupTo : ∀ q : Place, key (q.upTo stop) = key q) {qs : List Place}
    (hqs : ∀ q ∈ qs, stop < q.index)
    (hbehind : ∀ q ∈ qs, stop < q.index → ∀ v v', SameVisits stop place v v' →
      CutOf stop place (visit q v) ([], v')) :
    CutOf stop place (Regex.explore key visit qs found) found' := by
  have hsearch : CutOf stop place (Regex.explore key visit qs found)
      (Regex.explore key (fun _ v => ([], v)) (cutAll stop qs) found') :=
    h.explore key hkey hupTo (fun q hq hle => absurd hle (Nat.not_le.2 (hqs q hq))) hbehind
  rwa [cutAll_eq_nil hqs] at hsearch

end CutOf

end Visits

section Turns

variable {stop : Nat} {turn : Place → List Place} (hturn : Forward turn)
include hturn

theorem lt_of_mem_turn {p : Place} (hp : stop < p.index) : ∀ q ∈ turn p, stop < q.index := fun q hq =>
  Nat.lt_of_lt_of_le hp (hturn p q hq).le

theorem upToEnds_behind {greedy : Bool} : ∀ {n : Nat} {p : Place}, stop < p.index →
    ∀ {v v' : List (Nat × Nat)}, SameVisits stop Prod.snd v v' →
      CutOf stop Prod.snd (upToEnds turn greedy n p v) ([], v')
  | 0, p, hp, v, v', h => ⟨(cutAll_cons_of_lt hp []).symm, h⟩
  | n + 1, p, hp, v, v', h => by
    rw [upToEnds_succ]
    refine (CutOf.explore_left ⟨rfl, h⟩ (fun q => (n, q.index)) (fun _ => rfl) (fun _ => rfl)
      (lt_of_mem_turn hturn hp) fun q _ hq v v' h => ?_).stopAt_left hp greedy
    exact upToEnds_behind hq (h.cons_left hq)

theorem manyEnds_behind {greedy : Bool} : ∀ {fuel : Nat} {p : Place}, stop < p.index →
    ∀ {v v' : List Nat}, SameVisits stop id v v' → CutOf stop id (manyEnds turn greedy fuel p v) ([], v')
  | 0, _, _, _, _, h => ⟨rfl, h⟩
  | fuel + 1, p, hp, v, v', h => by
    rw [manyEnds_succ]
    refine CutOf.explore_left ⟨rfl, h⟩ (·.index) (fun _ => rfl) (fun _ => rfl) (lt_of_mem_turn hturn hp)
      fun q _ hq v v' h => .stopAt_left ?_ hq greedy
    split
    · exact manyEnds_behind hq (h.cons_left hq)
    · exact ⟨rfl, h.cons_left hq⟩

variable (hcut : CutsAt stop turn)
include hcut

theorem upToEnds_before {greedy : Bool} : ∀ {n : Nat} {p : Place}, p.index ≤ stop →
    ∀ {v v' : List (Nat × Nat)}, SameVisits stop Prod.snd v v' →
      CutOf stop Prod.snd (upToEnds turn greedy n p v) (upToEnds turn greedy n (p.upTo stop) v')
  | 0, p, hp, v, v', h => ⟨(cutAll_cons_of_le hp []).symm, h⟩
  | n + 1, p, hp, v, v', h => by
    rw [upToEnds_succ, upToEnds_succ, hcut p hp]
    refine (CutOf.explore ⟨rfl, h⟩ (fun q => (n, q.index)) (fun _ => rfl) (fun _ => rfl)
      (fun q _ hq v v' h => ?_) fun q _ hq v v' h => ?_).stopAt hp greedy
    · exact upToEnds_before hq (h.cons _)
    · exact upToEnds_behind hturn hq (h.cons_left hq)

theorem manyEnds_before {greedy : Bool} : ∀ {fuel fuel' : Nat} {p : Place}, p.index ≤ stop →
    p.rest.length < fuel → (p.upTo stop).rest.length < fuel' →
    ∀ {v v' : List Nat}, SameVisits stop id v v' →
      CutOf stop id (manyEnds turn greedy fuel p v) (manyEnds turn greedy fuel' (p.upTo stop) v')
  | fuel + 1, fuel' + 1, p, hp, hfuel, hfuel', v, v', h => by
    rw [manyEnds_succ, manyEnds_succ, hcut p hp]
    refine CutOf.explore ⟨rfl, h⟩ (·.index) (fun _ => rfl) (fun _ => rfl)
      (fun q hq hle v v' h => .stopAt ?_ hle greedy) fun q _ hlt v v' h => .stopAt_left ?_ hlt greedy
    · rw [Place.index_upTo, Place.index_upTo]
      split
      · rename_i hgo
        obtain ⟨hless, hless'⟩ := (hturn p q hq).length_upTo_lt hgo hle
        exact manyEnds_before hle (by omega) (by omega) (h.cons _)
      · exact ⟨rfl, h.cons _⟩
    · split
      · exact manyEnds_behind hturn hlt (h.cons_left hlt)
      · exact ⟨rfl, h.cons_left hlt⟩

end Turns

/-! ## Expressions -/

/-- An expression that looks back only is matched in a cut text as in the whole text. -/
theorem Expr.cutsAt_ends {stop : Nat} : ∀ e : Expr, e.looksBack → CutsAt stop e.ends
  | .empty, _ => fun p hp => (cutAll_cons_of_le hp []).symm
  | .chars s, _ => fun p hp => by
    obtain ⟨i, prev, rest⟩ := p
    cases rest with
    | nil => simp [ends, Place.upTo]
    | cons c cs =>
      rcases Nat.lt_or_ge i stop with hi | hi
      · have hstop : stop - i = stop - (i + 1) + 1 := by omega
        simp only [ends, Place.upTo, hstop, List.take_succ_cons]
        split
        · exact (cutAll_cons_of_le (p := ⟨i + 1, some c, cs⟩) hi []).symm
        · rfl
      · -- the cut is right here, and a character would be one too many
        have hstop : stop - i = 0 := by omega
        simp only [ends, Place.upTo, hstop, List.take_zero]
        split
        · exact (cutAll_cons_of_lt (p := ⟨i + 1, some c, cs⟩) (Nat.lt_succ_of_le hi) []).symm
        · rfl
  | .look l, hl => fun p hp => by
    unfold ends
    rw [p.holds_upTo stop hl]
    split
    · exact (cutAll_cons_of_le hp []).symm
    · rfl
  | .seq a b, h => fun p hp => by
    obtain ⟨ha, hb⟩ := Bool.and_eq_true_iff.1 h
    unfold ends
    rw [cutAll_firstPlaces, cutAll_flatMap b.forward_ends (cutsAt_ends b hb), cutsAt_ends a ha p hp]
  | .alt a b, h => fun p hp => by
    obtain ⟨ha, hb⟩ := Bool.and_eq_true_iff.1 h
    unfold ends
    rw [cutAll_firstPlaces, cutAll_append, cutsAt_ends a ha p hp, cutsAt_ends b hb p hp]
  | .exactly n a, h => fun p hp => by
    unfold ends
    rw [cutAll_exactlyEnds a.forward_ends (cutsAt_ends a h), cutAll_cons_of_le hp, cutAll_nil]
  | .upTo greedy n a, h => fun p hp => by
    unfold ends
    rw [cutAll_firstPlaces, (upToEnds_before a.forward_ends (cutsAt_ends a h) hp fun _ _ => Iff.rfl).ends]
  | .many greedy a, h => fun p hp =>
    (manyEnds_before a.forward_ends (cutsAt_ends a h) hp (Nat.lt_succ_self _) (Nat.lt_succ_self _)
      fun _ _ => Iff.rfl).ends

/-! ## The preferred match -/

theorem head?_firstPlaces (ps : List Place) : (firstPlaces ps).head? = ps.head? := by
  -- the place that was kept first stays the last one of those kept
  have hkept : ∀ (ps kept : List Place), kept ≠ [] →
      (ps.foldl (fun kept p => if kept.any (·.index == p.index) then kept else p :: kept) kept).getLast? =
        kept.getLast? := by
    intro ps
    induction ps with
    | nil => exact fun _ _ => rfl
    | cons p ps ih =>
      intro kept hne
      rw [List.foldl_cons]
      split
      · exact ih kept hne
      · rw [ih _ (List.cons_ne_nil _ _), List.getLast?_cons_of_ne_nil hne]
  cases ps with
  | nil => rfl
  | cons p ps => exact (List.head?_reverse ..).trans (hkept ps [p] (List.cons_ne_nil _ _))

namespace Expr

variable {e : Expr}

theorem ends_start_take (he : e.looksBack) (text : List Char) (stop : Nat) :
    e.ends (.start (text.take stop)) = cutAll stop (e.ends (.start text)) :=
  e.cutsAt_ends he (.start text) (Nat.zero_le _)

/-- In the first characters of a text, the first of all matches is found that is not too long. -/
theorem matchLength?_take (he : e.looksBack) (text : List Char) (stop : Nat) :
    e.matchLength? (text.take stop) = ((e.ends (.start text)).find? (·.index ≤ stop)).map (·.index) := by
  rw [matchLength?, ends_start_take he, cutAll, List.head?_map, List.head?_filter, Option.map_map]
  rfl

/-- The characters of a match alone are matched all. -/
theorem matchLength?_take_self (he : e.looksBack) {text : List Char} {n : Nat} (h : e.matchLength? text = some n) :
    e.matchLength? (text.take n) = some n := by
  obtain ⟨q, hq, rfl⟩ := Option.map_eq_some_iff.1 h
  obtain ⟨after, hends⟩ := List.head?_eq_some_iff.1 hq
  rw [matchLength?_take he, hends, List.find?_cons_of_pos (by simp)]
  rfl

/-- With the end of the text asked for, any match of the whole text will do. -/
theorem isSome_matchLength?_textEnd (text : List Char) :
    ((seq e (.look .textEnd)).matchLength? text).isSome ↔ ∃ q ∈ e.ends (.start text), q.index = text.length := by
  have hend : ∀ q ∈ e.ends (.start text), (q.rest = [] ↔ q.index = text.length) := fun q hq => by
    obtain ⟨cs, hcs, hindex⟩ := e.forward_ends _ q hq
    have hlen := congrArg List.length hcs
    simp only [Place.start, List.length_append] at hlen hindex
    rw [← List.length_eq_zero_iff]
    omega
  rw [matchLength?, Option.isSome_map, ends, head?_firstPlaces, List.isSome_head?, ne_eq,
    List.flatMap_eq_nil_iff]
  push Not
  refine exists_congr fun q => and_congr_right fun hq => ?_
  rw [← hend q hq, ends, Place.holds]
  simp

/-- A match of `k` characters comes before every match of `n`. -/
def Prefers (e : Expr) (text : List Char) (k n : Nat) : Prop :=
  ∃ before q after, e.ends (.start text) = before ++ q :: after ∧ q.index = k ∧ ∀ r ∈ before, r.index ≠ n

/-- Of the first `n` characters all are taken, if they can be, unless fewer are preferred. -/
theorem matchLength?_take_eq_iff (he : e.looksBack) {text : List Char} {n : Nat}
    (hn : ∃ q ∈ e.ends (.start text), q.index = n) :
    e.matchLength? (text.take n) = some n ↔ ∀ k < n, ¬ e.Prefers text k n := by
  rw [matchLength?_take he]
  constructor
  · rintro hfirst k hk ⟨before, q, after, hends, rfl, hbefore⟩
    obtain ⟨r, hr, rfl⟩ := Option.map_eq_some_iff.1 hfirst
    rw [hends, List.find?_append, List.find?_cons_of_pos (by simpa using hk.le)] at hr
    cases hfind : before.find? (·.index ≤ r.index) with
    | none =>
      simp only [hfind, Option.none_or, Option.some.injEq] at hr
      exact absurd (congrArg Place.index hr) hk.ne
    | some r' =>
      simp only [hfind, Option.some_or, Option.some.injEq] at hr
      exact hbefore r' (List.mem_of_find?_eq_some hfind) (congrArg Place.index hr)
  · intro hnone
    obtain ⟨q, hq, rfl⟩ := hn
    cases hfind : (e.ends (.start text)).find? (·.index ≤ q.index) with
    | none => exact absurd (List.find?_eq_none.1 hfind q hq) (by simp)
    | some r =>
      obtain ⟨hr, before, after, hends, hbefore⟩ := List.find?_eq_some_iff_append.1 hfind
      refine congrArg some (Nat.le_antisymm (by simpa using hr) (Nat.not_lt.1 fun hlt => ?_))
      refine hnone r.index hlt ⟨before, r, after, hends, rfl, fun r' hr' heq => ?_⟩
      simpa [heq] using hbefore r' hr'

end Expr

end GrammarKit.Regex
