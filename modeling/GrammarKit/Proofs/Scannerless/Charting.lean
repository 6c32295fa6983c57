/-
The chart of a text holds what is found, and nothing else. On the way through the text the columns up to a place are
known, and what is awaited further on is what the places before pass on over tokens and over skipped text. So the next
column begins with what is passed on to it, and where nothing is passed on, nothing is found any more.
-/
import GrammarKit.Proofs.Earley.Recognition
import GrammarKit.Proofs.Scannerless.Found

namespace GrammarKit.Earley

/-- The earlier places from which only skipped text leads to a place, as a chart knows them. -/
def Chart.gapsAt (c : Chart) (k : Nat) : List Nat := (c.gaps.lookup k).getD []

namespace Scannerless

section Passes

variable (s : Scannerless) (text : List Char) (start : String)

/-- A place passes an item on to a later one. -/
def Passes (k l : Nat) (i : Item) : Prop :=
  (∃ j a, s.Found text start k j ∧ j.next? s.grammar.rules = some (.terminal a) ∧ s.Takes text a k l ∧ j.advance = i) ∨
    s.Found text start k i ∧ s.Carried start i ∧ s.Skips text k l

/-- A terminal is waited for at a place and takes the text up to another. -/
def Scans (x : Scan) : Prop :=
  (∃ i, s.Found text start x.start i ∧ i.next? s.grammar.rules = some (.terminal x.terminal)) ∧
    s.Takes text x.terminal x.start x.stop ∧ x.token = tokenAt text x.terminal x.start x.stop

end Passes

variable {s : Scannerless} {text : List Char} {start : String} {k l : Nat} {i : Item}

theorem Passes.found (h : s.Passes text start k l i) : s.Found text start l i := by
  rcases h with ⟨j, a, hj, hn, ht, rfl⟩ | ⟨hi, hc, hs⟩
  exacts [.scan hj hn ht, .carry hi hc hs]

/-- Where nothing is passed on from the places up to one, nothing is found after it. -/
theorem not_found_of_not_passes {pos : Nat} (h : ∀ k ≤ pos, ∀ l i, pos < l → ¬ s.Passes text start k l i) :
    ∀ {k : Nat} {i : Item}, s.Found text start k i → k ≤ pos := by
  intro k i hi
  induction hi with
  | seed => exact Nat.zero_le _
  | predict _ _ _ _ ih | stepOver _ _ _ ih | complete _ _ _ _ _ ih _ => exact ih
  | scan hi hn ht ih =>
    by_contra hlt
    exact h _ ih _ _ (by omega) (.inl ⟨_, _, hi, hn, ht, rfl⟩)
  | carry hi hc hs ih =>
    by_contra hlt
    exact h _ ih _ _ (by omega) (.inr ⟨hi, hc, hs⟩)

/-! ## One column -/

section Column

variable (hg : s.grammar.Exact IsNamed) {before : List Column} {seeds : List Item}
  (hb : ∀ k < before.length, ∀ i, i ∈ (before[k]?).getD [] ↔ s.Found text start k i)
  (hs : ∀ i ∈ seeds, s.Found text start before.length i)
include hg hb hs

theorem found_of_mem_column : ∀ i ∈ s.grammar.column before seeds, s.Found text start before.length i := by
  refine explore_induction (fun found i hfound hi j hj => ?_) _ _ _ (by simpa using hs)
  have hi := hfound i hi
  unfold ChartRules.successors at hj
  split at hj
  · cases hj
  · rename_i n hn
    rcases List.mem_append.1 hj with hj | hj
    · obtain ⟨rule, r, hr, ho, rfl⟩ := ChartRules.mem_predict.1 hj
      exact .predict hi hn hr ho
    · split at hj
      · rename_i hnull
        rw [List.mem_singleton.1 hj]
        exact .stepOver hi hn (by simpa using hnull)
      · cases hj
  · rename_i hn
    obtain ⟨r, hrec⟩ := hi.recognises hg
    rw [hrec.rule] at hj
    obtain ⟨x, hx, hxn, rfl⟩ := ChartRules.mem_complete.1 hj
    refine .complete hi hn hrec.rule ?_ hxn
    split at hx
    · rename_i ho
      rw [ho]
      exact hfound x hx
    · rename_i ho
      have := hrec.origin
      exact (hb i.origin (by omega) x).1 hx

/-- A column that begins with what was passed on holds what is found. -/
theorem mem_column_iff (hstart : before = [] → ∀ rule r, s.grammar.rules[rule]? = some r → r.origin = start →
      Item.initial 0 rule ∈ seeds)
    (hpassed : ∀ k < before.length, ∀ i, s.Passes text start k before.length i → i ∈ seeds) :
    i ∈ s.grammar.column before seeds ↔ s.Found text start before.length i := by
  refine ⟨found_of_mem_column hg hb hs i, fun hi => ?_⟩
  have hbelongs : ∀ i ∈ s.grammar.column before seeds, i.Belongs s.grammar.rules before.length := fun i hi => by
    obtain ⟨r, h⟩ := (found_of_mem_column hg hb hs i hi).recognises hg
    exact ⟨r, h.rule, h.dot, h.origin⟩
  generalize hk : before.length = k at hi hbelongs
  induction hi with
  | seed hr ho => exact ChartRules.mem_column_of_seed (hstart (List.length_eq_zero_iff.1 hk) _ _ hr ho)
  | predict _ hn hr ho ih =>
    subst hk
    exact ChartRules.column_predict hbelongs (ih rfl hbelongs) hn hr ho
  | stepOver _ hn hnull ih =>
    subst hk
    exact ChartRules.column_stepOver hbelongs (ih rfl hbelongs) hn hnull
  | @complete k i j r hi hn hr hj hjn ih ihj =>
    subst hk
    obtain ⟨r', hrec⟩ := hi.recognises hg
    obtain rfl := Option.some.inj (hrec.rule.symm.trans hr)
    rcases Nat.lt_or_eq_of_le hrec.origin with hlt | heq
    · have hcol : before[i.origin]? = some before[i.origin] := List.getElem?_eq_getElem hlt
      have hmem := (hb i.origin hlt j).2 hj
      rw [hcol] at hmem
      exact ChartRules.column_complete hbelongs (ih rfl hbelongs) hn hr hlt hcol hmem hjn
    · -- what is complete where it began yields nothing, and was stepped over
      obtain ⟨ts, hts, hy⟩ := hrec.inner
      rw [heq] at hts
      rw [hts.eq_nil, List.take_of_length_le (DottedRule.next?_eq_none hr hn)] at hy
      exact ChartRules.column_stepOver hbelongs (ihj heq.symm (heq ▸ hbelongs)) hjn
        (hg.complete _ (List.mem_of_getElem? hr) hy)
  | scan hi hn ht => exact ChartRules.mem_column_of_seed (hpassed _ (hk ▸ ht.lt) _ (hk ▸ .inl ⟨_, _, hi, hn, ht, rfl⟩))
  | carry hi hc hsk => exact ChartRules.mem_column_of_seed (hpassed _ (hk ▸ hsk.lt) _ (hk ▸ .inr ⟨hi, hc, hsk⟩))

end Column

/-! ## Matching at a place -/

/-- What is added to the progress through a text: items that are awaited, scans, and places before skipped text. The
columns stay. -/
structure Adds (p q : Progress) (awaited : Nat → Item → Prop) (scanned : Scan → Prop) (gaps : Nat → Nat → Prop) :
    Prop where
  grammar : q.chart.grammar = p.chart.grammar
  columns : q.chart.columns = p.chart.columns
  pending : ∀ l i, (l, i) ∈ q.pending ↔ (l, i) ∈ p.pending ∨ awaited l i
  scans : ∀ x, x ∈ q.chart.scans ↔ x ∈ p.chart.scans ∨ scanned x
  gaps : ∀ l e, e ∈ q.chart.gapsAt l ↔ e ∈ p.chart.gapsAt l ∨ gaps l e
  furthest : p.furthest ≤ q.furthest ∧ ∀ l i, awaited l i → l ≤ q.furthest

namespace Adds

variable {p q r : Progress} {P P' : Nat → Item → Prop} {S S' : Scan → Prop} {G G' : Nat → Nat → Prop}

theorem refl (p : Progress) : Adds p p (fun _ _ => False) (fun _ => False) fun _ _ => False :=
  ⟨rfl, rfl, by simp, by simp, by simp, Nat.le_refl _, by simp⟩

theorem trans (h : Adds p q P S G) (k : Adds q r P' S' G') :
    Adds p r (fun l i => P l i ∨ P' l i) (fun x => S x ∨ S' x) fun l e => G l e ∨ G' l e where
  grammar := k.grammar.trans h.grammar
  columns := k.columns.trans h.columns
  pending l i := by rw [k.pending, h.pending, or_assoc]
  scans x := by rw [k.scans, h.scans, or_assoc]
  gaps l e := by rw [k.gaps, h.gaps, or_assoc]
  furthest := ⟨Nat.le_trans h.furthest.1 k.furthest.1, fun l i hi =>
    hi.elim (fun hi => Nat.le_trans (h.furthest.2 l i hi) k.furthest.1) (k.furthest.2 l i)⟩

theorem congr (h : Adds p q P S G) (hP : ∀ l i, P' l i ↔ P l i) (hS : ∀ x, S' x ↔ S x) (hG : ∀ l e, G' l e ↔ G l e) :
    Adds p q P' S' G' where
  grammar := h.grammar
  columns := h.columns
  pending l i := by rw [h.pending, hP]
  scans x := by rw [h.scans, hS]
  gaps l e := by rw [h.gaps, hG]
  furthest := ⟨h.furthest.1, fun l i hi => h.furthest.2 l i ((hP l i).1 hi)⟩

end Adds

/-- What matching at the last place depends on stays. -/
structure Keeps (p q : Progress) : Prop where
  grammar : q.chart.grammar = p.chart.grammar
  columns : q.chart.columns = p.chart.columns
  gaps : ∀ e, e ∈ q.chart.gapsAt p.chart.stop ↔ e ∈ p.chart.gapsAt p.chart.stop

namespace Keeps

variable {p q r : Progress}

theorem refl (p : Progress) : Keeps p p := ⟨rfl, rfl, fun _ => Iff.rfl⟩

theorem stop_eq (h : Keeps p q) : q.chart.stop = p.chart.stop := by rw [Chart.stop, h.columns, Chart.stop]

theorem last_eq (h : Keeps p q) : q.chart.last = p.chart.last := by rw [Chart.last, h.columns, Chart.last]

theorem adds (h : Keeps p q) {P : Nat → Item → Prop} {S : Scan → Prop} {G : Nat → Nat → Prop} (k : Adds q r P S G)
    (hG : ∀ e, ¬ G p.chart.stop e) : Keeps p r :=
  ⟨k.grammar.trans h.grammar, k.columns.trans h.columns, fun e => by rw [k.gaps, h.gaps, or_iff_left (hG e)]⟩

variable {α : Type} {f : Progress → α → Progress} {P : α → Nat → Item → Prop} {S : α → Scan → Prop}
  {G : α → Nat → Nat → Prop}

/-- What the steps of a loop add is added by the loop. -/
theorem foldl_adds (hf : ∀ a q, Keeps p q → Adds q (f q a) (P a) (S a) (G a)) (hG : ∀ a e, ¬ G a p.chart.stop e) :
    ∀ (as : List α) {q : Progress}, Keeps p q →
      Adds q (as.foldl f q) (fun l i => ∃ a ∈ as, P a l i) (fun x => ∃ a ∈ as, S a x) (fun l e => ∃ a ∈ as, G a l e)
  | [], q, _ => (Adds.refl q).congr (by simp) (by simp) (by simp)
  | a :: as, q, hq =>
    ((hf a q hq).trans (foldl_adds hf hG as (hq.adds (hf a q hq) (hG a)))).congr (by simp) (by simp) (by simp)

end Keeps

theorem lookup_filter_ne {α β : Type} [BEq α] [LawfulBEq α] {k l : α} (h : l ≠ k) : ∀ xs : List (α × β),
    (xs.filter (·.1 != k)).lookup l = xs.lookup l
  | [] => rfl
  | (a, b) :: xs => by
    by_cases ha : a = k
    · rw [List.filter_cons_of_neg (by simp [ha]), lookup_filter_ne h xs, List.lookup_cons, ha, beq_eq_false_iff_ne.2 h]
    · rw [List.filter_cons_of_pos (by simp [ha]), List.lookup_cons, List.lookup_cons, lookup_filter_ne h xs]

theorem take_adds (text : List Char) (p : Progress) (i : Item) (a : String) (n : Nat) :
    Adds p (p.take (.ofText text) (text.drop p.chart.stop) i a n) (fun l j => l = p.chart.stop + n ∧ j = i.advance)
      (fun x => x = ⟨p.chart.stop, p.chart.stop + n, a, tokenAt text a p.chart.stop (p.chart.stop + n)⟩)
      fun _ _ => False where
  grammar := rfl
  columns := rfl
  pending l j := by simp [Progress.take]
  scans x := by simp [Progress.take, tokenAt, LineTable.ofText]
  gaps l e := by simp [Progress.take, Chart.gapsAt]
  furthest := ⟨Nat.le_max_left .., fun l j h => h.1 ▸ Nat.le_max_right ..⟩

theorem skip_adds (p : Progress) (name : String) (n : Nat) :
    Adds p (p.skip name n) (fun l j => l = p.chart.stop + n ∧
      j ∈ (p.chart.grammar.waiting p.chart.last).map (·.1) ++ p.chart.last.filter fun i =>
        i.origin = 0 && i.isComplete p.chart.grammar.rules &&
          (p.chart.grammar.rules[i.dotted.rule]?).any (·.origin == name))
      (fun _ => False) fun l e => l = p.chart.stop + n ∧ (e = p.chart.stop ∨ e ∈ p.chart.gapsAt p.chart.stop) where
  grammar := rfl
  columns := rfl
  pending l j := by
    simp only [Progress.skip, List.mem_append, List.mem_map, Prod.mk.injEq]
    refine or_congr_right ⟨?_, ?_⟩
    · rintro ⟨i, hi, rfl, rfl⟩
      exact ⟨rfl, hi⟩
    · rintro ⟨rfl, hj⟩
      exact ⟨j, hj, rfl, rfl⟩
  scans x := by simp [Progress.skip]
  gaps l e := by
    simp only [Progress.skip, Chart.gapsAt]
    by_cases hl : l = p.chart.stop + n
    · rw [hl, List.lookup_cons_self]
      simp only [Option.getD_some, List.mem_append, mem_fresh, List.mem_singleton, true_and]
      tauto
    · rw [List.lookup_cons, beq_eq_false_iff_ne.2 hl, lookup_filter_ne hl]
      simp [hl]
  furthest := ⟨Nat.le_max_left .., fun l j h => h.1 ▸ Nat.le_max_right ..⟩

/-- Matching ahead as two loops over single steps. -/
theorem matchAhead_eq (s : Scannerless) (lines : LineTable) (start : String) (p : Progress) (t : List Char) :
    s.matchAhead lines start p t =
      s.ignore.foldl (fun q name => ((s.terminals.lookup name).bind (taken? · t)).elim q (q.skip start))
        ((p.chart.grammar.waiting p.chart.last).foldl (fun q x =>
          (s.lengths x.2 t).foldl (fun q n => q.take lines t x.1 x.2 n) q) p) := by
  rw [matchAhead]
  congr 1
  funext q name
  cases (s.terminals.lookup name).bind (taken? · t) <;> rfl

/-- The terminals that are waited for take text. -/
theorem takeAll_adds (s : Scannerless) (text : List Char) (p : Progress) :
    Adds p ((p.chart.grammar.waiting p.chart.last).foldl (fun q (x : Item × String) =>
      (s.lengths x.2 (text.drop p.chart.stop)).foldl (fun q n =>
        q.take (.ofText text) (text.drop p.chart.stop) x.1 x.2 n) q) p)
    (fun l j => ∃ x ∈ p.chart.grammar.waiting p.chart.last, ∃ n ∈ s.lengths x.2 (text.drop p.chart.stop),
      l = p.chart.stop + n ∧ j = x.1.advance)
    (fun y => ∃ x ∈ p.chart.grammar.waiting p.chart.last, ∃ n ∈ s.lengths x.2 (text.drop p.chart.stop),
      y = ⟨p.chart.stop, p.chart.stop + n, x.2, tokenAt text x.2 p.chart.stop (p.chart.stop + n)⟩)
    fun _ _ => False := by
  have hlengths : ∀ (x : Item × String) (q : Progress), Keeps p q → Adds q _ _ _ fun _ _ => False := fun x q hq =>
    (Keeps.foldl_adds (fun n q' hq' => by
      have := take_adds text q' x.1 x.2 n
      rwa [hq'.stop_eq] at this) (fun _ _ => id) (s.lengths x.2 (text.drop p.chart.stop)) hq).congr
      (fun _ _ => Iff.rfl) (fun _ => Iff.rfl) (by simp)
  exact (Keeps.foldl_adds hlengths (fun _ _ => id) _ (.refl p)).congr (fun _ _ => Iff.rfl) (fun _ => Iff.rfl) (by simp)

section Match

variable (hg : s.grammar.Exact IsNamed) {p : Progress} (hgrammar : p.chart.grammar = s.grammar)
  (hlast : ∀ i, i ∈ p.chart.last ↔ s.Found text start p.chart.stop i)
include hg hgrammar hlast

/-- What skipped text carries from the last column. -/
theorem mem_carried {j : Item} : (j ∈ (p.chart.grammar.waiting p.chart.last).map (·.1) ++ p.chart.last.filter fun i =>
      i.origin = 0 && i.isComplete p.chart.grammar.rules &&
        (p.chart.grammar.rules[i.dotted.rule]?).any (·.origin == start)) ↔
    s.Found text start p.chart.stop j ∧ s.Carried start j := by
  rw [List.mem_append, List.mem_map, List.mem_filter, hlast, Carried, and_or_left, hgrammar]
  refine or_congr ⟨?_, ?_⟩ (and_congr_right fun hj => ?_)
  · rintro ⟨⟨j, a⟩, hj, rfl⟩
    obtain ⟨hj, hn⟩ := ChartRules.mem_waiting.1 hj
    exact ⟨(hlast _).1 hj, a, hn⟩
  · rintro ⟨hj, a, hn⟩
    exact ⟨(j, a), ChartRules.mem_waiting.2 ⟨(hlast _).2 hj, hn⟩, rfl⟩
  · obtain ⟨r, hrec⟩ := hj.recognises hg
    have hcomplete : j.isComplete s.grammar.rules = true ↔ j.next? s.grammar.rules = none := by
      rw [Item.isComplete, DottedRule.isComplete_iff, Item.next?]
      refine ⟨?_, fun hn => ⟨r, hrec.rule, Nat.le_antisymm hrec.dot (DottedRule.next?_eq_none hrec.rule hn)⟩⟩
      rintro ⟨r', hr', hdot⟩
      rw [DottedRule.next?, hr']
      simp [hdot]
    simp [hcomplete, hrec.rule, and_assoc]

variable (hgaps : ∀ e, s.Leads text start e p.chart.stop ↔ e = p.chart.stop ∨ e ∈ p.chart.gapsAt p.chart.stop)
include hgaps

/-- A terminal that may be skipped carries what is found. -/
theorem skipOne_adds {q : Progress} (hq : Keeps p q) (name : String) :
    Adds q (((s.terminals.lookup name).bind (taken? · (text.drop p.chart.stop))).elim q (q.skip start))
      (fun l j => ∃ n, (s.terminals.lookup name).bind (taken? · (text.drop p.chart.stop)) = some n ∧
        l = p.chart.stop + n ∧ s.Found text start p.chart.stop j ∧ s.Carried start j)
      (fun _ => False)
      fun l e => ∃ n, (s.terminals.lookup name).bind (taken? · (text.drop p.chart.stop)) = some n ∧
        l = p.chart.stop + n ∧ s.Leads text start e p.chart.stop := by
  cases hn : (s.terminals.lookup name).bind (taken? · (text.drop p.chart.stop)) with
  | none => exact (Adds.refl q).congr (by simp) (by simp) (by simp)
  | some n =>
    have hlast' : ∀ i, i ∈ q.chart.last ↔ s.Found text start q.chart.stop i := by rwa [hq.last_eq, hq.stop_eq]
    refine (skip_adds q start n).congr (fun l j => ?_) (fun _ => Iff.rfl) fun l e => ?_
    · rw [mem_carried hg (hq.grammar.trans hgrammar) hlast', hq.stop_eq]
      simp
    · rw [hq.stop_eq, hq.gaps, ← hgaps]
      simp

/-- What a place passes on is what is added there. -/
theorem matchAhead_adds (hfound : ∃ i, s.Found text start p.chart.stop i) :
    Adds p (s.matchAhead (.ofText text) start p (text.drop p.chart.stop)) (s.Passes text start p.chart.stop)
      (fun x => x.start = p.chart.stop ∧ s.Scans text start x)
      fun l e => s.Leaps text start p.chart.stop l ∧ s.Leads text start e p.chart.stop := by
  have htake := takeAll_adds s text p
  have hskip := Keeps.foldl_adds (fun name q hq => skipOne_adds hg hgrammar hlast hgaps hq name) (fun name e h => by
      obtain ⟨n, hn, hl, -⟩ := h
      obtain ⟨m, -, hm⟩ := Option.bind_eq_some_iff.1 hn
      have := pos_of_taken? hm
      omega) s.ignore (Keeps.adds (.refl p) htake (by simp))
  rw [matchAhead_eq]
  refine (htake.trans hskip).congr (fun l j => or_congr ⟨?_, ?_⟩ ⟨?_, ?_⟩) (fun x => ⟨?_, ?_⟩) fun l e => ⟨?_, ?_⟩
  · rintro ⟨i, a, hi, hn, ⟨n, hlen, rfl⟩, rfl⟩
    exact ⟨(i, a), ChartRules.mem_waiting.2 ⟨(hlast i).2 hi, hgrammar ▸ hn⟩, n, hlen, rfl, rfl⟩
  · rintro ⟨⟨i, a⟩, hx, n, hlen, rfl, rfl⟩
    obtain ⟨hi, hn⟩ := ChartRules.mem_waiting.1 hx
    exact ⟨i, a, (hlast i).1 hi, hgrammar ▸ hn, ⟨n, hlen, rfl⟩, rfl⟩
  · rintro ⟨hj, hc, name, hname, n, hn, rfl⟩
    exact ⟨name, hname, n, hn, rfl, hj, hc⟩
  · rintro ⟨name, hname, n, hn, rfl, hj, hc⟩
    exact ⟨hj, hc, name, hname, n, hn, rfl⟩
  · obtain ⟨j, m, a, t⟩ := x
    rintro ⟨hj, ⟨i, hi, hn⟩, ht, htoken⟩
    dsimp only at hj hi hn ht htoken
    subst hj
    obtain ⟨n, hlen, rfl⟩ := ht
    exact .inl ⟨(i, a), ChartRules.mem_waiting.2 ⟨(hlast i).2 hi, hgrammar ▸ hn⟩, n, hlen, htoken ▸ rfl⟩
  · rintro (⟨⟨i, a⟩, hx, n, hlen, rfl⟩ | ⟨_, _, hno⟩)
    · obtain ⟨hi, hn⟩ := ChartRules.mem_waiting.1 hx
      exact ⟨rfl, ⟨i, (hlast i).1 hi, hgrammar ▸ hn⟩, ⟨n, hlen, rfl⟩, rfl⟩
    · exact hno.elim
  · rintro ⟨⟨-, name, hname, n, hn, rfl⟩, hlead⟩
    exact .inr ⟨name, hname, n, hn, rfl, hlead⟩
  · rintro (⟨⟨⟩⟩ | ⟨name, hname, n, hn, rfl, hlead⟩)
    exact ⟨⟨hfound, name, hname, n, hn, rfl⟩, hlead⟩

end Match

/-! ## The way through a text -/

/-- The columns up to a place are those of what is found, and the places before `matched` have passed on what they pass
on. -/
structure Reached (s : Scannerless) (text : List Char) (start : String) (pos matched : Nat) (p : Progress) : Prop where
  grammar : p.chart.grammar = s.grammar
  length : p.chart.columns.length = pos + 1
  column : ∀ k ≤ pos, ∀ i, i ∈ p.chart.column k ↔ s.Found text start k i
  pending : ∀ l i, (l, i) ∈ p.pending ↔ ∃ k < matched, s.Passes text start k l i
  scans : ∀ x, x ∈ p.chart.scans ↔ x.start < matched ∧ s.Scans text start x
  gaps : ∀ l e, e ∈ p.chart.gapsAt l ↔ ∃ k < matched, s.Leaps text start k l ∧ s.Leads text start e k
  furthest : ∀ l i, (l, i) ∈ p.pending → l ≤ p.furthest

/-- The chart of a text holds what is found in it. -/
structure Charts (s : Scannerless) (text : List Char) (start : String) (c : Chart) : Prop where
  grammar : c.grammar = s.grammar
  length : c.columns.length = text.length + 1
  column : ∀ k ≤ text.length, ∀ i, i ∈ c.column k ↔ s.Found text start k i
  ends : ∀ l ≤ text.length, ∀ e, e ∈ c.ends l ↔ s.Leads text start e l
  scans : ∀ x, x ∈ c.scans ↔ x.start < text.length ∧ s.Scans text start x

theorem Passes.exists_found (h : s.Passes text start k l i) : ∃ j, s.Found text start k j := by
  rcases h with ⟨j, -, hj, -⟩ | ⟨hi, -⟩
  exacts [⟨j, hj⟩, ⟨i, hi⟩]

theorem Leaps.lt (h : s.Leaps text start k l) : k < l := h.2.lt

theorem leads_iff {e : Nat} :
    s.Leads text start e l ↔ e = l ∨ ∃ k < l, s.Leaps text start k l ∧ s.Leads text start e k := by
  rw [Leads, Relation.ReflTransGen.cases_tail_iff, eq_comm]
  refine or_congr_right (exists_congr fun k => ⟨fun ⟨hlead, hleap⟩ => ⟨hleap.lt, hleap, hlead⟩, ?_⟩)
  rintro ⟨-, hleap, hlead⟩
  exact ⟨hlead, hleap⟩

namespace Reached

variable {pos matched : Nat} {p : Progress}

theorem stop_eq (h : s.Reached text start pos matched p) : p.chart.stop = pos := by
  rw [Chart.stop, h.length, Nat.add_sub_cancel]

theorem mem_last (h : s.Reached text start pos matched p) : i ∈ p.chart.last ↔ s.Found text start pos i := by
  have hlast : p.chart.last = p.chart.column pos := by
    rw [Chart.last, Chart.column, List.getLastD_eq_getLast?, List.getLast?_eq_getElem?, h.length, Nat.add_sub_cancel]
  rw [hlast, h.column pos (Nat.le_refl _)]

theorem last_isEmpty (h : s.Reached text start pos matched p) :
    p.chart.last.isEmpty = true ↔ ∀ i, ¬ s.Found text start pos i := by
  rw [List.isEmpty_iff, List.eq_nil_iff_forall_not_mem]
  exact forall_congr' fun i => not_congr h.mem_last

/-- The last place passes on what it passes on. -/
theorem matchAhead (h : s.Reached text start pos pos p) (hg : s.grammar.Exact IsNamed)
    (hfound : ∃ i, s.Found text start pos i) :
    s.Reached text start pos (pos + 1) (s.matchAhead (.ofText text) start p (text.drop pos)) := by
  have hadds := matchAhead_adds (p := p) hg h.grammar (fun i => h.stop_eq ▸ h.mem_last)
    (fun e => by rw [h.gaps, h.stop_eq]; exact leads_iff) (h.stop_eq ▸ hfound)
  rw [h.stop_eq] at hadds
  refine ⟨hadds.grammar.trans h.grammar, by rw [hadds.columns, h.length], fun k hk i => ?_, fun l i => ?_, fun x => ?_,
    fun l e => ?_, fun l i hi => ?_⟩
  · rw [Chart.column, hadds.columns]
    exact h.column k hk i
  · rw [hadds.pending, h.pending, Nat.exists_lt_succ_right]
  · rw [hadds.scans, h.scans, ← or_and_right, Nat.lt_succ_iff_lt_or_eq]
  · rw [hadds.gaps, h.gaps, Nat.exists_lt_succ_right]
  · rcases (hadds.pending l i).1 hi with hi | hi
    exacts [Nat.le_trans (h.furthest l i hi) hadds.furthest.1, hadds.furthest.2 l i hi]

/-- A place where nothing is found passes nothing on. -/
theorem pass_over (h : s.Reached text start pos pos p) (hnone : ∀ i, ¬ s.Found text start pos i) :
    s.Reached text start pos (pos + 1) p where
  grammar := h.grammar
  length := h.length
  column := h.column
  pending l i := by
    rw [h.pending, Nat.exists_lt_succ_right]
    exact (or_iff_left fun hp => hp.exists_found.elim hnone).symm
  scans x := by
    rw [h.scans, Nat.lt_succ_iff_lt_or_eq, or_and_right]
    refine (or_iff_left ?_).symm
    rintro ⟨rfl, ⟨i, hi, -⟩, -⟩
    exact hnone i hi
  gaps l e := by
    rw [h.gaps, Nat.exists_lt_succ_right]
    exact (or_iff_left fun hp => hp.1.1.elim hnone).symm
  furthest := h.furthest

/-- The next column holds what is found there. -/
theorem column_succ (h : s.Reached text start pos (pos + 1) p) (hg : s.grammar.Exact IsNamed) :
    s.Reached text start (pos + 1) (pos + 1) { p with chart := { p.chart with
      columns := p.chart.columns ++ [s.grammar.column p.chart.columns (p.seeds (pos + 1))] } } := by
  have hseeds : ∀ i, i ∈ p.seeds (pos + 1) ↔ ∃ k < pos + 1, s.Passes text start k (pos + 1) i := by
    intro i
    rw [← h.pending, Progress.seeds]
    simp [and_comm]
  have hcolumn : ∀ i, i ∈ s.grammar.column p.chart.columns (p.seeds (pos + 1)) ↔ s.Found text start (pos + 1) i := by
    intro i
    rw [← h.length]
    refine mem_column_iff hg (fun k hk => h.column k (by rw [h.length] at hk; omega)) (fun i hi => ?_) (fun h0 => ?_)
      fun k hk i hi => ?_
    · obtain ⟨k, -, hpass⟩ := (hseeds i).1 (h.length ▸ hi)
      exact h.length ▸ hpass.found
    · have := h.length
      rw [h0] at this
      cases this
    · rw [h.length] at hk hi ⊢
      exact (hseeds i).2 ⟨k, hk, hi⟩
  refine ⟨h.grammar, by simp [h.length], fun k hk i => ?_, h.pending, h.scans, h.gaps, h.furthest⟩
  rcases Nat.lt_or_eq_of_le hk with hlt | rfl
  · rw [Chart.column, List.getElem?_append_left (by rw [h.length]; exact hlt)]
    exact h.column k (by omega) i
  · rw [Chart.column, List.getElem?_append_right (Nat.le_of_eq h.length), h.length]
    simpa using hcolumn i

/-- At the end of the text, its chart is there. -/
theorem charts (h : s.Reached text start text.length text.length p) : s.Charts text start p.chart where
  grammar := h.grammar
  length := h.length
  column := h.column
  ends l hl e := by
    rw [Chart.ends, List.mem_cons, leads_iff]
    refine or_congr_right ((h.gaps l e).trans (exists_congr fun k => and_congr_left fun hk => ?_))
    have := hk.1.lt
    omega
  scans := h.scans

end Reached

/-- A text has a chart of what is found in it, or nothing is found at its end. -/
theorem scanText_outcome (hg : s.grammar.Exact IsNamed) : ∀ (rest : List Char) {pos : Nat} {p : Progress},
    s.Reached text start pos pos p → text.drop pos = rest → pos ≤ text.length →
      (∃ c, s.scanText (.ofText text) start rest p = .ok c ∧ s.Charts text start c) ∨
        (∃ f, s.scanText (.ofText text) start rest p = .error f) ∧ ∀ i, ¬ s.Found text start text.length i
  | [], pos, p, h, hrest, hpos => by
    obtain rfl : pos = text.length := Nat.le_antisymm hpos (List.drop_eq_nil_iff.1 hrest)
    exact .inl ⟨_, rfl, h.charts⟩
  | a :: rest, pos, p, h, hrest, hpos => by
    have hlt : pos < text.length := by
      by_contra hge
      rw [List.drop_eq_nil_of_le (by omega)] at hrest
      cases hrest
    have hnext : text.drop (pos + 1) = rest := by rw [← List.tail_drop, hrest, List.tail_cons]
    have hmatched : s.Reached text start pos (pos + 1)
        (if p.chart.last.isEmpty then p else s.matchAhead (.ofText text) start p (a :: rest)) := by
      split
      · rename_i hempty
        exact h.pass_over (h.last_isEmpty.1 hempty)
      · rename_i hne
        rw [h.last_isEmpty, not_forall_not] at hne
        exact hrest ▸ h.matchAhead hg hne
    rw [scanText, h.stop_eq]
    generalize (if p.chart.last.isEmpty then p else s.matchAhead (.ofText text) start p (a :: rest)) = q at hmatched ⊢
    split
    · rename_i hstuck
      simp only [Bool.and_eq_true, decide_eq_true_eq] at hstuck
      refine .inr ⟨⟨_, rfl⟩, fun i hi => ?_⟩
      have hnone : ∀ k ≤ pos, ∀ l i, pos < l → ¬ s.Passes text start k l i := fun k hk l i hl hpass => by
        have := hmatched.furthest l i ((hmatched.pending l i).2 ⟨k, Nat.lt_succ_of_le hk, hpass⟩)
        omega
      have := not_found_of_not_passes hnone hi
      omega
    · exact scanText_outcome hg rest (hmatched.column_succ hg) hnext hlt

/-- A text as a start symbol with a rule has a chart of what is found in it, or nothing is found at its end. -/
theorem chartOf_outcome (hg : s.grammar.Exact IsNamed) (hstart : ∃ r ∈ s.grammar.rules, r.origin = start)
    (text : List Char) :
    (∃ c, s.chartOf text start = .ok c ∧ s.Charts text start c) ∨
      (∃ f, s.chartOf text start = .error f) ∧ ∀ i, ¬ s.Found text start text.length i := by
  have hreached : s.Reached text start 0 0
      ⟨⟨s.grammar, [s.grammar.column [] (s.grammar.predict 0 start)], [], []⟩, [], 0⟩ := by
    refine ⟨rfl, rfl, fun k hk i => ?_, by simp, by simp, by simp [Chart.gapsAt], by simp⟩
    obtain rfl := Nat.le_zero.1 hk
    have hbefore : ∀ k < ([] : List Column).length, ∀ i, i ∈ (([] : List Column)[k]?).getD [] ↔
        s.Found text start k i := fun k hk => nomatch hk
    refine mem_column_iff hg hbefore (fun i hi => ?_) (fun _ rule r hr ho => ?_) (by simp)
    · obtain ⟨rule, r, hr, ho, rfl⟩ := ChartRules.mem_predict.1 hi
      exact .seed hr ho
    · exact ChartRules.mem_predict.2 ⟨rule, r, hr, ho, rfl⟩
  have hchart : s.chartOf text start = s.scanText (.ofText text) start text
      ⟨⟨s.grammar, [s.grammar.column [] (s.grammar.predict 0 start)], [], []⟩, [], 0⟩ := by
    rw [chartOf, start_ok hstart]
    rfl
  rw [hchart]
  exact scanText_outcome hg text hreached rfl (Nat.zero_le _)

end Scannerless

end GrammarKit.Earley
