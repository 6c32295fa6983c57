/-
What the chart of a text comes to, whatever the order of its steps. An item is found at a place by prediction, by
stepping over, by completion, over a token of the terminal that it waits for, or over skipped text. It says that the
symbols before its dot yield the tokens of a way from its origin to the place, and every such way from a place where the
item's rule may begin leads to it, as long as no text is skipped at the end. Skipped text at the end is left to what
comes after, and at the end of the text to the start symbol.
-/
import GrammarKit.Proofs.Earley.Column
import GrammarKit.Proofs.Grammar.Trees
import GrammarKit.Proofs.Scannerless.Cutting

namespace GrammarKit.Earley.Scannerless

section Found

variable (s : Scannerless) (text : List Char) (start : String)

/-- Skipped text carries the items that wait for a terminal, and the complete rules of the start symbol. -/
def Carried (i : Item) : Prop :=
  (∃ a, i.next? s.grammar.rules = some (.terminal a)) ∨
    i.origin = 0 ∧ i.next? s.grammar.rules = none ∧ ∃ r, s.grammar.rules[i.dotted.rule]? = some r ∧ r.origin = start

/-- The steps by which an item is found at a place. -/
inductive Found : Nat → Item → Prop
  | seed {rule : Nat} {r : Rule} (hr : s.grammar.rules[rule]? = some r) (ho : r.origin = start) :
    Found 0 (.initial 0 rule)
  | predict {k rule : Nat} {i : Item} {n : String} {r : Rule} (hi : Found k i)
    (hn : i.next? s.grammar.rules = some (.nonterminal n)) (hr : s.grammar.rules[rule]? = some r)
    (ho : r.origin = n) : Found k (.initial k rule)
  | stepOver {k : Nat} {i : Item} {n : String} (hi : Found k i)
    (hn : i.next? s.grammar.rules = some (.nonterminal n)) (hnull : n ∈ s.grammar.nullable) : Found k i.advance
  | complete {k : Nat} {i j : Item} {r : Rule} (hi : Found k i) (hn : i.next? s.grammar.rules = none)
    (hr : s.grammar.rules[i.dotted.rule]? = some r) (hj : Found i.origin j)
    (hjn : j.next? s.grammar.rules = some (.nonterminal r.origin)) : Found k j.advance
  | scan {j k : Nat} {i : Item} {a : String} (hi : Found j i) (hn : i.next? s.grammar.rules = some (.terminal a))
    (ht : s.Takes text a j k) : Found k i.advance
  | carry {j k : Nat} {i : Item} (hi : Found j i) (hc : s.Carried start i) (hs : s.Skips text j k) : Found k i

/-- What an item says at a place. -/
structure Recognises (k : Nat) (i : Item) (r : Rule) : Prop where
  rule : s.grammar.rules[i.dotted.rule]? = some r
  dot : i.dotted.dot ≤ r.symbols.length
  inner : ∃ ts, s.Spans text i.origin ts k ∧ Yields s.grammar.rules IsNamed (r.symbols.take i.dotted.dot) ts

/-- A nonterminal has a complete rule from one place to another. -/
def Covers (b : Goal) : Prop := ∃ rule r, s.grammar.rules[rule]? = some r ∧ r.origin = b.name ∧
  s.Found text start b.stop ⟨⟨rule, r.symbols.length⟩, b.start⟩

/-- A symbol is found between two places. -/
def Holds (j k : Nat) : Symbol → Prop
  | .terminal a => s.Takes text a j k
  | .nonterminal n => s.Covers text start ⟨n, j, k⟩

/-- Text is skipped from a place where something is found. -/
def Leaps (j k : Nat) : Prop := (∃ i, s.Found text start j i) ∧ s.Skips text j k

/-- Places with nothing between them, or only skipped text from places where something is found. -/
def Leads : Nat → Nat → Prop := Relation.ReflTransGen (s.Leaps text start)

end Found

variable {s : Scannerless} {text : List Char} {start : String} {k l : Nat} {i : Item} {r : Rule}

theorem Leads.gap {j : Nat} (h : s.Leads text start j k) : s.Gap text j k :=
  Relation.ReflTransGen.mono (fun _ _ h => h.2) _ _ h

/-! ## Items are sound -/

namespace Recognises

theorem origin (h : s.Recognises text k i r) : i.origin ≤ k := by
  obtain ⟨ts, hts, -⟩ := h.inner
  exact hts.le

theorem initial {rule : Nat} (hr : s.grammar.rules[rule]? = some r) : s.Recognises text k (.initial k rule) r :=
  ⟨hr, Nat.zero_le _, [], .refl, .nil⟩

/-- An item moves on over what its next symbol yields. -/
theorem advance (h : s.Recognises text k i r) {x : Symbol} (hx : i.next? s.grammar.rules = some x) {us : List Token}
    (hus : s.Spans text k us l) (hy : Yields s.grammar.rules IsNamed [x] us) : s.Recognises text l i.advance r := by
  obtain ⟨r', hr', hx⟩ := Item.next?_eq_some_iff.1 hx
  obtain rfl : r = r' := Option.some.inj (h.rule.symm.trans hr')
  obtain ⟨ts, hts, hinner⟩ := h.inner
  exact ⟨h.rule, (List.getElem?_eq_some_iff.1 hx).1, ts ++ us, hts.append hus,
    DottedRule.take_advance hx ▸ hinner.append hy⟩

/-- A complete item has recognised its nonterminal. -/
theorem yields (h : s.Recognises text k i r) (hn : i.next? s.grammar.rules = none) :
    ∃ ts, s.Spans text i.origin ts k ∧ Yields s.grammar.rules IsNamed [.nonterminal r.origin] ts := by
  obtain ⟨ts, hts, hinner⟩ := h.inner
  rw [List.take_of_length_le (DottedRule.next?_eq_none h.rule hn)] at hinner
  exact ⟨ts, hts, .of_rule (List.mem_of_getElem? h.rule) hinner⟩

end Recognises

variable (hg : s.grammar.Exact IsNamed)
include hg

/-- What is found is recognised. -/
theorem Found.recognises (h : s.Found text start k i) : ∃ r, s.Recognises text k i r := by
  induction h with
  | seed hr _ => exact ⟨_, .initial hr⟩
  | predict _ _ hr _ _ => exact ⟨_, .initial hr⟩
  | stepOver _ hn hnull ih =>
    obtain ⟨r, h⟩ := ih
    exact ⟨r, h.advance hn .refl (hg.sound _ hnull)⟩
  | complete _ hn hr _ hjn ih ihj =>
    obtain ⟨r, h⟩ := ih
    obtain rfl := Option.some.inj (h.rule.symm.trans hr)
    obtain ⟨r', h'⟩ := ihj
    obtain ⟨ts, hts, hy⟩ := h.yields hn
    exact ⟨r', h'.advance hjn hts hy⟩
  | scan _ hn ht ih =>
    obtain ⟨r, h⟩ := ih
    exact ⟨r, h.advance hn (.of_takes ht) (.terminal rfl .nil)⟩
  | carry _ _ hs ih =>
    obtain ⟨r, h⟩ := ih
    obtain ⟨ts, hts, hy⟩ := h.inner
    exact ⟨r, h.rule, h.dot, ts, List.append_nil ts ▸ hts.append (.of_gap (.single hs)), hy⟩

theorem Covers.yields {b : Goal} (h : s.Covers text start b) :
    ∃ ts, s.Spans text b.start ts b.stop ∧ Yields s.grammar.rules IsNamed [.nonterminal b.name] ts := by
  obtain ⟨rule, r, hr, ho, h⟩ := h
  obtain ⟨r', h⟩ := h.recognises hg
  obtain rfl := Option.some.inj (hr.symm.trans h.rule)
  obtain ⟨ts, hts, hy⟩ := h.inner
  rw [List.take_length] at hy
  exact ⟨ts, hts, ho ▸ .of_rule (List.mem_of_getElem? hr) hy⟩

theorem Holds.yields {x : Symbol} {j : Nat} (h : s.Holds text start j k x) :
    ∃ ts, s.Spans text j ts k ∧ Yields s.grammar.rules IsNamed [x] ts := by
  cases x with
  | terminal a => exact ⟨_, .of_takes h, .terminal rfl .nil⟩
  | nonterminal n => exact Covers.yields hg h

omit hg

/-! ## Items are complete -/

theorem Found.carry_gap {j : Nat} (h : s.Found text start j i) (hc : s.Carried start i) (gap : s.Gap text j k) :
    s.Found text start k i := by
  induction gap with
  | refl => exact h
  | tail _ hs ih => exact .carry ih hc hs

/-- An item moves on, from place to place, over all that its next symbols yield. -/
theorem Found.of_yields {xs : List Symbol} {ts : List Token} (hy : Yields s.grammar.rules IsNamed xs ts) :
    ∀ {k l : Nat} {i : Item} {r : Rule} {after : List Symbol}, s.Found text start k i →
      s.grammar.rules[i.dotted.rule]? = some r → r.symbols.drop i.dotted.dot = xs ++ after → s.Reads text k ts l →
      s.Found text start l ⟨⟨i.dotted.rule, i.dotted.dot + xs.length⟩, i.origin⟩ := by
  induction hy with
  | nil =>
    intro k l i r after h _ _ hreads
    rw [hreads.eq_of_nil]
    exact h
  | @terminal a t xs ts ha _ ih =>
    intro k l i r after h hr hd hreads
    have hn : i.next? s.grammar.rules = some (.terminal a) :=
      Item.next?_eq_some_iff.2 ⟨r, hr, by rw [← List.head?_drop, hd]; rfl⟩
    cases hreads with
    | cons gap ht rest =>
      obtain rfl : _ = a := ha
      have hd' : r.symbols.drop i.advance.dotted.dot = xs ++ after := by
        rw [Item.advance_dot, ← List.drop_drop, hd]
        rfl
      have := ih (.scan (h.carry_gap (.inl ⟨_, hn⟩) gap) hn ht) hr hd' rest
      simpa [Nat.add_assoc, Nat.add_comm 1] using this
  | @nonterminal q xs us ts hq inner _ ih1 ih2 =>
    intro k l i r after h hr hd hreads
    obtain ⟨m, hus, hts⟩ := hreads.split
    have hn : i.next? s.grammar.rules = some (.nonterminal q.origin) :=
      Item.next?_eq_some_iff.2 ⟨r, hr, by rw [← List.head?_drop, hd]; rfl⟩
    obtain ⟨rule, hrule⟩ := exists_rule_index hq
    have hbegun : q.symbols.drop (Item.initial k rule).dotted.dot = q.symbols ++ [] := by simp [Item.initial]
    have hdone := ih1 (.predict h hn hrule rfl) hrule hbegun hus
    have hcomplete : s.Found text start m i.advance :=
      .complete hdone (by rw [Item.next?, DottedRule.next?]; simp [Item.initial, hrule]) hrule h hn
    have hd' : r.symbols.drop i.advance.dotted.dot = xs ++ after := by
      rw [Item.advance_dot, ← List.drop_drop, hd]
      rfl
    have := ih2 hcomplete hr hd' hts
    simpa [Nat.add_assoc, Nat.add_comm 1] using this

/-- A rule that begins at a place is complete after what it yields. -/
theorem Found.complete_of_yields {rule : Nat} (h : s.Found text start k (.initial k rule))
    (hr : s.grammar.rules[rule]? = some r) {ts : List Token} (hy : Yields s.grammar.rules IsNamed r.symbols ts)
    (hreads : s.Reads text k ts l) : s.Found text start l ⟨⟨rule, r.symbols.length⟩, k⟩ := by
  have hbegun : r.symbols.drop (Item.initial k rule).dotted.dot = r.symbols ++ [] := by simp [Item.initial]
  simpa [Item.initial] using h.of_yields hy hr hbegun hreads

include hg

/-- The start symbol is found up to a place exactly if it yields the tokens of a way there. -/
theorem covers_start_iff : s.Covers text start ⟨start, 0, k⟩ ↔
    ∃ ts, s.Spans text 0 ts k ∧ Yields s.grammar.rules IsNamed [.nonterminal start] ts := by
  refine ⟨Covers.yields hg, ?_⟩
  rintro ⟨ts, ⟨m, hreads, gap⟩, hy⟩
  obtain ⟨r, hr, ho, hy⟩ := yields_nonterminal_iff.1 hy
  obtain ⟨rule, hrule⟩ := exists_rule_index hr
  have hbegun : s.Found text start 0 (.initial 0 rule) := .seed hrule ho
  have hdone := hbegun.complete_of_yields hrule hy hreads
  have hn : (⟨⟨rule, r.symbols.length⟩, 0⟩ : Item).next? s.grammar.rules = none := by
    rw [Item.next?, DottedRule.next?]
    simp [hrule]
  exact ⟨rule, r, hrule, ho, hdone.carry_gap (.inr ⟨rfl, hn, r, hrule, ho⟩) gap⟩

/-! ## Where the symbols before a dot are -/

omit hg in
/-- A rule that has not moved on was at most carried. -/
theorem Found.leads_origin (h : s.Found text start k i) : i.dotted.dot = 0 → s.Leads text start i.origin k := by
  induction h with
  | seed | predict => exact fun _ => .refl
  | stepOver | complete | scan => exact fun h => (nomatch h)
  | carry hi _ hs ih => exact fun h => (ih h).tail ⟨⟨_, hi⟩, hs⟩

/-- The last symbol before a dot is found up to a place that leads to the item's, where the item without it is found. -/
theorem Found.exists_split (h : s.Found text start k i) : ∀ {d : Nat}, i.dotted.dot = d + 1 →
    ∃ m e x, s.Leads text start e k ∧ i.origin ≤ m ∧ m ≤ e ∧ s.Found text start m ⟨⟨i.dotted.rule, d⟩, i.origin⟩ ∧
      (⟨⟨i.dotted.rule, d⟩, i.origin⟩ : Item).next? s.grammar.rules = some x ∧ s.Holds text start m e x := by
  induction h with
  | seed | predict => exact fun h => (nomatch h)
  | @stepOver k i n hi hn hnull ih =>
    intro d hd
    obtain rfl : i.dotted.dot = d := Nat.succ.inj hd
    obtain ⟨r, hr, ho, hy⟩ := yields_nonterminal_iff.1 (hg.sound n hnull)
    obtain ⟨rule, hrule⟩ := exists_rule_index hr
    obtain ⟨r', hi'⟩ := hi.recognises hg
    exact ⟨k, k, _, .refl, hi'.origin, Nat.le_refl _, hi, hn, rule, r, hrule, ho,
      (Found.predict hi hn hrule ho).complete_of_yields hrule hy .nil⟩
  | @complete k i j r hi hn hr hj hjn ih ihj =>
    intro d hd
    obtain rfl : j.dotted.dot = d := Nat.succ.inj hd
    obtain ⟨r', hi'⟩ := hi.recognises hg
    obtain ⟨r'', hj'⟩ := hj.recognises hg
    obtain rfl := Option.some.inj (hi'.rule.symm.trans hr)
    have hlen : i.dotted.dot = r'.symbols.length := Nat.le_antisymm hi'.dot (DottedRule.next?_eq_none hr hn)
    exact ⟨i.origin, k, _, .refl, hj'.origin, hi'.origin, hj, hjn, i.dotted.rule, r', hr, rfl, by rw [← hlen]; exact hi⟩
  | @scan j k i a hi hn ht ih =>
    intro d hd
    obtain rfl : i.dotted.dot = d := Nat.succ.inj hd
    obtain ⟨r, hi'⟩ := hi.recognises hg
    exact ⟨j, k, _, .refl, hi'.origin, Nat.le_of_lt ht.lt, hi, hn, ht⟩
  | carry hi _ hs ih =>
    intro d hd
    obtain ⟨m, e, x, hlead, h⟩ := ih hd
    exact ⟨m, e, x, hlead.tail ⟨⟨_, hi⟩, hs⟩, h⟩

end GrammarKit.Earley.Scannerless
