/-
Searching where no nonterminal derives itself. A goal that is derived inside another one takes less of the tokens, or
it takes the same tokens and its nonterminal is derived from the other one's, so no goal is met inside itself and none
is given up: every goal that the chart covers has a derivation, which depends on the goal alone. What the ways of a
goal are like, if the parts that they are made of are as they should be, is then true of all that is found.
-/
import GrammarKit.Proofs.Earley.Assembly
import GrammarKit.Proofs.Earley.Completeness
import GrammarKit.Proofs.Earley.Placement
import GrammarKit.Proofs.Earley.Recognition
import GrammarKit.Proofs.Grammar.Restless

namespace GrammarKit.Earley

namespace Chart

open Search

/-- Active goals, with the goal that is to be derived inside all of them, and derived from those over its stretch. -/
structure Descends (c : Chart) (rules : List Rule) (active : List Goal) (b : Goal) : Prop where
  nodup : active.Nodup
  covered : ∀ x ∈ active, c.Covers x
  nested : ∀ x ∈ active, x.start ≤ b.start ∧ b.stop ≤ x.stop
  leads : ∀ x ∈ active, x.start = b.start → x.stop = b.stop →
    Relation.TransGen (Rewrites rules) [.nonterminal x.name] [.nonterminal b.name]

theorem Descends.not_mem {c : Chart} {rules : List Rule} {active : List Goal} {b : Goal} (h : c.Descends rules active b)
    (hself : ∀ n, ¬ DerivesItself rules n) : b ∉ active := fun hb => hself _ (h.leads b hb rfl rfl)

/-- A place in a rule of a goal up to which the chart has recognised it, with the symbols after it over the rest of the
goal's stretch. The symbols before it are given from right to left. -/
structure Reaches (c : Chart) (rules : List Rule) (stands : String → Token → Prop) (w : List Token) (b : Goal) (i : Nat)
    (r : Rule) (syms : List Symbol) (stop : Nat) : Prop where
  candidate : (i, r) ∈ c.candidates b
  item : (⟨⟨i, syms.length⟩, b.start⟩ : Item) ∈ c.column stop
  le : stop ≤ b.stop
  after : ∃ after, r.symbols = syms.reverse ++ after ∧ Yields rules stands after (stretch w stop b.stop)

/-- A symbol in a rule of a goal, and a stretch that is tried for it. -/
def MayTake (c : Chart) (rules : List Rule) (stands : String → Token → Prop) (w : List Token) (b : Goal) (s : Symbol)
    (m e : Nat) : Prop :=
  ∃ i r before, c.Reaches rules stands w b i r (s :: before) e ∧ (m, e) ∈ c.splits ⟨⟨i, before.length⟩, b.start⟩ e

section Answers

variable (rules : List Rule) (stands : String → Token → Prop) (w : List Token)
  (Q : Symbol → Nat → Nat → Packed → Prop)

/-- What is found for a symbol over a stretch: something exactly if the symbol yields the stretch. -/
def Answers (s : Symbol) (j k : Nat) (r : Option Packed) : Prop :=
  (r = none → ¬ Yields rules stands [s] (stretch w j k)) ∧
    ∀ p, r = some p → Yields rules stands [s] (stretch w j k) ∧ Q s j k p

/-- What was found for goals that the chart covers is as it should be, and none was given up. -/
def Known (c : Chart) (F : Findings) : Prop :=
  ∀ b v, c.Covers b → F.lookup b = some v → ∃ p, v = some p ∧ Q (.nonterminal b.name) b.start b.stop p

end Answers

/-- Where no nonterminal derives itself, every goal that the chart covers has a derivation as it should be, if the ways
of a goal are as they should be whenever the goals below it have one. -/
theorem solve_ensures {c : Chart} {rules : List Rule} (hself : ∀ n, ¬ DerivesItself rules n)
    (hinside : ∀ b, c.Covers b → b.start < c.columns.length) {a : Ambiguity} {Q : Symbol → Nat → Nat → Packed → Prop}
    (hways : ∀ active b, c.Descends rules active b → b ∉ active → c.Covers b → ∀ solve : Goal → Search (Option Packed),
      (∀ x, c.Descends rules (b :: active) x → c.Covers x →
        Ensures (Known Q c) (solve x) fun r => ∃ p, r = some p ∧ Q (.nonterminal x.name) x.start x.stop p) →
      Ensures (Known Q c) (c.ways a (c.part solve) (fun x => .mk x.2) b) fun ws =>
        ws ≠ [] ∧ Q (.nonterminal b.name) b.start b.stop (.node ws)) :
    ∀ (fuel : Nat) (active : List Goal) (b : Goal), c.Descends rules active b → c.Covers b →
      fuel + active.length = c.goalCount + 1 → Ensures (Known Q c) (c.solve a fuel active b) fun r =>
        ∃ p, r = some p ∧ Q (.nonterminal b.name) b.start b.stop p
  | 0, active, b, hd, _, hfuel => by
    have hgoals : c.Goals b active := ⟨hd.nodup, fun x hx => .inl ⟨hd.covered x hx, hinside x (hd.covered x hx)⟩⟩
    have := hgoals.length_le
    omega
  | fuel + 1, active, b, hd, hb, hfuel => by
    intro F hF
    rw [solve_succ]
    cases hlook : F.lookup b with
    | some known => exact ⟨hF, hF b known hb hlook⟩
    | none =>
      have hmem := hd.not_mem hself
      simp only [List.contains_eq_mem, hmem, decide_false, Bool.false_eq_true, if_false]
      obtain ⟨hF', hne, hq⟩ := hways active b hd hmem hb (c.solve a fuel (b :: active)) (fun x hx hc =>
        solve_ensures hself hinside hways fuel (b :: active) x hx hc (by rw [List.length_cons]; omega)) F hF
      rw [if_neg (by simpa using hne)]
      refine ⟨fun x v hx hv => ?_, _, rfl, hq⟩
      by_cases hxb : x = b
      · subst hxb
        rw [List.lookup_cons_self] at hv
        exact ⟨_, (Option.some.inj hv).symm, hq⟩
      · rw [lookup_cons_of_ne hxb] at hv
        exact hF' x v hx hv

namespace Records

variable {g : ChartRules} {stands : String → Token → Prop} {start : String} {w : List Token} {c : Chart}
  (h : c.Records g stands start w) (hg : g.Exact stands) {active : List Goal} {b : Goal}
include h

section Reaches

variable {i : Nat} {r : Rule} {syms before : List Symbol} {s : Symbol} {stop m : Nat}

theorem reaches_stop (hc : (i, r) ∈ c.candidates b) : c.Reaches g.rules stands w b i r r.symbols.reverse b.stop := by
  obtain ⟨-, hr, hi⟩ := h.complete_of_mem_candidates hc
  refine ⟨hc, by rwa [List.length_reverse], Nat.le_refl _, [], by simp, ?_⟩
  rw [stretch_self]
  exact .nil

theorem reaches_before (ht : c.Reaches g.rules stands w b i r (s :: before) stop)
    (hm : (m, stop) ∈ c.splits ⟨⟨i, before.length⟩, b.start⟩ stop)
    (hy : Yields g.rules stands [s] (stretch w m stop)) : c.Reaches g.rules stands w b i r before m := by
  obtain ⟨-, -, hle, hi⟩ := h.mem_splits_iff.1 hm
  obtain ⟨after, hsyms, hafter⟩ := ht.after
  refine ⟨ht.candidate, hi, Nat.le_trans hle ht.le, s :: after, by simpa using hsyms, ?_⟩
  rw [← stretch_append hle ht.le]
  exact hy.append hafter

include hg

/-- The symbols up to the place yield the tokens up to there. -/
theorem yields_of_reaches (ht : c.Reaches g.rules stands w b i r syms stop) :
    b.start ≤ stop ∧ stop ≤ w.length ∧ Yields g.rules stands syms.reverse (stretch w b.start stop) := by
  obtain ⟨-, hr, -⟩ := h.complete_of_mem_candidates ht.candidate
  obtain ⟨after, hsyms, -⟩ := ht.after
  obtain ⟨hj, hw, hy⟩ := h.yields_of_mem_column hg ht.item hr
  rw [hsyms, List.take_left' (by simp)] at hy
  exact ⟨hj, hw, hy⟩

theorem start_eq_of_reaches_nil (ht : c.Reaches g.rules stands w b i r [] stop) : b.start = stop := by
  obtain ⟨hj, hw, hy⟩ := h.yields_of_reaches hg ht
  have hlen := length_stretch (j := b.start) hw
  rw [yields_nil_iff.1 hy, List.length_nil] at hlen
  omega

/-- The splits before a symbol are the places up to which the symbols before it yield the tokens. -/
theorem mem_splits_of_reaches (ht : c.Reaches g.rules stands w b i r (s :: before) stop) {e : Nat} :
    (m, e) ∈ c.splits ⟨⟨i, before.length⟩, b.start⟩ stop ↔
      e = stop ∧ b.start ≤ m ∧ m ≤ stop ∧ Yields g.rules stands before.reverse (stretch w b.start m) := by
  obtain ⟨-, hr, -⟩ := h.complete_of_mem_candidates ht.candidate
  obtain ⟨after, hsyms, -⟩ := ht.after
  have htake : r.symbols.take before.length = before.reverse := by
    rw [hsyms, List.reverse_cons, List.append_assoc, List.take_left' (by simp)]
  rw [h.mem_splits_iff]
  refine and_congr_right fun _ => and_congr_right fun hj => and_congr_right fun hm => ⟨fun hi => ?_, fun hy => ?_⟩
  · have hy := (h.yields_of_mem_column hg hi hr).2.2
    rwa [htake] at hy
  · exact h.mem_column_before hg ht.item hr (Nat.le_succ _) hj hm (htake ▸ hy)

/-- The last symbol before the place can be split off somewhere. -/
theorem exists_split_of_reaches (ht : c.Reaches g.rules stands w b i r (s :: before) stop) :
    ∃ m, (m, stop) ∈ c.splits ⟨⟨i, before.length⟩, b.start⟩ stop ∧ Yields g.rules stands [s] (stretch w m stop) := by
  obtain ⟨hj, hw, hy⟩ := h.yields_of_reaches hg ht
  rw [List.reverse_cons] at hy
  obtain ⟨us, vs, heq, hus, hvs⟩ := hy.split
  obtain ⟨m, hjm, hms, rfl, rfl⟩ := stretch_divide hj hw heq
  exact ⟨m, (h.mem_splits_of_reaches hg ht).2 ⟨rfl, hjm, hms, hus⟩, hvs⟩

end Reaches

include hg

/-- A goal of a symbol that a goal's rule may have there lies below the goal and all that are active. -/
theorem descends_child (hd : c.Descends g.rules active b) (hb : c.Covers b) (hnew : b ∉ active) {n : String} {m e : Nat}
    (ht : c.MayTake g.rules stands w b (.nonterminal n) m e) : c.Descends g.rules (b :: active) ⟨n, m, e⟩ := by
  obtain ⟨i, r, before, ht, hsplit⟩ := ht
  obtain ⟨after, hsyms, hafter⟩ := ht.after
  obtain ⟨horigin, hr, -⟩ := h.complete_of_mem_candidates ht.candidate
  obtain ⟨-, hj, hm, hbefore⟩ := (h.mem_splits_of_reaches hg ht).1 hsplit
  rw [List.reverse_cons, List.append_assoc] at hsyms
  have hnested : ∀ x ∈ b :: active, x.start ≤ b.start ∧ b.stop ≤ x.stop := by
    rintro x (_ | ⟨_, hx⟩)
    exacts [⟨Nat.le_refl _, Nat.le_refl _⟩, hd.nested x hx]
  refine ⟨List.nodup_cons.2 ⟨hnew, hd.nodup⟩, ?_, fun x hx => ?_, fun x hx hstart hstop => ?_⟩
  · rintro x (_ | ⟨_, hx⟩)
    exacts [hb, hd.covered x hx]
  · have := hnested x hx
    exact ⟨Nat.le_trans this.1 hj, Nat.le_trans ht.le this.2⟩
  · -- the symbols around the nonterminal take no tokens, so the rule derives it alone
    have hx' := hnested x hx
    have he := ht.le
    simp only at hstart hstop
    obtain rfl : b.start = m := by omega
    obtain rfl : e = b.stop := by omega
    rw [stretch_self] at hbefore hafter
    have hstep : Relation.TransGen (Rewrites g.rules) [.nonterminal b.name] [.nonterminal n] := by
      have hrule := Rewrites.of_rule (List.mem_of_getElem? hr)
      rw [horigin, hsyms] at hrule
      refine .head' hrule ?_
      exact hbefore.derives_nil.append (hafter.derives_nil.append_left [.nonterminal n])
    rcases List.mem_cons.1 hx with rfl | hx
    · exact hstep
    · exact (hd.leads x hx (by omega) (by omega)).trans hstep

variable {Q : Symbol → Nat → Nat → Packed → Prop}
  (htoken : ∀ a j t, w[j]? = some t → stands a t → Q (.terminal a) j (j + 1) (.token t))
include htoken

/-- A part is found exactly if its symbol yields the stretch. -/
theorem part_answers {s : Symbol} {m e : Nat} (ht : c.MayTake g.rules stands w b s m e)
    {solve : Goal → Search (Option Packed)} (hsolve : ∀ n, s = .nonterminal n → c.Covers ⟨n, m, e⟩ →
      Ensures (Known Q c) (solve ⟨n, m, e⟩) fun r => ∃ p, r = some p ∧ Q s m e p) :
    Ensures (Known Q c) (c.part solve s m e) (Answers g.rules stands w Q s m e) := by
  obtain ⟨i, r, before, ht, hsplit⟩ := ht
  obtain ⟨after, hsyms, -⟩ := ht.after
  obtain ⟨-, hr, -⟩ := h.complete_of_mem_candidates ht.candidate
  obtain ⟨-, -, hm, hi⟩ := h.mem_splits_iff.1 hsplit
  have hw := (h.yields_of_reaches hg ht).2.1
  have hn : Item.next? g.rules ⟨⟨i, before.length⟩, b.start⟩ = some s :=
    Item.next?_eq_some_iff.2 ⟨r, hr, by simp [hsyms]⟩
  unfold part
  split
  · rename_i a
    refine .pure ⟨fun hnone hy => ?_, fun p hp => ?_⟩
    · obtain ⟨d, hd⟩ := hy.trees
      obtain ⟨t, ht, -, ha⟩ := trees_terminal_iff.1 hd
      obtain ⟨rfl, htw⟩ := stretch_eq_singleton hw ht
      exact h.token?_ne_none hi hn htw ha (by simpa using hnone)
    · obtain ⟨t, ht, rfl⟩ := Option.map_eq_some_iff.1 hp
      obtain ⟨rfl, htw, ha⟩ := h.token?_eq_some ht
      exact ⟨by rw [stretch_succ htw]; exact .terminal ha .nil, htoken a m t htw ha⟩
  · rename_i n
    split
    · rename_i hempty
      refine .pure ⟨fun _ hy => ?_, fun p hp => (nomatch hp)⟩
      exact absurd (List.isEmpty_iff.1 hempty) (h.covers_of_waiting hg hi hn hm hw hy)
    · rename_i hne
      have hc : c.Covers ⟨n, m, e⟩ := fun h0 => hne (List.isEmpty_iff.2 h0)
      refine fun F hF => ⟨(hsolve n rfl hc F hF).1, ?_⟩
      obtain ⟨p, hp, hq⟩ := (hsolve n rfl hc F hF).2
      rw [hp]
      refine ⟨fun h0 => (nomatch h0), fun p' hp' => ?_⟩
      cases hp'
      exact ⟨((h.covers_iff hg).1 hc).2.2.2, hq⟩

variable (hself : ∀ n, ¬ DerivesItself g.rules n) {a : Ambiguity}
  (hways : ∀ b, c.Covers b → ∀ part : Symbol → Nat → Nat → Search (Option Packed),
    (∀ s m e, c.MayTake g.rules stands w b s m e →
      Ensures (Known Q c) (part s m e) (Answers g.rules stands w Q s m e)) →
    Ensures (Known Q c) (c.ways a part (fun x => .mk x.2) b) fun ws =>
      ws ≠ [] ∧ Q (.nonterminal b.name) b.start b.stop (.node ws))
include hself hways

/-- Every goal that the chart covers has a derivation, made of ways as they should be. -/
theorem solve_answers (fuel : Nat) (active : List Goal) (b : Goal) (hd : c.Descends g.rules active b)
    (hb : c.Covers b) (hfuel : fuel + active.length = c.goalCount + 1) :
    Ensures (Known Q c) (c.solve a fuel active b) fun r =>
      ∃ p, r = some p ∧ Q (.nonterminal b.name) b.start b.stop p := by
  refine solve_ensures hself (fun b hb => ?_) (fun active b hd hnew hb solve hsolve => ?_) fuel active b hd hb hfuel
  · obtain ⟨hstart, hstop, -⟩ := (h.covers_iff hg).1 hb
    rw [h.length]
    omega
  · refine hways b hb (c.part solve) fun s m e ht => h.part_answers hg htoken ht fun n hs hc => ?_
    subst hs
    exact hsolve ⟨n, m, e⟩ (h.descends_child hg hd hb hnew ht) hc

/-- A chart that accepts has a derivation of its start symbol as it should be. -/
theorem derivation?_answers {name : String} (hc : c.Covers (c.whole name)) :
    ∃ p, c.derivation? a name = some p ∧ Q (.nonterminal name) 0 w.length p := by
  have hd : c.Descends g.rules [] (c.whole name) := ⟨List.nodup_nil, by simp, by simp, by simp⟩
  have hanswer := (h.solve_answers hg htoken hself hways (c.goalCount + 1) [] (c.whole name) hd hc rfl []
    fun _ _ _ h0 => (nomatch h0)).2
  rw [whole, h.stop_eq] at hanswer
  rw [derivation?, h.stop_eq]
  exact hanswer

end Records

end Chart

/-- What the start symbol yields is parsed, and nothing else, and the value is built from a derivation as it should
be. -/
theorem parse_answers {conf : ParserConfig} {matches? : Chart.TokenMatch} {o : Options} {p : Parser}
    (hp : Parser.ofConfig conf matches? o = .ok p) (hself : ∀ n, ¬ DerivesItself conf.rules n)
    (hm : ∀ a t, ∃ b, matches? a t = .ok b) (start : String) (tokens : List Token)
    {Q : Symbol → Nat → Nat → Packed → Prop}
    (htoken : ∀ a j t, tokens[j]? = some t → matches?.Stands a t → Q (.terminal a) j (j + 1) (.token t))
    (hways : ∀ c : Chart, c.Records (.ofRules conf.rules) matches?.Stands start tokens → ∀ b, c.Covers b →
      ∀ part : Symbol → Nat → Nat → Search (Option Packed),
      (∀ s m e, c.MayTake conf.rules matches?.Stands tokens b s m e →
        Search.Ensures (Chart.Known Q c) (part s m e) (Chart.Answers conf.rules matches?.Stands tokens Q s m e)) →
      Search.Ensures (Chart.Known Q c) (c.ways o.ambiguity part (fun x => .mk x.2) b) fun ws =>
        ws ≠ [] ∧ Q (.nonterminal b.name) b.start b.stop (.node ws)) :
    ((∃ value, p.parse (Listed.ofTokens tokens) start = .ok value) ↔
      Yields conf.rules matches?.Stands [.nonterminal start] tokens) ∧
    ∀ value, p.parse (Listed.ofTokens tokens) start = .ok value →
      ∃ (c : Chart) (d : Packed), c.Records (.ofRules conf.rules) matches?.Stands start tokens ∧
        c.derivation? o.ambiguity start = some d ∧ Q (.nonterminal start) 0 tokens.length d ∧
        value = d.build conf.actions := by
  obtain ⟨rfl, -⟩ := ofConfig_eq_ok hp
  have hg : (ChartRules.ofRules conf.rules).Exact matches?.Stands := ChartRules.exact_ofRules _
  have hfound : ∀ c : Chart, c.Records (.ofRules conf.rules) matches?.Stands start tokens → c.accepts start = true →
      ∃ d, c.derivation? o.ambiguity start = some d ∧ Q (.nonterminal start) 0 tokens.length d := by
    intro c hr ha
    refine hr.derivation?_answers hg htoken hself (hways c hr) ?_
    rwa [Chart.accepts, Bool.not_eq_true', List.isEmpty_eq_false_iff] at ha
  refine ⟨⟨?_, fun hy => ?_⟩, fun value h => ?_⟩
  · rintro ⟨value, h⟩
    obtain ⟨c, -, hc, ha, -⟩ := parse_eq_ok_iff.1 h
    exact ((records_of_ofTokens hg hm hc).accepts_iff hg).1 ha
  · obtain ⟨c, hc, ha, hrec⟩ := exists_accepting hg hm hy
    obtain ⟨d, hd, -⟩ := hfound c hrec ha
    exact ⟨_, parse_eq_ok_iff.2 ⟨c, d, hc, ha, hd, rfl⟩⟩
  · obtain ⟨c, d, hc, ha, hd, rfl⟩ := parse_eq_ok_iff.1 h
    have hr := records_of_ofTokens hg hm hc
    obtain ⟨d', hd', hq⟩ := hfound c hr ha
    obtain rfl := Option.some.inj (hd.symm.trans hd')
    exact ⟨c, d, hr, hd, hq, rfl⟩

end GrammarKit.Earley
