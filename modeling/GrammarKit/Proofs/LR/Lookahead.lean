/-
Lookaheads are complete. The entries of a state tell which terminals may stand after its rules: what begins
inside a rule may be followed by what comes first after it, the follower of a rule stays when the dot moves on
into the next state, and the end marker follows the root rules. Every entry belongs to a rule of its state.
-/
import GrammarKit.LR.Lookahead
import GrammarKit.Proofs.Grammar.Trees
import GrammarKit.Proofs.LR.Automaton

namespace GrammarKit.LR

/-- The name of the token that comes next, if `last` comes after all tokens. -/
def lookahead (last : String) : List Token → String
  | [] => last
  | t :: _ => t.kind

theorem lookahead_append (last : String) : ∀ ts us : List Token,
    lookahead last (ts ++ us) = lookahead (lookahead last us) ts
  | [], _ => rfl
  | _ :: _, _ => rfl

/-! ## Entries that entries lead to -/

section Close

variable {rules : List Rule} {start : List String}

theorem mem_begins_entry {e x : Entry} : x ∈ e.begins (.ofRules rules start) ↔ x.item ∈ begins rules e.item ∧
    (x.follower ∈ ((GrammarSets.ofRules rules start).firstOfSequence (e.item.rest rules)).1 ∨
      allNullable (nullableNames rules) (e.item.rest rules) = true ∧ x.follower = e.follower) := by
  obtain ⟨d, f⟩ := x
  have hr : (GrammarSets.ofRules rules start).rules = rules := rfl
  simp only [Entry.begins, hr, GrammarSets.firstOfSequence_snd, List.mem_flatMap, List.mem_map, Entry.mk.injEq]
  constructor
  · rintro ⟨d', hd, f', hf, rfl, rfl⟩
    refine ⟨hd, ?_⟩
    split at hf
    · rename_i hn
      rcases List.mem_cons.1 (mem_fresh.1 hf).1 with h | h
      exacts [.inr ⟨hn, h⟩, .inl h]
    · exact .inl hf
  · rintro ⟨hd, hf⟩
    refine ⟨d, hd, f, ?_, rfl, rfl⟩
    split
    · rcases hf with h | ⟨-, h⟩ <;> simp [h]
    · rename_i hn
      exact hf.resolve_right fun h => hn h.1

theorem ruleTerminals_of_rest {d : DottedRule} {b : String} (h : .terminal b ∈ d.rest rules) :
    b ∈ ruleTerminals rules := by
  unfold DottedRule.rest at h
  split at h
  · rename_i r hr
    exact mem_ruleTerminals.2 ⟨r, List.mem_of_getElem? hr, List.mem_of_mem_drop h⟩
  · cases h

theorem mem_closeEntries_of_mem {entries : List Entry} {e : Entry} (h : e ∈ entries) :
    e ∈ closeEntries (.ofRules rules start) entries :=
  mem_reachable_of_mem h

theorem closeEntries_induction {entries : List Entry} {P : Entry → Prop} (h0 : ∀ e ∈ entries, P e)
    (hs : ∀ e, P e → ∀ x ∈ e.begins (.ofRules rules start), P x) :
    ∀ e ∈ closeEntries (.ofRules rules start) entries, P e :=
  reachable_induction h0 hs

theorem mem_closeEntries_of_begins {entries : List Entry} {e x : Entry}
    (he : e ∈ closeEntries (.ofRules rules start) entries) (hx : x ∈ e.begins (.ofRules rules start)) :
    x ∈ closeEntries (.ofRules rules start) entries := by
  -- an entry is given, or pairs a dotted rule with a given follower or a terminal of the rules
  let names := entries.map Entry.follower ++ ruleTerminals rules
  refine mem_reachable_of_next (entries ++ (allDotted rules).flatMap fun d => names.map fun f => ⟨d, f⟩)
    (fun _ h => List.mem_append_left _ h) (fun e he x hx => ?_) ?_ he hx
  · obtain ⟨hd, hf⟩ := mem_begins_entry.1 hx
    refine List.mem_append_right _ (List.mem_flatMap.2 ⟨x.item, mem_allDotted_of_begins hd,
      List.mem_map.2 ⟨x.follower, ?_, rfl⟩⟩)
    rcases hf with hf | ⟨-, hf⟩
    · exact List.mem_append_right _
        (GrammarSets.mem_ruleTerminals_of_firstOfSequence (fun b => ruleTerminals_of_rest) hf)
    · rw [hf]
      rcases List.mem_append.1 he with he | he
      · exact List.mem_append_left _ (List.mem_map_of_mem he)
      · obtain ⟨d, -, he⟩ := List.mem_flatMap.1 he
        obtain ⟨f, hf', rfl⟩ := List.mem_map.1 he
        exact hf'
  · have hlen : ((allDotted rules).flatMap fun d => names.map fun f => (⟨d, f⟩ : Entry)).length =
        dottedCount rules * names.length := by
      simp [List.length_flatMap, length_allDotted]
    have hnames : names.length ≤ entries.length + followerCount rules := by
      have := length_ruleTerminals_le rules
      simp only [names, List.length_append, List.length_map, followerCount]
      omega
    have := Nat.mul_le_mul_left (dottedCount rules) hnames
    rw [List.length_append, hlen]
    show _ ≤ entries.length + dottedCount rules * (entries.length + followerCount rules) + 1
    omega

/-- What begins at an entry may be followed by the next token of what comes after it. -/
theorem mem_closeEntries_of_yields {entries : List Entry} {e : Entry}
    (he : e ∈ closeEntries (.ofRules rules start) entries)
    {d : DottedRule} (hd : d ∈ begins rules e.item) {v : List Token} (hv : Yields rules IsNamed (e.item.rest rules) v) :
    ⟨d, lookahead e.follower v⟩ ∈ closeEntries (.ofRules rules start) entries := by
  refine mem_closeEntries_of_begins he (mem_begins_entry.2 ⟨hd, ?_⟩)
  have hk : Yields rules Eq (e.item.rest rules) (v.map Token.kind) := hv.map Token.kind fun _ _ h => Eq.symm h
  cases v with
  | nil => exact .inr ⟨allNullable_nullableNames_iff.2 hk, rfl⟩
  | cons t v => exact .inl (GrammarSets.first_of_yields hk rfl)

end Close

/-! ## Facts -/

namespace Automaton

variable {rules : List Rule} {start : List String}

/-- The sets of an automaton's rules. -/
abbrev sets (a : Automaton) : GrammarSets := .ofRules a.rules []

theorem mem_passages {a : Automaton} {p : Passage} : p ∈ a.passages a.sets ↔
    ∃ state k d, a.states[state]? = some k ∧ d ∈ k ∧ p = a.passage a.sets state d := by
  simp only [passages, List.mem_flatMap, List.mem_map, Prod.exists, List.mem_zipIdx_iff_getElem?]
  constructor
  · rintro ⟨k, state, hk, d, hd, rfl⟩; exact ⟨state, k, d, hk, hd, rfl⟩
  · rintro ⟨state, k, d, hk, hd, rfl⟩; exact ⟨k, state, hk, d, hd, rfl⟩

theorem mem_leads {a : Automaton} {state : Nat} {d : DottedRule} {l : Fact} : l ∈ (a.passage a.sets state d).leads ↔
    ∃ e ∈ closeEntries a.sets [⟨d, anyMark⟩], ∃ s target, e.item.next? a.rules = some s ∧
      a.target? state s = some target ∧ l = ⟨target, ⟨e.item.advance, e.follower⟩⟩ := by
  simp only [passage, List.mem_filterMap]
  refine exists_congr fun e => and_congr_right fun _ => ?_
  simp only [bind, Option.bind_eq_some_iff, pure, Option.some.injEq]
  constructor
  · rintro ⟨s, hs, target, ht, h⟩; exact ⟨s, target, hs, ht, h.symm⟩
  · rintro ⟨s, target, hs, ht, h⟩; exact ⟨s, hs, target, ht, h.symm⟩

theorem mem_followers {facts : List Fact} {state : Nat} {d : DottedRule} {f : String} :
    f ∈ followers facts state d ↔ ⟨state, ⟨d, f⟩⟩ ∈ facts := by
  simp only [followers, List.mem_map, List.mem_filter, Bool.and_eq_true, beq_iff_eq]
  constructor
  · rintro ⟨⟨s, ⟨d', f'⟩⟩, ⟨hf, rfl, rfl⟩, rfl⟩; exact hf
  · exact fun h => ⟨_, ⟨h, rfl, rfl⟩, rfl⟩

theorem mem_links {ps : List Passage} {l : Link} : l ∈ links ps ↔ ∃ p ∈ ps, ∃ x ∈ p.leads, x.entry.follower = anyMark ∧
    l = ⟨(p.state, p.item), (x.state, x.entry.item)⟩ := by
  simp only [links, List.mem_flatMap, List.mem_map, List.mem_filter, beq_iff_eq, and_assoc, @eq_comm _ _ l]

theorem mem_passed {known : List Fact} {l : Link} {f : Fact} : f ∈ l.passed known ↔
    ∃ a, ⟨l.source.1, ⟨l.source.2, a⟩⟩ ∈ known ∧ f = ⟨l.target.1, ⟨l.target.2, a⟩⟩ := by
  simp only [Link.passed, List.mem_map, mem_followers, @eq_comm _ _ f]

section Facts

variable {a : Automaton}

theorem mem_facts_of_spontaneous {f : Fact} (h : f ∈ a.spontaneous (a.passages a.sets)) : f ∈ a.facts a.sets :=
  whileChanged_induction (P := fun (known : List Fact) => f ∈ known) (fun _ _ hf _ _ => mem_passOn.2 (.inl hf)) _ _
    (mem_fresh.2 ⟨h, List.not_mem_nil⟩)

/-- When the rounds have come to an end, every link has passed its followers on. -/
theorem mem_facts_of_passed {f : Fact} {l : Link} (hl : l ∈ links (a.passages a.sets))
    (hf : f ∈ l.passed (a.facts a.sets)) : f ∈ a.facts a.sets := by
  have hquiet : ∀ (known : List Fact) (l : Link), (passOn known l).2 = false → fresh known (l.passed known) = [] :=
    fun known l h => by simpa [passOn] using h
  refine whileChanged_settled (P := fun (known : List Fact) (l : Link) => ∀ f ∈ l.passed known, f ∈ known)
    (fun known l h f hf => ?_) (fun known l h _ hy => ?_) _ _ _ l hl f hf
  · by_contra hno
    have hmem : f ∈ fresh known (l.passed known) := mem_fresh.2 ⟨hf, hno⟩
    rw [hquiet known l h] at hmem
    cases hmem
  · have hstill : (passOn known l).1 = known := by
      show known ++ fresh known (l.passed known) = known
      rw [hquiet known l h, List.append_nil]
    rwa [hstill]

/-- A fact is passed on over every passage of its rule on which the mark is still there. -/
theorem mem_facts_of_lead {f x : Fact} {p : Passage} (hf : f ∈ a.facts a.sets) (hp : p ∈ a.passages a.sets)
    (hstate : p.state = f.state) (hitem : p.item = f.entry.item) (hx : x ∈ p.leads) (hmark : x.entry.follower = anyMark) :
    ⟨x.state, ⟨x.entry.item, f.entry.follower⟩⟩ ∈ a.facts a.sets := by
  refine mem_facts_of_passed (mem_links.2 ⟨p, hp, x, hx, hmark, rfl⟩) (mem_passed.2 ⟨f.entry.follower, ?_, rfl⟩)
  rw [hstate, hitem]
  exact hf

/-- What holds of the spontaneous facts and of each fact with what it is passed on to holds of all facts. -/
theorem facts_induction {P : Fact → Prop} (h0 : ∀ f ∈ a.spontaneous (a.passages a.sets), P f)
    (hs : ∀ f, P f → ∀ p ∈ a.passages a.sets, p.state = f.state → p.item = f.entry.item →
      ∀ x ∈ p.leads, x.entry.follower = anyMark → P ⟨x.state, ⟨x.entry.item, f.entry.follower⟩⟩) :
    ∀ f ∈ a.facts a.sets, P f := by
  refine whileChanged_induction (P := fun (known : List Fact) => ∀ f ∈ known, P f) (fun known _ hknown l hl f hf => ?_) _ _
    fun f hf => h0 f (mem_fresh.1 hf).1
  rcases mem_passOn.1 hf with hf | hf
  · exact hknown f hf
  · obtain ⟨b, hb, rfl⟩ := mem_passed.1 hf
    obtain ⟨p, hp, x, hx, hmark, rfl⟩ := mem_links.1 hl
    exact hs _ (hknown _ hb) p hp rfl rfl x hx hmark

end Facts

/-! ## Entries of states -/

/-- The rules with which a state is entered, with their followers. -/
def seeds (a : Automaton) (state : Nat) (k : Kernel) : List Entry :=
  k.flatMap fun d => (followers (a.facts a.sets) state d).map fun f => ⟨d, f⟩

/-- An entry of a state. -/
def Entered (a : Automaton) (state : Nat) (e : Entry) : Prop :=
  ∃ k, a.states[state]? = some k ∧ e ∈ closeEntries a.sets (a.seeds state k)

theorem mem_seeds {a : Automaton} {state : Nat} {k : Kernel} {e : Entry} :
    e ∈ a.seeds state k ↔ e.item ∈ k ∧ ⟨state, e⟩ ∈ a.facts a.sets := by
  obtain ⟨d, f⟩ := e
  simp only [seeds, List.mem_flatMap, List.mem_map, mem_followers, Entry.mk.injEq]
  constructor
  · rintro ⟨_, hd, _, hf, rfl, rfl⟩; exact ⟨hd, hf⟩
  · rintro ⟨hd, hf⟩; exact ⟨d, hd, f, hf, rfl, rfl⟩

theorem mem_closure_of_closeEntries {a : Automaton} {state : Nat} {k : Kernel} :
    ∀ e ∈ closeEntries a.sets (a.seeds state k), e.item ∈ closure a.rules k :=
  closeEntries_induction (fun _ h => mem_closure_of_mem (mem_seeds.1 h).1)
    fun _ h _ hx => mem_closure_of_begins h (mem_begins_entry.1 hx).1

/-- What begins at an entry may be followed by the next token of what comes after it. -/
theorem Entered.begins {a : Automaton} {state : Nat} {e : Entry} (h : a.Entered state e) {d : DottedRule}
    (hd : d ∈ LR.begins a.rules e.item) {v : List Token} (hv : Yields a.rules IsNamed (e.item.rest a.rules) v) :
    a.Entered state ⟨d, lookahead e.follower v⟩ := by
  obtain ⟨k, hk, he⟩ := h
  exact ⟨k, hk, mem_closeEntries_of_yields he hd hv⟩

section Advance

variable (hu : Unreserved rules start)
include hu

theorem ne_anyMark_of_ruleTerminals {f : String} (h : f ∈ ruleTerminals (ofRules rules start).rules) : f ≠ anyMark := by
  rintro rfl
  obtain ⟨r, hr, hs⟩ := mem_ruleTerminals.1 h
  rcases List.mem_append.1 hr with hr | hr
  · exact hu.symbol r hr _ hs (reserved_iff.2 rfl)
  · obtain ⟨n, -, rfl⟩ := List.mem_map.1 hr
    simp [rootRule, Rule.symbols] at hs

/-- An entry of a state is found from one of its kernel rules, under the mark or with a terminal that turns up. -/
theorem exists_passage {state : Nat} {k : Kernel} :
    ∀ e ∈ closeEntries (ofRules rules start).sets ((ofRules rules start).seeds state k),
      ∃ d ∈ k, ∃ f, ⟨state, ⟨d, f⟩⟩ ∈ (ofRules rules start).facts (ofRules rules start).sets ∧
        ((e.follower ≠ anyMark ∧ e ∈ closeEntries (ofRules rules start).sets [⟨d, anyMark⟩]) ∨
          (⟨e.item, anyMark⟩ ∈ closeEntries (ofRules rules start).sets [⟨d, anyMark⟩] ∧ e.follower = f)) := by
  refine closeEntries_induction (fun e he => ?_) fun e ⟨d, hd, f, hf, h⟩ x hx => ⟨d, hd, f, hf, ?_⟩
  · obtain ⟨hk, hf⟩ := mem_seeds.1 he
    exact ⟨e.item, hk, e.follower, hf, .inr ⟨mem_closeEntries_of_mem (by simp), rfl⟩⟩
  · obtain ⟨hb, hx'⟩ := mem_begins_entry.1 hx
    rcases h with ⟨hne, he⟩ | ⟨he, hef⟩
    · refine .inl ⟨?_, mem_closeEntries_of_begins he hx⟩
      rcases hx' with hx' | ⟨-, hx'⟩
      · exact ne_anyMark_of_ruleTerminals hu
          (GrammarSets.mem_ruleTerminals_of_firstOfSequence (fun b => ruleTerminals_of_rest) hx')
      · rw [hx']; exact hne
    · rcases hx' with hx' | ⟨hn, hx'⟩
      · refine .inl ⟨?_, mem_closeEntries_of_begins he (mem_begins_entry.2 ⟨hb, .inl hx'⟩)⟩
        exact ne_anyMark_of_ruleTerminals hu
          (GrammarSets.mem_ruleTerminals_of_firstOfSequence (fun b => ruleTerminals_of_rest) hx')
      · exact .inr ⟨mem_closeEntries_of_begins he (mem_begins_entry.2 ⟨hb, .inr ⟨hn, rfl⟩⟩), hx'.trans hef⟩

/-- The follower of a rule stays when the dot moves on into the next state. -/
theorem Entered.advance_mem_facts {state target : Nat} {e : Entry} (h : (ofRules rules start).Entered state e)
    {s : Symbol} (hs : e.item.next? (ofRules rules start).rules = some s)
    (ht : (ofRules rules start).target? state s = some target) :
    ⟨target, ⟨e.item.advance, e.follower⟩⟩ ∈ (ofRules rules start).facts (ofRules rules start).sets := by
  obtain ⟨k, hk, he⟩ := h
  obtain ⟨d, hd, f, hf, h⟩ := exists_passage hu e he
  have hp := mem_passages.2 ⟨state, k, d, hk, hd, rfl⟩
  rcases h with ⟨hne, he⟩ | ⟨he, rfl⟩
  · refine mem_facts_of_spontaneous (List.mem_append_right _ (List.mem_flatMap.2 ⟨_, hp,
      List.mem_filter.2 ⟨?_, by simpa using hne⟩⟩))
    exact mem_leads.2 ⟨e, he, s, target, hs, ht, rfl⟩
  · exact mem_facts_of_lead hf hp rfl rfl (mem_leads.2 ⟨_, he, s, target, hs, ht, rfl⟩) rfl

theorem Entered.advance {state target : Nat} {e : Entry} (h : (ofRules rules start).Entered state e) {s : Symbol}
    (hs : e.item.next? (ofRules rules start).rules = some s)
    (ht : (ofRules rules start).target? state s = some target) :
    (ofRules rules start).Entered target ⟨e.item.advance, e.follower⟩ := by
  obtain ⟨k, hk, he⟩ := id h
  refine ⟨_, getElem?_target hk ht, mem_closeEntries_of_mem (mem_seeds.2 ⟨?_, h.advance_mem_facts hu hs ht⟩)⟩
  exact mem_advanced.2 ⟨_, mem_closure_of_closeEntries e he, hs, rfl⟩

end Advance

/-- The end marker may follow a root rule. -/
theorem entered_root {name : String} {i : Nat} (h : (ofRules rules start).start? name = some i) :
    (ofRules rules start).Entered i ⟨⟨rules.length + i, 0⟩, endMarker⟩ := by
  obtain ⟨hi, hk⟩ := start?_eq_some h
  refine ⟨_, hk, mem_closeEntries_of_mem (mem_seeds.2 ⟨by simp, mem_facts_of_spontaneous (List.mem_append_left _ ?_)⟩)⟩
  exact List.mem_filterMap.2 ⟨_, mem_roots.2 ⟨hi, rfl⟩, by simp [h]⟩

end Automaton

end GrammarKit.LR
