/-
The automaton is the canonical one with its states merged. A canonical state is entered with dotted rules that each
have a follower, and leads on with their followers; so there may be many canonical states with the same dotted rules,
the same core. The states of the automaton are exactly these cores, and lead where the canonical states lead. What the
mark and the passing on of followers come to is that in a state a rule has the followers that it has in the canonical
states with that core, all taken together.
-/
import GrammarKit.Proofs.LR.Stack
import Mathlib.Data.Set.Insert

namespace GrammarKit.LR

/-! ## The canonical automaton -/

/-- A terminal begins a form that is derived from symbols with another terminal after them. -/
def FirstAfter (rules : List Rule) (ss : List Symbol) (a b : String) : Prop :=
  ∃ rest, Derives rules (ss ++ [.terminal a]) (.terminal b :: rest)

/-- The entries that entries lead to: what begins at an entry is followed by whatever may come first after it. -/
inductive Closed (rules : List Rule) (K : Set Entry) : Entry → Prop
  | mem {e : Entry} (h : e ∈ K) : Closed rules K e
  | begins {e : Entry} {r : Rule} {i : Nat} {b : String} (h : Closed rules K e)
    (hn : e.item.next? rules = some (.nonterminal r.origin)) (hr : rules[i]? = some r)
    (hb : FirstAfter rules (e.item.rest rules) e.follower b) : Closed rules K ⟨⟨i, 0⟩, b⟩

/-- The entries that move on over a symbol, with their followers. -/
def moved (rules : List Rule) (K : Set Entry) (s : Symbol) : Set Entry :=
  {x | ∃ e, Closed rules K e ∧ e.item.next? rules = some s ∧ x = ⟨e.item.advance, e.follower⟩}

/-- The entries with which canonical states are entered. -/
inductive Canonical (rules : List Rule) (start : List String) : Set Entry → Prop
  | root {name : String} {i : Nat} (h : start[i]? = some name) :
    Canonical rules start {⟨⟨rules.length + i, 0⟩, endMarker⟩}
  | move {K : Set Entry} {s : Symbol} {e : Entry} (h : Canonical rules start K)
    (he : Closed (Automaton.ofRules rules start).rules K e)
    (hs : e.item.next? (Automaton.ofRules rules start).rules = some s) :
    Canonical rules start (moved (Automaton.ofRules rules start).rules K s)

/-- A state is entered with the dotted rules of some entries. -/
def Automaton.IsCore (a : Automaton) (i : Nat) (K : Set Entry) : Prop :=
  ∃ k, a.states[i]? = some k ∧ ∀ d, d ∈ k ↔ ∃ f, ⟨d, f⟩ ∈ K

/-! ## Closures -/

section Close

variable {rules : List Rule}

/-- What comes first after symbols is what the sets of the grammar say. -/
theorem firstAfter_iff (start : List String) {ss : List Symbol} {a b : String} : FirstAfter rules ss a b ↔
    b ∈ ((GrammarSets.ofRules rules start).firstOfSequence ss).1 ∨
      allNullable (nullableNames rules) ss = true ∧ b = a := by
  have h : b ∈ ((GrammarSets.ofRules rules start).firstOfSequence (ss ++ [.terminal a])).1 ↔ FirstAfter rules ss a b :=
    GrammarSets.mem_firstOfSequence_iff
  rw [← h, GrammarSets.mem_firstOfSequence_append]
  exact or_congr_right (and_congr_right fun _ => List.mem_singleton)

theorem exists_firstAfter {ss : List Symbol} {v : List Token} (h : Yields rules IsNamed ss v) (a : String) :
    ∃ b, FirstAfter rules ss a b := by
  have hd := (yields_isNamed_iff.1 h).append_right [.terminal a]
  cases v with
  | nil => exact ⟨a, _, hd⟩
  | cons t v => exact ⟨t.kind, _, hd⟩

/-- The closure of some entries has the core of the closure. -/
theorem mem_closure_iff {start : List String} {K : Set Entry} {k : Kernel} (hp : Productive rules)
    (hk : ∀ d, d ∈ k ↔ ∃ f, ⟨d, f⟩ ∈ K) {d : DottedRule} :
    d ∈ closure (Automaton.ofRules rules start).rules k ↔
      ∃ f, Closed (Automaton.ofRules rules start).rules K ⟨d, f⟩ := by
  constructor
  · intro hd
    refine closure_induction (P := fun d => ∃ f, Closed (Automaton.ofRules rules start).rules K ⟨d, f⟩)
      (fun d hd => ?_) (fun d ⟨f, hc⟩ e he => ?_) d hd
    · obtain ⟨f, hf⟩ := (hk d).1 hd
      exact ⟨f, .mem hf⟩
    · -- what stands after the next symbol derives some word, so something may follow what begins here
      obtain ⟨v, hv⟩ : ∃ v, Yields (Automaton.ofRules rules start).rules IsNamed
        (d.rest (Automaton.ofRules rules start).rules) v := yields_rest hp d
      obtain ⟨b, hb⟩ := exists_firstAfter hv f
      obtain ⟨r, i, hn, hr, rfl⟩ := mem_begins.1 he
      exact ⟨b, .begins hc hn hr hb⟩
  · rintro ⟨f, hc⟩
    have hmem : ∀ e, Closed (Automaton.ofRules rules start).rules K e →
        e.item ∈ closure (Automaton.ofRules rules start).rules k := by
      intro e he
      induction he with
      | @mem e h => exact mem_closure_of_mem ((hk e.item).2 ⟨e.follower, h⟩)
      | begins _ hn hr _ ih => exact mem_closure_of_begins ih (mem_begins.2 ⟨_, _, hn, hr, rfl⟩)
    exact hmem _ hc

theorem Closed.mem_closeEntries {start : List String} {K : Set Entry} {entries : List Entry}
    (hK : ∀ e ∈ K, e ∈ closeEntries (.ofRules rules start) entries) {e : Entry} (h : Closed rules K e) :
    e ∈ closeEntries (.ofRules rules start) entries := by
  induction h with
  | mem h => exact hK _ h
  | begins _ hn hr hb ih =>
    exact mem_closeEntries_of_begins ih (mem_begins_entry.2 ⟨mem_begins.2 ⟨_, _, hn, hr, rfl⟩, (firstAfter_iff start).1 hb⟩)

/-- What a rule leads to under the mark it leads to with any follower in place of the mark. -/
theorem Closed.of_mark {start : List String} {K : Set Entry} (hu : Unreserved rules start) {d : DottedRule} {f : String}
    (hd : ⟨d, f⟩ ∈ K) : ∀ e ∈ closeEntries (Automaton.ofRules rules start).sets [⟨d, anyMark⟩],
    Closed (Automaton.ofRules rules start).rules K ⟨e.item, if e.follower = anyMark then f else e.follower⟩ := by
  refine closeEntries_induction (fun e he => ?_) fun e he x hx => ?_
  · obtain rfl := List.mem_singleton.1 he
    rw [if_pos rfl]
    exact .mem hd
  · obtain ⟨hb, hf⟩ := mem_begins_entry.1 hx
    obtain ⟨r, i, hn, hr, hi⟩ := mem_begins.1 hb
    rw [hi]
    refine .begins he hn hr ((firstAfter_iff []).2 ?_)
    rcases hf with hf | ⟨hnull, hf⟩
    · have hne := Automaton.ne_anyMark_of_ruleTerminals hu
        (GrammarSets.mem_ruleTerminals_of_firstOfSequence (fun b => ruleTerminals_of_rest) hf)
      rw [if_neg hne]
      exact .inl hf
    · rw [hf]
      exact .inr ⟨hnull, rfl⟩

end Close

/-! ## Cores -/

namespace Automaton

variable {rules : List Rule} {start : List String} {K : Set Entry}

theorem isCore_root (hs : start.Nodup) {name : String} {i : Nat} (h : start[i]? = some name) :
    (ofRules rules start).IsCore i {⟨⟨rules.length + i, 0⟩, endMarker⟩} :=
  ⟨_, (start?_eq_some (start?_of_nodup hs h)).2, fun d => by simp⟩

theorem IsCore.eq {i j : Nat} (hi : (ofRules rules start).IsCore i K) (hj : (ofRules rules start).IsCore j K) :
    i = j := by
  obtain ⟨k, hk, hmem⟩ := hi
  obtain ⟨k', hk', hmem'⟩ := hj
  exact states_ext hk hk' fun d => (hmem d).trans (hmem' d).symm

theorem mem_advanced_iff (hp : Productive rules) {k : Kernel} (hk : ∀ d, d ∈ k ↔ ∃ f, ⟨d, f⟩ ∈ K) {s : Symbol}
    {d : DottedRule} : d ∈ advanced (ofRules rules start).rules k s ↔
      ∃ f, ⟨d, f⟩ ∈ moved (ofRules rules start).rules K s := by
  rw [mem_advanced]
  constructor
  · rintro ⟨x, hx, hs, rfl⟩
    obtain ⟨f, hf⟩ := (mem_closure_iff hp hk).1 hx
    exact ⟨f, _, hf, hs, rfl⟩
  · rintro ⟨f, e, he, hs, heq⟩
    cases heq
    exact ⟨e.item, (mem_closure_iff hp hk).2 ⟨e.follower, he⟩, hs, rfl⟩

/-- A symbol leads from the core of some entries to the core of those that move on over it. -/
theorem IsCore.target?_iff (hp : Productive rules) {i j : Nat} {s : Symbol} (h : (ofRules rules start).IsCore i K) :
    (ofRules rules start).target? i s = some j ↔
      (∃ e, Closed (ofRules rules start).rules K e ∧ e.item.next? (ofRules rules start).rules = some s) ∧
        (ofRules rules start).IsCore j (moved (ofRules rules start).rules K s) := by
  obtain ⟨k, hk, hmem⟩ := h
  constructor
  · intro ht
    obtain ⟨k', hk', ⟨d, hd, hs⟩, -⟩ := target?_eq_some_iff.1 ht
    obtain rfl := Option.some.inj (hk.symm.trans hk')
    obtain ⟨f, hf⟩ := (mem_closure_iff hp hmem).1 hd
    exact ⟨⟨_, hf, hs⟩, _, getElem?_target hk ht, fun d => mem_advanced_iff hp hmem⟩
  · rintro ⟨⟨e, he, hs⟩, hcore⟩
    obtain ⟨j', ht⟩ := exists_target hk ((mem_closure_iff hp hmem).2 ⟨e.follower, he⟩) hs
    have hcore' : (ofRules rules start).IsCore j' (moved (ofRules rules start).rules K s) :=
      ⟨_, getElem?_target hk ht, fun d => mem_advanced_iff hp hmem⟩
    rw [ht, hcore'.eq hcore]

/-- Every canonical state has its core among the states. -/
theorem exists_isCore (hp : Productive rules) (hs : start.Nodup) (h : Canonical rules start K) :
    ∃ i, (ofRules rules start).IsCore i K := by
  induction h with
  | root h => exact ⟨_, isCore_root hs h⟩
  | @move K s e _ he hnext ih =>
    obtain ⟨i, k, hk, hmem⟩ := ih
    obtain ⟨j, ht⟩ := exists_target hk ((mem_closure_iff hp hmem).2 ⟨e.follower, he⟩) hnext
    exact ⟨j, _, getElem?_target hk ht, fun d => mem_advanced_iff hp hmem⟩

/-- Every state is the core of a canonical one. -/
theorem exists_canonical (hp : Productive rules) {i : Nat} {k : Kernel}
    (hi : (ofRules rules start).states[i]? = some k) :
    ∃ K, Canonical rules start K ∧ (ofRules rules start).IsCore i K := by
  have hall : ∀ k ∈ (ofRules rules start).states, ∃ K, Canonical rules start K ∧ ∀ d, d ∈ k ↔ ∃ f, ⟨d, f⟩ ∈ K := by
    rw [states_eq]
    refine reachable_induction (P := fun k : Kernel => ∃ K, Canonical rules start K ∧ ∀ d, d ∈ k ↔ ∃ f, ⟨d, f⟩ ∈ K)
      (fun k hk => ?_) fun k ⟨K, hK, hmem⟩ k' hk' => ?_
    · obtain ⟨i, hi, rfl⟩ := List.mem_map.1 hk
      exact ⟨_, .root (List.getElem?_eq_getElem (List.mem_range.1 hi)), fun d => by simp⟩
    · obtain ⟨s, ⟨d, hd, hs⟩, rfl⟩ := mem_moves hk'
      obtain ⟨f, hf⟩ := (mem_closure_iff hp hmem).1 hd
      exact ⟨_, .move hK hf hs, fun d => mem_advanced_iff hp hmem⟩
  obtain ⟨K, hK, hmem⟩ := hall k (List.mem_of_getElem? hi)
  exact ⟨K, hK, k, hi, hmem⟩

/-! ## Followers -/

/-- A passage leads to entries of canonical states, with a follower of its rule in place of the mark. -/
theorem canonical_of_leads (hu : Unreserved rules start) (hp : Productive rules) {state : Nat} {d : DottedRule}
    {f : String} (hK : Canonical rules start K) (hcore : (ofRules rules start).IsCore state K) (hd : ⟨d, f⟩ ∈ K)
    {l : Fact} (hl : l ∈ ((ofRules rules start).passage (ofRules rules start).sets state d).leads) :
    ∃ K', Canonical rules start K' ∧ (ofRules rules start).IsCore l.state K' ∧
      ⟨l.entry.item, if l.entry.follower = anyMark then f else l.entry.follower⟩ ∈ K' := by
  obtain ⟨e, he, s, target, hs, ht, rfl⟩ := mem_leads.1 hl
  have hc := Closed.of_mark hu hd e he
  exact ⟨_, .move hK hc hs, ((hcore.target?_iff hp).1 ht).2, _, hc, hs, rfl⟩

/-- A follower of a rule in a state is its follower in a canonical state. -/
theorem canonical_of_facts (hu : Unreserved rules start) (hp : Productive rules) (hs : start.Nodup) :
    ∀ f ∈ (ofRules rules start).facts (ofRules rules start).sets,
      ∃ K, Canonical rules start K ∧ (ofRules rules start).IsCore f.state K ∧ f.entry ∈ K := by
  refine facts_induction (fun f hf => ?_) fun f ⟨K, hK, hcore, hmem⟩ p hpass hstate hitem l hl hmark => ?_
  · rcases List.mem_append.1 hf with hf | hf
    · obtain ⟨⟨name, i, root⟩, hroot, hf⟩ := List.mem_filterMap.1 hf
      obtain ⟨j, hj, rfl⟩ := Option.map_eq_some_iff.1 hf
      obtain ⟨hi, rfl⟩ := mem_roots.1 hroot
      obtain rfl := Option.some.inj (hj.symm.trans (start?_of_nodup hs hi))
      exact ⟨_, .root hi, isCore_root hs hi, Set.mem_singleton _⟩
    · obtain ⟨p, hpass, hl⟩ := List.mem_flatMap.1 hf
      obtain ⟨hl, hne⟩ := List.mem_filter.1 hl
      obtain ⟨state, k, d, hk, hd, rfl⟩ := mem_passages.1 hpass
      -- the state is the core of some canonical one, in which the rule has some follower
      obtain ⟨K, hK, hcore⟩ := exists_canonical hp hk
      obtain ⟨k', hk', hmem⟩ := id hcore
      obtain rfl := Option.some.inj (hk.symm.trans hk')
      obtain ⟨g, hg⟩ := (hmem d).1 hd
      have hlead := canonical_of_leads hu hp hK hcore hg hl
      rwa [if_neg (by simpa using hne)] at hlead
  · obtain ⟨state, k, d, -, -, rfl⟩ := mem_passages.1 hpass
    obtain rfl : state = f.state := hstate
    obtain rfl : d = f.entry.item := hitem
    have hlead := canonical_of_leads hu hp hK hcore hmem hl
    rwa [if_pos hmark] at hlead

/-- A follower of a rule in a canonical state is its follower in the state. -/
theorem mem_facts_of_canonical (hu : Unreserved rules start) (hp : Productive rules) (hs : start.Nodup)
    (hK : Canonical rules start K) : ∀ {i : Nat}, (ofRules rules start).IsCore i K →
      ∀ e ∈ K, ⟨i, e⟩ ∈ (ofRules rules start).facts (ofRules rules start).sets := by
  induction hK with
  | @root name i h =>
    intro j hj e he
    obtain rfl := hj.eq (isCore_root hs h)
    rw [Set.mem_singleton_iff.1 he]
    refine mem_facts_of_spontaneous (List.mem_append_left _ (List.mem_filterMap.2 ?_))
    exact ⟨_, mem_roots.2 ⟨h, rfl⟩, by simp [start?_of_nodup hs h]⟩
  | @move K s x hK hx hnext ih =>
    intro j hj e he
    obtain ⟨i, hi⟩ := exists_isCore hp hs hK
    obtain ⟨y, hy, hys, rfl⟩ := he
    have ht := (hi.target?_iff hp).2 ⟨⟨x, hx, hnext⟩, hj⟩
    obtain ⟨k, hk, hmem⟩ := id hi
    have hentered : (ofRules rules start).Entered i y := by
      refine ⟨k, hk, hy.mem_closeEntries fun e he => mem_closeEntries_of_mem (mem_seeds.2 ⟨?_, ih hi e he⟩)⟩
      exact (hmem e.item).2 ⟨e.follower, he⟩
    exact hentered.advance_mem_facts hu hys ht

end Automaton

/-- The automaton is the canonical one with its states merged by their cores. -/
structure MergesCanonical (rules : List Rule) (start : List String) : Prop where
  /-- A canonical state has its core among the states, once. -/
  core : ∀ K, Canonical rules start K → ∃! i, (Automaton.ofRules rules start).IsCore i K
  /-- Every state is the core of a canonical state. -/
  state : ∀ i < (Automaton.ofRules rules start).states.length,
    ∃ K, Canonical rules start K ∧ (Automaton.ofRules rules start).IsCore i K
  /-- Start symbols are begun in the cores of the canonical root states. -/
  root : ∀ name i, start[i]? = some name → (Automaton.ofRules rules start).start? name = some i ∧
    (Automaton.ofRules rules start).IsCore i {⟨⟨rules.length + i, 0⟩, endMarker⟩}
  /-- Closing a state and closing a canonical one goes together. -/
  closure : ∀ K i k, Canonical rules start K → (Automaton.ofRules rules start).IsCore i K →
    (Automaton.ofRules rules start).states[i]? = some k → ∀ d,
      d ∈ closure (Automaton.ofRules rules start).rules k ↔
        ∃ f, Closed (Automaton.ofRules rules start).rules K ⟨d, f⟩
  /-- A symbol leads from a state where it leads from the canonical states with that core. -/
  move : ∀ K i s j, Canonical rules start K → (Automaton.ofRules rules start).IsCore i K →
    ((Automaton.ofRules rules start).target? i s = some j ↔
      (∃ e, Closed (Automaton.ofRules rules start).rules K e ∧
        e.item.next? (Automaton.ofRules rules start).rules = some s) ∧
      (Automaton.ofRules rules start).IsCore j (moved (Automaton.ofRules rules start).rules K s))
  /-- The followers of a rule are its followers in all canonical states with that core. -/
  follower : ∀ i d f,
    f ∈ Automaton.followers ((Automaton.ofRules rules start).facts (Automaton.ofRules rules start).sets) i d ↔
      ∃ K, Canonical rules start K ∧ (Automaton.ofRules rules start).IsCore i K ∧ ⟨d, f⟩ ∈ K

/-- If no nonterminal is a dead end and the start symbols are distinct, the automaton and its followers are those of
the canonical automaton, merged by cores. -/
theorem merges_canonical {rules : List Rule} {start : List String} (hu : Unreserved rules start) (hp : Productive rules)
    (hs : start.Nodup) : MergesCanonical rules start where
  core K hK := by
    obtain ⟨i, hi⟩ := Automaton.exists_isCore hp hs hK
    exact ⟨i, hi, fun j hj => hj.eq hi⟩
  state i hi := Automaton.exists_canonical hp (List.getElem?_eq_getElem hi)
  root name i hi := ⟨Automaton.start?_of_nodup hs hi, Automaton.isCore_root hs hi⟩
  closure K i k _ hi hk d := by
    obtain ⟨k', hk', hmem⟩ := hi
    obtain rfl := Option.some.inj (hk.symm.trans hk')
    exact mem_closure_iff hp hmem
  move K i s j _ hi := hi.target?_iff hp
  follower i d f := by
    rw [Automaton.mem_followers]
    constructor
    · intro h
      obtain ⟨K, hK, hi, hmem⟩ := Automaton.canonical_of_facts hu hp hs _ h
      exact ⟨K, hK, hi, hmem⟩
    · rintro ⟨K, hK, hi, hmem⟩
      exact Automaton.mem_facts_of_canonical hu hp hs hK hi _ hmem

/-- Two words of one shape: after the last letter of either word one state is entered, but two canonical ones. -/
def twoWords : List Rule :=
  [⟨"s", [⟨.nonterminal "c", false⟩, ⟨.nonterminal "c", false⟩], 0, none, {}⟩,
   ⟨"c", [⟨.terminal "x", false⟩, ⟨.nonterminal "c", false⟩], 0, none, {}⟩,
   ⟨"c", [⟨.terminal "y", false⟩], 1, none, {}⟩]

theorem merges_canonical_twoWords : MergesCanonical twoWords ["s"] := by
  have hu : Unreserved twoWords ["s"] := by
    refine ⟨?_, ?_, ?_⟩ <;> simp [twoWords, reserved_iff, Rule.symbols, Symbol.name]
  have hc : Derives twoWords [.nonterminal "c"] [.terminal "y"] :=
    .single (.mk [] [] (r := twoWords[2]) (by simp [twoWords]))
  have hword : Derives twoWords [.nonterminal "s"] [.terminal "y", .terminal "y"] :=
    .head (.mk [] [] (r := twoWords[0]) (by simp [twoWords]))
      ((hc.append_right [.nonterminal "c"]).trans (hc.append_left [.terminal "y"]))
  have hp : Productive twoWords := by
    rintro n ⟨r, hr, hn⟩
    have hname : n = "s" ∨ n = "c" := by
      simp only [twoWords, List.mem_cons, List.not_mem_nil, or_false] at hr
      rcases hr with rfl | rfl | rfl <;> simp [Rule.symbols] at hn <;> tauto
    rcases hname with rfl | rfl
    · exact ⟨["y", "y"], hword⟩
    · exact ⟨["y"], hc⟩
  exact merges_canonical hu hp (List.nodup_singleton "s")

end GrammarKit.LR
