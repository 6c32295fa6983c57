/-
Lookaheads: the terminals that may stand after a rule when it is complete in a state. Each rule of a state
is followed through everything it leads to, under a mark that stands for whatever may come after it. Where
another terminal turns up, it is a lookahead of the state that is moved to; where the mark is still there,
the lookaheads of the one state pass on to the other, along the links between their rules, in rounds over all
links until one changes nothing.
-/
import GrammarKit.LR.Automaton

namespace GrammarKit.LR

/-- Stands for whatever may come after a rule. -/
def anyMark : String := "$#"

/-- A dotted rule that some terminal may follow. -/
structure Entry where
  item : DottedRule
  follower : String
  deriving DecidableEq

/-- A follower of a rule with which a state is entered. -/
structure Fact where
  state : Nat
  entry : Entry
  deriving DecidableEq

/-- Entries of the rules that begin where an entry stands. -/
def Entry.begins (sets : GrammarSets) (e : Entry) : List Entry :=
  let (first, nullable) := sets.firstOfSequence (e.item.rest sets.rules)
  let followers := if nullable then fresh [] (e.follower :: first) else first
  (LR.begins sets.rules e.item).flatMap fun d => followers.map fun f => ⟨d, f⟩

/-- Every terminal of the rules, the end marker and the mark. -/
def followerCount (rules : List Rule) : Nat := symbolCount rules + 2

/-- The entries that entries lead to within a state. -/
def closeEntries (sets : GrammarSets) (entries : List Entry) : List Entry :=
  reachable (Entry.begins sets)
    (entries.length + dottedCount sets.rules * (entries.length + followerCount sets.rules)) entries

/-- A rule of a state, followed under the mark to the states that are moved to. -/
structure Passage where
  state : Nat
  item : DottedRule
  /-- Entries of other states; the mark stands for the followers of `item`. -/
  leads : List Fact

namespace Automaton

def passage (a : Automaton) (sets : GrammarSets) (state : Nat) (d : DottedRule) : Passage :=
  { state, item := d
    leads := (closeEntries sets [⟨d, anyMark⟩]).filterMap fun e => do
      let target ← a.target? state (← e.item.next? a.rules)
      return ⟨target, ⟨e.item.advance, e.follower⟩⟩ }

def passages (a : Automaton) (sets : GrammarSets) : List Passage :=
  a.states.zipIdx.flatMap fun (k, state) => k.map (a.passage sets state)

/-- The facts that do not depend on others: the end marker may follow the roots, and terminals that a
passage turns up may follow where it leads. -/
def spontaneous (a : Automaton) (ps : List Passage) : List Fact :=
  (a.roots.filterMap fun (name, _, root) => (a.start? name).map fun s => ⟨s, ⟨⟨root, 0⟩, endMarker⟩⟩) ++
    ps.flatMap fun p => p.leads.filter (·.entry.follower != anyMark)

/-- The followers of a rule in a state. -/
def followers (facts : List Fact) (state : Nat) (d : DottedRule) : List String :=
  (facts.filter fun f => f.state == state && f.entry.item == d).map (·.entry.follower)

/-- From a rule in a state to one that its followers pass on to. -/
structure Link where
  source : Nat × DottedRule
  target : Nat × DottedRule

def links (ps : List Passage) : List Link :=
  ps.flatMap fun p => (p.leads.filter (·.entry.follower == anyMark)).map fun l =>
    ⟨(p.state, p.item), (l.state, l.entry.item)⟩

/-- The facts that others pass on to over a link. -/
def Link.passed (known : List Fact) (l : Link) : List Fact :=
  (followers known l.source.1 l.source.2).map fun f => ⟨l.target.1, ⟨l.target.2, f⟩⟩

/-- Passes followers on over a link, and reports whether one of them is new. -/
def passOn (known : List Fact) (l : Link) : List Fact × Bool :=
  let pending := fresh known (l.passed known)
  (known ++ pending, !pending.isEmpty)

theorem mem_passOn {known : List Fact} {l : Link} {f : Fact} :
    f ∈ (passOn known l).1 ↔ f ∈ known ∨ f ∈ l.passed known := by
  by_cases hf : f ∈ known <;> simp [passOn, hf]

/-- Facts with no followers but the given ones. -/
def FollowedBy (given : List String) (known : List Fact) : Prop := ∀ f ∈ known, f.entry.follower ∈ given

theorem FollowedBy.passed {given : List String} {known : List Fact} (h : FollowedBy given known) {l : Link} :
    ∀ f ∈ l.passed known, ∃ a ∈ given, f = ⟨l.target.1, ⟨l.target.2, a⟩⟩ := by
  intro f hf
  obtain ⟨a, ha, rfl⟩ := List.mem_map.1 hf
  obtain ⟨g, hg, rfl⟩ := List.mem_map.1 ha
  exact ⟨_, h g (List.mem_filter.1 hg).1, rfl⟩

/-- Each follower at the end of each link. -/
def linked (given : List String) (ls : List Link) : List Fact :=
  ls.flatMap fun l => given.map fun a => ⟨l.target.1, ⟨l.target.2, a⟩⟩

/-- How many followers may still be passed on. -/
def room (given : List String) (ls : List Link) (known : List Fact) : Nat :=
  missing (linked given ls) fun f => known.contains f

/-- Passing followers on comes to an end. -/
theorem settling (given : List String) (ls : List Link) : Settling passOn ls (FollowedBy given) (room given ls) where
  keeps h l _ f hf := by
    rcases mem_passOn.1 hf with hf | hf
    · exact h f hf
    · obtain ⟨a, ha, rfl⟩ := h.passed f hf
      exact ha
  pays {known} h l hl := by
    have hgrows : ∀ f, known.contains f = true → (passOn known l).1.contains f = true := by
      simp only [List.contains_iff_mem]
      exact fun f hf => mem_passOn.2 (.inl hf)
    rw [show (passOn known l).2 = !(fresh known (l.passed known)).isEmpty from rfl]
    cases hpending : fresh known (l.passed known) with
    | nil => exact missing_le _ hgrows
    | cons f more =>
      obtain ⟨hf, hno⟩ := mem_fresh.1 (hpending ▸ List.mem_cons_self : f ∈ fresh known (l.passed known))
      refine missing_lt hgrows (x := f) ?_ (by simpa using hno) (by simpa using mem_passOn.2 (.inr hf))
      obtain ⟨a, ha, rfl⟩ := h.passed f hf
      exact List.mem_flatMap.2 ⟨l, hl, List.mem_map.2 ⟨a, ha, rfl⟩⟩

/-- All that facts are passed on to over links. -/
def propagate (ls : List Link) (first : List Fact) : List Fact :=
  whileChanged (settling (first.map (·.entry.follower)) ls) (first, true) fun _ hf => List.mem_map.2 ⟨_, hf, rfl⟩

/-- All followers of the rules with which states are entered. -/
def facts (a : Automaton) (sets : GrammarSets) : List Fact :=
  let ps := a.passages sets
  propagate (links ps) (fresh [] (a.spontaneous ps))

end Automaton

end GrammarKit.LR
