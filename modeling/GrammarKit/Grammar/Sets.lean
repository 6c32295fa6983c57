/-
Nullable nonterminals, and the terminals that can come first in or follow after a nonterminal.

The sets grow in place, in rounds that are repeated until one changes nothing. The first rounds go over the rules and find
the nullable nonterminals together with the terminals that come first, each in view of what is known of the other. The
rounds after them go over the places where nonterminals stand: what comes first behind a nonterminal follows it, and
where nothing need come behind it, so does whatever follows the origin of the rule.
-/
import GrammarKit.Closure
import GrammarKit.Failure
import GrammarKit.Rounds

namespace GrammarKit

/-- The end of the input, as a terminal. -/
def endMarker : String := "$END"

def terminalsOf (symbols : List Symbol) : List String :=
  symbols.filterMap fun
    | .terminal n => some n
    | .nonterminal _ => none

/-- Every terminal of the rules. -/
def ruleTerminals (rules : List Rule) : List String := terminalsOf (rules.flatMap Rule.symbols)

/-- Number of symbols in all rules. -/
def symbolCount : List Rule → Nat
  | [] => 0
  | r :: rules => r.parts.length + symbolCount rules

theorem mem_terminalsOf {n : String} {symbols : List Symbol} :
    n ∈ terminalsOf symbols ↔ .terminal n ∈ symbols := by
  unfold terminalsOf
  rw [List.mem_filterMap]
  constructor
  · rintro ⟨s, hs, h⟩; cases s <;> simp_all
  · exact fun h => ⟨_, h, rfl⟩

theorem mem_ruleTerminals {rules : List Rule} {a : String} :
    a ∈ ruleTerminals rules ↔ ∃ r ∈ rules, .terminal a ∈ r.symbols := by
  rw [ruleTerminals, mem_terminalsOf, List.mem_flatMap]

/-! ## Sets by name -/

/-- Sets of terminals by name. -/
abbrev NamedSets := List (String × List String)

namespace NamedSets

/-- The set of a name, empty if it has none. -/
def setOf (t : NamedSets) (name : String) : List String := (t.lookup name).getD []

/-- Adds terminals to the set of a name, which has one from then on, and reports whether one of them is new. -/
def add (name : String) (new : List String) : NamedSets → NamedSets × Bool
  | [] => ([(name, fresh [] new)], !(fresh [] new).isEmpty)
  | (key, known) :: rest =>
    if key = name then ((key, known ++ fresh known new) :: rest, !(fresh known new).isEmpty)
    else
      let (rest, changed) := add name new rest
      ((key, known) :: rest, changed)

/-- Adds terminals to the set of each of the names. -/
def addToEach (new : List String) (t : NamedSets) (names : List String) : NamedSets :=
  names.foldl (fun t n => (t.add n new).1) t

/-- How many of the terminals may still be added to the sets of the names. -/
def room (names terminals : List String) (t : NamedSets) : Nat :=
  missing (names.flatMap fun n => terminals.map fun a => (n, a)) fun p => (t.setOf p.1).contains p.2

variable {t : NamedSets} {names terminals new : List String} {name n a : String}

@[simp] theorem setOf_nil : setOf [] n = [] := rfl

theorem setOf_cons {key : String} {known : List String} :
    setOf ((key, known) :: t) n = if n = key then known else t.setOf n := by
  unfold setOf
  rw [List.lookup_cons]
  split <;> simp_all

theorem setOf_add : ∀ {t : NamedSets}, (t.add name new).1.setOf n =
    if n = name then t.setOf name ++ fresh (t.setOf name) new else t.setOf n
  | [] => by rw [add, setOf_cons]; rfl
  | (key, known) :: rest => by
    unfold add
    split
    · rename_i h
      subst h
      simp only [setOf_cons, if_true]
      split <;> rfl
    · rename_i h
      simp only [setOf_cons, setOf_add (t := rest), if_neg (Ne.symm h)]
      split <;> simp_all

theorem add_changed : ∀ {t : NamedSets}, (t.add name new).2 = !(fresh (t.setOf name) new).isEmpty
  | [] => rfl
  | (key, known) :: rest => by
    unfold add
    split
    · rename_i h
      rw [setOf_cons, if_pos h.symm]
    · rename_i h
      rw [setOf_cons, if_neg (Ne.symm h)]
      exact add_changed

theorem mem_setOf_add : a ∈ (t.add name new).1.setOf n ↔ a ∈ t.setOf n ∨ n = name ∧ a ∈ new := by
  rw [setOf_add]
  split
  · rename_i h
    subst h
    by_cases ha : a ∈ t.setOf n <;> simp [ha]
  · rename_i h
    simp [h]

theorem mem_setOf_addToEach : ∀ {names : List String} {t : NamedSets},
    a ∈ (t.addToEach new names).setOf n ↔ a ∈ t.setOf n ∨ n ∈ names ∧ a ∈ new
  | [], t => by simp [addToEach]
  | m :: names, t => by
    have ih : a ∈ ((t.add m new).1.addToEach new names).setOf n ↔ _ := mem_setOf_addToEach
    rw [show t.addToEach new (m :: names) = (t.add m new).1.addToEach new names from rfl, ih, mem_setOf_add,
      List.mem_cons, or_assoc, ← or_and_right]

/-- Terminals that are not added to change nothing, and a new one takes up room. -/
theorem room_add (hname : name ∈ names) (hnew : ∀ a ∈ new, a ∈ terminals) :
    room names terminals (t.add name new).1 + (t.add name new).2.toNat ≤ room names terminals t := by
  have hgrows : ∀ p : String × String, (t.setOf p.1).contains p.2 = true →
      ((t.add name new).1.setOf p.1).contains p.2 = true := by
    simp only [List.contains_iff_mem]
    exact fun p hp => mem_setOf_add.2 (.inl hp)
  rw [add_changed]
  cases hfresh : fresh (t.setOf name) new with
  | nil => exact missing_le _ hgrows
  | cons a more =>
    obtain ⟨ha, hno⟩ := mem_fresh.1 (hfresh ▸ List.mem_cons_self : a ∈ fresh (t.setOf name) new)
    refine missing_lt hgrows (x := (name, a)) ?_ ?_ ?_
    · exact List.mem_flatMap.2 ⟨name, hname, List.mem_map.2 ⟨a, hnew a ha, rfl⟩⟩
    · simpa using hno
    · simpa using mem_setOf_add.2 (.inr ⟨rfl, ha⟩)

end NamedSets

/-! ## Nullable nonterminals and terminals that come first -/

def allNullable (nullable : List String) (symbols : List Symbol) : Bool :=
  symbols.all fun
    | .nonterminal n => nullable.contains n
    | .terminal _ => false

/-- The nullable nonterminals, and the terminals that can come first in a nonterminal. -/
structure FirstSets where
  nullable : List String
  firsts : NamedSets

namespace FirstSets

def isNullable (g : FirstSets) : Symbol → Bool
  | .nonterminal n => g.nullable.contains n
  | .terminal _ => false

/-- The terminals that can come first in a nonterminal that has rules. -/
def first? (g : FirstSets) (name : String) : Option (List String) := g.firsts.lookup name

/-- The terminals that can come first in a sequence, and whether all of it is nullable. -/
def firstOfSequence (g : FirstSets) : List Symbol → List String × Bool
  | [] => ([], true)
  | .terminal n :: _ => ([n], false)
  | .nonterminal n :: rest =>
    let first := g.firsts.setOf n
    if g.nullable.contains n then
      let (more, nullable) := g.firstOfSequence rest
      (first ++ fresh first more, nullable)
    else (first, false)

/-- Notes the origin of a rule whose symbols are all known to be nullable. -/
def noteNullable (g : FirstSets) (r : Rule) : FirstSets × Bool :=
  if !g.nullable.contains r.origin && allNullable g.nullable r.symbols then
    ({ g with nullable := g.nullable ++ [r.origin] }, true)
  else (g, false)

/-- Notes what is known to come first in a rule under its origin. -/
def noteFirst (g : FirstSets) (r : Rule) : FirstSets × Bool :=
  let (firsts, changed) := g.firsts.add r.origin (g.firstOfSequence r.symbols).1
  ({ g with firsts }, changed)

def note (g : FirstSets) (r : Rule) : FirstSets × Bool :=
  let (g, isNew) := g.noteNullable r
  let (g, changed) := g.noteFirst r
  (g, isNew || changed)

/-- Only terminals of the rules come first. -/
def Within (rules : List Rule) (g : FirstSets) : Prop := ∀ n, ∀ a ∈ g.firsts.setOf n, a ∈ ruleTerminals rules

/-- How many origins may still become nullable, and how many terminals may still come first in one. -/
def room (rules : List Rule) (g : FirstSets) : Nat :=
  missing (rules.map (·.origin)) (fun n => g.nullable.contains n) +
    g.firsts.room (rules.map (·.origin)) (ruleTerminals rules)

theorem mem_firstOfSequence_nonterminal {g : FirstSets} {n a : String} {rest : List Symbol} :
    a ∈ (g.firstOfSequence (.nonterminal n :: rest)).1 ↔
      a ∈ g.firsts.setOf n ∨ n ∈ g.nullable ∧ a ∈ (g.firstOfSequence rest).1 := by
  by_cases hn : n ∈ g.nullable
  · by_cases ha : a ∈ g.firsts.setOf n <;> simp [firstOfSequence, hn, ha]
  · simp [firstOfSequence, hn]

variable {rules : List Rule} {g : FirstSets}

theorem Within.firstOfSequence (h : g.Within rules) {a : String} : ∀ {symbols : List Symbol},
    (∀ b, .terminal b ∈ symbols → b ∈ ruleTerminals rules) → a ∈ (g.firstOfSequence symbols).1 →
    a ∈ ruleTerminals rules
  | [], _, ha => nomatch ha
  | .terminal n :: _, hs, ha => List.mem_singleton.1 ha ▸ hs n (List.mem_cons_self ..)
  | .nonterminal n :: rest, hs, ha => by
    rcases mem_firstOfSequence_nonterminal.1 ha with ha | ⟨-, ha⟩
    · exact h n a ha
    · exact h.firstOfSequence (fun b hb => hs b (List.mem_cons_of_mem _ hb)) ha

theorem noteNullable_firsts (g : FirstSets) (r : Rule) : (g.noteNullable r).1.firsts = g.firsts := by
  unfold noteNullable; split <;> rfl

theorem mem_ruleTerminals_of_noteFirst (h : g.Within rules) {r : Rule} (hr : r ∈ rules) :
    ∀ a ∈ (g.firstOfSequence r.symbols).1, a ∈ ruleTerminals rules :=
  fun _ ha => h.firstOfSequence (fun _ hb => mem_ruleTerminals.2 ⟨r, hr, hb⟩) ha

theorem Within.noteNullable (h : g.Within rules) (r : Rule) : (g.noteNullable r).1.Within rules := by
  unfold Within
  rw [noteNullable_firsts]
  exact h

theorem Within.noteFirst (h : g.Within rules) {r : Rule} (hr : r ∈ rules) : (g.noteFirst r).1.Within rules := by
  intro n a ha
  rcases NamedSets.mem_setOf_add.1 ha with ha | ⟨-, ha⟩
  · exact h n a ha
  · exact mem_ruleTerminals_of_noteFirst h hr a ha

theorem room_noteNullable (g : FirstSets) {r : Rule} (hr : r ∈ rules) :
    (g.noteNullable r).1.room rules + (g.noteNullable r).2.toNat ≤ g.room rules := by
  unfold noteNullable
  split
  · rename_i h
    have hlt : missing (rules.map (·.origin)) (fun n => (g.nullable ++ [r.origin]).contains n) <
        missing (rules.map (·.origin)) fun n => g.nullable.contains n :=
      missing_lt (fun n hn => by simp at hn ⊢; exact .inl hn) (List.mem_map.2 ⟨r, hr, rfl⟩)
        (by simp at h; simpa using h.1) (by simp)
    show missing _ (fun n => (g.nullable ++ [r.origin]).contains n) + g.firsts.room _ _ + 1 ≤
      missing _ (fun n => g.nullable.contains n) + g.firsts.room _ _
    omega
  · exact Nat.le_refl _

theorem room_noteFirst (h : g.Within rules) {r : Rule} (hr : r ∈ rules) :
    (g.noteFirst r).1.room rules + (g.noteFirst r).2.toNat ≤ g.room rules := by
  have horigin : r.origin ∈ rules.map (·.origin) := List.mem_map.2 ⟨r, hr, rfl⟩
  have hadd := NamedSets.room_add (t := g.firsts) horigin (mem_ruleTerminals_of_noteFirst h hr)
  show missing _ _ + NamedSets.room _ _ _ + _ ≤ missing _ _ + _
  exact Nat.add_assoc .. ▸ Nat.add_le_add_left hadd _

/-- Noting the rules comes to an end. -/
theorem settling (rules : List Rule) : Settling note rules (Within rules) (room rules) where
  keeps h r hr := (h.noteNullable r).noteFirst hr
  pays {g} h r hr := by
    have hnullable := g.room_noteNullable hr
    have hfirst := room_noteFirst (h.noteNullable r) hr
    have hor : (g.note r).2.toNat ≤ (g.noteNullable r).2.toNat + ((g.noteNullable r).1.noteFirst r).2.toNat := by
      show ((g.noteNullable r).2 || ((g.noteNullable r).1.noteFirst r).2).toNat ≤ _
      cases (g.noteNullable r).2 <;> simp
    show ((g.noteNullable r).1.noteFirst r).1.room rules + _ ≤ _
    omega

/-- Every origin, with nothing known about it. -/
def initial (rules : List Rule) : FirstSets := ⟨[], NamedSets.addToEach [] [] (rules.map (·.origin))⟩

theorem initial_within (rules : List Rule) : (initial rules).Within rules := by
  intro n a ha
  simp [initial, NamedSets.mem_setOf_addToEach] at ha

def ofRules (rules : List Rule) : FirstSets := whileChanged (settling rules) (initial rules, true) (initial_within rules)

theorem within_ofRules (rules : List Rule) : (ofRules rules).Within rules := whileChanged_good ..

end FirstSets

/-- The nonterminals that derive the empty text. -/
def nullableNames (rules : List Rule) : List String := (FirstSets.ofRules rules).nullable

/-! ## Terminals that follow -/

/-- A nonterminal where it stands: the origin of the rule, and what comes behind it there. -/
structure Occurrence where
  origin : String
  name : String
  rest : List Symbol

/-- The nonterminals of a rule where they stand. -/
def occurrencesIn (origin : String) : List Symbol → List Occurrence
  | [] => []
  | .terminal _ :: rest => occurrencesIn origin rest
  | .nonterminal n :: rest => ⟨origin, n, rest⟩ :: occurrencesIn origin rest

def occurrences (rules : List Rule) : List Occurrence := rules.flatMap fun r => occurrencesIn r.origin r.symbols

theorem mem_occurrencesIn {origin : String} {o : Occurrence} : ∀ {symbols : List Symbol},
    o ∈ occurrencesIn origin symbols ↔ o.origin = origin ∧ ∃ before, symbols = before ++ .nonterminal o.name :: o.rest
  | [] => by simp [occurrencesIn]
  | .terminal n :: rest => by
    rw [occurrencesIn, mem_occurrencesIn]
    refine and_congr_right fun _ => ⟨fun ⟨before, h⟩ => ⟨.terminal n :: before, by rw [h]; rfl⟩, fun ⟨before, h⟩ => ?_⟩
    cases before with
    | nil => cases h
    | cons _ before => exact ⟨before, (List.cons.inj h).2⟩
  | .nonterminal n :: rest => by
    rw [occurrencesIn, List.mem_cons, mem_occurrencesIn]
    constructor
    · rintro (rfl | ⟨ho, before, rfl⟩)
      · exact ⟨rfl, [], rfl⟩
      · exact ⟨ho, .nonterminal n :: before, rfl⟩
    · rintro ⟨rfl, before, h⟩
      cases before with
      | nil => cases h; exact .inl rfl
      | cons _ before => exact .inr ⟨rfl, before, (List.cons.inj h).2⟩

/-- A nonterminal occurs where it stands in a rule. -/
theorem mem_occurrences {rules : List Rule} {o : Occurrence} : o ∈ occurrences rules ↔
    ∃ r ∈ rules, r.origin = o.origin ∧ ∃ before, r.symbols = before ++ .nonterminal o.name :: o.rest := by
  simp only [occurrences, List.mem_flatMap, mem_occurrencesIn, eq_comm]

/-- The sets of a grammar. -/
structure GrammarSets extends FirstSets where
  rules : List Rule
  follows : NamedSets

namespace GrammarSets

/-- Hands on what follows a nonterminal because of a place where it stands. -/
def handOn (g : FirstSets) (follows : NamedSets) (o : Occurrence) : NamedSets × Bool :=
  let (first, nullable) := g.firstOfSequence o.rest
  follows.add o.name (first ++ if nullable then follows.setOf o.origin else [])

/-- Only terminals of the rules follow, and the end of the input. -/
def FollowsWithin (rules : List Rule) (follows : NamedSets) : Prop :=
  ∀ n, ∀ a ∈ follows.setOf n, a ∈ endMarker :: ruleTerminals rules

theorem mem_of_handOn {rules : List Rule} {g : FirstSets} (hg : g.Within rules) {follows : NamedSets}
    (h : FollowsWithin rules follows) {o : Occurrence} (ho : o ∈ occurrences rules) :
    ∀ a ∈ (g.firstOfSequence o.rest).1 ++ (if (g.firstOfSequence o.rest).2 then follows.setOf o.origin else []),
      a ∈ endMarker :: ruleTerminals rules := by
  intro a ha
  rcases List.mem_append.1 ha with ha | ha
  · obtain ⟨r, hr, -, before, hs⟩ := mem_occurrences.1 ho
    exact List.mem_cons_of_mem _ (hg.firstOfSequence (fun b hb => mem_ruleTerminals.2 ⟨r, hr, by simp [hs, hb]⟩) ha)
  · split at ha
    · exact h _ a ha
    · cases ha

/-- Handing on what follows comes to an end. -/
theorem settling {rules : List Rule} {g : FirstSets} (hg : g.Within rules) :
    Settling (handOn g) (occurrences rules) (FollowsWithin rules)
      (NamedSets.room ((occurrences rules).map (·.name)) (endMarker :: ruleTerminals rules)) where
  keeps h o ho n a ha := by
    rcases NamedSets.mem_setOf_add.1 ha with ha | ⟨-, ha⟩
    · exact h n a ha
    · exact mem_of_handOn hg h ho a ha
  pays h o ho := NamedSets.room_add (List.mem_map.2 ⟨o, ho, rfl⟩) (mem_of_handOn hg h ho)

/-- Every origin, and the start symbols with the end of the input after them. -/
def initialFollows (rules : List Rule) (start : List String) : NamedSets :=
  (NamedSets.addToEach [] [] (rules.map (·.origin))).addToEach [endMarker] start

theorem mem_initialFollows {rules : List Rule} {start : List String} {n a : String} :
    a ∈ (initialFollows rules start).setOf n ↔ n ∈ start ∧ a = endMarker := by
  simp [initialFollows, NamedSets.mem_setOf_addToEach]

theorem initialFollows_within (rules : List Rule) (start : List String) :
    FollowsWithin rules (initialFollows rules start) :=
  fun _ _ ha => (mem_initialFollows.1 ha).2 ▸ List.mem_cons_self ..

def ofRules (rules : List Rule) (start : List String) : GrammarSets :=
  { toFirstSets := .ofRules rules, rules
    follows := whileChanged (settling (FirstSets.within_ofRules rules)) (initialFollows rules start, true)
      (initialFollows_within rules start) }

/-- The terminals, and perhaps the end of the input, that can follow a nonterminal. -/
def follow? (g : GrammarSets) (name : String) : Option (List String) := g.follows.lookup name

end GrammarSets

end GrammarKit
