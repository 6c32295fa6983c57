/-
Grammars that say what their drafts say. A terminal that a draft asks for by name may meet another one of that name: a
numbered literal is not compared with what is there, two keys may have one placeholder name, and a name that nothing
declares may be that of a literal's terminal. A grammar says what its draft says exactly if none of this happens where
the draft comes to an item: then every item stands for what it says, and the terminals have names of their own.
-/
import GrammarKit.Proofs.Grammar.Drafted
import Mathlib

namespace GrammarKit

/-! ## What drafts say -/

namespace GrammarDraft

def items (d : GrammarDraft) : List String := d.rules.flatMap (·.items)

/-- A terminal that a draft declares, or has an item for. -/
def Accounts (d : GrammarDraft) (t : Terminal) : Prop :=
  t ∈ d.terminals ∨ (∃ text, quotedItem text ∈ d.items ∧ t.pattern = .literal text "") ∨
    ∃ key, placeholderItem key ∈ d.items ∧ t.pattern = .placeholder key

end GrammarDraft

theorem exists_of_forall₂ {α β : Type} {R : α → β → Prop} {xs : List α} {ys : List β} (h : List.Forall₂ R xs ys)
    {x : α} (hx : x ∈ xs) : ∃ y ∈ ys, R x y := by
  induction h with
  | nil => cases hx
  | cons hr _ ih =>
    rcases List.mem_cons.1 hx with rfl | hx
    · exact ⟨_, List.mem_cons_self .., hr⟩
    · obtain ⟨y, hy, hxy⟩ := ih hx
      exact ⟨y, List.mem_cons_of_mem _ hy, hxy⟩

/-! ## Items one after the other -/

namespace Resolution

variable {r r' : Resolution}

/-- What is resolved after items. -/
def after (r : Resolution) : List String → Outcome Resolution
  | [] => .ok r
  | i :: is => do
    let (_, r) ← r.item false i
    r.after is

theorem exists_item {i : String} {is : List String} (h : r.after (i :: is) = .ok r') :
    ∃ part r₁, r.item false i = .ok (part, r₁) ∧ r₁.after is = .ok r' := by
  obtain ⟨⟨part, r₁⟩, hitem, hrest⟩ := bind_eq_ok.1 h
  exact ⟨part, r₁, hitem, hrest⟩

theorem after_append : ∀ (r : Resolution) (xs ys : List String), r.after (xs ++ ys) = r.after xs >>= (·.after ys)
  | _, [], _ => rfl
  | r, i :: xs, ys => by
    rw [List.cons_append, after, after]
    cases r.item false i with
    | error e => rfl
    | ok p => exact after_append p.2 xs ys

/-- Whether tokens are kept changes nothing for the items that follow. -/
theorem item_snd (r : Resolution) (keepAll : Bool) (i : String) :
    (r.item keepAll i).map (·.2) = (r.item false i).map (·.2) := by
  have hliteral : ∀ text, (r.literal text keepAll).2 = (r.literal text false).2 := fun text => by
    unfold literal
    dsimp only
    split <;> rfl
  unfold item
  dsimp only
  split
  · exact congrArg Except.ok (hliteral _)
  · rfl
  · split
    · rfl
    · split
      · rfl
      · split
        · rfl
        · split <;> rfl

theorem item_after {keepAll : Bool} {i : String} {part : Part} (h : r.item keepAll i = .ok (part, r'))
    (is : List String) : r.after (i :: is) = r'.after is := by
  have hsame := r.item_snd keepAll i
  rw [h] at hsame
  obtain ⟨⟨part', r₁⟩, hitem, rfl⟩ := map_eq_ok.1 hsame.symm
  rw [after, hitem]
  rfl

/-- What the symbols of rules are, item by item, each in view of what was resolved before it. -/
theorem items_forall₂ {P : String → Symbol → Prop} {keepAll : Bool} : ∀ {is : List String} {r r' : Resolution}
    {parts : List Part}, r.items keepAll is = .ok (parts, r') →
      (∀ {done i rest r₁ part r₂}, is = done ++ i :: rest → r.after done = .ok r₁ →
        r₁.item keepAll i = .ok (part, r₂) → P i part.symbol) →
      r.after is = .ok r' ∧ List.Forall₂ P is (parts.map (·.symbol))
  | [], _, _, _, hi, _ => by
    cases hi
    exact ⟨rfl, .nil⟩
  | i :: is, r, r', parts, hi, hP => by
    obtain ⟨part, parts', r₁, rfl, hitem, hitems⟩ := items_cons hi
    obtain ⟨hafter, hall⟩ := items_forall₂ hitems fun {done i' rest r₂ part' r₃} hs hr hi' =>
      hP (congrArg (i :: ·) hs) ((item_after hitem done).trans hr) hi'
    exact ⟨(item_after hitem is).trans hafter, .cons (hP (List.nil_append _).symm rfl hitem) hall⟩

/-- A rule made from a draft: of its origin, and with symbols that fit its items. -/
structure Makes (P : String → Symbol → Prop) (rd : RuleDraft) (r : Rule) : Prop where
  origin : r.origin = rd.origin
  symbols : List.Forall₂ P rd.items r.symbols

/-- Rules are made from their drafts in order, after those that are there. -/
theorem rules_forall₂ {P : String → Symbol → Prop} : ∀ {ds : List RuleDraft} {r r' : Resolution}
    {before rs : List Rule}, rules r before ds = .ok (rs, r') →
      (∀ {done i rest keepAll r₁ part r₂}, ds.flatMap (·.items) = done ++ i :: rest → r.after done = .ok r₁ →
        r₁.item keepAll i = .ok (part, r₂) → P i part.symbol) →
      r.after (ds.flatMap (·.items)) = .ok r' ∧ ∃ made, rs = before ++ made ∧ List.Forall₂ (Makes P) ds made
  | [], _, _, _, _, hr, _ => by
    cases hr
    exact ⟨rfl, [], (List.append_nil _).symm, .nil⟩
  | rd :: ds, r, r', before, rs, hr, hP => by
    obtain ⟨rule, r₁, hitems, ho, -, -, hr⟩ := rules_cons hr
    obtain ⟨hafter, hsymbols⟩ := items_forall₂ hitems fun {done i rest r₂ part r₃} hs hr' hi =>
      hP (by rw [List.flatMap_cons, hs, List.append_assoc, List.cons_append]) hr' hi
    have hsplit : ∀ is, r.after (rd.items ++ is) = r₁.after is := fun is => by
      rw [after_append, hafter]
      rfl
    obtain ⟨hrest, made, rfl, hmade⟩ := rules_forall₂ hr fun {done i rest keepAll r₂ part r₃} hs hr' hi =>
      hP (by rw [List.flatMap_cons, hs, ← List.append_assoc]) ((hsplit done).trans hr') hi
    refine ⟨?_, rule :: made, List.append_assoc .., .cons ⟨ho, hsymbols⟩ hmade⟩
    rw [List.flatMap_cons, hsplit, hrest]

/-! ## Terminals on the way -/

theorem prefix_declare (r : Resolution) (t : Terminal) : r.terminals <+: (r.declare t).terminals := by
  unfold declare
  split
  · exact List.prefix_rfl
  · exact List.prefix_append _ _

theorem prefix_literal (r : Resolution) (text : String) (keepAll : Bool) :
    r.terminals <+: (r.literal text keepAll).2.terminals := by
  obtain ⟨-, -, -, -, heq⟩ | ⟨-, -, heq⟩ := r.literal_cases text keepAll
  · simp only [heq, List.prefix_rfl]
  · simp only [heq, List.prefix_append]

/-- Terminals stay where they are. -/
theorem prefix_item {keepAll : Bool} {i : String} {part : Part} (hi : r.item keepAll i = .ok (part, r')) :
    r.terminals <+: r'.terminals := by
  obtain ⟨text, -, -, rfl⟩ | ⟨key, -, -, rfl⟩ | ⟨-, rfl⟩ := item_cases hi
  · exact r.prefix_literal text keepAll
  · exact r.prefix_declare _
  · exact List.prefix_rfl

theorem prefix_after : ∀ {is : List String} {r r' : Resolution}, r.after is = .ok r' → r.terminals <+: r'.terminals
  | [], _, _, h => by
    cases h
    exact List.prefix_rfl
  | _ :: _, _, _, h => by
    obtain ⟨_, _, hitem, hrest⟩ := exists_item h
    exact (prefix_item hitem).trans (prefix_after hrest)

/-- A declared name is the name of a terminal. -/
theorem exists_mem_declare (r : Resolution) (t : Terminal) : ∃ s ∈ (r.declare t).terminals, s.name = t.name := by
  unfold declare
  split
  · rename_i hany
    obtain ⟨s, hs, hname⟩ := List.any_eq_true.1 hany
    exact ⟨s, hs, eq_of_beq hname⟩
  · exact ⟨t, List.mem_append_right _ (List.mem_singleton_self _), rfl⟩

theorem mem_or_eq_of_mem_declare {t s : Terminal} (h : s ∈ (r.declare t).terminals) : s ∈ r.terminals ∨ s = t := by
  unfold declare at h
  split at h
  · exact .inl h
  · exact (List.mem_append.1 h).imp_right List.mem_singleton.1

/-- Every terminal that an item adds is one that the item is for. -/
theorem accounts_item {d : GrammarDraft} {keepAll : Bool} {i : String} {part : Part}
    (hi : r.item keepAll i = .ok (part, r')) (hmem : i ∈ d.items) (h : ∀ t ∈ r.terminals, d.Accounts t) :
    ∀ t ∈ r'.terminals, d.Accounts t := by
  intro t ht
  obtain ⟨text, rfl, -, rfl⟩ | ⟨key, rfl, -, rfl⟩ | ⟨-, rfl⟩ := item_cases hi
  · obtain ⟨-, -, -, -, heq⟩ | ⟨-, -, heq⟩ := r.literal_cases text keepAll <;> rw [heq] at ht
    · exact h t ht
    · rcases List.mem_append.1 ht with ht | ht
      · exact h t ht
      · exact .inr (.inl ⟨text, hmem, List.mem_singleton.1 ht ▸ rfl⟩)
  · rcases mem_or_eq_of_mem_declare ht with ht | rfl
    · exact h t ht
    · exact .inr (.inr ⟨key, hmem, rfl⟩)
  · exact h t ht

theorem accounts_after {d : GrammarDraft} : ∀ {is : List String} {r r' : Resolution}, r.after is = .ok r' →
    is ⊆ d.items → (∀ t ∈ r.terminals, d.Accounts t) → ∀ t ∈ r'.terminals, d.Accounts t
  | [], _, _, h, _, hr => by
    cases h
    exact hr
  | _ :: _, _, _, h, hmem, hr => by
    obtain ⟨_, _, hitem, hrest⟩ := exists_item h
    obtain ⟨hi, his⟩ := List.cons_subset.1 hmem
    exact accounts_after hrest his (accounts_item hitem hi hr)

end Resolution

/-! ## Numbering of rules -/

/-- Rules that are different productions, numbered among those of their origin in order. -/
structure RulesNumbered (rules : List Rule) : Prop where
  productions : (rules.map (·.production)).Nodup
  orders : ∀ origin, (rules.filter (·.origin == origin)).map (·.order) =
    List.range (rules.filter (·.origin == origin)).length

theorem RulesNumbered.concat {rules : List Rule} (h : RulesNumbered rules) {r : Rule}
    (hnew : ∀ r' ∈ rules, r'.production ≠ r.production)
    (horder : r.order = (rules.filter (·.origin == r.origin)).length) : RulesNumbered (rules ++ [r]) where
  productions := nodup_map_concat h.productions fun hmem =>
    have ⟨r', hr', hp⟩ := List.mem_map.1 hmem
    hnew r' hr' hp
  orders origin := by
    rw [List.filter_append, List.map_append, h.orders]
    by_cases ho : r.origin = origin
    · subst ho
      simp [horder, List.range_succ]
    · simp [ho]

theorem Resolution.rulesNumbered : ∀ {ds : List RuleDraft} {r r' : Resolution} {before rs : List Rule},
    Resolution.rules r before ds = .ok (rs, r') → RulesNumbered before → RulesNumbered rs
  | [], _, _, _, _, hr, h => by
    cases hr
    exact h
  | rd :: ds, r, r', before, rs, hr, h => by
    obtain ⟨rule, r₁, -, -, horder, hnew, hr⟩ := rules_cons hr
    exact Resolution.rulesNumbered hr (h.concat hnew horder)

/-- The rules of a grammar that was built are different productions. -/
theorem rulesNumbered_build {d : GrammarDraft} {g : Grammar} (h : d.build = .ok g) : RulesNumbered g.rules := by
  obtain ⟨terminals, -, h⟩ := bind_eq_ok.1 h
  obtain ⟨⟨rules, r⟩, hrules, h⟩ := bind_eq_ok.1 h
  dsimp only at h
  split at h
  · cases h
  · cases h
    exact Resolution.rulesNumbered hrules ⟨.nil, fun _ => rfl⟩

/-! ## Definitions of names -/

namespace Grammar

/-- A symbol that a terminal or a rule defines. -/
def Defines (g : Grammar) : Symbol → Prop
  | .terminal n => ∃ t ∈ g.terminals, t.name = n
  | .nonterminal n => ∃ r ∈ g.rules, r.origin = n

theorem defines_terminal {g : Grammar} {n : String} (h : g.terminal? n ≠ none) : g.Defines (.terminal n) := by
  obtain ⟨t, ht⟩ := Option.ne_none_iff_exists'.1 h
  exact ⟨t, List.mem_of_find?_eq_some ht, by simpa using List.find?_some ht⟩

theorem defines_nonterminal {g : Grammar} {n : String} (h : g.rulesOf n ≠ []) : g.Defines (.nonterminal n) := by
  obtain ⟨r, hr⟩ := List.exists_mem_of_ne_nil _ h
  obtain ⟨hr, ho⟩ := List.mem_filter.1 hr
  exact ⟨r, hr, eq_of_beq ho⟩

theorem defines_of_undefinedIn {g : Grammar} {r : Rule} (h : g.undefinedIn r = none) {s : Symbol}
    (hs : s ∈ r.symbols) : g.Defines s := by
  have hnone := List.findSome?_eq_none_iff.1 h s hs
  cases s with
  | terminal n => exact defines_terminal (by simpa using hnone)
  | nonterminal n => exact defines_nonterminal (by simpa using hnone)

/-- In a grammar without a fault every name is defined. -/
theorem defines_of_fault? {g : Grammar} (h : g.fault? = none) :
    (∀ r ∈ g.rules, ∀ s ∈ r.symbols, g.Defines s) ∧ (∀ n ∈ g.ignore, g.Defines (.terminal n)) ∧
      ∀ n ∈ g.start, g.Defines (.nonterminal n) := by
  rw [fault?, Option.or_eq_none_iff, Option.or_eq_none_iff] at h
  obtain ⟨⟨hrules, hignore⟩, hstart⟩ := h
  refine ⟨fun r hr s hs => ?_, fun n hn => ?_, fun n hn => ?_⟩
  · exact defines_of_undefinedIn (List.findSome?_eq_none_iff.1 hrules r hr) hs
  · exact defines_terminal (by simpa using List.find?_eq_none.1 (Option.map_eq_none_iff.1 hignore) n hn)
  · exact defines_nonterminal (by simpa using List.find?_eq_none.1 (Option.map_eq_none_iff.1 hstart) n hn)

end Grammar

/-! ## Coming to items -/

namespace GrammarDraft

variable {d : GrammarDraft} {g : Grammar}

/-- What is resolved of a draft after its first items. -/
def resolved (d : GrammarDraft) (done : List String) : Outcome Resolution := do
  let terminals ← declaredTerminals [] d.terminals
  Resolution.after { terminals } done

/-- A draft comes to an item when so much is resolved. -/
def ComesTo (d : GrammarDraft) (r : Resolution) (i : String) : Prop :=
  ∃ done rest, d.items = done ++ i :: rest ∧ d.resolved done = .ok r

/-- Names do not meet where a draft comes to its items: a literal that is not there yet gets no name that is there, no
terminal but that of a placeholder has its name, and a name of a terminal is one that the draft declares. -/
structure NamesApart (d : GrammarDraft) : Prop where
  literal : ∀ r text, d.ComesTo r (quotedItem text) → (∀ t ∈ r.terminals, t.pattern ≠ .literal text "") →
    ∀ t ∈ r.terminals, t.name ≠ r.freshName text
  placeholder : ∀ r key, d.ComesTo r (placeholderItem key) →
    ∀ t ∈ r.terminals, t.name = placeholderTerminalName key → t.pattern = .placeholder key
  name : ∀ i ∈ d.items, IsName i true → ∃ t ∈ d.terminals, t.name = i

/-- What building a draft goes through. -/
structure Built (d : GrammarDraft) (g : Grammar) (declared : List Terminal) (r : Resolution) : Prop where
  declares : declaredTerminals [] d.terminals = .ok declared
  rules : Resolution.rules { terminals := declared } [] d.rules = .ok (g.rules, r)
  terminals : g.terminals = r.terminals
  start : g.start = if d.start = [] then ["start"] else d.start
  ignore : g.ignore = d.ignore
  fault : g.fault? = none

theorem exists_built (h : d.build = .ok g) : ∃ declared r, d.Built g declared r := by
  obtain ⟨declared, hdeclared, h⟩ := bind_eq_ok.1 h
  obtain ⟨⟨rules, r⟩, hrules, h⟩ := bind_eq_ok.1 h
  dsimp only at h
  split at h
  · cases h
  · rename_i hfault
    cases h
    exact ⟨declared, r, hdeclared, hrules, rfl, by simp [List.isEmpty_iff], rfl, hfault⟩

namespace Built

variable {declared : List Terminal} {r : Resolution}

theorem after (h : d.Built g declared r) : Resolution.after { terminals := declared } d.items = .ok r :=
  (Resolution.rules_forall₂ (P := fun _ _ => True) h.rules fun _ _ _ => trivial).1

theorem resolved_eq (h : d.Built g declared r) (done : List String) :
    d.resolved done = Resolution.after { terminals := declared } done := by
  rw [resolved, h.declares]
  rfl

/-- Where a draft comes to an item it is resolved, and the terminals so far are the first ones of the grammar. -/
theorem item_of_comesTo (h : d.Built g declared r) {r₁ : Resolution} {i : String} (hc : d.ComesTo r₁ i) :
    ∃ part r₂, r₁.item false i = .ok (part, r₂) ∧ r₂.terminals <+: g.terminals := by
  obtain ⟨done, rest, hitems, hr⟩ := hc
  have hall := h.after
  rw [hitems, Resolution.after_append, ← h.resolved_eq, hr] at hall
  obtain ⟨part, r₂, hitem, hrest⟩ := Resolution.exists_item hall
  exact ⟨part, r₂, hitem, h.terminals ▸ Resolution.prefix_after hrest⟩

/-- The rules are made of what their items stand for where the draft comes to them. -/
theorem makes (h : d.Built g declared r) {P : String → Symbol → Prop}
    (hP : ∀ {i keepAll r₁ part r₂}, d.ComesTo r₁ i → i ∈ d.items → r₁.item keepAll i = .ok (part, r₂) →
      r₂.terminals <+: g.terminals → P i part.symbol) : List.Forall₂ (Resolution.Makes P) d.rules g.rules := by
  obtain ⟨-, made, hmade, hall⟩ := Resolution.rules_forall₂ h.rules
    fun {done i rest keepAll r₁ part r₂} hs hr hi => by
      have hc : d.ComesTo r₁ i := ⟨done, rest, hs, (h.resolved_eq done).trans hr⟩
      obtain ⟨part', r₃, hi', hstarts⟩ := h.item_of_comesTo hc
      have hsame := r₁.item_snd keepAll i
      rw [hi, hi'] at hsame
      obtain rfl : r₂ = r₃ := Except.ok.inj hsame
      exact hP hc (by rw [show d.items = done ++ i :: rest from hs]; simp) hi hstarts
  rw [hmade, List.nil_append]
  exact hall

/-- The declared terminals come first. -/
theorem prefix_declared (h : d.Built g declared r) : declared <+: g.terminals :=
  h.terminals ▸ Resolution.prefix_after h.after

end Built

/-! ## Terminals -/

/-- Where names do not meet, an item leaves the terminals with names of their own. -/
theorem NamesApart.nodup_item (hd : d.NamesApart) {r r' : Resolution} {keepAll : Bool} {i : String} {part : Part}
    (hc : d.ComesTo r i) (hi : r.item keepAll i = .ok (part, r')) (h : (r.terminals.map (·.name)).Nodup) :
    (r'.terminals.map (·.name)).Nodup := by
  obtain ⟨text, rfl, -, rfl⟩ | ⟨key, rfl, -, rfl⟩ | ⟨-, rfl⟩ := Resolution.item_cases hi
  · obtain ⟨-, -, -, -, heq⟩ | ⟨hnew, -, heq⟩ := r.literal_cases text keepAll <;> rw [heq]
    · exact h
    · refine nodup_map_concat h fun hmem => ?_
      obtain ⟨t, ht, hname⟩ := List.mem_map.1 hmem
      exact hd.literal r text hc hnew t ht hname
  · unfold Resolution.declare
    split
    · exact h
    · rename_i hany
      exact nodup_map_concat h (by simpa using hany)
  · exact h

theorem NamesApart.nodup_resolved (hd : d.NamesApart) (done : List String) : ∀ {rest : List String} {r : Resolution},
    d.items = done ++ rest → d.resolved done = .ok r → (r.terminals.map (·.name)).Nodup := by
  induction done using List.reverseRecOn with
  | nil =>
    intro rest r _ hr
    obtain ⟨declared, hdeclared, hr⟩ := bind_eq_ok.1 hr
    cases hr
    exact (declaredTerminals_spec hdeclared .nil).1
  | append_singleton done i ih =>
    intro rest r hitems hr
    have hitems : d.items = done ++ i :: rest := by simpa using hitems
    obtain ⟨declared, hdeclared, hr⟩ := bind_eq_ok.1 hr
    rw [Resolution.after_append] at hr
    obtain ⟨r₁, hdone, hr⟩ := bind_eq_ok.1 hr
    obtain ⟨part, r₂, hitem, hr⟩ := Resolution.exists_item hr
    cases hr
    have hr₁ : d.resolved done = .ok r₁ := by
      rw [resolved, hdeclared]
      exact hdone
    exact hd.nodup_item ⟨done, rest, hitems, hr₁⟩ hitem (ih hitems hr₁)

/-! ## Grammars -/

/-- What a grammar has of its draft in any case: its terminals are accounted for, those that are declared are there, every
name is defined, and the rules are different productions, numbered in order. -/
structure Keeps (d : GrammarDraft) (g : Grammar) : Prop where
  accounted : ∀ t ∈ g.terminals, d.Accounts t
  declared : ∀ t ∈ d.terminals, ∃ s ∈ g.terminals, s.name = t.name ∧ s.pattern = t.pattern
  defined : ∀ r ∈ g.rules, ∀ s ∈ r.symbols, g.Defines s
  start : g.start = (if d.start = [] then ["start"] else d.start) ∧ ∀ n ∈ g.start, g.Defines (.nonterminal n)
  ignore : g.ignore = d.ignore ∧ ∀ n ∈ g.ignore, g.Defines (.terminal n)
  numbered : RulesNumbered g.rules

/-- A grammar is what a draft says: its terminals have names of their own, and its rules are made of what the items of
their drafts stand for. -/
structure Resolves (d : GrammarDraft) (g : Grammar) : Prop extends d.Keeps g where
  names : (g.terminals.map (·.name)).Nodup
  rules : List.Forall₂ (Resolution.Makes (ItemMeans d.terminals g.terminals)) d.rules g.rules

namespace Built

variable {declared : List Terminal} {r : Resolution}

theorem keeps (h : d.Built g declared r) : d.Keeps g := by
  obtain ⟨-, -, hfrom, hdeclared⟩ := declaredTerminals_spec h.declares .nil
  obtain ⟨hsymbols, hignore, hstart⟩ := Grammar.defines_of_fault? h.fault
  have hmem : ∀ t ∈ declared, d.Accounts t := fun t ht => .inl ((hfrom t ht).resolve_left nofun)
  exact {
    accounted := h.terminals ▸ Resolution.accounts_after h.after (List.Subset.refl _) hmem
    declared := fun t ht =>
      have ⟨s, hs, hname, hp⟩ := hdeclared t ht
      ⟨s, h.prefix_declared.subset hs, hname, hp⟩
    defined := hsymbols
    start := ⟨h.start, hstart⟩
    ignore := ⟨h.ignore, hignore⟩
    numbered := Resolution.rulesNumbered h.rules ⟨.nil, fun _ => rfl⟩ }

/-- Where names do not meet, an item stands for what it says. -/
theorem itemMeans (h : d.Built g declared r) (hd : d.NamesApart) {i : String} {keepAll : Bool} {r₁ r₂ : Resolution}
    {part : Part} (hc : d.ComesTo r₁ i) (hmem : i ∈ d.items) (hi : r₁.item keepAll i = .ok (part, r₂))
    (hstarts : r₂.terminals <+: g.terminals) : ItemMeans d.terminals g.terminals i part.symbol := by
  obtain ⟨text, rfl, rfl, rfl⟩ | ⟨key, rfl, hs, rfl⟩ | ⟨⟨hn, hs⟩ | ⟨hn, hs⟩, rfl⟩ := Resolution.item_cases hi
  · obtain ⟨t, ht, hp, hs, heq⟩ | ⟨-, hs, heq⟩ := r₁.literal_cases text keepAll <;> rw [heq] at hstarts <;> rw [hs]
    · exact .literal (hstarts.subset ht) hp
    · exact .literal (t := { name := r₁.freshName text, pattern := .literal text "" })
        (hstarts.subset (List.mem_append_right _ (List.mem_singleton_self _))) rfl
  · obtain ⟨t, ht, hname⟩ :=
      r₁.exists_mem_declare { name := placeholderTerminalName key, pattern := .placeholder key }
    have hp : t.pattern = .placeholder key := by
      rcases Resolution.mem_or_eq_of_mem_declare ht with ht | rfl
      · exact hd.placeholder r₁ key hc t ht hname
      · rfl
    rw [hs, ← show t.name = placeholderTerminalName key from hname]
    exact .placeholder (hstarts.subset ht) hname hp
  · obtain ⟨t, ht, rfl⟩ := hd.name i hmem hn
    obtain ⟨-, -, hfrom, hdeclared⟩ := declaredTerminals_spec h.declares .nil
    obtain ⟨s, hs', hname, -⟩ := hdeclared t ht
    rw [hs, ← hname]
    exact .terminal ((hfrom s hs').resolve_left nofun) (h.prefix_declared.subset hs') (hname ▸ hn)
  · rw [hs]
    exact .rule hn

theorem resolves (h : d.Built g declared r) (hd : d.NamesApart) : d.Resolves g where
  toKeeps := h.keeps
  names := h.terminals ▸ hd.nodup_resolved d.items (List.append_nil _).symm ((h.resolved_eq _).trans h.after)
  rules := h.makes (h.itemMeans hd)

/-- A grammar that is what its draft says shows that no names have met. -/
theorem namesApart (h : d.Built g declared r) (hg : d.Resolves g) : d.NamesApart := by
  have hmeans : ∀ i ∈ d.items, ∃ s, ItemMeans d.terminals g.terminals i s := fun i hi => by
    obtain ⟨rd, hrd, hi⟩ := List.mem_flatMap.1 hi
    obtain ⟨rule, -, hmakes⟩ := exists_of_forall₂ hg.rules hrd
    obtain ⟨s, -, hs⟩ := exists_of_forall₂ hmakes.symbols hi
    exact ⟨s, hs⟩
  have hitem : ∀ {r₁ i}, d.ComesTo r₁ i → i ∈ d.items := fun ⟨done, rest, hitems, _⟩ => by simp [hitems]
  refine ⟨fun r₁ text hc hnew t ht hname => ?_, fun r₁ key hc t ht hname => ?_, fun i hi hn => ?_⟩
  · -- the new terminal comes behind the others under its name
    obtain ⟨part, r₂, hi, hstarts⟩ := h.item_of_comesTo hc
    have hadds : r₁.terminals ++ [{ name := r₁.freshName text, pattern := .literal text "" }] <+: g.terminals := by
      obtain ⟨text', heq, -, rfl⟩ | ⟨key, heq, -, -⟩ | ⟨⟨hn, -⟩ | ⟨hn, -⟩, -⟩ := Resolution.item_cases hi
      · obtain rfl := quotedItem_injective heq
        obtain ⟨s, hs, hp, -, -⟩ | ⟨-, -, heq⟩ := r₁.literal_cases text false
        · exact absurd hp (hnew s hs)
        · rwa [heq] at hstarts
      · exact absurd heq (quotedItem_ne_placeholderItem _ _)
      · exact absurd rfl (hn.ne_quotedItem _)
      · exact absurd rfl (hn.ne_quotedItem _)
    have hnodup := (hadds.sublist.map (·.name)).nodup hg.names
    rw [List.map_append] at hnodup
    exact (List.nodup_append.1 hnodup).2.2 _ (List.mem_map.2 ⟨t, ht, rfl⟩) _ (List.mem_singleton_self _) hname
  · obtain ⟨s, hs⟩ := hmeans _ (hitem hc)
    obtain ⟨t', ht', hname', hp⟩ := hs.exists_placeholder rfl
    obtain ⟨part, r₂, hi, hstarts⟩ := h.item_of_comesTo hc
    have hmem := hstarts.subset ((Resolution.prefix_item hi).subset ht)
    rw [List.inj_on_of_nodup_map hg.names hmem ht' (hname.trans hname'.symm)]
    exact hp
  · obtain ⟨s, hs⟩ := hmeans i hi
    exact hs.exists_declared hn

end Built

/-- The grammar that is built from a draft always keeps what the draft says of terminals, rules and names, and it is what
the draft says exactly if no names meet. -/
theorem resolves_iff_namesApart (h : d.build = .ok g) : d.Keeps g ∧ (d.Resolves g ↔ d.NamesApart) := by
  obtain ⟨declared, r, hbuilt⟩ := exists_built h
  exact ⟨hbuilt.keeps, hbuilt.namesApart, hbuilt.resolves⟩

theorem exists_ok_of_toOption {α β : Type} {o : Outcome α} {f : α → β} {b : β} (h : o.toOption.map f = some b) :
    ∃ a, o = .ok a ∧ f a = b := by
  cases o with
  | error e => cases h
  | ok a => exact ⟨a, rfl, Option.some.inj h⟩

/-- A literal without a name of its own and one with, a placeholder and a declared terminal. -/
def fourKinds : GrammarDraft where
  terminals := [⟨"NUMBER", .regex "[0-9]+" "", 0⟩]
  rules := [{ origin := "start", items := ["\"=>\"", "\"if\"", "PLACEHOLDER[a-b]", "NUMBER"] }]

theorem items_fourKinds :
    fourKinds.items = [quotedItem "=>", quotedItem "if", placeholderItem (some "a-b"), "NUMBER"] := by decide

/-- The terminals of the draft in the order in which they are found. -/
def fourTerminals : List Terminal :=
  [⟨"NUMBER", .regex "[0-9]+" "", 0⟩, ⟨"__ANON_0", .literal "=>" "", 0⟩, ⟨"IF", .literal "if" "", 0⟩,
    ⟨"PLACEHOLDER__A_B", .placeholder (some "a-b"), 0⟩]

theorem comesTo_fourKinds {r : Resolution} {i : String} (h : fourKinds.ComesTo r i) :
    i = quotedItem "=>" ∧ r = ⟨fourTerminals.take 1, []⟩ ∨
      i = quotedItem "if" ∧ r = ⟨fourTerminals.take 2, ["__ANON_0"]⟩ ∨
      i = placeholderItem (some "a-b") ∧ r = ⟨fourTerminals.take 3, ["IF", "__ANON_0"]⟩ ∨ i = "NUMBER" := by
  obtain ⟨done, rest, hitems, hr⟩ := h
  rw [items_fourKinds] at hitems
  have harrow : quotedItem "=>" = "\"=>\"" := by decide
  have hword : quotedItem "if" = "\"if\"" := by decide
  rcases done with _ | ⟨a, _ | ⟨b, _ | ⟨c, _ | ⟨e, done⟩⟩⟩⟩
  · obtain ⟨rfl, -⟩ := List.cons.inj hitems
    exact .inl ⟨rfl, Except.ok.inj hr.symm⟩
  · simp only [List.cons_append, List.nil_append, List.cons.injEq] at hitems
    obtain ⟨rfl, rfl, -⟩ := hitems
    have hafter : fourKinds.resolved ["\"=>\""] = .ok ⟨fourTerminals.take 2, ["__ANON_0"]⟩ := by cbv
    rw [harrow] at hr
    exact .inr (.inl ⟨rfl, Except.ok.inj (hr.symm.trans hafter)⟩)
  · simp only [List.cons_append, List.nil_append, List.cons.injEq] at hitems
    obtain ⟨rfl, rfl, rfl, -⟩ := hitems
    have hafter : fourKinds.resolved ["\"=>\"", "\"if\""] = .ok ⟨fourTerminals.take 3, ["IF", "__ANON_0"]⟩ := by cbv
    rw [harrow, hword] at hr
    exact .inr (.inr (.inl ⟨rfl, Except.ok.inj (hr.symm.trans hafter)⟩))
  · simp only [List.cons_append, List.nil_append, List.cons.injEq] at hitems
    exact .inr (.inr (.inr hitems.2.2.2.1.symm))
  · simp at hitems

theorem namesApart_fourKinds : fourKinds.NamesApart where
  literal r text hc _ := by
    rcases comesTo_fourKinds hc with ⟨hi, rfl⟩ | ⟨hi, rfl⟩ | ⟨hi, -⟩ | hi
    · obtain rfl := quotedItem_injective hi
      decide
    · obtain rfl := quotedItem_injective hi
      decide
    · exact absurd hi (quotedItem_ne_placeholderItem _ _)
    · simpa [toList_quotedItem] using congrArg (·.toList.head?) hi
  placeholder r key hc := by
    rcases comesTo_fourKinds hc with ⟨hi, -⟩ | ⟨hi, -⟩ | ⟨hi, rfl⟩ | hi
    · exact absurd hi.symm (quotedItem_ne_placeholderItem _ _)
    · exact absurd hi.symm (quotedItem_ne_placeholderItem _ _)
    · obtain rfl := placeholderItem_injective hi
      decide
    · cases key <;> simpa [placeholderItem, placeholderName] using congrArg (·.toList.head?) hi
  name i hi hn := by
    rw [items_fourKinds] at hi
    simp only [List.mem_cons, List.not_mem_nil, or_false] at hi
    rcases hi with rfl | rfl | rfl | rfl
    · exact absurd rfl (hn.ne_quotedItem _)
    · exact absurd rfl (hn.ne_quotedItem _)
    · exact absurd rfl (hn.ne_placeholderItem _)
    · exact ⟨_, List.mem_cons_self .., rfl⟩

/-- Four terminals with names of their own; the first literal is numbered. -/
theorem resolves_fourKinds : ∃ g, fourKinds.build = .ok g ∧ fourKinds.Resolves g ∧ g.terminals = fourTerminals := by
  have hbuild : fourKinds.build.toOption.map (·.terminals) = some fourTerminals := by decide +kernel
  obtain ⟨g, hg, hterminals⟩ := exists_ok_of_toOption hbuild
  exact ⟨g, hg, (resolves_iff_namesApart hg).2.2 namesApart_fourKinds, hterminals⟩

/-- A numbered literal and a declared terminal of its name. -/
def takenNumber : GrammarDraft where
  terminals := [⟨"__ANON_0", .literal "x" "", 0⟩]
  rules := [{ origin := "start", items := ["__ANON_0", "\"0\""] }]

/-- Placeholders whose keys give one name. -/
def sharedName : GrammarDraft where
  rules := [{ origin := "start", items := ["PLACEHOLDER[a-b]", "PLACEHOLDER[a_b]"] }]

/-- A name that nothing declares, beside a literal whose terminal gets it. -/
def borrowedName : GrammarDraft where
  rules := [{ origin := "start", items := ["\"if\"", "IF"] }]

/-- Two terminals get one name, a placeholder stands for that of another key, and a name for a literal. -/
theorem names_meet :
    (∃ g, takenNumber.build = .ok g ∧
      g.terminals.map (fun t => (t.name, t.pattern)) = [("__ANON_0", .literal "x" ""), ("__ANON_0", .literal "0" "")] ∧
      ¬ (g.terminals.map (·.name)).Nodup) ∧
    (∃ g, sharedName.build = .ok g ∧ g.terminals = [⟨"PLACEHOLDER__A_B", .placeholder (some "a-b"), 0⟩] ∧
      g.rules.map (·.symbols) = [[.terminal "PLACEHOLDER__A_B", .terminal "PLACEHOLDER__A_B"]]) ∧
    ∃ g, borrowedName.build = .ok g ∧ borrowedName.terminals = [] ∧ g.terminals = [⟨"IF", .literal "if" "", 0⟩] ∧
      g.rules.map (·.symbols) = [[.terminal "IF", .terminal "IF"]] := by
  refine ⟨?_, ?_, ?_⟩
  · have hbuild : takenNumber.build.toOption.map (fun g => g.terminals.map fun t => (t.name, t.pattern)) =
        some [("__ANON_0", .literal "x" ""), ("__ANON_0", .literal "0" "")] := by decide +kernel
    obtain ⟨g, hg, hts⟩ := exists_ok_of_toOption hbuild
    have hnames : g.terminals.map (·.name) = ["__ANON_0", "__ANON_0"] := by
      have hfst := congrArg (List.map Prod.fst) hts
      rw [List.map_map] at hfst
      exact hfst
    exact ⟨g, hg, hts, hnames ▸ by decide⟩
  · have hbuild : sharedName.build.toOption.map (fun g => (g.terminals, g.rules.map (·.symbols))) =
        some ([⟨"PLACEHOLDER__A_B", .placeholder (some "a-b"), 0⟩],
          [[.terminal "PLACEHOLDER__A_B", .terminal "PLACEHOLDER__A_B"]]) := by decide +kernel
    obtain ⟨g, hg, heq⟩ := exists_ok_of_toOption hbuild
    obtain ⟨hts, hrs⟩ := Prod.mk.inj heq
    exact ⟨g, hg, hts, hrs⟩
  · have hbuild : borrowedName.build.toOption.map (fun g => (g.terminals, g.rules.map (·.symbols))) =
        some ([⟨"IF", .literal "if" "", 0⟩], [[.terminal "IF", .terminal "IF"]]) := by decide +kernel
    obtain ⟨g, hg, heq⟩ := exists_ok_of_toOption hbuild
    obtain ⟨hts, hrs⟩ := Prod.mk.inj heq
    exact ⟨g, hg, rfl, hts, hrs⟩

end GrammarDraft

end GrammarKit
