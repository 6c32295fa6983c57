/-
Items of drafts. An item is a literal in quotes, a placeholder, or a name; it is one of these only, and says what it is
a literal or a placeholder of. Resolving it adds at most the terminal that it needs.
Items are resolved from left to right, and so are the rules that have them.
-/
import GrammarKit.Grammar.Draft
import GrammarKit.Proofs.Scan.Lexed

namespace GrammarKit

/-! ## What items say -/

/-- The item of a literal. -/
def quotedItem (text : String) : String := "\"" ++ text ++ "\""

/-- The item of a placeholder. -/
def placeholderItem : Option String → String
  | none => placeholderName
  | some key => placeholderName ++ "[" ++ key ++ "]"

/-- An item that is a name. The first character other than an underscore tells a terminal from a rule. -/
structure IsName (item : String) (ofTerminal : Bool) : Prop where
  chars : item.toList.all isNameChar = true
  first : ∃ c rest, item.toList.dropWhile (· == '_') = c :: rest ∧ c.isUpper = ofTerminal
  ne : item ≠ placeholderName

/-- The symbols that an item may stand for among terminals: a literal for a terminal of its text, a placeholder for the
terminal of its name and key, and a name for a terminal that was declared, or for a rule. -/
inductive ItemMeans (declared terminals : List Terminal) : String → Symbol → Prop
  | literal {text : String} {t : Terminal} (ht : t ∈ terminals) (hp : t.pattern = .literal text "") :
    ItemMeans declared terminals (quotedItem text) (.terminal t.name)
  | placeholder {key : Option String} {t : Terminal} (ht : t ∈ terminals) (hname : t.name = placeholderTerminalName key)
    (hp : t.pattern = .placeholder key) : ItemMeans declared terminals (placeholderItem key) (.terminal t.name)
  | terminal {t : Terminal} (hd : t ∈ declared) (ht : t ∈ terminals) (hn : IsName t.name true) :
    ItemMeans declared terminals t.name (.terminal t.name)
  | rule {name : String} (hn : IsName name false) : ItemMeans declared terminals name (.nonterminal name)

theorem toList_quotedItem (text : String) : (quotedItem text).toList = '"' :: (text.toList ++ ['"']) := by
  simp [quotedItem]

theorem toList_placeholderItem (key : String) :
    (placeholderItem (some key)).toList = placeholderName.toList ++ '[' :: (key.toList ++ [']']) := by
  simp [placeholderItem]

theorem quotedItem_injective : Function.Injective quotedItem := by
  intro a b h
  have hl := congrArg String.toList h
  rw [toList_quotedItem, toList_quotedItem, List.cons_inj_right, List.append_cancel_right_eq] at hl
  exact String.toList_inj.1 hl

theorem placeholderItem_injective : Function.Injective placeholderItem := by
  intro a b h
  have hl := congrArg String.toList h
  cases a <;> cases b
  case none.none => rfl
  case some.some =>
    rw [toList_placeholderItem, toList_placeholderItem, List.append_cancel_left_eq, List.cons_inj_right,
      List.append_cancel_right_eq] at hl
    exact congrArg some (String.toList_inj.1 hl)
  all_goals
    have hlength := congrArg List.length hl
    simp [placeholderItem] at hlength

theorem quotedItem_ne_placeholderItem (text : String) (key : Option String) : quotedItem text ≠ placeholderItem key := by
  intro h
  have hhead := congrArg (·.toList.head?) h
  cases key <;> simp [quotedItem, placeholderItem, placeholderName] at hhead

theorem IsName.ne_quotedItem {item : String} {b : Bool} (h : IsName item b) (text : String) : item ≠ quotedItem text := by
  rintro rfl
  have hchars := h.chars
  rw [toList_quotedItem, List.all_cons, show isNameChar '"' = false from by decide] at hchars
  cases hchars

theorem IsName.ne_placeholderItem {item : String} {b : Bool} (h : IsName item b) (key : Option String) :
    item ≠ placeholderItem key := by
  cases key with
  | none => exact h.ne
  | some key =>
    rintro rfl
    have hbracket := List.all_eq_true.1 h.chars '[' (by simp [toList_placeholderItem])
    revert hbracket
    decide

theorem IsName.eq {item : String} {a b : Bool} (h : IsName item a) (h' : IsName item b) : a = b := by
  obtain ⟨c, rest, hc, rfl⟩ := h.first
  obtain ⟨c', rest', hc', rfl⟩ := h'.first
  obtain ⟨rfl, -⟩ := List.cons.inj (hc.symm.trans hc')
  rfl

section Means

variable {declared terminals : List Terminal} {item : String} {s : Symbol}

theorem ItemMeans.exists_placeholder (h : ItemMeans declared terminals item s) {key : Option String}
    (hi : item = placeholderItem key) :
    ∃ t ∈ terminals, t.name = placeholderTerminalName key ∧ t.pattern = .placeholder key := by
  cases h with
  | literal _ _ => exact absurd hi (quotedItem_ne_placeholderItem _ _)
  | placeholder ht hname hp =>
    obtain rfl := placeholderItem_injective hi
    exact ⟨_, ht, hname, hp⟩
  | terminal _ _ hn => exact absurd hi (hn.ne_placeholderItem _)
  | rule hn => exact absurd hi (hn.ne_placeholderItem _)

theorem ItemMeans.exists_declared (h : ItemMeans declared terminals item s) (hn : IsName item true) :
    ∃ t ∈ declared, t.name = item := by
  cases h with
  | literal _ _ => exact absurd rfl (hn.ne_quotedItem _)
  | placeholder _ _ _ => exact absurd rfl (hn.ne_placeholderItem _)
  | terminal hd _ _ => exact ⟨_, hd, rfl⟩
  | rule hn' => cases hn.eq hn'

end Means

theorem quotedItem_of_quotedText? {item : String} {text : List Char}
    (h : Resolution.quotedText? item.toList = some text) : item = quotedItem (String.ofList text) := by
  unfold Resolution.quotedText? at h
  split at h
  · rename_i rest hitem
    split at h
    · rename_i hlast
      obtain rfl := Option.some.inj h
      have hrest : rest.dropLast ++ ['"'] = rest := List.dropLast_append_getLast? _ (by simpa using hlast)
      apply String.toList_inj.1
      rw [hitem, toList_quotedItem, String.toList_ofList, hrest]
    · cases h
  · cases h

theorem placeholderItem_of_placeholderKey? {item : String} {key : List Char}
    (h : Resolution.placeholderKey? item.toList = some key) : item = placeholderItem (some (String.ofList key)) := by
  unfold Resolution.placeholderKey? at h
  split at h
  · rename_i rest hitem
    split at h
    · rename_i hboth
      obtain rfl := Option.some.inj h
      rw [Bool.and_eq_true, List.isPrefixOf_iff_prefix] at hboth
      obtain ⟨⟨tail, htail⟩, hlast⟩ := hboth
      have hrest : rest.dropLast ++ [']'] = rest := List.dropLast_append_getLast? _ (by simpa using hlast)
      have hdrop : tail = '[' :: rest := by
        rw [← hitem, ← htail, ← String.length_toList, List.drop_left]
      apply String.toList_inj.1
      rw [← htail, hdrop, toList_placeholderItem, String.toList_ofList, hrest]
    · cases h
  · cases h

/-! ## Steps of resolving -/

namespace Resolution

variable {r r' : Resolution}

/-- A literal is there already, or is declared under a new name. -/
theorem literal_cases (r : Resolution) (text : String) (keepAll : Bool) :
    (∃ t ∈ r.terminals, t.pattern = .literal text "" ∧ (r.literal text keepAll).1.symbol = .terminal t.name ∧
      (r.literal text keepAll).2 = r) ∨
    (∀ t ∈ r.terminals, t.pattern ≠ .literal text "") ∧
      (r.literal text keepAll).1.symbol = .terminal (r.freshName text) ∧
      (r.literal text keepAll).2 =
        ⟨r.terminals ++ [{ name := r.freshName text, pattern := .literal text "" }],
          if r.freshName text ∈ r.generated then r.generated else r.freshName text :: r.generated⟩ := by
  unfold literal
  dsimp only
  split
  · rename_i t hfind
    have hp : t.pattern = .literal text "" := by simpa using List.find?_some hfind
    exact .inl ⟨t, List.mem_of_find?_eq_some hfind, hp, rfl, rfl⟩
  · rename_i hnone
    refine .inr ⟨fun t ht => ?_, rfl, by simp⟩
    simpa using List.find?_eq_none.1 hnone t ht

/-- What an item stands for, and what it adds. -/
theorem item_cases {keepAll : Bool} {i : String} {part : Part} (hi : r.item keepAll i = .ok (part, r')) :
    (∃ text, i = quotedItem text ∧ part = (r.literal text keepAll).1 ∧ r' = (r.literal text keepAll).2) ∨
    (∃ key, i = placeholderItem key ∧ part.symbol = .terminal (placeholderTerminalName key) ∧
      r' = r.declare { name := placeholderTerminalName key, pattern := .placeholder key }) ∨
    ((IsName i true ∧ part.symbol = .terminal i ∨ IsName i false ∧ part.symbol = .nonterminal i) ∧ r' = r) := by
  unfold item at hi
  dsimp only at hi
  split at hi
  · rename_i text _ hquoted
    obtain ⟨rfl, rfl⟩ := Prod.mk.inj (Except.ok.inj hi)
    exact .inl ⟨_, quotedItem_of_quotedText? hquoted, rfl, rfl⟩
  · rename_i key _ hkey
    obtain ⟨rfl, rfl⟩ := Prod.mk.inj (Except.ok.inj hi)
    exact .inr (.inl ⟨_, placeholderItem_of_placeholderKey? hkey, rfl, rfl⟩)
  · split at hi
    · rename_i hany
      obtain ⟨rfl, rfl⟩ := Prod.mk.inj (Except.ok.inj hi)
      exact .inr (.inl ⟨none, eq_of_beq hany, rfl, rfl⟩)
    · rename_i hne
      split at hi
      · cases hi
      · rename_i c rest hfirst
        split at hi
        · cases hi
        · rename_i hchars
          have hn : IsName i c.isUpper := ⟨by simpa using hchars, ⟨c, rest, hfirst, rfl⟩, by simpa using hne⟩
          split at hi
          · rename_i hupper
            obtain ⟨rfl, rfl⟩ := Prod.mk.inj (Except.ok.inj hi)
            exact .inr (.inr ⟨.inl ⟨hupper ▸ hn, rfl⟩, rfl⟩)
          · rename_i hupper
            obtain ⟨rfl, rfl⟩ := Prod.mk.inj (Except.ok.inj hi)
            exact .inr (.inr ⟨.inr ⟨Bool.eq_false_iff.2 hupper ▸ hn, rfl⟩, rfl⟩)

theorem items_cons {keepAll : Bool} {i : String} {is : List String} {parts : List Part}
    (h : r.items keepAll (i :: is) = .ok (parts, r')) : ∃ part parts' r₁, parts = part :: parts' ∧
      r.item keepAll i = .ok (part, r₁) ∧ r₁.items keepAll is = .ok (parts', r') := by
  rw [items] at h
  obtain ⟨⟨part, r₁⟩, hitem, h⟩ := bind_eq_ok.1 h
  obtain ⟨⟨parts', r₂⟩, hitems, h⟩ := bind_eq_ok.1 h
  obtain ⟨rfl, rfl⟩ := Prod.mk.inj (Except.ok.inj h)
  exact ⟨part, parts', r₁, rfl, hitem, hitems⟩

/-- A rule from its draft is a new production, numbered among those of its origin. -/
theorem rules_cons {d : RuleDraft} {ds : List RuleDraft} {before rs : List Rule}
    (h : rules r before (d :: ds) = .ok (rs, r')) : ∃ (rule : Rule) (r₁ : Resolution),
      r.items d.options.keepAllTokens d.items = .ok (rule.parts, r₁) ∧ rule.origin = d.origin ∧
        rule.order = (before.filter (·.origin == rule.origin)).length ∧
        (∀ b ∈ before, b.production ≠ rule.production) ∧ rules r₁ (before ++ [rule]) ds = .ok (rs, r') := by
  rw [rules] at h
  obtain ⟨⟨parts, r₁⟩, hitems, h⟩ := bind_eq_ok.1 h
  dsimp only at h
  split at h
  · cases h
  · rename_i hany
    exact ⟨_, r₁, hitems, rfl, rfl, fun b hb hp => hany (List.any_eq_true.2 ⟨b, hb, beq_iff_eq.2 hp⟩), h⟩

end Resolution

end GrammarKit
