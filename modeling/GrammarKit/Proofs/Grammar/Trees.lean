/-
Derivation trees of a list of rules. Symbols have trees over tokens exactly if they yield them, the leaves of
the trees are the tokens, and the trees below a node are lighter than the node.
-/
import GrammarKit.Grammar.Evaluation
import GrammarKit.Proofs.Grammar.Derives

namespace GrammarKit

/-- A token stands for the terminal that it is named after. -/
def IsNamed (terminal : String) (t : Token) : Prop := t.kind = terminal

theorem forall₂_isNamed_iff {word : List String} {w : List Token} : List.Forall₂ IsNamed word w ↔
    word = w.map Token.kind := by
  induction word generalizing w with
  | nil => cases w <;> simp
  | cons a word ih => cases w <;> simp [ih, IsNamed, eq_comm]

theorem kinds_ofText (word : List String) : (word.map fun a => Token.ofText a "").map Token.kind = word := by
  rw [List.map_map]
  exact List.map_id word

/-- Named tokens are yielded exactly if their names are derived. -/
theorem yields_isNamed_iff {rules : List Rule} {ss : List Symbol} {w : List Token} :
    Yields rules IsNamed ss w ↔ Derives rules ss ((w.map Token.kind).map .terminal) := by
  simp only [yields_iff_derives, forall₂_isNamed_iff, exists_eq_right]

/-- Trees of symbols, one for each, over the tokens that are their leaves. -/
inductive Trees (rules : List Rule) (stands : String → Token → Prop) :
    List Symbol → List Token → List Derivation → Prop
  | nil : Trees rules stands [] [] []
  | token {a : String} {t : Token} {ss : List Symbol} {ts : List Token} {ds : List Derivation} (h : stands a t)
    (rest : Trees rules stands ss ts ds) : Trees rules stands (.terminal a :: ss) (t :: ts) (.token t :: ds)
  | node {i : Nat} {r : Rule} {ss : List Symbol} {us ts : List Token} {cs ds : List Derivation}
    (h : rules[i]? = some r) (inner : Trees rules stands r.symbols us cs) (rest : Trees rules stands ss ts ds) :
    Trees rules stands (.nonterminal r.origin :: ss) (us ++ ts) (.node i cs :: ds)

variable {rules : List Rule} {stands : String → Token → Prop}

theorem Trees.yields {ss : List Symbol} {ts : List Token} {ds : List Derivation} (h : Trees rules stands ss ts ds) :
    Yields rules stands ss ts := by
  induction h with
  | nil => exact .nil
  | token h _ ih => exact .terminal h ih
  | node h _ _ ih1 ih2 => exact .nonterminal (List.mem_of_getElem? h) ih1 ih2

theorem Yields.trees {ss : List Symbol} {ts : List Token} (h : Yields rules stands ss ts) :
    ∃ ds, Trees rules stands ss ts ds := by
  induction h with
  | nil => exact ⟨[], .nil⟩
  | terminal h _ ih =>
    obtain ⟨ds, hds⟩ := ih
    exact ⟨_, .token h hds⟩
  | nonterminal h _ _ ih1 ih2 =>
    obtain ⟨i, hi⟩ := List.getElem?_of_mem h
    obtain ⟨cs, hcs⟩ := ih1
    obtain ⟨ds, hds⟩ := ih2
    exact ⟨_, .node hi hcs hds⟩

namespace Trees

theorem of_rule {i : Nat} {r : Rule} {ts : List Token} {ds : List Derivation} (h : rules[i]? = some r)
    (inner : Trees rules stands r.symbols ts ds) : Trees rules stands [.nonterminal r.origin] ts [.node i ds] := by
  simpa using Trees.node h inner .nil

theorem append {ss zs : List Symbol} {ts us : List Token} {ds es : List Derivation}
    (h : Trees rules stands ss ts ds) (k : Trees rules stands zs us es) :
    Trees rules stands (ss ++ zs) (ts ++ us) (ds ++ es) := by
  induction h with
  | nil => exact k
  | token h _ ih => exact .token h ih
  | node h inner _ _ ih => simpa using Trees.node h inner ih

theorem split {ss zs : List Symbol} : ∀ {ts : List Token} {ds : List Derivation},
    Trees rules stands (ss ++ zs) ts ds → ∃ us vs cs es, ts = us ++ vs ∧ ds = cs ++ es ∧
      Trees rules stands ss us cs ∧ Trees rules stands zs vs es := by
  induction ss with
  | nil => exact fun {ts ds} h => ⟨[], ts, [], ds, rfl, rfl, .nil, h⟩
  | cons s ss ih =>
    intro ts ds h
    cases h with
    | token h rest =>
      obtain ⟨us, vs, cs, es, rfl, rfl, h1, h2⟩ := ih rest
      exact ⟨_ :: us, vs, _ :: cs, es, rfl, rfl, .token h h1, h2⟩
    | node h inner rest =>
      obtain ⟨us, vs, cs, es, rfl, rfl, h1, h2⟩ := ih rest
      exact ⟨_ ++ us, vs, _ :: cs, es, by simp, rfl, .node h inner h1, h2⟩

theorem leaves_eq {ss : List Symbol} {ts : List Token} {ds : List Derivation} (h : Trees rules stands ss ts ds) :
    Derivation.leavesAll ds = ts := by
  induction h with
  | nil => rfl
  | token _ _ ih => simp [Derivation.leavesAll, Derivation.leaves, ih]
  | node _ _ _ ih1 ih2 => simp [Derivation.leavesAll, Derivation.leaves, ih1, ih2]

end Trees

/-- A nonterminal's tree is one of its rules over the trees of the rule's symbols. -/
theorem trees_nonterminal_iff {n : String} {ts : List Token} {ds : List Derivation} :
    Trees rules stands [.nonterminal n] ts ds ↔ ∃ i r cs, rules[i]? = some r ∧ r.origin = n ∧ ds = [.node i cs] ∧
      Trees rules stands r.symbols ts cs := by
  constructor
  · intro h
    cases h with
    | node h inner rest => cases rest; exact ⟨_, _, _, h, rfl, rfl, by simpa using inner⟩
  · rintro ⟨i, r, cs, h, rfl, rfl, inner⟩; exact .of_rule h inner

theorem trees_terminal_iff {a : String} {ts : List Token} {ds : List Derivation} :
    Trees rules stands [.terminal a] ts ds ↔ ∃ t, ts = [t] ∧ ds = [.token t] ∧ stands a t := by
  constructor
  · intro h
    cases h with
    | token h rest => cases rest; exact ⟨_, rfl, rfl, h⟩
  · rintro ⟨t, rfl, rfl, h⟩; exact .token h .nil

theorem Trees.length_eq {ss : List Symbol} {ts : List Token} {ds : List Derivation} (h : Trees rules stands ss ts ds) :
    ds.length = ss.length := by
  induction h with
  | nil => rfl
  | token _ _ ih => simp [ih]
  | node _ _ _ _ ih => simp [ih]

/-- What a symbol yields has a tree of the symbol. -/
theorem Yields.exists_tree {s : Symbol} {ts : List Token} (h : Yields rules stands [s] ts) :
    ∃ d, Trees rules stands [s] ts [d] := by
  obtain ⟨ds, hds⟩ := h.trees
  obtain ⟨d, rfl⟩ := List.length_eq_one_iff.1 hds.length_eq
  exact ⟨d, hds⟩

/-- The symbol of a node among trees of symbols is the origin of its rule. -/
theorem Trees.origin_mem {ss : List Symbol} {ts : List Token} {ds : List Derivation} (h : Trees rules stands ss ts ds)
    {i : Nat} {cs : List Derivation} {r : Rule} (hr : rules[i]? = some r) :
    .node i cs ∈ ds → .nonterminal r.origin ∈ ss := by
  induction h with
  | nil => simp
  | token _ _ ih =>
    intro hm
    rcases List.mem_cons.1 hm with hm | hm
    · cases hm
    · exact List.mem_cons_of_mem _ (ih hm)
  | node h _ _ _ ih =>
    intro hm
    rcases List.mem_cons.1 hm with hm | hm
    · cases hm
      obtain rfl := Option.some.inj (h.symm.trans hr)
      exact List.mem_cons_self ..
    · exact List.mem_cons_of_mem _ (ih hm)

namespace Derivation

mutual

/-- Number of tokens and nodes of a derivation. -/
def size : Derivation → Nat
  | token _ => 1
  | node _ ds => sizeAll ds + 1

def sizeAll : List Derivation → Nat
  | [] => 0
  | d :: ds => size d + sizeAll ds

end

theorem sizeAll_append : ∀ ds es : List Derivation, sizeAll (ds ++ es) = sizeAll ds + sizeAll es
  | [], es => by simp [sizeAll]
  | d :: ds, es => by simp [sizeAll, sizeAll_append ds es, Nat.add_assoc]

theorem sizeAll_reverse : ∀ ds : List Derivation, sizeAll ds.reverse = sizeAll ds
  | [] => rfl
  | d :: ds => by
    rw [List.reverse_cons, sizeAll_append, sizeAll_reverse ds]
    simp only [sizeAll]
    omega

theorem weight_le_of_mem {d : Derivation} : ∀ {ds : List Derivation}, d ∈ ds → d.weight ≤ weightAll ds
  | e :: ds, h => by
    rcases List.mem_cons.1 h with rfl | h
    · simp [weightAll]
    · have := weight_le_of_mem h
      simp only [weightAll]; omega

theorem weight_lt_of_mem {d : Derivation} {ds : List Derivation} {i : Nat} (h : d ∈ ds) :
    d.weight < (node i ds).weight := by
  have := weight_le_of_mem h
  simp only [weight]; omega

theorem length_leaves_le_of_mem {d : Derivation} : ∀ {ds : List Derivation}, d ∈ ds →
    d.leaves.length ≤ (leavesAll ds).length
  | e :: ds, h => by
    rw [leavesAll, List.length_append]
    rcases List.mem_cons.1 h with rfl | h
    · omega
    · have := length_leaves_le_of_mem h
      omega

theorem leavesAll_eq_flatMap : ∀ ds : List Derivation, leavesAll ds = ds.flatMap leaves
  | [] => rfl
  | d :: ds => by rw [leavesAll, leavesAll_eq_flatMap ds, List.flatMap_cons]

theorem sublist_leavesAll {d : Derivation} {ds : List Derivation} (hd : d ∈ ds) :
    d.leaves.Sublist (leavesAll ds) := by
  rw [leavesAll_eq_flatMap]
  exact List.sublist_flatten_of_mem (List.mem_map_of_mem hd)

end Derivation

/-- Each of the trees is one over its own leaves. -/
theorem Trees.of_mem {ss : List Symbol} {ts : List Token} {ds : List Derivation} (h : Trees rules stands ss ts ds)
    {d : Derivation} : d ∈ ds → ∃ x, Trees rules stands [x] d.leaves [d] := by
  induction h with
  | nil => simp
  | token h _ ih =>
    intro hd
    rcases List.mem_cons.1 hd with rfl | hd
    · exact ⟨_, .token h .nil⟩
    · exact ih hd
  | node h inner _ _ ih =>
    intro hd
    rcases List.mem_cons.1 hd with rfl | hd
    · rw [Derivation.leaves, inner.leaves_eq]
      exact ⟨_, .of_rule h inner⟩
    · exact ih hd

end GrammarKit
