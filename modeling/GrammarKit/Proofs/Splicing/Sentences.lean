/-
What an extended grammar derives. Its words are the sentential forms of the grammar in which every nonterminal gives way
to the splice terminal of one of its labels. A splice terminal is none of the terminals that are there already, and
belongs to one label only; so a word tells where in the form a nonterminal stands, and for which label.
-/
import GrammarKit.Proofs.Grammar.Restless
import GrammarKit.Proofs.Splicing.Extension

namespace GrammarKit

/-! ## Labels by origin -/

theorem mem_of_mem_add {origin label o l : String} {ls : List String} {groups : List (String × List String)}
    (h : (o, ls) ∈ labelsByOrigin.add groups origin label) (hl : l ∈ ls) :
    (∃ ls', (o, ls') ∈ groups ∧ l ∈ ls') ∨ o = origin ∧ l = label := by
  induction groups with
  | nil =>
    rw [labelsByOrigin.add, List.mem_singleton] at h
    obtain ⟨rfl, rfl⟩ := Prod.mk.inj h
    exact .inr ⟨rfl, List.mem_singleton.1 hl⟩
  | cons p groups ih =>
    obtain ⟨o', ls'⟩ := p
    rw [labelsByOrigin.add] at h
    split at h
    · rename_i ho
      rcases List.mem_cons.1 h with h | h
      · obtain ⟨rfl, rfl⟩ := Prod.mk.inj h
        split at hl
        · exact .inl ⟨ls', List.mem_cons_self .., hl⟩
        · rcases List.mem_append.1 hl with hl | hl
          · exact .inl ⟨ls', List.mem_cons_self .., hl⟩
          · exact .inr ⟨ho, List.mem_singleton.1 hl⟩
      · exact .inl ⟨ls, List.mem_cons_of_mem _ h, hl⟩
    · rcases List.mem_cons.1 h with h | h
      · exact .inl ⟨ls, h ▸ List.mem_cons_self .., hl⟩
      · obtain ⟨ls'', h', hl'⟩ | hnew := ih h
        · exact .inl ⟨ls'', List.mem_cons_of_mem _ h', hl'⟩
        · exact .inr hnew

/-- A rule from which an origin has a label. -/
def HasLabel (rules : List Rule) (origin label : String) : Prop :=
  ∃ r ∈ rules, r.options.forSplicing = false ∧ r.origin = origin ∧ r.label = label

/-- Every label among those of an origin comes from a rule. -/
theorem hasLabel_of_mem_labelsByOrigin {rules : List Rule} {o l : String} {ls : List String}
    (h : (o, ls) ∈ labelsByOrigin rules) (hl : l ∈ ls) : HasLabel rules o l := by
  have hgroup : ∀ (rs : List Rule) (groups : List (String × List String)),
      (∀ r ∈ rs, r ∈ rules ∧ r.options.forSplicing = false) →
      (∀ p ∈ groups, ∀ l ∈ p.2, HasLabel rules p.1 l) →
      ∀ p ∈ rs.foldl (fun groups r => labelsByOrigin.add groups r.origin r.label) groups, ∀ l ∈ p.2,
        HasLabel rules p.1 l := by
    intro rs
    induction rs with
    | nil => exact fun _ _ hg => hg
    | cons r rs ih =>
      intro groups hrs hg
      refine ih _ (fun r' hr' => hrs r' (List.mem_cons_of_mem _ hr')) fun p hp l hl => ?_
      rcases mem_of_mem_add hp hl with ⟨ls', hp', hl'⟩ | ⟨ho, hl'⟩
      · exact hg _ hp' l hl'
      · obtain ⟨hr, hm⟩ := hrs r (List.mem_cons_self ..)
        exact ⟨r, hr, hm, ho.symm, hl'.symm⟩
  refine hgroup _ [] (fun r hr => ?_) (fun _ hp => nomatch hp) (o, ls) h l hl
  obtain ⟨hr, hm⟩ := List.mem_filter.1 hr
  exact ⟨hr, by simpa using hm⟩

namespace SplicedGrammar

/-! ## Where rules come from -/

/-- A rule that was there, or the production that makes the origin of one the splice terminal of its label. -/
def ComesFrom (rules : List Rule) (g : SplicedGrammar) (r : Rule) : Prop :=
  r ∈ rules ∨ ∃ origin label terminal, HasLabel rules origin label ∧ g.terminalOf? label = some terminal ∧
    r.production = ⟨origin, [.terminal terminal]⟩

variable {rules : List Rule} {g h : SplicedGrammar}

theorem ComesFrom.mono {r : Rule} (hr : ComesFrom rules g r) (hgh : g.Extends h) : ComesFrom rules h r :=
  hr.imp_right fun ⟨origin, label, terminal, hl, ht, hp⟩ =>
    ⟨origin, label, terminal, hl, hgh.terminalOf _ _ ht, hp⟩

theorem rules_declare (g : SplicedGrammar) (label : String) : (g.declare label).2.rules = g.rules := by
  unfold declare
  split <;> rfl

/-- Allowing a label adds no rule but the one that it needs. -/
theorem mem_rules_allow {origin label : String} {order : Nat} {r : Rule}
    (hr : r ∈ (allow origin (g, order) label).1.rules) :
    r ∈ g.rules ∨ ∃ terminal, (allow origin (g, order) label).1.terminalOf? label = some terminal ∧
      r.production = ⟨origin, [.terminal terminal]⟩ := by
  obtain ⟨-, ht, -⟩ := g.declare_extends label
  rw [← g.rules_declare label]
  simp only [allow] at hr ⊢
  -- recording the label changes neither rules nor terminals
  generalize hk : (if (g.declare label).2.spliceTerminals.any (·.1 == label) then (g.declare label).2
    else { (g.declare label).2 with
      spliceTerminals := (g.declare label).2.spliceTerminals ++ [(label, (g.declare label).1)] }) = k at hr ⊢
  have hrules : k.rules = (g.declare label).2.rules := by rw [← hk]; split <;> rfl
  have hterminal : k.terminalOf? label = some (g.declare label).1 := by
    rw [← ht, ← hk]
    split <;> rfl
  split at hr
  · exact .inl (hrules ▸ hr)
  · rename_i hnew
    rw [if_neg hnew]
    rcases List.mem_append.1 hr with hr | hr
    · exact .inl (hrules ▸ hr)
    · rw [List.mem_singleton.1 hr]
      exact .inr ⟨_, hterminal, rfl⟩

theorem comesFrom_labels {origin : String} : ∀ (labels : List String) (g : SplicedGrammar) (order : Nat),
    g.Consistent → (∀ label ∈ labels, HasLabel rules origin label) → (∀ r ∈ g.rules, ComesFrom rules g r) →
      ∀ r ∈ (labels.foldl (allow origin) (g, order)).1.rules,
        ComesFrom rules (labels.foldl (allow origin) (g, order)).1 r
  | [], _, _, _, _, h => h
  | label :: labels, g, order, hg, hl, h => by
    obtain ⟨hext, hc, -⟩ := allow_extends hg origin order label
    refine comesFrom_labels labels _ _ hc (fun l hl' => hl l (List.mem_cons_of_mem _ hl')) fun r hr => ?_
    rcases mem_rules_allow hr with hr | ⟨terminal, ht, hp⟩
    · exact (h r hr).mono hext
    · exact .inr ⟨origin, label, terminal, hl label (List.mem_cons_self ..), ht, hp⟩

theorem comesFrom_groups (order : String → Nat) : ∀ (groups : List (String × List String)) (g : SplicedGrammar),
    g.Consistent → (∀ p ∈ groups, ∀ label ∈ p.2, HasLabel rules p.1 label) → (∀ r ∈ g.rules, ComesFrom rules g r) →
      ∀ r ∈ (groups.foldl (fun g p => (p.2.foldl (allow p.1) (g, order p.1)).1) g).rules,
        ComesFrom rules (groups.foldl (fun g p => (p.2.foldl (allow p.1) (g, order p.1)).1) g) r
  | [], _, _, _, h => h
  | p :: groups, g, hg, hl, h =>
    comesFrom_groups order groups _ (foldl_allow_extends p.1 p.2 g (order p.1) hg).2.1
      (fun q hq => hl q (List.mem_cons_of_mem _ hq))
      (comesFrom_labels p.2 g (order p.1) hg (hl p (List.mem_cons_self ..)) h)

variable {terminals : List Terminal}

/-- A rule of the extended grammar is one of the grammar, or makes an origin the splice terminal of its label. -/
theorem mem_rules_extend {r : Rule} (hr : r ∈ (extend rules terminals).rules) :
    r ∈ rules ∨ ∃ r' ∈ rules, ∃ terminal, (extend rules terminals).spliceTerminals.lookup r'.label = some terminal ∧
      r.production = ⟨r'.origin, [.terminal terminal]⟩ := by
  obtain ⟨-, hc⟩ := extend_extends rules terminals
  have hfrom : ComesFrom rules (extend rules terminals) r :=
    comesFrom_groups (nextOrder rules) (labelsByOrigin rules) { rules, terminals } (fun _ _ h => nomatch h)
      (fun p hp label hl => hasLabel_of_mem_labelsByOrigin hp hl) (fun _ => .inl) r hr
  refine hfrom.imp_right ?_
  rintro ⟨_, _, terminal, ⟨r', hr', hm, rfl, rfl⟩, ht, hp⟩
  obtain ⟨terminal', hl, -⟩ := extend_allows terminals hr' hm
  obtain rfl := Option.some.inj ((hc _ _ hl).symm.trans ht)
  exact ⟨r', hr', terminal', hl, hp⟩

/-! ## Forms and words -/

/-- What stands for a symbol in a word: a terminal for itself, and for a nonterminal the splice terminal of the label of
one of its rules. -/
inductive StandsFor (rules : List Rule) (g : SplicedGrammar) : Symbol → String → Prop
  | terminal (a : String) : StandsFor rules g (.terminal a) a
  | label {r : Rule} {a : String} (hr : r ∈ rules) (ha : g.spliceTerminals.lookup r.label = some a) :
    StandsFor rules g (.nonterminal r.origin) a

/-- A word that symbols yield in the extended grammar stands for a form that they derive in the grammar. -/
theorem exists_form_of_yields {ss : List Symbol} {word : List String}
    (hy : Yields (extend rules terminals).rules Eq ss word) :
    ∃ form, Derives rules ss form ∧ List.Forall₂ (StandsFor rules (extend rules terminals)) form word := by
  induction hy with
  | nil => exact ⟨[], .refl, .nil⟩
  | @terminal a t ss ts hat _ ih =>
    obtain ⟨form, hd, hw⟩ := ih
    subst hat
    exact ⟨.terminal a :: form, hd.append_left [.terminal a], .cons (.terminal a) hw⟩
  | @nonterminal r ss us ts hr hinner _ ih1 ih2 =>
    obtain ⟨form1, hd1, hw1⟩ := ih1
    obtain ⟨form2, hd2, hw2⟩ := ih2
    rcases mem_rules_extend hr with hr | ⟨r', hr', terminal, hl, hp⟩
    · -- a rule of the grammar: the form of its symbols takes the place of the nonterminal
      have hd : Derives rules [.nonterminal r.origin] form1 := .head (.of_rule hr) hd1
      exact ⟨form1 ++ form2, hd.append hd2, List.rel_append hw1 hw2⟩
    · -- a rule for splicing: the nonterminal itself stays in the form
      obtain ⟨ho, hs⟩ := Production.mk.inj hp
      obtain ⟨t, rfl, rfl⟩ := yields_terminal_iff.1 (hs ▸ hinner)
      rw [ho]
      exact ⟨.nonterminal r'.origin :: form2, hd2.append_left [.nonterminal r'.origin], .cons (.label hr' hl) hw2⟩

/-- In the extended grammar a form derives every word that stands for it. -/
theorem derives_of_standsFor (hm : ∀ r ∈ rules, r.options.forSplicing = false) {form : List Symbol}
    {word : List String} (hw : List.Forall₂ (StandsFor rules (extend rules terminals)) form word) :
    Derives (extend rules terminals).rules form (word.map .terminal) := by
  induction hw with
  | nil => exact .refl
  | @cons s a form word hs _ ih =>
    cases hs with
    | terminal => exact ih.append_left [.terminal a]
    | @label r _ hr ha =>
      obtain ⟨terminal, hl, r', hr', hp⟩ := extend_allows terminals hr (hm r hr)
      obtain rfl := Option.some.inj (hl.symm.trans ha)
      obtain ⟨ho, hs⟩ := Production.mk.inj hp
      have hstep : Derives (extend rules terminals).rules [.nonterminal r.origin] [.terminal terminal] := by
        rw [← ho, ← hs]
        exact .single (.of_rule hr')
      exact hstep.append ih

/-! ## Splice terminals -/

/-- In an extended grammar without terminals of trees before, the splice terminal of a label is a new terminal, and that
of no other label. -/
theorem splice_terminal_apart (hnames : (terminals.map (·.name)).Nodup)
    (htrees : ∀ t ∈ terminals, ∀ label, t.pattern ≠ .tree label) {label a : String}
    (ha : (extend rules terminals).spliceTerminals.lookup label = some a) :
    a ∉ terminals.map (·.name) ∧
      ∀ label', (extend rules terminals).spliceTerminals.lookup label' = some a → label' = label := by
  obtain ⟨hext, hc⟩ := extend_extends rules terminals
  obtain ⟨t, ht, rfl, hp⟩ := terminalOf?_eq_some (hc _ _ ha)
  refine ⟨fun hmem => ?_, fun label' hl' => ?_⟩
  · obtain ⟨t', ht', hn⟩ := List.mem_map.1 hmem
    rcases hext.fresh t ht with ht | hfresh
    · exact htrees t ht label hp
    · exact hfresh t' ht' hn
  · obtain ⟨t', ht', hn, hp'⟩ := terminalOf?_eq_some (hc _ _ hl')
    obtain rfl := List.inj_on_of_nodup_map (hext.nodup hnames) ht' ht hn
    exact Pattern.tree.inj (hp'.symm.trans hp)

/-- The words that a nonterminal derives in the extended grammar are those that stand for the forms it derives in the
grammar, where each label has a splice terminal of its own that is none of the grammar's terminals. -/
theorem derives_extend_iff (rules : List Rule) (terminals : List Terminal)
    (hm : ∀ r ∈ rules, r.options.forSplicing = false) (hnames : (terminals.map (·.name)).Nodup)
    (htrees : ∀ t ∈ terminals, ∀ label, t.pattern ≠ .tree label)
    (hused : ∀ r ∈ rules, ∀ a, .terminal a ∈ r.symbols → a ∈ terminals.map (·.name)) :
    (∀ n word, Derives (extend rules terminals).rules [.nonterminal n] (word.map .terminal) ↔
      ∃ form, Derives rules [.nonterminal n] form ∧
        List.Forall₂ (StandsFor rules (extend rules terminals)) form word) ∧
    ∀ r ∈ rules, ∃ a, (extend rules terminals).spliceTerminals.lookup r.label = some a ∧
      (∀ r' ∈ rules, .terminal a ∉ r'.symbols) ∧
      ∀ label, (extend rules terminals).spliceTerminals.lookup label = some a → label = r.label := by
  refine ⟨fun n word => ⟨fun hd => ?_, fun ⟨form, hd, hw⟩ => ?_⟩, fun r hr => ?_⟩
  · exact exists_form_of_yields (yields_iff_derives.2 ⟨word, hd, List.forall₂_same.2 fun _ _ => rfl⟩)
  · have hmono : Derives (extend rules terminals).rules [.nonterminal n] form :=
      Relation.ReflTransGen.mono (fun _ _ ⟨before, after, hr⟩ =>
        .mk before after ((extend_extends rules terminals).1.mem_rules hr)) _ _ hd
    exact hmono.trans (derives_of_standsFor hm hw)
  · obtain ⟨a, ha, -⟩ := extend_allows terminals hr (hm r hr)
    obtain ⟨hnew, honly⟩ := splice_terminal_apart hnames htrees ha
    exact ⟨a, ha, fun r' hr' hs => hnew (hused r' hr' a hs), honly⟩

/-- Two letters, with labels whose names fall together. -/
def letterPairs : List Rule :=
  [{ origin := "letter", parts := [⟨.terminal "X", false⟩], order := 0, nodeLabel := some "a-b" },
    { origin := "letter", parts := [⟨.terminal "Y", false⟩], order := 1, nodeLabel := some "a_b" },
    { origin := "pair", parts := [⟨.nonterminal "letter", false⟩, ⟨.nonterminal "letter", false⟩], order := 0 }]

/-- One of the terminals has the name of a splice terminal already. -/
def letterTerminals : List Terminal :=
  [⟨"X", .literal "x" "", 0⟩, ⟨"Y", .literal "y" "", 0⟩, ⟨"TREE__A_B", .literal "z" "", 0⟩]

/-- The second letter of a pair is spliced, by the numbered terminal of its label. -/
theorem derives_extend_letterPairs :
    Derives (extend letterPairs letterTerminals).rules [.nonterminal "pair"]
      [.terminal "X", .terminal "TREE__A_B_3"] := by
  have hpair : Derives letterPairs [.nonterminal "pair"] [.terminal "X", .nonterminal "letter"] :=
    .head (.of_rule (r := letterPairs[2]) (by decide))
      (.single (.mk [] [.nonterminal "letter"] (r := letterPairs[0]) (by decide)))
  refine ((derives_extend_iff letterPairs letterTerminals (by decide) (by decide) ?_ ?_).1 "pair"
    ["X", "TREE__A_B_3"]).2 ⟨_, hpair, ?_⟩
  · simp [letterTerminals]
  · simp [letterPairs, letterTerminals, Rule.symbols]
  · exact .cons (.terminal "X") (.cons (.label (r := letterPairs[1]) (by decide) (by decide +kernel)) .nil)

end SplicedGrammar

end GrammarKit
