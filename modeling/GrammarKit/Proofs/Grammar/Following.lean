/-
What can follow a nonterminal, and with it all sets of a grammar. The rules by which followers are handed on are stated
once as they are usually given: the end of the input follows a start symbol, what comes first after an occurrence
follows it, and what follows an origin follows what stands at its end. The computed sets hold exactly what these rules
give, and that is exactly what stands right after the nonterminal in forms that are derived.
-/
import GrammarKit.Proofs.Grammar.Continuation
import GrammarKit.Proofs.Grammar.Productive
import GrammarKit.Proofs.Grammar.Restless
import GrammarKit.Proofs.Grammar.Sets

namespace GrammarKit

variable {rules : List Rule} {start : List String}

/-! ## Followers -/

/-- What follows a nonterminal: a terminal, or the end of the input. -/
inductive Follows (rules : List Rule) (start : List String) : String → String → Prop
  | endOfInput {s : String} (h : s ∈ start) : Follows rules start s endMarker
  | first {r : Rule} {before rest : List Symbol} {n a : String} (hr : r ∈ rules)
    (hs : r.symbols = before ++ .nonterminal n :: rest)
    (ha : a ∈ ((GrammarSets.ofRules rules start).firstOfSequence rest).1) : Follows rules start n a
  | origin {r : Rule} {before rest : List Symbol} {n a : String} (hr : r ∈ rules)
    (hs : r.symbols = before ++ .nonterminal n :: rest) (hrest : allNullable (nullableNames rules) rest = true)
    (h : Follows rules start r.origin a) : Follows rules start n a

/-- What stands beside a nonterminal in a form that the origin of a rule or a start symbol derives follows it, and if it
is nullable, so does all that follows the origin. -/
theorem Derives.follows {x : String} {form : List Symbol} (h : Derives rules [.nonterminal x] form) :
    ∀ {before after : List Symbol} {n : String}, form = before ++ .nonterminal n :: after →
      (∀ a ∈ ((GrammarSets.ofRules rules start).firstOfSequence after).1, Follows rules start n a) ∧
        (allNullable (nullableNames rules) after = true → ∀ a, Follows rules start x a → Follows rules start n a) := by
  induction h with
  | refl =>
    intro before after n hf
    cases before with
    | nil =>
      cases hf
      exact ⟨fun a ha => (nomatch ha), fun _ _ => id⟩
    | cons _ _ => simp at hf
  | tail _ hstep ih =>
    intro before after n hf
    cases hstep with
    | @mk p q r hr =>
      -- the nonterminal stands before the rewritten place, inside what replaced it, or after it
      rcases append_eq_append_cons hf with ⟨m, rfl, rfl⟩ | ⟨m, rfl, hm⟩
      · obtain ⟨hfirst, hnull⟩ := ih (List.append_assoc ..)
        have hback : Rewrites rules (m ++ .nonterminal r.origin :: q) (m ++ (r.symbols ++ q)) := .mk m q hr
        refine ⟨fun a ha => hfirst a (GrammarSets.first_of_rewrites hback ha), fun hn => hnull ?_⟩
        exact allNullable_iff_derives.2 (.head hback (allNullable_iff_derives.1 hn))
      · rcases append_eq_append_cons hm with ⟨k, hk, rfl⟩ | ⟨k, rfl, rfl⟩
        · obtain ⟨hfirst, hnull⟩ := ih rfl
          refine ⟨fun a ha => ?_, fun hn a ha => ?_⟩
          · rcases GrammarSets.mem_firstOfSequence_append.1 ha with ha | ⟨hnk, ha⟩
            · exact .first hr hk ha
            · exact .origin hr hk hnk (hfirst a ha)
          · rw [allNullable_append, Bool.and_eq_true] at hn
            exact .origin hr hk hn.1 (hnull hn.2 a ha)
        · exact @ih (p ++ .nonterminal r.origin :: k) after n (by simp)

/-- What follows a nonterminal stands right after it in a form that the origin of a rule derives; the end of the input
comes after it where a start symbol derives a form with it at the end. -/
theorem Follows.derives {n a : String} (h : Follows rules start n a) :
    (a = endMarker ∧ ∃ s ∈ start, ∃ before, Derives rules [.nonterminal s] (before ++ [.nonterminal n])) ∨
      ∃ r ∈ rules, ∃ before after,
        Derives rules [.nonterminal r.origin] (before ++ .nonterminal n :: .terminal a :: after) := by
  induction h with
  | endOfInput h => exact .inl ⟨rfl, _, h, [], .refl⟩
  | @first r before rest n a hr hs ha =>
    obtain ⟨after, hd⟩ := GrammarSets.mem_firstOfSequence_iff.1 ha
    have hrest : Derives rules r.symbols (before ++ .nonterminal n :: .terminal a :: after) := by
      simpa [hs] using (hd.append_left [.nonterminal n]).append_left before
    exact .inr ⟨r, hr, before, after, .head (.of_rule hr) hrest⟩
  | @origin r before rest n a hr hs hrest _ ih =>
    -- the origin gives way to the symbols of the rule, and what stands after the nonterminal to nothing
    have hsymbols : Derives rules r.symbols (before ++ [.nonterminal n]) := by
      simpa [hs] using ((allNullable_iff_derives.1 hrest).append_left [.nonterminal n]).append_left before
    have hinner : Derives rules [.nonterminal r.origin] (before ++ [.nonterminal n]) := .head (.of_rule hr) hsymbols
    rcases ih with ⟨rfl, s, hs, outer, hd⟩ | ⟨r', hr', outer, after, hd⟩
    · refine .inl ⟨rfl, s, hs, outer ++ before, ?_⟩
      rw [List.append_assoc]
      exact hd.trans (hinner.append_left outer)
    · refine .inr ⟨r', hr', outer ++ before, after, ?_⟩
      have hnext := (hinner.append_right (.terminal a :: after)).append_left outer
      simp only [List.append_assoc, List.singleton_append] at hnext ⊢
      exact hd.trans hnext

/-! ## The computed sets -/

namespace GrammarSets

/-- Where a nonterminal stands, all that the place gives it follows it. -/
def HandedOn (g : FirstSets) (follows : NamedSets) (o : Occurrence) : Prop :=
  ∀ a ∈ (g.firstOfSequence o.rest).1 ++ (if (g.firstOfSequence o.rest).2 then follows.setOf o.origin else []),
    a ∈ follows.setOf o.name

theorem handedOn_of_quiet {g : FirstSets} {follows : NamedSets} {o : Occurrence} (h : (handOn g follows o).2 = false) :
    HandedOn g follows o ∧ (handOn g follows o).1.setOf = follows.setOf := NamedSets.setOf_of_quiet h

/-- When the rounds have come to an end, everything is handed on. -/
theorem handedOn_ofRules (rules : List Rule) (start : List String) :
    ∀ o ∈ occurrences rules, HandedOn (.ofRules rules) (ofRules rules start).follows o :=
  whileChanged_settled (P := HandedOn (.ofRules rules)) (fun _ _ h => (handedOn_of_quiet h).1)
    (fun _ _ h _ ho => by
      unfold HandedOn
      rwa [(handedOn_of_quiet h).2]) _ _ _

/-- The end of the input goes on following the start symbols. -/
theorem endMarker_mem_follows {s : String} (hs : s ∈ start) : endMarker ∈ (ofRules rules start).follows.setOf s :=
  whileChanged_induction (P := fun (follows : NamedSets) => endMarker ∈ follows.setOf s)
    (fun _ _ h _ _ => NamedSets.mem_setOf_add.2 (.inl h)) _ _ (mem_initialFollows.2 ⟨hs, rfl⟩)

/-- All that is handed on follows. -/
theorem follows_of_mem {n a : String} : a ∈ (ofRules rules start).follows.setOf n → Follows rules start n a := by
  refine whileChanged_induction (P := fun (follows : NamedSets) => ∀ {n a}, a ∈ follows.setOf n → Follows rules start n a)
    (fun follows _ hfollows o ho n a ha => ?_) _ _ (fun ha => ?_)
  · obtain ⟨r, hr, horigin, before, hs⟩ := mem_occurrences.1 ho
    rcases NamedSets.mem_setOf_add.1 ha with hold | ⟨rfl, hnew⟩
    · exact hfollows hold
    · rcases List.mem_append.1 hnew with hfirst | hlast
      · exact .first hr hs hfirst
      · split at hlast
        · rename_i hnull
          rw [FirstSets.firstOfSequence_snd] at hnull
          exact .origin hr hs hnull (horigin ▸ hfollows hlast)
        · cases hlast
  · obtain ⟨hn, rfl⟩ := mem_initialFollows.1 ha
    exact .endOfInput hn

/-- The set of what follows a nonterminal is the least that the rules of handing on allow. -/
theorem mem_follow?_iff_follows {n a : String} :
    a ∈ ((ofRules rules start).follow? n).getD [] ↔ Follows rules start n a := by
  refine ⟨follows_of_mem, fun h => ?_⟩
  have hplace : ∀ {r : Rule} {before rest : List Symbol} {n : String}, r ∈ rules →
      r.symbols = before ++ .nonterminal n :: rest →
      HandedOn (.ofRules rules) (ofRules rules start).follows ⟨r.origin, n, rest⟩ := fun hr hs =>
    handedOn_ofRules rules start _ (mem_occurrences.2 ⟨_, hr, rfl, _, hs⟩)
  induction h with
  | endOfInput h => exact endMarker_mem_follows h
  | first hr hs ha => exact hplace hr hs _ (List.mem_append_left _ ha)
  | origin hr hs hrest _ ih =>
    have hnull := (FirstSets.firstOfSequence_snd (.ofRules _) _).trans hrest
    refine hplace hr hs _ (List.mem_append_right _ ?_)
    rw [if_pos hnull]
    exact ih

/-- A terminal follows a nonterminal if it stands right after it in a form that the origin of a rule derives. -/
theorem mem_follow?_iff {n a : String} (ha : a ≠ endMarker) : a ∈ ((ofRules rules start).follow? n).getD [] ↔
    ∃ r ∈ rules, ∃ before after,
      Derives rules [.nonterminal r.origin] (before ++ .nonterminal n :: .terminal a :: after) := by
  rw [mem_follow?_iff_follows]
  constructor
  · exact fun h => h.derives.resolve_left fun h => ha h.1
  · rintro ⟨r, hr, before, after, hd⟩
    exact (hd.follows rfl).1 a (mem_firstOfSequence_iff.2 ⟨after, .refl⟩)

/-- The end of the input follows a nonterminal if a start symbol derives a form that ends with it. -/
theorem endMarker_mem_follow?_iff {n : String} (h : ∀ r ∈ rules, .terminal endMarker ∉ r.symbols) :
    endMarker ∈ ((ofRules rules start).follow? n).getD [] ↔
      ∃ s ∈ start, ∃ before, Derives rules [.nonterminal s] (before ++ [.nonterminal n]) := by
  rw [mem_follow?_iff_follows]
  constructor
  · intro hf
    rcases hf.derives with ⟨-, h⟩ | ⟨r, -, before, after, hd⟩
    · exact h
    · -- no form holds a terminal that no rule brings in
      have hmem := (mem_of_derives hd (.terminal endMarker) (by simp)).resolve_left (by simp)
      obtain ⟨r, hr, hs⟩ := hmem
      exact absurd hs (h r hr)
  · rintro ⟨s, hs, before, hd⟩
    exact (hd.follows rfl).2 rfl endMarker (.endOfInput hs)

theorem mem_first?_iff {n a : String} : a ∈ ((ofRules rules start).first? n).getD [] ↔
    ∃ rest, Derives rules [.nonterminal n] (.terminal a :: rest) := by
  have hseq : a ∈ ((ofRules rules start).firstOfSequence [.nonterminal n]).1 ↔ _ := mem_firstOfSequence_iff
  rw [← hseq, FirstSets.mem_firstOfSequence_nonterminal]
  exact ⟨.inl, fun h => h.resolve_right fun h => (nomatch h.2)⟩

/-- The sets of a grammar are exact. A nonterminal is nullable if it derives nothing, its first terminals begin the forms
that it derives, and what follows it stands right after it in forms of the rules' origins, or is the end of the input
where it ends a form of a start symbol; for a sequence of symbols the first terminals are likewise those that begin its
forms, and it is nullable if it derives nothing. -/
theorem sets_exact (rules : List Rule) (start : List String) (h : ∀ r ∈ rules, .terminal endMarker ∉ r.symbols) :
    (∀ n, (ofRules rules start).isNullable (.nonterminal n) = true ↔ Derives rules [.nonterminal n] []) ∧
    (∀ n a, a ∈ ((ofRules rules start).first? n).getD [] ↔
      ∃ rest, Derives rules [.nonterminal n] (.terminal a :: rest)) ∧
    (∀ n a, a ≠ endMarker → (a ∈ ((ofRules rules start).follow? n).getD [] ↔ ∃ r ∈ rules, ∃ before after,
      Derives rules [.nonterminal r.origin] (before ++ .nonterminal n :: .terminal a :: after))) ∧
    (∀ n, endMarker ∈ ((ofRules rules start).follow? n).getD [] ↔
      ∃ s ∈ start, ∃ before, Derives rules [.nonterminal s] (before ++ [.nonterminal n])) ∧
    ∀ symbols, (∀ a, a ∈ ((ofRules rules start).firstOfSequence symbols).1 ↔
        ∃ rest, Derives rules symbols (.terminal a :: rest)) ∧
      (((ofRules rules start).firstOfSequence symbols).2 = true ↔ Derives rules symbols []) := by
  refine ⟨fun n => ?_, fun n a => mem_first?_iff, fun n a ha => mem_follow?_iff ha,
    fun n => endMarker_mem_follow?_iff h, fun symbols => ⟨fun a => mem_firstOfSequence_iff, ?_⟩⟩
  · rw [← allNullable_iff_derives, allNullable_nonterminal]
    exact ⟨fun h => ⟨List.contains_iff_mem.1 h, rfl⟩, fun h => List.contains_iff_mem.2 h.1⟩
  · rw [firstOfSequence_snd, allNullable_iff_derives]

/-- A letter that may be missing stands between two nonterminals, the second of which is left-recursive and may be
nothing. -/
def optionalEnd : List Rule :=
  [⟨"s", [⟨.nonterminal "a", false⟩, ⟨.nonterminal "b", false⟩, ⟨.nonterminal "c", false⟩], 0, none, {}⟩,
   ⟨"a", [⟨.terminal "x", false⟩], 0, none, {}⟩, ⟨"b", [⟨.terminal "y", false⟩], 0, none, {}⟩, ⟨"b", [], 1, none, {}⟩,
   ⟨"c", [⟨.nonterminal "c", false⟩, ⟨.terminal "z", false⟩], 0, none, {}⟩, ⟨"c", [], 1, none, {}⟩]

/-- Over the missing letter, what begins the second nonterminal follows the first, and so does the end of the input. -/
theorem sets_exact_optionalEnd : (∀ r ∈ optionalEnd, .terminal endMarker ∉ r.symbols) ∧
    "z" ∈ ((ofRules optionalEnd ["s"]).follow? "a").getD [] ∧
    endMarker ∈ ((ofRules optionalEnd ["s"]).follow? "a").getD [] := by
  have hend : ∀ r ∈ optionalEnd, .terminal endMarker ∉ r.symbols := by
    simp [optionalEnd, Rule.symbols, endMarker]
  have hs : Derives optionalEnd [.nonterminal "s"] [.nonterminal "a", .nonterminal "b", .nonterminal "c"] :=
    .single (.of_rule (r := optionalEnd[0]) (by simp [optionalEnd]))
  have hb : Derives optionalEnd [.nonterminal "b"] [] := .single (.of_rule (r := optionalEnd[3]) (by simp [optionalEnd]))
  have hc : Derives optionalEnd [.nonterminal "c"] [] := .single (.of_rule (r := optionalEnd[5]) (by simp [optionalEnd]))
  have hz : Derives optionalEnd [.nonterminal "c"] [.nonterminal "c", .terminal "z"] :=
    .single (.of_rule (r := optionalEnd[4]) (by simp [optionalEnd]))
  have hacz : Derives optionalEnd [.nonterminal "s"] [.nonterminal "a", .terminal "z"] :=
    hs.trans (((hb.append (hz.trans (hc.append_right [.terminal "z"]))).append_left [.nonterminal "a"]))
  obtain ⟨-, -, hfollow, hatEnd, -⟩ := sets_exact optionalEnd ["s"] hend
  exact ⟨hend, (hfollow "a" "z" (by decide)).2 ⟨optionalEnd[0], by simp [optionalEnd], [], [], hacz⟩,
    (hatEnd "a").2 ⟨"s", by simp, [], hs.trans ((hb.append hc).append_left [.nonterminal "a"])⟩⟩

end GrammarSets

end GrammarKit
