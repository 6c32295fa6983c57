/-
Terminals of drafts. The declared terminals of a draft have names of their own, and so have the placeholders that its
rules add. Only the numbered names of literals are not compared with the others. So a terminal that has the name of an
earlier one is a literal, and a name that a terminal for text has is never meant for one of another kind.
-/
import GrammarKit.Proofs.Grammar.Items
import GrammarKit.Proofs.Names

namespace GrammarKit

/-- Terminals with the name of an earlier one are for text. -/
def NamedApart (terminals : List Terminal) : Prop :=
  terminals.Pairwise fun s t => s.name = t.name → t.pattern.isText = true

theorem NamedApart.of_nodup {terminals : List Terminal} (h : (terminals.map (·.name)).Nodup) : NamedApart terminals :=
  (List.pairwise_map.1 h).imp fun hne hname => absurd hname hne

theorem NamedApart.concat {terminals : List Terminal} (h : NamedApart terminals) {t : Terminal}
    (ht : t.pattern.isText = true ∨ ∀ s ∈ terminals, s.name ≠ t.name) : NamedApart (terminals ++ [t]) := by
  refine List.pairwise_append.2 ⟨h, List.pairwise_singleton _ _, fun s hs u hu hname => ?_⟩
  rw [List.mem_singleton.1 hu] at hname ⊢
  exact ht.resolve_right fun hne => hne s hs hname

namespace Resolution

variable {r r' : Resolution}

theorem namedApart_declare (h : NamedApart r.terminals) (t : Terminal) : NamedApart (r.declare t).terminals := by
  rw [declare]
  split
  · exact h
  · rename_i hany
    exact h.concat (.inr fun s hs hname => hany (List.any_eq_true.2 ⟨s, hs, by simp [hname]⟩))

theorem namedApart_literal (h : NamedApart r.terminals) (text : String) (keepAll : Bool) :
    NamedApart (r.literal text keepAll).2.terminals := by
  obtain ⟨-, -, -, -, heq⟩ | ⟨-, -, heq⟩ := r.literal_cases text keepAll
  · rw [heq]
    exact h
  · rw [heq]
    exact h.concat (.inl rfl)

theorem namedApart_item {keepAll : Bool} {i : String} {part : Part} (hi : r.item keepAll i = .ok (part, r'))
    (h : NamedApart r.terminals) : NamedApart r'.terminals := by
  obtain ⟨text, -, -, rfl⟩ | ⟨-, -, -, rfl⟩ | ⟨-, rfl⟩ := item_cases hi
  · exact namedApart_literal h text keepAll
  · exact namedApart_declare h _
  · exact h

theorem namedApart_items {keepAll : Bool} : ∀ {is : List String} {r r' : Resolution} {parts : List Part},
    r.items keepAll is = .ok (parts, r') → NamedApart r.terminals → NamedApart r'.terminals
  | [], _, _, _, hi, h => by
    cases hi
    exact h
  | _ :: _, _, _, _, hi, h => by
    obtain ⟨_, _, _, -, hitem, hitems⟩ := items_cons hi
    exact namedApart_items hitems (namedApart_item hitem h)

theorem namedApart_rules : ∀ {ds : List RuleDraft} {r r' : Resolution} {before rs : List Rule},
    rules r before ds = .ok (rs, r') → NamedApart r.terminals → NamedApart r'.terminals
  | [], _, _, _, _, hr, h => by
    cases hr
    exact h
  | _ :: _, _, _, _, _, hr, h => by
    obtain ⟨_, _, hitems, -, -, -, hrest⟩ := rules_cons hr
    exact namedApart_rules hrest (namedApart_items hitems h)

end Resolution

/-- Declared terminals have names of their own, and each is there under its name and with its pattern. -/
theorem declaredTerminals_spec : ∀ {ts seen out : List Terminal}, declaredTerminals seen ts = .ok out →
    (seen.map (·.name)).Nodup → (out.map (·.name)).Nodup ∧ seen ⊆ out ∧ (∀ t ∈ out, t ∈ seen ∨ t ∈ ts) ∧
      ∀ t ∈ ts, ∃ s ∈ out, s.name = t.name ∧ s.pattern = t.pattern
  | [], _, _, hd, h => by
    cases hd
    exact ⟨h, fun _ => id, fun _ => .inl, fun _ ht => nomatch ht⟩
  | t :: ts, seen, out, hd, h => by
    rw [declaredTerminals] at hd
    split at hd
    · rename_i s hs
      have hname : s.name = t.name := by simpa using List.find?_some hs
      split at hd
      · rename_i hp
        obtain ⟨h1, h2, h3, h4⟩ := declaredTerminals_spec hd h
        refine ⟨h1, h2, fun u hu => (h3 u hu).imp_right (List.mem_cons_of_mem _), ?_⟩
        exact List.forall_mem_cons.2 ⟨⟨s, h2 (List.mem_of_find?_eq_some hs), hname, hp⟩, h4⟩
      · cases hd
    · rename_i hnone
      have hnew : t.name ∉ seen.map (·.name) := by simpa using hnone
      obtain ⟨h1, h2, h3, h4⟩ := declaredTerminals_spec hd (nodup_map_concat h hnew)
      refine ⟨h1, fun u hu => h2 (List.mem_append_left _ hu), fun u hu => ?_, ?_⟩
      · rcases h3 u hu with hu | hu
        · rcases List.mem_append.1 hu with hu | hu
          · exact .inl hu
          · exact .inr (List.mem_singleton.1 hu ▸ List.mem_cons_self ..)
        · exact .inr (List.mem_cons_of_mem _ hu)
      · exact List.forall_mem_cons.2
          ⟨⟨t, h2 (List.mem_append_right _ (List.mem_singleton_self _)), rfl, rfl⟩, h4⟩

/-- In a grammar that was built from a draft, a terminal with the name of an earlier one is a literal. -/
theorem GrammarDraft.namedApart_build {d : GrammarDraft} {g : Grammar} (h : d.build = .ok g) :
    NamedApart g.terminals := by
  obtain ⟨declared, hdeclared, h⟩ := bind_eq_ok.1 h
  obtain ⟨⟨rules, r⟩, hrules, h⟩ := bind_eq_ok.1 h
  dsimp only at h
  split at h
  · cases h
  · cases h
    exact Resolution.namedApart_rules hrules (.of_nodup (declaredTerminals_spec hdeclared .nil).1)

end GrammarKit
