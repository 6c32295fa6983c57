/-
Places do not count. Tokens that a match cannot tell apart are charted alike, so the same derivation is read off with the
one or the other. Of values, places are never compared, and no action of a rule looks at the places of its children. So
a list of tokens is parsed to the same value wherever its tokens are from.
-/
import GrammarKit.Grammar.Splicing
import GrammarKit.Proofs.Earley.Mirror
import GrammarKit.Proofs.Grammar.Shaping
import GrammarKit.Proofs.Scan.Lexed

namespace GrammarKit

variable {φ : Child → Child}

/-! ## Actions -/

/-- An action that gives values of which the same is left, if the same is left of the children. -/
def Action.Respects (φ : Child → Child) (act : Action) : Prop :=
  ∀ us vs : List Child, us.map φ = vs.map φ → φ (act us) = φ (act vs)

theorem Rule.respects_plain (hφ : Child.Strips φ) (r : Rule) : Action.Respects φ r.plain := by
  intro us vs h
  rw [plain, plain, hφ.tree, hφ.tree, h]

theorem SplicedGrammar.respects_passThrough (hφ : Child.Strips φ) : Action.Respects φ passThrough := by
  intro us vs h
  have hlen : us.length = vs.length := by simpa using congrArg List.length h
  by_cases hone : vs.length = 1
  · obtain ⟨u, rfl⟩ := List.length_eq_one_iff.1 (hlen.trans hone)
    obtain ⟨v, rfl⟩ := List.length_eq_one_iff.1 hone
    simpa [passThrough] using h
  · have hnode : ∀ ws : List Child, ws.length ≠ 1 → passThrough ws = .tree ⟨"_splice", ws, none⟩ := fun ws hws => by
      unfold passThrough
      split
      · exact absurd rfl hws
      · rfl
    rw [hnode us (hlen ▸ hone), hnode vs hone, hφ.tree, hφ.tree, h]

namespace Actions

/-- Actions that all give values of which the same is left. -/
def Respect (φ : Child → Child) (a : Actions) : Prop := ∀ e ∈ a.entries, Action.Respects φ e.2

variable {a : Actions}

theorem Respect.apply (hφ : Child.Strips φ) (h : a.Respect φ) (r : Rule) : Action.Respects φ (a.apply r) := by
  rw [Actions.apply, find?]
  cases hact : a.entries.lookup r.production with
  | none => exact r.respects_plain hφ
  | some act =>
    obtain ⟨_, _, hentries, -⟩ := List.lookup_eq_some_iff.1 hact
    exact h (r.production, act) (hentries ▸ List.mem_append_right _ (List.mem_cons_self ..))

theorem Respect.insert (h : a.Respect φ) (r : Rule) {act : Action} (hact : Action.Respects φ act) :
    (a.insert r act).Respect φ := by
  unfold Actions.insert
  split
  · intro e he
    obtain ⟨e', he', rfl⟩ := List.mem_map.1 he
    split
    · exact hact
    · exact h e' he'
  · intro e he
    rcases List.mem_append.1 he with he | he
    · exact h e he
    · exact List.mem_singleton.1 he ▸ hact

theorem Respect.foldl_insert {act : Rule → Action} (hact : ∀ r, Action.Respects φ (act r)) :
    ∀ (rules : List Rule) {a : Actions}, a.Respect φ → (rules.foldl (fun a r => a.insert r (act r)) a).Respect φ
  | [], _, h => h
  | r :: rules, _, h => foldl_insert hact rules (h.insert r (hact r))

/-- Shaping, without actions of a program, does not look at places, and neither do the rules for splicing. -/
theorem respect_extended (hφ : Child.Strips φ) {s : Shaping} (hs : s.actions = []) (g : SplicedGrammar)
    (rules : List Rule) : (g.addActions (s.ofRules rules)).Respect φ := by
  have hshaped : ∀ r, Action.Respects φ (s.action r) := fun r us vs h => Shaping.action_congr hs hφ h
  have hrules : (s.ofRules rules).Respect φ := Respect.foldl_insert hshaped rules fun _ he => (nomatch he)
  exact Respect.foldl_insert (fun _ => SplicedGrammar.respects_passThrough hφ) _ hrules

end Actions

namespace Earley

/-! ## Values -/

theorem map_distinctChildren (hφ : Child.Strips φ) (values : List Child) :
    (distinctChildren values).map φ = distinctChildren (values.map φ) := by
  suffices h : ∀ kept : List Child,
      (values.foldl (fun kept v => if kept.any (·.same v) then kept else kept ++ [v]) kept).map φ =
        (values.map φ).foldl (fun kept v => if kept.any (·.same v) then kept else kept ++ [v]) (kept.map φ) from h []
  induction values with
  | nil => exact fun _ => rfl
  | cons v values ih =>
    intro kept
    have hany : (kept.map φ).any (·.same (φ v)) = kept.any (·.same v) := by
      rw [List.any_map]
      exact congrArg kept.any (funext fun u => hφ.same_eq u v)
    rw [List.foldl_cons, ih, List.map_cons, List.foldl_cons, hany]
    split
    · rfl
    · rw [List.map_append, List.map_singleton]

theorem strip_joinAlternatives (hφ : Child.Strips φ) (values : List Child) :
    φ (joinAlternatives values) = joinAlternatives (values.map φ) := by
  rw [joinAlternatives, joinAlternatives, ← map_distinctChildren hφ]
  rcases distinctChildren values with _ | ⟨v, _ | ⟨w, rest⟩⟩
  · exact hφ.tree ..
  · rfl
  · exact hφ.tree ..

/-- A change of tokens that neither values nor actions show. -/
structure Unseen (φ : Child → Child) (f : Token → Token) (a : Actions) : Prop where
  strips : Child.Strips φ
  token : ∀ t, φ (.token (f t)) = φ (.token t)
  actions : a.Respect φ

namespace Unseen

variable {f : Token → Token} {a : Actions}

mutual

theorem strip_build (h : Unseen φ f a) : ∀ p : Packed, φ ((p.mapTokens f).build a) = φ (p.build a)
  | .token t => by rw [Packed.mapTokens, Packed.build, Packed.build, h.token]
  | .node ways => by
    rw [Packed.mapTokens, Packed.build, Packed.build, strip_joinAlternatives h.strips,
      strip_joinAlternatives h.strips, h.strip_buildWays ways]

theorem strip_buildWay (h : Unseen φ f a) : ∀ w : Way, φ ((w.mapTokens f).build a) = φ (w.build a)
  | .mk r parts => by
    rw [Way.mapTokens, Way.build, Way.build]
    exact h.actions.apply h.strips r _ _ (h.strip_buildAll parts)

theorem strip_buildWays (h : Unseen φ f a) : ∀ ws : List Way,
    (Way.buildAll a (Way.mapTokensAll f ws)).map φ = (Way.buildAll a ws).map φ
  | [] => by rw [Way.mapTokensAll]
  | w :: ws => by
    rw [Way.mapTokensAll, Way.buildAll, Way.buildAll, List.map_cons, List.map_cons, h.strip_buildWay w,
      h.strip_buildWays ws]

theorem strip_buildAll (h : Unseen φ f a) : ∀ ps : List Packed,
    (Packed.buildAll a (Packed.mapTokensAll f ps)).map φ = (Packed.buildAll a ps).map φ
  | [] => by rw [Packed.mapTokensAll]
  | p :: ps => by
    rw [Packed.mapTokensAll, Packed.buildAll, Packed.buildAll, List.map_cons, List.map_cons, h.strip_build p,
      h.strip_buildAll ps]

end

end Unseen

/-! ## Charts -/

namespace Chart

/-- A chart with its tokens changed. -/
def mapTokens (f : Token → Token) (c : Chart) : Chart :=
  { c with scans := c.scans.map fun s => { s with token := f s.token } }

variable {f : Token → Token} {matches? : TokenMatch} (hm : ∀ a t, matches? a (f t) = matches? a t)

theorem mirrors_mapTokens (c : Chart) : Mirrors f c (c.mapTokens f) where
  stop := rfl
  tokens j k a := by
    rw [token?, token?, mapTokens, List.find?_map, Option.map_map, Option.map_map]
    rfl
  ends := rfl
  candidates := rfl
  completed _ _ _ := rfl
  contains _ _ _ _ _ _ := rfl
  goalCount := le_rfl

section Scan

include hm

/-- A token is read as what it is changed to. -/
theorem scan_mapTokens (c : Chart) (t : Token) :
    ((c.mapTokens f).scan matches? (f t)).toOption = (c.scan matches? t).toOption.map (mapTokens f) := by
  have hfilter : ((c.mapTokens f).grammar.waiting (c.mapTokens f).last).filterM (fun x => matches? x.2 (f t)) =
      (c.grammar.waiting c.last).filterM (fun x => matches? x.2 t) := by
    simp only [hm]
    rfl
  rw [scan, scan, hfilter]
  cases (c.grammar.waiting c.last).filterM fun x => matches? x.2 t with
  | error e => rfl
  | ok taken =>
    simp only [bind, Except.bind]
    by_cases hempty : taken.isEmpty = true
    · rw [if_pos hempty, if_pos hempty]
      rfl
    · rw [if_neg hempty, if_neg hempty]
      simp [mapTokens, stop, pure, Except.pure, Except.toOption]

omit hm in
theorem toOption_scanAll_cons (c : Chart) (t : Token) (ts : List Token) :
    (c.scanAll matches? (Listed.ofTokens (t :: ts))).toOption =
      (c.scan matches? t).toOption.bind fun c => (c.scanAll matches? (Listed.ofTokens ts)).toOption := by
  rw [scanAll_cons]
  cases c.scan matches? t <;> rfl

theorem scanAll_mapTokens : ∀ (ts : List Token) (c : Chart),
    ((c.mapTokens f).scanAll matches? (Listed.ofTokens (ts.map f))).toOption =
      (c.scanAll matches? (Listed.ofTokens ts)).toOption.map (mapTokens f)
  | [], c => by
    rw [List.map_nil, scanAll_nil, scanAll_nil]
    rfl
  | t :: ts, c => by
    rw [List.map_cons, toOption_scanAll_cons, toOption_scanAll_cons, scan_mapTokens hm, Option.bind_map,
      Option.map_bind]
    exact congrArg _ (funext fun c' => scanAll_mapTokens ts c')

theorem ofTokens_mapTokens (g : ChartRules) (start : String) (ts : List Token) :
    (ofTokens g matches? (Listed.ofTokens (ts.map f)) start).toOption =
      (ofTokens g matches? (Listed.ofTokens ts) start).toOption.map (mapTokens f) := by
  rw [ofTokens, ofTokens]
  cases hstart : Chart.start g start with
  | error e => rfl
  | ok c =>
    -- no token is read yet
    have hc : c.mapTokens f = c := by
      obtain ⟨seeds, -, hc⟩ := bind_eq_ok.1 hstart
      cases hc
      rfl
    have hscan := scanAll_mapTokens hm ts c
    rwa [hc] at hscan

end Scan

end Chart

/-! ## Parses -/

namespace Parser

variable {p : Parser} {start : String}

theorem toOption_parse {σ : Type} [TokenSource σ] (source : σ) : (p.parse source start).toOption =
    (Chart.ofTokens p.grammar p.matches? source start).toOption.bind fun c =>
      if c.accepts start then (c.derivation? p.options.ambiguity start).map (Packed.build p.actions) else none := by
  rw [parse_eq]
  cases Chart.ofTokens p.grammar p.matches? source start with
  | error e => rfl
  | ok c =>
    change (if c.accepts start then _ else _ : Outcome Child).toOption = if c.accepts start then _ else _
    split
    · rw [Chart.value_eq]
      cases c.derivation? p.options.ambiguity start <;> rfl
    · rfl

/-- Tokens that are changed unseen are parsed to a value of which the same is left. -/
theorem strip_parse {f : Token → Token} (h : Unseen φ f p.actions) (hf : f default = default)
    (hm : ∀ a t, p.matches? a (f t) = p.matches? a t) (ts : List Token) :
    (p.parse (Listed.ofTokens (ts.map f)) start).toOption.map φ =
      (p.parse (Listed.ofTokens ts) start).toOption.map φ := by
  rw [toOption_parse, toOption_parse, Chart.ofTokens_mapTokens hm, Option.bind_map, Option.map_bind, Option.map_bind]
  refine congrArg _ (funext fun c => ?_)
  simp only [Function.comp_apply]
  rw [(c.mirrors_mapTokens).derivation?_eq hf, Option.map_map]
  change Option.map φ (if c.accepts start then _ else _) = _
  split
  · rw [Option.map_map, Option.map_map]
    exact congrArg (Option.map · _) (funext h.strip_build)
  · rfl

theorem parse_error_of_drain {σ : Type} [TokenSource σ] {s : σ} {failure : Failure}
    (h : (TokenSource.drain s).2.1 = some failure) : ∃ e, p.parse s start = .error e := by
  cases hv : p.parse s start with
  | error e => exact ⟨e, rfl⟩
  | ok v =>
    rw [((p.parse_source_eq_ok).1 hv).1] at h
    cases h

/-- Two sources with such tokens, that end alike, are parsed to values of which the same is left. -/
theorem strip_parse_source {σ τ : Type} [TokenSource σ] [TokenSource τ] {f : Token → Token} (h : Unseen φ f p.actions)
    (hf : f default = default) (hm : ∀ a t, p.matches? a (f t) = p.matches? a t) {s : σ} {s' : τ}
    (htokens : (TokenSource.drain s').1 = (TokenSource.drain s).1.map f)
    (hend : (TokenSource.drain s').2.1 = (TokenSource.drain s).2.1) :
    (p.parse s' start).toOption.map φ = (p.parse s start).toOption.map φ := by
  cases hs : (TokenSource.drain s).2.1 with
  | none => rw [p.parse_drain hs, p.parse_drain (hend.trans hs), htokens, strip_parse h hf hm]
  | some failure =>
    obtain ⟨e, he⟩ := p.parse_error_of_drain hs
    obtain ⟨e', he'⟩ := p.parse_error_of_drain (hend.trans hs)
    rw [he, he']
    rfl

end Parser

end Earley

end GrammarKit
