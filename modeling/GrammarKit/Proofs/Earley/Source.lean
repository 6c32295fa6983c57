/-
Charts of sources, and matches that may fail. A chart reads a source as it reads the list of the source's tokens, and
the end of the chart comes with the first failure of the source. Where the match fails for a terminal that may come
next, the parse ends with a failure of the match; everywhere else the match can be taken for one that decides.
-/
import GrammarKit.Proofs.Earley.Recognition

namespace GrammarKit.Earley

/-! ## Filters that may fail -/

section Filter

variable {α : Type} {f g : α → Outcome Bool}

theorem filterAuxM_congr : ∀ {l : List α} (acc : List α), (∀ a ∈ l, f a = g a) →
    List.filterAuxM f l acc = List.filterAuxM g l acc
  | [], _, _ => rfl
  | a :: l, acc, h => by
    rw [List.filterAuxM, List.filterAuxM, h a (List.mem_cons_self ..)]
    congr
    funext b
    exact filterAuxM_congr _ fun a' ha' => h a' (List.mem_cons_of_mem _ ha')

theorem filterM_congr {l : List α} (h : ∀ a ∈ l, f a = g a) : l.filterM f = l.filterM g := by
  rw [List.filterM, List.filterM, filterAuxM_congr [] h]

theorem filterAuxM_error : ∀ {l : List α} (acc : List α), (∃ a ∈ l, ∃ e, f a = .error e) →
    ∃ a ∈ l, ∃ e, f a = .error e ∧ List.filterAuxM f l acc = .error e
  | a :: l, acc, h => by
    cases ha : f a with
    | error e => exact ⟨a, List.mem_cons_self .., e, ha, by rw [List.filterAuxM, ha]; rfl⟩
    | ok b =>
      obtain ⟨a', ha', e, he⟩ := h
      have hmem : a' ∈ l := (List.mem_cons.1 ha').resolve_left (by rintro rfl; rw [ha] at he; cases he)
      obtain ⟨a'', ha'', e', he', hl⟩ := filterAuxM_error (cond b (a :: acc) acc) ⟨a', hmem, e, he⟩
      exact ⟨a'', List.mem_cons_of_mem _ ha'', e', he', by rw [List.filterAuxM, ha]; exact hl⟩

/-- A filter whose test fails on some element fails as the test does. -/
theorem filterM_error {l : List α} (h : ∃ a ∈ l, ∃ e, f a = .error e) :
    ∃ a ∈ l, ∃ e, f a = .error e ∧ l.filterM f = .error e := by
  obtain ⟨a, ha, e, he, hl⟩ := filterAuxM_error [] h
  exact ⟨a, ha, e, he, by rw [List.filterM, hl]; rfl⟩

end Filter

namespace Chart

variable {matches? : TokenMatch}

/-! ## Sources -/

section Source

variable {σ : Type} [TokenSource σ]

theorem scanAll_ok_none {c : Chart} {s s' : σ} (h : TokenSource.pull s none = (.ok none, s')) :
    c.scanAll matches? s = .ok c := by
  rw [scanAll]
  split
  · rename_i h'; rw [h] at h'; cases h'
  · rfl
  · rename_i h'; rw [h] at h'; cases h'

theorem scanAll_error {c : Chart} {s s' : σ} {f : Failure} (h : TokenSource.pull s none = (.error f, s')) :
    c.scanAll matches? s = .error f := by
  rw [scanAll]
  split
  · rename_i h'; rw [h] at h'; cases h'; rfl
  · rename_i h'; rw [h] at h'; cases h'
  · rename_i h'; rw [h] at h'; cases h'

theorem scanAll_ok_some {c : Chart} {s s' : σ} {t : Token} (h : TokenSource.pull s none = (.ok (some t), s')) :
    c.scanAll matches? s = match c.scan matches? t with
      | .ok c => c.scanAll matches? s'
      | .error f => .error f := by
  rw [scanAll]
  split
  · rename_i h'; rw [h] at h'; cases h'
  · rename_i h'; rw [h] at h'; cases h'
  · rename_i t' s'' h'
    rw [h] at h'
    cases h'
    rfl

theorem drain_error {s s' : σ} {f : Failure} (h : TokenSource.pull s none = (.error f, s')) :
    TokenSource.drain s = ([], some f, s') := by
  rw [TokenSource.drain]
  split
  · rename_i h'; rw [h] at h'; cases h'; rw [h]
  · rename_i h'; rw [h] at h'; cases h'
  · rename_i h'; rw [h] at h'; cases h'

theorem drain_ok_none {s s' : σ} (h : TokenSource.pull s none = (.ok none, s')) :
    TokenSource.drain s = ([], none, s') := by
  rw [TokenSource.drain]
  split
  · rename_i h'; rw [h] at h'; cases h'
  · rw [h]
  · rename_i h'; rw [h] at h'; cases h'

theorem drain_ok_some {s s' : σ} {t : Token} (h : TokenSource.pull s none = (.ok (some t), s')) :
    TokenSource.drain s = (t :: (TokenSource.drain s').1, (TokenSource.drain s').2) := by
  rw [TokenSource.drain]
  split
  · rename_i h'; rw [h] at h'; cases h'
  · rename_i h'; rw [h] at h'; cases h'
  · rename_i h'
    simp only [h] at h' ⊢
    cases h'
    rfl

/-- A source is read like the list of its tokens; if it ends with a failure, nothing comes of it. -/
theorem scanAll_drain (s : σ) : ∀ c : Chart, c.scanAll matches? s =
    (c.scanAll matches? (Listed.ofTokens (TokenSource.drain s).1)).bind fun c' =>
      match (TokenSource.drain s).2.1 with
      | none => .ok c'
      | some f => .error f := by
  induction hn : TokenSource.size s using Nat.strong_induction_on generalizing s with
  | _ n ih =>
    intro c
    rcases hp : TokenSource.pull s none with ⟨f | _ | t, s'⟩
    · rw [scanAll_error hp, drain_error hp, scanAll_nil]
      rfl
    · rw [scanAll_ok_none hp, drain_ok_none hp, scanAll_nil]
      rfl
    · have hlt := TokenSource.size_pull_lt s none t (by rw [hp])
      rw [hp] at hlt
      rw [scanAll_ok_some hp, drain_ok_some hp, scanAll_cons]
      cases c.scan matches? t with
      | error f => rfl
      | ok c' => exact ih _ (hn ▸ hlt) s' rfl c'

theorem ofTokens_drain (g : ChartRules) (s : σ) (start : String) : ofTokens g matches? s start =
    (ofTokens g matches? (Listed.ofTokens (TokenSource.drain s).1) start).bind fun c =>
      match (TokenSource.drain s).2.1 with
      | none => .ok c
      | some f => .error f := by
  rw [ofTokens, ofTokens]
  cases Chart.start g start with
  | error f => rfl
  | ok c => exact scanAll_drain s c

end Source

/-! ## Matches that may fail -/

/-- The match that decides by what a match takes. -/
def TokenMatch.decided (matches? : TokenMatch) : TokenMatch := fun a t =>
  match matches? a t with
  | .ok b => .ok b
  | .error _ => .ok false

theorem TokenMatch.decided_decides (a : String) (t : Token) : ∃ b, matches?.decided a t = .ok b := by
  unfold decided
  split <;> exact ⟨_, rfl⟩

theorem TokenMatch.stands_decided {a : String} {t : Token} : matches?.decided.Stands a t ↔ matches?.Stands a t := by
  unfold Stands decided
  split <;> simp_all

theorem TokenMatch.stands_decided_eq : matches?.decided.Stands = matches?.Stands := by
  funext a t
  exact propext stands_decided

/-- A token is read as by a match that decides, if the match does not fail for a terminal that is waited for. -/
theorem scan_decided {c : Chart} {t : Token} (h : ∀ a ∈ c.expected, ∃ b, matches? a t = .ok b) :
    c.scan matches? t = c.scan matches?.decided t := by
  have hf : (c.grammar.waiting c.last).filterM (fun x => matches? x.2 t) =
      (c.grammar.waiting c.last).filterM (fun x => matches?.decided x.2 t) := by
    refine filterM_congr fun x hx => ?_
    obtain ⟨b, hb⟩ := h x.2 (List.mem_map.2 ⟨x, hx, rfl⟩)
    rw [hb, TokenMatch.decided, hb]
  rw [scan, scan, hf]

/-- If the match fails for a terminal that is waited for, reading the token fails as it does for one of them. -/
theorem scan_error {c : Chart} {t : Token} (h : ∃ a ∈ c.expected, ∃ f, matches? a t = .error f) :
    ∃ a ∈ c.expected, ∃ f, matches? a t = .error f ∧ c.scan matches? t = .error f := by
  obtain ⟨a, ha, f, hf⟩ := h
  obtain ⟨x, hx, rfl⟩ := List.mem_map.1 ha
  obtain ⟨y, hy, e, he, hfilter⟩ := filterM_error (f := fun x : Item × String => matches? x.2 t) ⟨x, hx, f, hf⟩
  exact ⟨y.2, List.mem_map.2 ⟨y, hy, rfl⟩, e, he, by rw [scan, hfilter]; rfl⟩

/-- Matches that agree on tokens read them alike. -/
theorem scanAll_congr {matches?' : TokenMatch} : ∀ {ts : List Token} (c : Chart),
    (∀ t ∈ ts, ∀ a, matches? a t = matches?' a t) →
      c.scanAll matches? (Listed.ofTokens ts) = c.scanAll matches?' (Listed.ofTokens ts)
  | [], c, _ => by rw [scanAll_nil, scanAll_nil]
  | t :: ts, c, h => by
    have hscan : c.scan matches? t = c.scan matches?' t := by
      rw [scan, scan, filterM_congr fun x _ => h t (List.mem_cons_self ..) x.2]
    rw [scanAll_cons, scanAll_cons, hscan]
    cases c.scan matches?' t with
    | ok c' => exact scanAll_congr c' fun t' ht' => h t' (List.mem_cons_of_mem _ ht')
    | error f => rfl

variable {g : ChartRules} {start : String}

/-- Tokens that may come one after the other are read as by a match that decides, or the match fails at a terminal
that may come where the failing token stands. -/
theorem scanAll_decided (hg : g.Exact matches?.Stands) : ∀ (ts : List Token) {w : List Token} {c : Chart},
    c.Records g matches?.decided.Stands start w → Viable g.rules matches?.Stands start (w ++ ts) →
    (c.scanAll matches? (Listed.ofTokens ts) = c.scanAll matches?.decided (Listed.ofTokens ts) ∧
      ∀ u t v a, ts = u ++ t :: v → Continues g.rules matches?.Stands start (w ++ u) (.terminal a) →
        ∃ b, matches? a t = .ok b) ∨
    ∃ u t v a f, ts = u ++ t :: v ∧ Continues g.rules matches?.Stands start (w ++ u) (.terminal a) ∧
      matches? a t = .error f ∧ c.scanAll matches? (Listed.ofTokens ts) = .error f
  | [], _, _, _, _ => .inl ⟨by rw [scanAll_nil, scanAll_nil], fun u t v a h => by simp at h⟩
  | t :: ts, w, c, h, hv => by
    have hg' : g.Exact matches?.decided.Stands := by rwa [TokenMatch.stands_decided_eq]
    have hexpected : ∀ a, a ∈ c.expected ↔ Continues g.rules matches?.Stands start w (.terminal a) := fun a => by
      rw [h.mem_expected_iff hg', TokenMatch.stands_decided_eq]
    by_cases herr : ∃ a ∈ c.expected, ∃ f, matches? a t = .error f
    · obtain ⟨a, ha, f, hf, hscan⟩ := scan_error herr
      exact .inr ⟨[], t, ts, a, f, rfl, by simpa using (hexpected a).1 ha, hf, by rw [scanAll_cons, hscan]⟩
    · have hok : ∀ a ∈ c.expected, ∃ b, matches? a t = .ok b := fun a ha => by
        cases hm : matches? a t with
        | ok b => exact ⟨b, rfl⟩
        | error f => exact absurd ⟨a, ha, f, hm⟩ herr
      choose p hp using fun a => matches?.decided_decides a t
      have hread : c.scan matches?.decided t = .ok (c.read p t) := by
        have hvt : Viable g.rules matches?.Stands start (w ++ [t]) := by
          rw [List.append_cons] at hv
          exact hv.of_append
        rw [← TokenMatch.stands_decided_eq] at hvt
        rw [scan_eq hp, (taking_isEmpty_iff hg' h hp).2 hvt]
        rfl
      rw [scanAll_cons, scanAll_cons, scan_decided hok, hread]
      rcases scanAll_decided hg ts (records_read hg' h hp) (by simpa using hv) with
        ⟨heq, hall⟩ | ⟨u, t', v, a, f, rfl, hc, hf, he⟩
      · refine .inl ⟨heq, fun u t' v a hu hc => ?_⟩
        cases u with
        | nil =>
          obtain ⟨rfl, -⟩ := List.cons.inj hu
          exact hok a ((hexpected a).2 (by simpa using hc))
        | cons t'' u =>
          obtain ⟨rfl, rfl⟩ := List.cons.inj hu
          exact hall u t' v a rfl (by simpa using hc)
      · exact .inr ⟨t :: u, t', v, a, f, rfl, by simpa using hc, hf, he⟩

end Chart

namespace Parser

variable (p : Parser) {start : String}

/-- A source without failure is parsed like the list of its tokens. -/
theorem parse_drain {σ : Type} [TokenSource σ] {s : σ} (h : (TokenSource.drain s).2.1 = none) :
    p.parse s start = p.parse (Listed.ofTokens (TokenSource.drain s).1) start := by
  rw [parse_eq, parse_eq, Chart.ofTokens_drain p.grammar s, h]
  cases Chart.ofTokens p.grammar p.matches? (Listed.ofTokens (TokenSource.drain s).1) start <;> rfl

/-- A source is parsed to what the list of its tokens is parsed to, if it has no failure. -/
theorem parse_source_eq_ok {σ : Type} [TokenSource σ] {s : σ} {v : Child} : p.parse s start = .ok v ↔
    (TokenSource.drain s).2.1 = none ∧ p.parse (Listed.ofTokens (TokenSource.drain s).1) start = .ok v := by
  cases hf : (TokenSource.drain s).2.1 with
  | none => rw [p.parse_drain hf, and_iff_right rfl]
  | some f =>
    rw [parse_eq, Chart.ofTokens_drain p.grammar s, hf]
    cases Chart.ofTokens p.grammar p.matches? (Listed.ofTokens (TokenSource.drain s).1) start <;>
      exact ⟨fun h => (nomatch h), fun h => (nomatch h.1)⟩

theorem parse_congr {matches?' : Chart.TokenMatch} {tokens : List Token}
    (h : ∀ t ∈ tokens, ∀ a, p.matches? a t = matches?' a t) :
    p.parse (Listed.ofTokens tokens) start = { p with matches? := matches?' }.parse (Listed.ofTokens tokens) start := by
  rw [parse_eq, parse_eq, Chart.ofTokens, Chart.ofTokens]
  cases Chart.start p.grammar start with
  | error f => rfl
  | ok c =>
    simp only [bind, Except.bind, Chart.scanAll_congr c h]

/-- Tokens that may come one after the other are parsed as by a match that decides, or the match fails at a terminal
that may come where the failing token stands. -/
theorem parse_decided (hg : p.grammar.Exact p.matches?.Stands) (hs : ∃ r ∈ p.grammar.rules, r.origin = start)
    {tokens : List Token} (hv : Viable p.grammar.rules p.matches?.Stands start tokens) :
    (p.parse (Listed.ofTokens tokens) start =
        { p with matches? := p.matches?.decided }.parse (Listed.ofTokens tokens) start ∧
      ∀ u t v a, tokens = u ++ t :: v → Continues p.grammar.rules p.matches?.Stands start u (.terminal a) →
        ∃ b, p.matches? a t = .ok b) ∨
    ∃ u t v a f, tokens = u ++ t :: v ∧ Continues p.grammar.rules p.matches?.Stands start u (.terminal a) ∧
      p.matches? a t = .error f ∧ p.parse (Listed.ofTokens tokens) start = .error f := by
  have hrecords : Chart.Records p.grammar p.matches?.decided.Stands start [] _ :=
    start_records (by rwa [Chart.TokenMatch.stands_decided_eq])
  rw [parse_eq, parse_eq, Chart.ofTokens, Chart.ofTokens, start_ok hs]
  rcases Chart.scanAll_decided hg tokens hrecords (by simpa using hv) with ⟨heq, hall⟩ | ⟨u, t, v, a, f, ht, hc, hf, he⟩
  · refine .inl ⟨?_, by simpa using hall⟩
    simp only [bind, Except.bind, heq]
  · refine .inr ⟨u, t, v, a, f, ht, by simpa using hc, hf, ?_⟩
    simp only [bind, Except.bind, he]

end Parser

end GrammarKit.Earley
