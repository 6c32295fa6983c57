/-
Tokens of a lexicon. Every token that a lexicon finds, and no callback changes, is text and named after a terminal for
text, be it the one that matched or a literal that it stands in for. Terminals of other kinds have no part in a lexicon,
and whether terminals may match nothing decides only whether there is one. A hook that changes nothing leaves the tokens
of a source as they are.
-/
import GrammarKit.Proofs.Earley.Source
import GrammarKit.Proofs.Outcome

namespace GrammarKit

/-! ## Names in a lexicon -/

namespace Lexicon

variable {c : LexerConfig} {l : Lexicon}

/-- The name of a terminal for text. -/
def NamesText (terminals : List Terminal) (name : String) : Prop :=
  ∃ t ∈ terminals, t.pattern.isText = true ∧ t.name = name

theorem mem_of_mem_kept {t : Terminal} : ∀ {ts kept : List Terminal},
    t ∈ ts.foldl (fun kept t => if kept.any (·.name == t.name) then kept else kept ++ [t]) kept → t ∈ kept ∨ t ∈ ts
  | [], _, h => .inl h
  | x :: ts, kept, h => by
    rw [List.foldl_cons] at h
    rcases mem_of_mem_kept h with h | h
    · split at h
      · exact .inl h
      · exact (List.mem_append.1 h).imp_right fun h => by simp [List.mem_singleton.1 h]
    · exact .inr (List.mem_cons_of_mem _ h)

theorem mem_of_mem_literalsOf {selected : List Terminal} {t : Terminal} {m : Matcher} {x : String × Terminal}
    (h : x ∈ literalsOf selected t m) : x.2 ∈ selected := by
  obtain ⟨s, hs, hx⟩ := List.mem_filterMap.1 h
  split at hx
  · split at hx
    · cases hx
      exact hs
    · cases hx
  · cases hx

theorem names_of_ofPrepared {prepared : List Prepared} {allowEmpty : Bool} {accepts : String → Bool}
    (h : ofPrepared c prepared allowEmpty accepts = .ok l) : l.ignore = c.ignore ∧ l.callbacks = c.callbacks ∧
      ∀ e ∈ l.entries, (∃ p ∈ prepared, p.terminal.name = e.name) ∧
        ∀ k ∈ e.keywords, ∃ p ∈ prepared, p.terminal.name = k.2 := by
  obtain ⟨ready, -, h⟩ := bind_eq_ok.1 h
  cases h
  have hselected : ∀ {s : Terminal}, s ∈ (prepared.filter (accepts ·.terminal.name)).map (·.terminal) →
      ∃ p ∈ prepared, p.terminal.name = s.name := fun hs => by
    obtain ⟨p, hp, rfl⟩ := List.mem_map.1 hs
    exact ⟨p, (List.mem_filter.1 hp).1, rfl⟩
  refine ⟨rfl, rfl, fun e he => ?_⟩
  obtain ⟨t, ht, he⟩ := List.mem_filterMap.1 he
  obtain ⟨m, -, rfl⟩ := Option.map_eq_some_iff.1 he
  have ht := (mem_of_mem_kept ht).resolve_left List.not_mem_nil
  rw [List.mem_mergeSort] at ht
  refine ⟨hselected (List.mem_filter.1 ht).1, fun k hk => ?_⟩
  obtain ⟨x, hx, hk⟩ := List.mem_flatMap.1 hk
  obtain ⟨y, hy, rfl⟩ := List.mem_map.1 hk
  obtain ⟨t', -, rfl⟩ := List.mem_map.1 (List.mem_filter.1 hx).1
  refine hselected ?_
  dsimp only at hy
  split at hy
  · exact mem_of_mem_literalsOf hy
  · cases hy

/-- A match is of an entry that matches, under its own name or that of a keyword. -/
theorem exists_entry_of_match? {text : List Char} {name : String} {n : Nat} (hm : l.match? text = some (name, n)) :
    0 < n ∧ ∃ e ∈ l.entries, e.matcher.length? text = some n ∧
      (name = e.name ∨ (String.ofList (text.take n), name) ∈ e.keywords) := by
  obtain ⟨e, he, hm⟩ := List.exists_of_findSome?_eq_some hm
  split at hm
  · rename_i n hn
    cases hm
    refine ⟨Nat.succ_pos n, e, he, hn, ?_⟩
    cases hk : e.keywords.find? fun k => k.1 == String.ofList (text.take (n + 1)) with
    | none => exact .inl rfl
    | some k =>
      have htext : k.1 = String.ofList (text.take (n + 1)) := by simpa using List.find?_some hk
      exact .inr (htext ▸ List.mem_of_find?_eq_some hk)
  · cases hm

/-- What a lexicon matches is named after a terminal that it was made from. -/
theorem exists_prepared_of_match? {prepared : List Prepared} {allowEmpty : Bool} {accepts : String → Bool}
    (h : ofPrepared c prepared allowEmpty accepts = .ok l) {text : List Char} {name : String} {n : Nat}
    (hm : l.match? text = some (name, n)) : ∃ p ∈ prepared, p.terminal.name = name := by
  obtain ⟨-, -, hentries⟩ := names_of_ofPrepared h
  obtain ⟨-, e, he, -, hname⟩ := exists_entry_of_match? hm
  obtain ⟨hown, hkeywords⟩ := hentries e he
  rcases hname with rfl | hkeyword
  · exact hown
  · exact hkeywords _ hkeyword

theorem namesText_of_prepared {name : String} (h : ∃ p ∈ c.prepared, p.terminal.name = name) :
    NamesText c.terminals name := by
  obtain ⟨p, hp, rfl⟩ := h
  obtain ⟨t, ht, rfl⟩ := List.mem_map.1 hp
  exact ⟨t, (List.mem_filter.1 ht).1, (List.mem_filter.1 ht).2, rfl⟩

/-- What a lexicon matches is named after a terminal for text. -/
theorem namesText_of_match? {allowEmpty : Bool} {accepts : String → Bool}
    (h : ofPrepared c c.prepared allowEmpty accepts = .ok l) {text : List Char} {name : String} {n : Nat}
    (hm : l.match? text = some (name, n)) : NamesText c.terminals name :=
  namesText_of_prepared (exists_prepared_of_match? h hm)

/-! ## Tokens -/

/-- A token of a terminal for text. -/
def IsText (terminals : List Terminal) (t : Token) : Prop := t.text?.isSome = true ∧ NamesText terminals t.kind

theorem isText_of_pull (h : ofConfig c = .ok l) (hcallbacks : c.callbacks = []) {t : Token} (cursor : Cursor) :
    (l.pull cursor).result = .ok (some t) → IsText c.terminals t := by
  have hnone : l.callbacks = [] := (names_of_ofPrepared h).2.1.trans hcallbacks
  fun_induction pull l cursor with
  | case1 => exact fun ht => (nomatch ht)
  | case2 cursor hne name n hm token token' hlt hskip ih => exact ih
  | case3 cursor hne name n hm token token' hlt hskip =>
    intro ht
    obtain rfl : token' = t := Option.some.inj (Except.ok.inj ht)
    have htoken : token' = token := by simp only [token', hnone, List.lookup_nil]
    rw [htoken]
    exact ⟨rfl, namesText_of_match? h hm⟩
  | case4 => exact fun ht => (nomatch ht)

theorem pull_at_end {cursor : Cursor} (h : cursor.ahead = []) : (l.pull cursor).result = .ok none := by
  rw [pull, dif_pos h]
  rfl

/-- A match that is not ignored becomes a token. -/
theorem pull_match {cursor : Cursor} {name : String} {n : Nat} (hne : cursor.ahead ≠ [])
    (hm : l.match? cursor.ahead = some (name, n + 1)) (hcallbacks : l.callbacks = [])
    (hkept : l.isIgnored name = false) :
    (l.pull cursor).result = .ok (some (tokenAt cursor name (n + 1))) ∧
      (l.pull cursor).cursor = { cursor.advance (n + 1) with last := some (tokenAt cursor name (n + 1)) } := by
  rw [pull, dif_neg hne]
  split
  · rename_i name' n' hm'
    cases hm.symm.trans hm'
    simp [hcallbacks, hkept, tokenAt, Token.ofText]
  · rename_i hno
    exact absurd hm (hno name n)

/-! ## Configurations -/

/-- Where no terminal matches text, there is nothing to lex by. -/
theorem ofConfig_eq_empty (h : c.prepared = []) : ofConfig c = .ok ⟨[], c.ignore, c.callbacks⟩ := by
  unfold ofConfig
  rw [h]
  unfold ofPrepared
  simp [matchers, pure, Except.pure, bind, Except.bind]

/-- A lexicon of one terminal. -/
theorem ofConfig_eq_single {t : Terminal} {m : Matcher} (h : c.prepared = [⟨t, .ok m⟩]) (hwidth : m.minWidth ≠ 0) :
    ofConfig c = .ok ⟨[⟨t.name, m, []⟩], c.ignore, c.callbacks⟩ := by
  obtain ⟨name, pattern, priority⟩ := t
  rw [ofConfig, h, ofPrepared]
  cases pattern <;> simp [matchers, hwidth, bind, Except.bind, pure, Except.pure, literalsOf]

/-- Terminals that are not for text have no part in a lexicon. -/
theorem ofConfig_congr {c' : LexerConfig} (hterminals : c'.terminals.filter (·.pattern.isText) =
    c.terminals.filter (·.pattern.isText)) (hignore : c'.ignore = c.ignore) (hcallbacks : c'.callbacks = c.callbacks)
    (hvalid : c'.skipValidation = c.skipValidation) (hflags : c'.globalFlags = c.globalFlags)
    (hengine : c'.engine = c.engine) : ofConfig c' = ofConfig c := by
  have hprepared : c'.prepared = c.prepared := by
    rw [LexerConfig.prepared, LexerConfig.prepared, hterminals, hflags, hengine]
  rw [ofConfig, ofConfig, hprepared, hvalid]
  unfold ofPrepared
  rw [hignore, hcallbacks]

theorem matchers_of_empty : ∀ {ps : List Prepared} {b : Bool} {ms : List (String × Matcher)},
    matchers b ps = .ok ms → matchers true ps = .ok ms
  | [], _, _, h => h
  | p :: ps, b, ms, h => by
    rw [matchers] at h ⊢
    obtain ⟨m, hm, h⟩ := bind_eq_ok.1 h
    refine bind_eq_ok.2 ⟨m, hm, ?_⟩
    split at h
    · obtain ⟨_, h, -⟩ := bind_eq_ok.1 h
      cases h
    · obtain ⟨ms, hms, h⟩ := bind_eq_ok.1 h
      rw [Bool.not_true, Bool.and_false, if_neg Bool.false_ne_true]
      exact bind_eq_ok.2 ⟨ms, matchers_of_empty hms, h⟩

/-- Where terminals are valid, the lexicon is the same without the check. -/
theorem ofConfig_skipValidation (h : ofConfig c = .ok l) : ofConfig { c with skipValidation := true } = .ok l := by
  obtain ⟨ready, hready, h⟩ := bind_eq_ok.1 h
  exact bind_eq_ok.2 ⟨ready, matchers_of_empty hready, h⟩

end Lexicon

/-! ## Drained sources -/

namespace TokenSource

variable {σ : Type} [TokenSource σ]

theorem forall_mem_drain {P : Token → Prop} {I : σ → Prop}
    (hpull : ∀ s, I s → I (pull s none).2 ∧ ∀ t, (pull s none).1 = .ok (some t) → P t) (s : σ) :
    I s → ∀ t ∈ (drain s).1, P t := by
  induction hn : size s using Nat.strong_induction_on generalizing s with
  | _ n ih =>
    intro hs
    obtain ⟨hs', ht⟩ := hpull s hs
    rcases hp : pull s none with ⟨f | _ | t, s'⟩
    · rw [Earley.Chart.drain_error hp]
      exact fun _ h => (nomatch h)
    · rw [Earley.Chart.drain_ok_none hp]
      exact fun _ h => (nomatch h)
    · have hlt := size_pull_lt s none t (by rw [hp])
      rw [hp] at hlt hs' ht
      rw [Earley.Chart.drain_ok_some hp]
      exact List.forall_mem_cons.2 ⟨ht t rfl, ih _ (hn ▸ hlt) s' rfl hs'⟩

/-- What comes of a source depends on its next token and what is behind it. -/
theorem drain_congr {s s' : σ} (h : pull s none = pull s' none) : drain s = drain s' := by
  rcases hp : pull s' none with ⟨f | _ | t, rest⟩
  · rw [Earley.Chart.drain_error (h.trans hp), Earley.Chart.drain_error hp]
  · rw [Earley.Chart.drain_ok_none (h.trans hp), Earley.Chart.drain_ok_none hp]
  · rw [Earley.Chart.drain_ok_some (h.trans hp), Earley.Chart.drain_ok_some hp]

/-- A hook that changes nothing hands on what is found. -/
theorem pull_passing {h : Hooked σ} (hupdate : h.hook.update = some) (happended : h.appended = [])
    (state : Option Nat) :
    pull h state = ((pull h.inner state).1, { h with inner := (pull h.inner state).2 }) := by
  change h.pull state = _
  rw [Hooked.pull]
  split
  · rename_i hp; rw [hp]
  · rename_i hp; rw [hp, happended]
  · rename_i hp; simp only [hupdate, hp]

/-- A hook that changes nothing leaves the tokens of a source as they are. -/
theorem drain_passing (s : σ) : ∀ {h : Hooked σ}, h.hook.update = some → h.appended = [] → h.inner = s →
    (drain h).1 = (drain s).1 ∧ (drain h).2.1 = (drain s).2.1 := by
  induction hn : size s using Nat.strong_induction_on generalizing s with
  | _ n ih =>
    rintro h hupdate happended rfl
    have hpull := pull_passing hupdate happended none
    rcases hp : pull h.inner none with ⟨f | _ | t, s'⟩
    · rw [hp] at hpull
      rw [Earley.Chart.drain_error hpull, Earley.Chart.drain_error hp]
      exact ⟨rfl, rfl⟩
    · rw [hp] at hpull
      rw [Earley.Chart.drain_ok_none hpull, Earley.Chart.drain_ok_none hp]
      exact ⟨rfl, rfl⟩
    · have hlt := size_pull_lt h.inner none t (by rw [hp])
      rw [hp] at hpull hlt
      obtain ⟨h1, h2⟩ := ih _ (hn ▸ hlt) s' rfl (h := { h with inner := s' }) hupdate happended rfl
      rw [Earley.Chart.drain_ok_some hpull, Earley.Chart.drain_ok_some hp, h1, h2]
      exact ⟨rfl, rfl⟩

end TokenSource

namespace Scanner

variable {l : Lexicon} {cursor : Cursor}

theorem drain_at_end (h : cursor.ahead = []) : (TokenSource.drain (⟨.basic l, cursor⟩ : Scanner)).1 = [] ∧
    (TokenSource.drain (⟨.basic l, cursor⟩ : Scanner)).2.1 = none := by
  have hp : TokenSource.pull (⟨.basic l, cursor⟩ : Scanner) none = (.ok none, ⟨.basic l, (l.pull cursor).cursor⟩) := by
    rw [← Lexicon.pull_at_end h]
    rfl
  rw [Earley.Chart.drain_ok_none hp]
  exact ⟨rfl, rfl⟩

theorem drain_match {name : String} {n : Nat} (hne : cursor.ahead ≠ [])
    (hm : l.match? cursor.ahead = some (name, n + 1)) (hcallbacks : l.callbacks = [])
    (hkept : l.isIgnored name = false) :
    TokenSource.drain (⟨.basic l, cursor⟩ : Scanner) =
      let t := Lexicon.tokenAt cursor name (n + 1)
      let rest := TokenSource.drain (⟨.basic l, { cursor.advance (n + 1) with last := some t }⟩ : Scanner)
      (t :: rest.1, rest.2) := by
  obtain ⟨hresult, hcursor⟩ := Lexicon.pull_match hne hm hcallbacks hkept
  have hp : TokenSource.pull (⟨.basic l, cursor⟩ : Scanner) none = (.ok (some (Lexicon.tokenAt cursor name (n + 1))),
      ⟨.basic l, { cursor.advance (n + 1) with last := some (Lexicon.tokenAt cursor name (n + 1)) }⟩) := by
    rw [← hresult, ← hcursor]
    rfl
  rw [Earley.Chart.drain_ok_some hp]

end Scanner

end GrammarKit
