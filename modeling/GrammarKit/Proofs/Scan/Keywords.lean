/-
Keywords among the texts of a pattern. A literal that a pattern matches from start to end may have no place of its own
in a lexicon: the pattern is matched, and a token that is spelled like a literal gets the name of the first literal so
spelled. The literal's own pattern is not asked, so a keyword that matches other spellings too, by the switch `i`,
becomes one of the pattern's texts in them.
-/
import GrammarKit.Proofs.Scan.Lexed
import GrammarKit.Proofs.Scan.Literal

namespace GrammarKit

/-- The terminals for text that a lexicon is made of. -/
def LexerConfig.sought (c : LexerConfig) (accepts : String → Bool) : List Terminal :=
  (c.terminals.filter (·.pattern.isText)).filter (accepts ·.name)

namespace Lexicon

variable {c : LexerConfig} {l : Lexicon} {allowEmpty : Bool} {accepts : String → Bool}

/-! ## Entries and their terminals -/

theorem map_terminal_prepared (c : LexerConfig) (accepts : String → Bool) :
    (c.prepared.filter (accepts ·.terminal.name)).map (·.terminal) = c.sought accepts := by
  rw [LexerConfig.prepared, List.filter_map, List.map_map]
  exact List.map_id _

/-- Every terminal has to have a matcher, and the matchers stand in reverse. -/
theorem matchers_eq_ok {ready : List (String × Matcher)} : ∀ {ps : List Prepared}, matchers allowEmpty ps = .ok ready →
    ready.map (·.1) = (ps.map (·.terminal.name)).reverse ∧
      ∀ p ∈ ps, ∃ m, p.matcher = .ok m ∧ (p.terminal.name, m) ∈ ready
  | [], h => by
    cases h
    exact ⟨rfl, fun _ hp => (nomatch hp)⟩
  | p :: ps, h => by
    obtain ⟨m, hm, h⟩ := bind_eq_ok.1 h
    have hrest : (matchers allowEmpty ps >>= fun rest => .ok (rest ++ [(p.terminal.name, m)])) = .ok ready := by
      split at h
      · cases h
      · exact h
    obtain ⟨rest, hps, hready⟩ := bind_eq_ok.1 hrest
    cases hready
    obtain ⟨hnames, hall⟩ := matchers_eq_ok hps
    refine ⟨by rw [List.map_append, hnames]; exact (List.reverse_cons ..).symm, fun q hq => ?_⟩
    rcases List.mem_cons.1 hq with rfl | hq
    · exact ⟨m, hm, List.mem_append_right _ (List.mem_singleton_self _)⟩
    · obtain ⟨m', hm', hmem⟩ := hall q hq
      exact ⟨m', hm', List.mem_append_left _ hmem⟩

theorem eq_of_name_eq {ts : List Terminal} (hd : (ts.map (·.name)).Nodup) {t s : Terminal} (ht : t ∈ ts) (hs : s ∈ ts)
    (h : t.name = s.name) : t = s := List.inj_on_of_nodup_map hd ht hs h

theorem nodup_sought (hd : (c.terminals.map (·.name)).Nodup) (accepts : String → Bool) :
    ((c.sought accepts).map (·.name)).Nodup :=
  hd.sublist ((List.filter_sublist.trans List.filter_sublist).map _)

/-- Of terminals with different names, each is the only one of its name. -/
theorem filter_name_eq {ts : List Terminal} (hd : (ts.map (·.name)).Nodup) {t : Terminal} (ht : t ∈ ts) :
    ts.filter (·.name == t.name) = [t] := by
  induction ts with
  | nil => cases ht
  | cons s ts ih =>
    obtain ⟨hs, hd⟩ := List.nodup_cons.1 hd
    rcases List.mem_cons.1 ht with rfl | ht
    · have hothers : ts.filter (·.name == t.name) = [] := List.filter_eq_nil_iff.2 fun s hs' hname =>
        hs (List.mem_map.2 ⟨s, hs', beq_iff_eq.1 hname⟩)
      rw [List.filter_cons, if_pos (beq_self_eq_true _), hothers]
    · have hne : ¬ (s.name == t.name) = true := fun hname =>
        hs (List.mem_map.2 ⟨t, ht, (beq_iff_eq.1 hname).symm⟩)
      rw [List.filter_cons, if_neg hne, ih hd ht]

/-- Each sought terminal has a matcher, which is found by its name. -/
theorem lookup_matchers (hd : (c.terminals.map (·.name)).Nodup) {ready : List (String × Matcher)}
    (h : matchers allowEmpty (c.prepared.filter (accepts ·.terminal.name)) = .ok ready) {t : Terminal}
    (ht : t ∈ c.sought accepts) : ∃ m, c.engine t c.globalFlags = .ok m ∧ ready.lookup t.name = some m := by
  obtain ⟨hnames, hall⟩ := matchers_eq_ok h
  have hnodup : (ready.map (·.1)).Nodup := by
    rw [hnames, List.nodup_reverse, ← Function.comp_def Terminal.name Prepared.terminal, ← List.map_map,
      map_terminal_prepared]
    exact nodup_sought hd accepts
  rw [← map_terminal_prepared] at ht
  obtain ⟨p, hp, rfl⟩ := List.mem_map.1 ht
  obtain ⟨m, hm, hmem⟩ := hall p hp
  refine ⟨m, ?_, lookup_of_mem hnodup hmem⟩
  obtain ⟨t, -, rfl⟩ := List.mem_map.1 (List.mem_filter.1 hp).1
  exact hm

theorem exists_matcher (hd : (c.terminals.map (·.name)).Nodup)
    (h : ofPrepared c c.prepared allowEmpty accepts = .ok l) {t : Terminal} (ht : t ∈ c.sought accepts) :
    ∃ m, c.engine t c.globalFlags = .ok m := by
  obtain ⟨_, hready, -⟩ := bind_eq_ok.1 h
  obtain ⟨m, hm, -⟩ := lookup_matchers hd hready ht
  exact ⟨m, hm⟩

/-- Where every name is of one terminal, an entry is one of the sought terminals with its own matcher, and its keywords
are the literals that this matcher matches, if the terminal is a pattern. -/
theorem exists_terminal_of_mem_entries (hd : (c.terminals.map (·.name)).Nodup)
    (h : ofPrepared c c.prepared allowEmpty accepts = .ok l) {e : Entry} (he : e ∈ l.entries) :
    ∃ t ∈ c.sought accepts, t.name = e.name ∧ c.engine t c.globalFlags = .ok e.matcher ∧
      (∀ source flags, t.pattern = .regex source flags →
        e.keywords = (literalsOf (c.sought accepts) t e.matcher).map fun x => (x.1, x.2.name)) := by
  obtain ⟨ready, hready, h⟩ := bind_eq_ok.1 h
  cases h
  obtain ⟨t, hkept, he⟩ := List.mem_filterMap.1 he
  obtain ⟨m, hm, rfl⟩ := Option.map_eq_some_iff.1 he
  have hordered := (mem_of_mem_kept hkept).resolve_left List.not_mem_nil
  rw [List.mem_mergeSort] at hordered
  have ht := (List.mem_filter.1 hordered).1
  rw [map_terminal_prepared] at ht ⊢
  have hsought := nodup_sought hd accepts
  refine ⟨t, ht, rfl, ?_, fun source flags hpattern => ?_⟩
  · obtain ⟨m', hm', hlookup⟩ := lookup_matchers hd hready ht
    rw [hm']
    exact congrArg Except.ok (Option.some.inj (hlookup.symm.trans hm))
  · -- among the patterns, too, the terminal is the only one of its name
    dsimp only
    rw [List.filter_map, List.flatMap_map]
    simp only [Function.comp_def]
    refine (congrArg (List.flatMap _) (filter_name_eq (hsought.sublist (List.filter_sublist.map _))
      (List.mem_filter.2 ⟨ht, by rw [hpattern]⟩))).trans ?_
    rw [List.flatMap_singleton, hm]

/-! ## Names of matches -/

/-- The entry that matches at the start of a text. -/
def chosen? (l : Lexicon) (text : List Char) : Option Entry :=
  l.entries.find? fun e => (e.matcher.length? text).any (0 < ·)

/-- The chosen entry's match is the lexicon's, under the name of the keyword that it is spelled like, if any. -/
theorem match?_of_chosen? {text : List Char} {e : Entry} (h : l.chosen? text = some e) :
    ∃ n, 0 < n ∧ e.matcher.length? text = some n ∧ l.match? text =
      some (((e.keywords.find? (·.1 == String.ofList (text.take n))).map (·.2)).getD e.name, n) := by
  unfold chosen? at h
  unfold match?
  generalize l.entries = entries at h ⊢
  induction entries with
  | nil => cases h
  | cons first others ih =>
    rw [List.find?_cons] at h
    rw [List.findSome?_cons]
    cases hn : first.matcher.length? text with
    | none =>
      rw [hn] at h
      exact ih h
    | some n =>
      rw [hn] at h
      cases n with
      | zero => exact ih h
      | succ n =>
        cases h
        exact ⟨n + 1, Nat.succ_pos n, hn, rfl⟩

/-- A literal of a pattern's priority, spelled in a given way. -/
def spells (pattern : Terminal) (spelling : String) (s : Terminal) : Bool :=
  match s.pattern with
  | .literal text _ => s.priority = pattern.priority && text == spelling
  | _ => false

theorem spells_eq_true {t s : Terminal} {spelling : String} (h : spells t spelling s = true) :
    ∃ flags, s.pattern = .literal spelling flags := by
  unfold spells at h
  split at h
  · rename_i text flags hs
    obtain rfl : text = spelling := by simpa using (Bool.and_eq_true_iff.1 h).2
    exact ⟨flags, hs⟩
  · cases h

theorem find?_literalsOf (t : Terminal) (m : Matcher) (spelling : String) : ∀ selected : List Terminal,
    ((literalsOf selected t m).find? (·.1 == spelling)).map (·.2) =
      if m.matchesWhole spelling.toList then selected.find? (spells t spelling) else none
  | [] => by simp [literalsOf]
  | s :: selected => by
    have ih := find?_literalsOf t m spelling selected
    rw [literalsOf] at ih ⊢
    rw [List.filterMap_cons, List.find?_cons]
    cases hs : s.pattern with
    | literal text flags =>
      have hspells : spells t spelling s = (s.priority = t.priority && text == spelling) := by rw [spells, hs]
      by_cases htext : text = spelling
      · subst htext
        rw [hspells, beq_self_eq_true, Bool.and_true]
        by_cases hwhole : m.matchesWhole text.toList = true
        · by_cases hpriority : s.priority = t.priority
          · simp [hwhole, hpriority]
          · simpa [hwhole, hpriority] using ih
        · simpa [hwhole] using ih
      · -- the literal is passed over, whether it is a keyword or not
        rw [hspells, beq_eq_false_iff_ne.2 htext, Bool.and_false]
        dsimp only
        by_cases hkeyword : (s.priority = t.priority && m.matchesWhole text.toList) = true
        · rw [if_pos hkeyword]
          simpa only [List.find?_cons, beq_eq_false_iff_ne.2 htext] using ih
        · rw [if_neg hkeyword]
          exact ih
    | _ =>
      have hspells : spells t spelling s = false := by rw [spells, hs]
      rw [hspells]
      exact ih

/-- Of a pattern's match, the name is that of the first literal so spelled, if the pattern matches its spelling whole. -/
theorem name_of_match? (hd : (c.terminals.map (·.name)).Nodup)
    (h : ofPrepared c c.prepared allowEmpty accepts = .ok l) {t : Terminal} (ht : t ∈ c.sought accepts)
    {source flags : String} (hpattern : t.pattern = .regex source flags) {text : List Char} {e : Entry}
    (he : l.chosen? text = some e) (hname : e.name = t.name) {name : String} {n : Nat}
    (hmatch : l.match? text = some (name, n)) :
    c.engine t c.globalFlags = .ok e.matcher ∧
      name = ((if e.matcher.matchesWhole (text.take n) then
        (c.sought accepts).find? (spells t (String.ofList (text.take n))) else none).map (·.name)).getD t.name := by
  obtain ⟨t', ht', hname', hmatcher, hkeywords⟩ := exists_terminal_of_mem_entries hd h (List.mem_of_find?_eq_some he)
  obtain rfl : t' = t := eq_of_name_eq (nodup_sought hd accepts) ht' ht (hname'.trans hname)
  refine ⟨hmatcher, ?_⟩
  obtain ⟨n', -, -, hmatch'⟩ := match?_of_chosen? he
  rw [hmatch'] at hmatch
  cases hmatch
  have hfind := find?_literalsOf t' e.matcher (String.ofList (text.take n)) (c.sought accepts)
  rw [String.toList_ofList] at hfind
  rw [hkeywords source flags hpattern, hname, ← hfind, List.find?_map, Option.map_map, Option.map_map]
  rfl

/-! ## Folded literals -/

/-- The terminal's own matcher matches a whole text. -/
def MatchesWhole (c : LexerConfig) (t : Terminal) (text : List Char) : Prop :=
  ∃ m, c.engine t c.globalFlags = .ok m ∧ m.matchesWhole text = true

/-- A literal has no place of its own in a lexicon, since a pattern of its priority, with all its flags, matches its
text. -/
structure Folded (c : LexerConfig) (accepts : String → Bool) (text : String) (literal pattern : Terminal) : Prop where
  literal_mem : literal ∈ c.sought accepts
  pattern_mem : pattern ∈ c.sought accepts
  literal_eq : literal.pattern = .literal text literal.pattern.flags
  pattern_eq : ∃ source, pattern.pattern = .regex source pattern.pattern.flags
  priority_eq : literal.priority = pattern.priority
  matchesWhole : MatchesWhole c pattern text.toList
  isFolded : isFolded literal pattern = true

/-- A folded literal has no entry. -/
theorem Folded.not_mem_entries {text : String} {s t : Terminal} (hfolded : Folded c accepts text s t)
    (hd : (c.terminals.map (·.name)).Nodup) (h : ofPrepared c c.prepared allowEmpty accepts = .ok l) :
    ∀ e ∈ l.entries, e.name ≠ s.name := by
  obtain ⟨ready, hready, h⟩ := bind_eq_ok.1 h
  cases h
  intro e he hname
  obtain ⟨r, hkept, he⟩ := List.mem_filterMap.1 he
  obtain ⟨_, _, rfl⟩ := Option.map_eq_some_iff.1 he
  have hordered := (mem_of_mem_kept hkept).resolve_left List.not_mem_nil
  rw [List.mem_mergeSort] at hordered
  obtain ⟨-, hplace⟩ := List.mem_filter.1 hordered
  rw [show r.name = s.name from hname, Bool.not_eq_true', ← Bool.not_eq_true, List.contains_iff_mem,
    map_terminal_prepared] at hplace
  -- the pattern's literals are taken, and this one is among them
  obtain ⟨m, hm, hwhole⟩ := hfolded.matchesWhole
  obtain ⟨m', hm', hlookup⟩ := lookup_matchers hd hready hfolded.pattern_mem
  obtain rfl : m = m' := Except.ok.inj (hm.symm.trans hm')
  obtain ⟨source, hpattern⟩ := hfolded.pattern_eq
  have hliteral : (text, s) ∈ literalsOf (c.sought accepts) t m := by
    refine List.mem_filterMap.2 ⟨s, hfolded.literal_mem, ?_⟩
    rw [hfolded.literal_eq]
    simp [hfolded.priority_eq, hwhole]
  refine hplace (List.mem_flatMap.2 ⟨(t, literalsOf (c.sought accepts) t m), List.mem_map.2 ⟨t, ?_, ?_⟩, ?_⟩)
  · exact List.mem_filter.2 ⟨hfolded.pattern_mem, by rw [hpattern]⟩
  · rw [hlookup]
  · exact List.mem_map.2 ⟨(text, s), List.mem_filter.2 ⟨hliteral, hfolded.isFolded⟩, rfl⟩

/-- A name of a literal whose own matcher matches a whole text. -/
def NamesLiteral (c : LexerConfig) (accepts : String → Bool) (name : String) (text : List Char) : Prop :=
  ∃ s ∈ c.sought accepts, (s.pattern matches .literal ..) = true ∧ s.name = name ∧ MatchesWhole c s text

/-- A pattern's match gets the name of a literal whose matcher matches it, and not the pattern's, exactly if the
pattern matches it from start to end and the first literal that is spelled like it does. -/
theorem namesLiteral_iff_of_match? (hd : (c.terminals.map (·.name)).Nodup)
    (h : ofPrepared c c.prepared allowEmpty accepts = .ok l) {t : Terminal} (ht : t ∈ c.sought accepts)
    {source flags : String} (hpattern : t.pattern = .regex source flags) {ahead : List Char} {e : Entry}
    (he : l.chosen? ahead = some e) (hname : e.name = t.name) {name : String} {n : Nat}
    (hmatch : l.match? ahead = some (name, n)) :
    name ≠ t.name ∧ NamesLiteral c accepts name (ahead.take n) ↔
      e.matcher.matchesWhole (ahead.take n) = true ∧
        ∃ s, (c.sought accepts).find? (spells t (String.ofList (ahead.take n))) = some s ∧
          MatchesWhole c s (ahead.take n) := by
  have hsought := nodup_sought hd accepts
  obtain ⟨-, hnamed⟩ := name_of_match? hd h ht hpattern he hname hmatch
  constructor
  · rintro ⟨hne, s, hs, -, hname', hwhole⟩
    split at hnamed
    · rename_i hpatternWhole
      cases hfind : (c.sought accepts).find? (spells t (String.ofList (ahead.take n))) with
      | none => exact absurd (by rw [hnamed, hfind]; rfl) hne
      | some first =>
        rw [hfind] at hnamed
        obtain rfl : s = first := eq_of_name_eq hsought hs (List.mem_of_find?_eq_some hfind) (hname'.trans hnamed)
        exact ⟨hpatternWhole, s, rfl, hwhole⟩
    · exact absurd hnamed hne
  · rintro ⟨hpatternWhole, s, hfind, hwhole⟩
    rw [if_pos hpatternWhole, hfind] at hnamed
    have hs := List.mem_of_find?_eq_some hfind
    obtain ⟨flags, hliteral⟩ := spells_eq_true (List.find?_some hfind)
    refine ⟨fun heq => ?_, s, hs, by rw [hliteral], hnamed.symm, hwhole⟩
    rw [eq_of_name_eq hsought hs ht (hnamed.symm.trans heq), hpattern] at hliteral
    cases hliteral

/-- Without the switches `i` and `x`, the first literal that is spelled like a folded one matches the same text. -/
theorem Folded.exists_spelled {text : String} {s t : Terminal} (hfolded : Folded c accepts text s t)
    (hd : (c.terminals.map (·.name)).Nodup) (h : ofPrepared c c.prepared allowEmpty accepts = .ok l)
    (hengine : c.engine.ReadsLiterals) (hglobal : ∀ f ∈ c.globalFlags.toList, Regex.isQuiet f)
    (hquiet : ∀ s' ∈ c.sought accepts, ∀ flags, s'.pattern = .literal text flags →
      ∀ f ∈ flags.toList, Regex.isQuiet f) :
    ∃ s', (c.sought accepts).find? (spells t text) = some s' ∧ MatchesWhole c s' text.toList := by
  cases hfind : (c.sought accepts).find? (spells t text) with
  | none =>
    refine absurd ?_ (List.find?_eq_none.1 hfind s hfolded.literal_mem)
    rw [spells, hfolded.literal_eq]
    simp [hfolded.priority_eq]
  | some s' =>
    have hs' := List.mem_of_find?_eq_some hfind
    obtain ⟨flags, hliteral⟩ := spells_eq_true (List.find?_some hfind)
    obtain ⟨m, hm⟩ := exists_matcher hd h hs'
    exact ⟨s', rfl, m, hm, (hengine _ _ _ _ _ hm hliteral (hquiet s' hs' _ hliteral) hglobal _).2 rfl⟩

/-- Let a literal be folded into a pattern, and let the pattern's entry be chosen for a text that the literal's own
matcher matches, too. The match gets the name of a literal whose matcher matches it, and not the pattern's, exactly if
the pattern matches it from start to end and the first literal of its priority that is spelled like it does. So it
always does where neither the literal, nor another one of the same spelling, nor all terminals have the switch `i` or
`x`, if the engine matches such literals as they are spelled. -/
theorem namesLiteral_iff_of_folded (hd : (c.terminals.map (·.name)).Nodup)
    (h : ofPrepared c c.prepared allowEmpty accepts = .ok l) {text : String} {s t : Terminal}
    (hfolded : Folded c accepts text s t) {ahead : List Char} {e : Entry} (he : l.chosen? ahead = some e)
    (hname : e.name = t.name) {name : String} {n : Nat} (hmatch : l.match? ahead = some (name, n))
    (hs : MatchesWhole c s (ahead.take n)) :
    (name ≠ t.name ∧ NamesLiteral c accepts name (ahead.take n) ↔
      e.matcher.matchesWhole (ahead.take n) = true ∧
        ∃ s', (c.sought accepts).find? (spells t (String.ofList (ahead.take n))) = some s' ∧
          MatchesWhole c s' (ahead.take n)) ∧
    (c.engine.ReadsLiterals → (∀ f ∈ c.globalFlags.toList, Regex.isQuiet f) →
      (∀ s' ∈ c.sought accepts, ∀ flags, s'.pattern = .literal text flags → ∀ f ∈ flags.toList, Regex.isQuiet f) →
      name ≠ t.name ∧ NamesLiteral c accepts name (ahead.take n)) := by
  obtain ⟨source, hpattern⟩ := hfolded.pattern_eq
  have hiff := namesLiteral_iff_of_match? hd h hfolded.pattern_mem hpattern he hname hmatch
  refine ⟨hiff, fun hengine hglobal hquiet => hiff.2 ?_⟩
  -- the literal's matcher matches its own text only
  obtain ⟨m, hm, hwhole⟩ := hs
  have hflags := hquiet s hfolded.literal_mem _ hfolded.literal_eq
  rw [hengine _ _ _ _ _ hm hfolded.literal_eq hflags hglobal] at hwhole
  rw [hwhole, String.ofList_toList]
  -- and the chosen entry's matcher is the pattern's, which matches this text, too
  obtain ⟨hmatcher, -⟩ := name_of_match? hd h hfolded.pattern_mem hpattern he hname hmatch
  obtain ⟨m', hm', hpatternWhole⟩ := hfolded.matchesWhole
  obtain rfl : m' = e.matcher := Except.ok.inj (hm'.symm.trans hmatcher)
  exact ⟨hpatternWhole, hfolded.exists_spelled hd h hengine hglobal hquiet⟩

/-! ## A letter among words -/

def article (flags : String) : Terminal := { name := "ARTICLE", pattern := .literal "a" flags }

def word (flags : String) : Terminal := { name := "WORD", pattern := .regex "a+" flags }

/-- The letter `a` and words of it. -/
def articleAndWords (flags : String) : LexerConfig where
  terminals := [article flags, word flags]
  ignore := []

theorem folded_article {flags : String} (h : MatchesWhole (articleAndWords flags) (word flags) ['a']) :
    Folded (articleAndWords flags) (fun _ => true) "a" (article flags) (word flags) where
  literal_mem := List.mem_cons_self ..
  pattern_mem := List.mem_cons_of_mem _ (List.mem_cons_self ..)
  literal_eq := rfl
  pattern_eq := ⟨"a+", rfl⟩
  priority_eq := rfl
  matchesWhole := h
  isFolded := by simp [Lexicon.isFolded, article, word, Pattern.flags]

/-- The letter, made ready. -/
def articleMatcher (letter : Regex.CharSet) : Matcher :=
  let one : Regex.Expr := .seq (.look .textStart) (.chars letter)
  .ofExprs one (.seq one (.look .textEnd)) 1 (some 1)

/-- Words of the letter, made ready. -/
def wordMatcher (letter : Regex.CharSet) : Matcher :=
  let run : Regex.Expr := .seq (.look .textStart) (.many true (.chars letter))
  .ofExprs run (.seq run (.look .textEnd)) 1 none

/-- Terminals that are made ready make a lexicon. -/
theorem ofConfig_articleAndWords {flags : String} {letter : Regex.CharSet}
    (harticle : Matcher.ofTerminal (article flags) "" = .ok (articleMatcher letter))
    (hword : Matcher.ofTerminal (word flags) "" = .ok (wordMatcher letter)) :
    ofConfig (articleAndWords flags) = ofPrepared (articleAndWords flags)
      [⟨article flags, .ok (articleMatcher letter)⟩, ⟨word flags, .ok (wordMatcher letter)⟩] false fun _ => true := by
  rw [← harticle, ← hword]
  rfl

/-- The letter is found among the words. -/
theorem namesLiteral_article : ∃ l e, ofConfig (articleAndWords "") = .ok l ∧ l.chosen? ['a'] = some e ∧
    e.name = "WORD" ∧ l.match? ['a'] = some ("ARTICLE", 1) ∧
      NamesLiteral (articleAndWords "") (fun _ => true) "ARTICLE" ['a'] := by
  have harticle : Matcher.ofTerminal (article "") "" = .ok (articleMatcher (.single 'a')) :=
    Matcher.ofTerminal_of_read (by cbv) rfl rfl (e := .chars (.single 'a')) rfl (by decide)
  have hword : Matcher.ofTerminal (word "") "" = .ok (wordMatcher (.single 'a')) :=
    Matcher.ofTerminal_of_read (by cbv) rfl rfl (e := .many true (.chars (.single 'a'))) rfl (by decide)
  have hlexicon : (ofPrepared (articleAndWords "")
      [⟨article "", .ok (articleMatcher (.single 'a'))⟩, ⟨word "", .ok (wordMatcher (.single 'a'))⟩]
      false fun _ => true).map (fun l => ((l.chosen? ['a']).map (·.name), l.match? ['a'])) =
      .ok (some "WORD", some ("ARTICLE", 1)) := by cbv
  obtain ⟨l, hl, hfacts⟩ := map_eq_ok.1 hlexicon
  obtain ⟨hchosen, hmatch⟩ := Prod.mk.injEq .. ▸ hfacts
  obtain ⟨e, he, hname⟩ := Option.map_eq_some_iff.1 hchosen
  rw [← ofConfig_articleAndWords harticle hword] at hl
  have hquiet : ∀ s ∈ [article "", word ""], ∀ flags, s.pattern = .literal "a" flags →
      ∀ f ∈ flags.toList, Regex.isQuiet f := by
    intro s hs flags hflags
    simp only [List.mem_cons, List.not_mem_nil, or_false] at hs
    rcases hs with rfl | rfl
    · cases hflags
      simp
    · cases hflags
  obtain ⟨-, hnames⟩ := (namesLiteral_iff_of_folded (by decide) hl (folded_article ⟨_, hword, rfl⟩) he hname hmatch
    ⟨_, harticle, rfl⟩).2 Matcher.readsLiterals_ofTerminal (by simp [articleAndWords]) hquiet
  exact ⟨l, e, hl, he, hname, hmatch, hnames⟩

/-- Folding adds the characters that members fold to, or that fold to the same as a member, and what folds to them. -/
theorem foldCase_eq {s : Regex.CharSet} {targets sources : List Nat}
    (htargets : (Unicode.foldPairs.filter fun p => s.ranges.any (fun r => r.1 ≤ p.1 && p.1 ≤ r.2) ||
      s.ranges.any fun r => r.1 ≤ p.2 && p.2 ≤ r.2).map (·.2) = targets)
    (hsources : (Unicode.foldPairs.filter fun p => targets.contains p.2).map (·.1) = sources) :
    s.foldCase = .ofRanges (s.ranges ++ (targets ++ sources).map fun n => (n, n)) := by
  subst htargets hsources
  rfl

theorem foldCase_a : (Regex.CharSet.single 'a').foldCase = ⟨[(65, 65), (97, 97)]⟩ := by
  have htargets : (Unicode.foldPairs.filter fun p => [(97, 97)].any (fun r => r.1 ≤ p.1 && p.1 ≤ r.2) ||
      [(97, 97)].any fun r => r.1 ≤ p.2 && p.2 ≤ r.2).map (·.2) = [97] := by decide +kernel
  have hsources : (Unicode.foldPairs.filter fun p => [97].contains p.2).map (·.1) = [65] := by decide +kernel
  rw [foldCase_eq (s := .single 'a') htargets hsources]
  cbv

/-- Where both ignore case, the letter's own matcher matches the capital, but it becomes a word. -/
theorem match?_capitalArticle : ∃ l e, ofConfig (articleAndWords "i") = .ok l ∧
    Folded (articleAndWords "i") (fun _ => true) "a" (article "i") (word "i") ∧ l.chosen? ['A'] = some e ∧
      e.name = "WORD" ∧ MatchesWhole (articleAndWords "i") (article "i") ['A'] ∧ l.match? ['A'] = some ("WORD", 1) := by
  have harticle : Matcher.ofTerminal (article "i") "" = .ok (articleMatcher ⟨[(65, 65), (97, 97)]⟩) := by
    refine Matcher.ofTerminal_of_read (by cbv) ?_ ?_ (e := .chars ⟨[(65, 65), (97, 97)]⟩) ?_ (by decide)
    all_goals
      rw [← foldCase_a]
      rfl
  have hword : Matcher.ofTerminal (word "i") "" = .ok (wordMatcher ⟨[(65, 65), (97, 97)]⟩) := by
    refine Matcher.ofTerminal_of_read (by cbv) ?_ ?_ (e := .many true (.chars ⟨[(65, 65), (97, 97)]⟩)) ?_ (by decide)
    all_goals
      rw [← foldCase_a]
      rfl
  have hlexicon : (ofPrepared (articleAndWords "i") [⟨article "i", .ok (articleMatcher ⟨[(65, 65), (97, 97)]⟩)⟩,
      ⟨word "i", .ok (wordMatcher ⟨[(65, 65), (97, 97)]⟩)⟩] false fun _ => true).map (fun l =>
        ((l.chosen? ['A']).map (·.name), l.match? ['A'])) = .ok (some "WORD", some ("WORD", 1)) := by cbv
  obtain ⟨l, hl, hfacts⟩ := map_eq_ok.1 hlexicon
  obtain ⟨hchosen, hmatch⟩ := Prod.mk.injEq .. ▸ hfacts
  obtain ⟨e, he, hname⟩ := Option.map_eq_some_iff.1 hchosen
  rw [← ofConfig_articleAndWords harticle hword] at hl
  exact ⟨l, e, hl, folded_article ⟨_, hword, rfl⟩, he, hname, ⟨_, harticle, rfl⟩, hmatch⟩

end Lexicon

end GrammarKit
