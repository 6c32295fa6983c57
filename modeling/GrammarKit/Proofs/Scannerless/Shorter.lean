/-
What complete lexing finds. Besides the match that a terminal prefers in the text ahead, the terminal is matched in
each shorter piece of this text, and each time the match that is preferred there is taken. So a number of characters
that could be matched as a whole is missed where the pattern prefers to take fewer of them: `abc|a|ab` takes three
characters of `abc`, or one, but not two.
-/
import GrammarKit.Earley.Scannerless
import GrammarKit.Proofs.Closure
import GrammarKit.Proofs.Regex.Cut
import GrammarKit.Proofs.Scan.Anchored
import GrammarKit.Proofs.Scannerless.Parsing

namespace GrammarKit.Earley.Scannerless

open Regex (Expr)

variable {s : Scannerless} {terminal : String} {m : Matcher} {e : Expr} {text : List Char} {longest n : Nat}

theorem taken?_eq_some_iff : taken? m text = some n ↔ m.length? text = some n ∧ 0 < n := by
  simp [taken?, Option.filter_eq_some_iff]

theorem mem_lengths_iff (hcomplete : s.options.completeLexing = true) (hm : s.terminals.lookup terminal = some m)
    (hlongest : m.length? text = some longest) (hn : 0 < n) (hle : n ≤ longest) :
    n ∈ s.lengths terminal text ↔
      n = longest ∨ ∃ cut, n ≤ cut ∧ cut < longest ∧ m.length? (text.take cut) = some n := by
  have htaken : taken? m text = some longest := taken?_eq_some_iff.2 ⟨hlongest, by omega⟩
  have hmem : n ∈ s.lengths terminal text ↔
      n = longest ∨ ∃ cut < longest, m.length? (text.take cut) = some n := by
    simp only [lengths, hm, htaken, hcomplete, if_true, mem_fresh, List.mem_cons, List.mem_filterMap,
      List.mem_reverse, List.mem_range, taken?_eq_some_iff, hn, and_true, List.not_mem_nil, not_false_eq_true]
  have hcut : ∀ cut, m.length? (text.take cut) = some n → n ≤ cut := by
    intro cut h
    have := m.length?_le h
    rw [List.length_take] at this
    omega
  rw [hmem]
  refine or_congr_right (exists_congr fun cut => ?_)
  constructor
  · rintro ⟨hlt, h⟩
    exact ⟨hcut cut h, hlt, h⟩
  · rintro ⟨-, hlt, h⟩
    exact ⟨hlt, h⟩

/-- In a pattern that looks back only, the first `n` characters are among the choices if they are all that is
preferred in these `n` characters. -/
theorem mem_lengths_iff_of_looksBack (hcomplete : s.options.completeLexing = true)
    (hm : s.terminals.lookup terminal = some m) (hlongest : m.length? text = some longest) (hn : 0 < n)
    (hle : n ≤ longest) (he : m.GoesBy e) (hback : e.looksBack) :
    n ∈ s.lengths terminal text ↔ m.length? (text.take n) = some n := by
  rw [mem_lengths_iff hcomplete hm hlongest hn hle]
  rw [he.length?_eq] at hlongest ⊢
  constructor
  · rintro (rfl | ⟨cut, hcut, -, h⟩)
    · exact Expr.matchLength?_take_self hback hlongest
    · have := Expr.matchLength?_take_self hback h
      rwa [List.take_take, Nat.min_eq_left hcut] at this
  · intro h
    rcases Nat.eq_or_lt_of_le hle with heq | hlt
    · exact .inl heq
    · exact .inr ⟨n, Nat.le_refl n, hlt, h⟩

/-- With the engine that comes with it, every terminal of a parser goes by an expression. -/
theorem exists_goesBy_of_ofConfig {l : LexerConfig} {p : ParserConfig} {o : Options} (h : ofConfig l p o = .ok s)
    (hengine : l.engine = Matcher.ofTerminal) (hm : s.terminals.lookup terminal = some m) : ∃ e, m.GoesBy e := by
  obtain ⟨hready, -⟩ := ofConfig_eq_ok h
  obtain ⟨before, after, hterminals, -⟩ := List.lookup_eq_some_iff.1 hm
  refine foldlM_induction (I := fun _ ready => ∀ p ∈ ready, ∃ e, p.2.GoesBy e) ?_ _ [] [] _ (by simp) hready
    (terminal, m) (by simp [hterminals])
  -- each terminal is made ready by the engine
  intro _ t ready ready' hgoes hadd p hp
  obtain ⟨m, hm, hadd⟩ := bind_eq_ok.1 hadd
  rw [hengine] at hm
  split at hadd
  · cases hadd
  · cases hadd
    rcases List.mem_append.1 hp with hp | hp
    · exact hgoes p (List.mem_of_mem_filter hp)
    · rw [List.mem_singleton.1 hp]
      exact Matcher.exists_goesBy hm

/-- Of a text that a terminal matches at the start, let the first `n` characters be matched whole. With complete
lexing, taking them is among the choices exactly if they are all that is preferred to be taken, or all that is preferred
in a piece which has some more characters. Where the terminal goes by an expression that asks only for what stands
before a place, that is exactly if a match of fewer characters is never preferred to all matches of `n`. -/
theorem mem_lengths_iff_of_matchesWhole (hcomplete : s.options.completeLexing = true)
    (hm : s.terminals.lookup terminal = some m) (hlongest : m.length? text = some longest) (hn : 0 < n)
    (hle : n ≤ longest) (hwhole : m.matchesWhole (text.take n) = true) :
    (n ∈ s.lengths terminal text ↔
      n = longest ∨ ∃ cut, n ≤ cut ∧ cut < longest ∧ m.length? (text.take cut) = some n) ∧
    ∀ e, m.GoesBy e → e.looksBack → (n ∈ s.lengths terminal text ↔ ∀ k < n, ¬ e.Prefers text k n) := by
  refine ⟨mem_lengths_iff hcomplete hm hlongest hn hle, fun e he hback => ?_⟩
  have hlength : (text.take n).length = n := List.length_take_of_le (hle.trans (m.length?_le hlongest))
  -- some match ends after the first `n` characters, preferred or not
  have hsome : ∃ q ∈ e.ends (.start text), q.index = n := by
    rw [he.matchesWhole_eq, Expr.isSome_matchLength?_textEnd, hlength, Expr.ends_start_take hback] at hwhole
    obtain ⟨q, hq, hindex⟩ := hwhole
    obtain ⟨r, hr, rfl⟩ := List.mem_map.1 hq
    exact ⟨r, (List.mem_filter.1 hr).1, hindex⟩
  rw [mem_lengths_iff_of_looksBack hcomplete hm hlongest hn hle he hback, he.length?_eq]
  exact Expr.matchLength?_take_eq_iff hback hsome

/-- Words. -/
def words : LexerConfig where
  terminals := [{ name := "WORD", pattern := .regex "[a-z]+" "" }]
  ignore := []

/-- Two words, one right after the other. -/
def wordPair : List Rule := [⟨"start", [⟨.terminal "WORD", false⟩, ⟨.terminal "WORD", false⟩], 0, none, {}⟩]

/-- A run of letters at the start of a text. -/
def lettersRun : Expr := .seq (.look .textStart) (.many true (.chars ⟨[(97, 122)]⟩))

/-- Words, made ready. -/
def wordMatcher : Matcher := .ofExprs lettersRun (.seq lettersRun (.look .textEnd)) 1 none

/-- A word of two letters is found at the start of three. -/
theorem mem_lengths_words : ∃ s, ofConfig words ⟨wordPair, {}, ["start"], false⟩ { completeLexing := true } = .ok s ∧
    s.terminals = [("WORD", wordMatcher)] ∧ wordMatcher.matchesWhole ['a', 'b'] = true ∧
      2 ∈ s.lengths "WORD" ['a', 'b', 'c'] ∧ ∀ k < 2, ¬ lettersRun.Prefers ['a', 'b', 'c'] k 2 := by
  have h : (ofConfig words ⟨wordPair, {}, ["start"], false⟩ { completeLexing := true }).map (fun s =>
      (s.options.completeLexing, s.terminals)) = .ok (true, [("WORD", wordMatcher)]) := by cbv
  obtain ⟨s, hs, hfacts⟩ := map_eq_ok.1 h
  obtain ⟨hcomplete, hterminals⟩ := Prod.mk.injEq .. ▸ hfacts
  have hm : s.terminals.lookup "WORD" = some wordMatcher := by rw [hterminals]; rfl
  have hlongest : wordMatcher.length? ['a', 'b', 'c'] = some 3 := rfl
  have hwhole : wordMatcher.matchesWhole (['a', 'b', 'c'].take 2) = true := rfl
  obtain ⟨hany, hback⟩ :=
    mem_lengths_iff_of_matchesWhole hcomplete hm hlongest (by decide : 0 < 2) (by decide) hwhole
  have hmem := hany.2 (.inr ⟨2, by decide, by decide, rfl⟩)
  exact ⟨s, hs, hterminals, hwhole, hmem, (hback lettersRun ⟨rfl, fun _ => rfl⟩ rfl).1 hmem⟩

/-- A pattern that prefers one character to two. -/
def oneBeforeTwo : LexerConfig where
  terminals := [{ name := "W", pattern := .regex "abc|a|ab" "" }, { name := "C", pattern := .literal "c" "" }]
  ignore := []

/-- Two characters could be taken, and are not. -/
theorem not_mem_lengths_oneBeforeTwo : ∃ s m,
    ofConfig oneBeforeTwo ⟨[⟨"start", [⟨.terminal "W", false⟩, ⟨.terminal "C", false⟩], 0, none, {}⟩], {}, ["start"],
      false⟩ { completeLexing := true } = .ok s ∧ s.terminals.lookup "W" = some m ∧
      m.length? ['a', 'b', 'c'] = some 3 ∧ m.matchesWhole ['a', 'b'] = true ∧ 2 ∉ s.lengths "W" ['a', 'b', 'c'] := by
  have h : (ofConfig oneBeforeTwo ⟨[⟨"start", [⟨.terminal "W", false⟩, ⟨.terminal "C", false⟩], 0, none, {}⟩], {},
      ["start"], false⟩ { completeLexing := true }).map (fun s =>
        (s.lengths "W" ['a', 'b', 'c'], (s.terminals.lookup "W").map fun m =>
          (m.length? ['a', 'b', 'c'], m.matchesWhole ['a', 'b']))) = .ok ([3, 1], some (some 3, true)) := by cbv
  obtain ⟨s, hs, hfacts⟩ := map_eq_ok.1 h
  obtain ⟨hlengths, hmatcher⟩ := Prod.mk.injEq .. ▸ hfacts
  obtain ⟨m, hm, hmatches⟩ := Option.map_eq_some_iff.1 hmatcher
  obtain ⟨hlongest, hwhole⟩ := Prod.mk.injEq .. ▸ hmatches
  exact ⟨s, m, hs, hm, hlongest, hwhole, by rw [hlengths]; decide⟩

end GrammarKit.Earley.Scannerless
