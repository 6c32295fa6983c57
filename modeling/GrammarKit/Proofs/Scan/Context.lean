/-
Tokens in context. Two parts that are made one by one have to agree here: a table says which terminals a state has moves
for, and of the lexicons of a contextual lexer the one at this state looks for those. So the tokens of the lexer are
tokens that the table has moves for, also where a match is given the name of a literal. Where the lexicon of the state
finds nothing, but the lexicon of all terminals does, the failure is about that token, and says what the table has moves
for.
-/
import GrammarKit.Proofs.LR.Calls
import GrammarKit.Proofs.LR.Session
import GrammarKit.Proofs.Scan.Coverage
import Mathlib

namespace GrammarKit

/-! ## What a lexicon accepts -/

namespace Lexicon

variable {l : Lexicon}

/-- What a lexicon matches is named after a terminal that is accepted. -/
theorem accepts_of_match? {c : LexerConfig} {prepared : List Prepared} {allowEmpty : Bool} {accepts : String → Bool}
    (h : ofPrepared c prepared allowEmpty accepts = .ok l) {text : List Char} {name : String} {n : Nat}
    (hm : l.match? text = some (name, n)) : accepts name = true := by
  rw [← ofPrepared_filter] at h
  obtain ⟨p, hp, rfl⟩ := exists_prepared_of_match? h hm
  exact (List.mem_filter.1 hp).2

/-- The token of a match is not empty. -/
theorem exists_text_of_match? {cursor : Cursor} {name : String} {n : Nat}
    (hm : l.match? cursor.ahead = some (name, n)) :
    ∃ text, (tokenAt cursor name n).text? = some text ∧ text ≠ "" := by
  obtain ⟨hpos, hle⟩ := match?_eq_some hm
  refine ⟨.ofList (cursor.ahead.take n), rfl, fun hempty => ?_⟩
  have hlength := congrArg String.length hempty
  rw [String.length_ofList, List.length_take, Nat.min_eq_left hle] at hlength
  exact absurd hlength (Nat.pos_iff_ne_zero.1 hpos)

/-- A match that is not ignored is the next token. -/
theorem result_pull_of_match? {cursor : Cursor} {name : String} {n : Nat}
    (hm : l.match? cursor.ahead = some (name, n)) (hcallbacks : l.callbacks = []) (hkept : l.isIgnored name = false) :
    (l.pull cursor).result = .ok (some (tokenAt cursor name n)) := by
  obtain ⟨hpos, hle⟩ := match?_eq_some hm
  have hne : cursor.ahead ≠ [] := List.length_pos_iff.1 (hpos.trans_le hle)
  obtain ⟨n, rfl⟩ := Nat.exists_eq_add_one_of_ne_zero (Nat.pos_iff_ne_zero.1 hpos)
  exact (pull_match hne hm hcallbacks hkept).1

end Lexicon

/-! ## What a table accepts -/

/-- A lexer may look for the terminals that the state has moves for. -/
theorem LR.Table.mem_accepted {t : Table} {state : Nat} {accepts : List String} (h : t.accepted[state]? = some accepts)
    {a : String} : a ∈ accepts ↔ (∃ m, t.move? state a = some m) ∧ a ≠ endMarker := by
  unfold accepted at h
  rw [List.getElem?_map] at h
  obtain ⟨row, hrow, rfl⟩ := Option.map_eq_some_iff.1 h
  rw [List.mem_filter, ← Table.mem_expected, expected, mem_sortedNames, terminals, hrow]
  simp

/-! ## Contextual lexers -/

namespace ContextualLexer

variable {l : ContextualLexer} {state : Nat} {context : LexContext}

/-- Where the full lexicon finds a token, the failure is about this token. -/
theorem misplaced_eq_unexpectedToken {expected names : List String} {stop : Cursor} {x : Lexicon} {token : Token}
    {note : Option String}
    (h : l.misplaced expected stop (x.unexpected stop) = .unexpectedToken token names note) :
    ∃ n, l.root.match? stop.ahead = some (token.kind, n) ∧ l.root.isIgnored token.kind = false ∧
      token = Lexicon.tokenAt stop token.kind n ∧ names = sortedNames expected := by
  unfold misplaced at h
  split at h
  · rename_i name n hm
    split at h
    · cases h
    · rename_i hname
      cases h
      exact ⟨n, hm, by simpa [Lexicon.tokenAt, Token.ofText] using hname, rfl, rfl⟩
  · cases h

theorem lexicon_of_context (h : l.contexts[state]? = some context) : l.lexicon (some state) = context.lexicon := by
  unfold lexicon
  rw [Option.bind_some, h]

/-- What the lexicon of the state pulls is pulled, but for failures that the full lexicon explains. -/
theorem pull_of_context (h : l.contexts[state]? = some context) (cursor : Cursor) :
    (l.pull (some state) cursor).cursor = (context.lexicon.pull cursor).cursor ∧
      (∀ t, (context.lexicon.pull cursor).result = .ok t → (l.pull (some state) cursor).result = .ok t) ∧
      ∀ a b d e f, (context.lexicon.pull cursor).result = .error (.parse (.unexpectedCharacters a b d e f)) →
        (l.pull (some state) cursor).result = .error (.parse (l.misplaced context.expected
          (context.lexicon.pull cursor).cursor (.unexpectedCharacters a b d e f))) := by
  have hcontext : (some state).bind (l.contexts[·]?) = some context := h
  unfold pull
  rw [hcontext]
  dsimp only
  split
  · rename_i hr
    refine ⟨rfl, fun t ht => ?_, fun a b d e f hf => ?_⟩
    · cases hr.symm.trans ht
    · cases hr.symm.trans hf
      rfl
  · rename_i hr
    exact ⟨rfl, fun t ht => ht, fun a b d e f hf => absurd hf (hr a b d e f)⟩

/-- In every state of a table, the tokens of the lexer for the table are those of terminals that the state has moves for
and that are not ignored. A token that is refused is the one that the lexicon of all terminals finds at the place where
the lexer stopped, over matches of ignored terminals only. It is not empty, and what is expected instead are all
terminals that the state has moves for, sorted. -/
theorem pull_accepted {c : LexerConfig} (hcallbacks : c.callbacks = []) {t : LR.Table}
    (hl : ofConfig c t.accepted [] = .ok l) (hstate : state < t.rows.length) (cursor : Cursor) :
    let p := l.pull (some state) cursor
    (∀ token, p.result = .ok (some token) → (∃ m, t.move? state token.kind = some m) ∧ token.kind ∉ c.ignore) ∧
    ∀ token expected note, p.result = .error (.parse (.unexpectedToken token expected note)) →
      (∃ full n, Lexicon.ofConfig c = .ok full ∧ full.match? p.cursor.ahead = some (token.kind, n) ∧
        token = Lexicon.tokenAt p.cursor token.kind n ∧ (full.pull p.cursor).result = .ok (some token) ∧
        (l.lexicon (some state)).Passes cursor p.cursor) ∧
      (∃ text, token.text? = some text ∧ text ≠ "") ∧
      expected.Pairwise (· < ·) ∧ ∀ a, a ∈ expected ↔ (∃ m, t.move? state a = some m) ∧ a ≠ endMarker := by
  obtain ⟨hroot, -, hall⟩ := ofConfig_eq_ok hl
  have hlt : state < t.accepted.length := by rwa [LR.Table.accepted, List.length_map]
  obtain ⟨context, hcontext, hexpected, hmade⟩ := hall state _ (List.getElem?_eq_getElem hlt)
  have haccepted : ∀ {a : String}, a ∈ t.accepted[state] ↔ (∃ m, t.move? state a = some m) ∧ a ≠ endMarker :=
    LR.Table.mem_accepted (List.getElem?_eq_getElem hlt)
  obtain ⟨hignore, hnone, -⟩ := Lexicon.names_of_ofPrepared hmade
  obtain ⟨stop, hpasses, hpulls⟩ := context.lexicon.pull_pulls (hnone.trans hcallbacks) cursor
  obtain ⟨hcursor, hok, hrefused⟩ := pull_of_context hcontext cursor
  dsimp only
  rw [hcursor, lexicon_of_context hcontext]
  generalize (context.lexicon.pull cursor).result = r, (context.lexicon.pull cursor).cursor = left at *
  cases hpulls with
  | ended h =>
    rw [hok _ rfl]
    constructor
    · rintro token ⟨⟩
    · rintro token expected note ⟨⟩
  | @found name n h hkept =>
    rw [hok _ rfl]
    refine ⟨fun token htoken => ?_, by rintro token expected note ⟨⟩⟩
    obtain rfl := Option.some.inj (Except.ok.inj htoken)
    have hname : name ∉ c.ignore := by simpa [Lexicon.isIgnored, hignore] using hkept
    have hsought := Lexicon.accepts_of_match? hmade h
    rw [List.contains_iff_mem, List.append_nil, List.mem_append] at hsought
    exact ⟨(haccepted.1 (hsought.resolve_right hname)).1, hname⟩
  | refused =>
    rw [hrefused _ _ _ _ _ rfl]
    refine ⟨by rintro token ⟨⟩, fun token expected note hfailure => ?_⟩
    obtain ⟨n, hm, hkept, htoken, rfl⟩ := misplaced_eq_unexpectedToken (Failure.parse.inj (Except.error.inj hfailure))
    have hrootless : l.root.callbacks = [] := (Lexicon.names_of_ofPrepared hroot).2.1.trans hcallbacks
    have hpull : (l.root.pull stop).result = .ok (some token) := by
      rw [Lexicon.result_pull_of_match? hm hrootless hkept, ← htoken]
    have htext : ∃ text, token.text? = some text ∧ text ≠ "" := htoken ▸ Lexicon.exists_text_of_match? hm
    refine ⟨⟨l.root, n, hroot, hm, htoken, hpull, hpasses⟩, htext, pairwise_sortedNames _, fun a => ?_⟩
    rw [mem_sortedNames, hexpected, mem_sortedNames, haccepted]

end ContextualLexer

/-! ## Sums -/

/-- The terminals of sums, where spaces are ignored. -/
def spacedSums : LexerConfig where
  terminals := [{ name := "PLUS", pattern := .literal "+" "" }, { name := "NUMBER", pattern := .literal "1" "" },
    { name := "SPACE", pattern := .literal " " "" }]
  ignore := ["SPACE"]

/-- Matches one character. -/
def Matcher.oneCharacter (c : Char) : Matcher :=
  let one : Regex.Expr := .seq (.look .textStart) (.chars ⟨[(c.toNat, c.toNat)]⟩)
  .ofExprs one (.seq one (.look .textEnd)) 1 (some 1)

theorem prepared_spacedSums : spacedSums.prepared =
    spacedSums.terminals.zipWith (fun t c => ⟨t, .ok (.oneCharacter c)⟩) ['+', '1', ' '] := by cbv

/-- Numbers and pluses come before spaces. -/
def spacedSumsLexicon : Lexicon where
  entries := [⟨"NUMBER", .oneCharacter '1', []⟩, ⟨"PLUS", .oneCharacter '+', []⟩, ⟨"SPACE", .oneCharacter ' ', []⟩]
  ignore := ["SPACE"]
  callbacks := []

theorem Lexicon.ofConfig_spacedSums : ofConfig spacedSums = .ok spacedSumsLexicon := by
  rw [ofConfig, prepared_spacedSums]
  cbv

/-- Before a sum there may be a number, but no plus. -/
theorem ContextualLexer.pull_accepted_sums : LR.Table.build LR.sums ["sum"] true = .ok LR.sumsTable ∧
    ∃ l, ofConfig spacedSums LR.sumsTable.accepted [] = .ok l ∧
      (∃ token, (l.pull (some 0) (.ofWindow (.whole [' ', '1']))).result = .ok (some token) ∧
        ∃ m, LR.sumsTable.move? 0 token.kind = some m) ∧
      ∃ token expected note, (l.pull (some 0) (.ofWindow (.whole [' ', '+']))).result =
          .error (.parse (.unexpectedToken token expected note)) ∧ token.kind = "PLUS" ∧
        ∀ a, a ∈ expected ↔ (∃ m, LR.sumsTable.move? 0 a = some m) ∧ a ≠ endMarker := by
  have hfacts : (ofConfig spacedSums LR.sumsTable.accepted []).map (fun l => l.contexts[0]?.map fun x =>
      ((x.lexicon.pull (.ofWindow (.whole [' ', '1']))).result, (x.lexicon.pull (.ofWindow (.whole [' ', '+']))).result,
        l.misplaced x.expected (x.lexicon.pull (.ofWindow (.whole [' ', '+']))).cursor
          (.unexpectedCharacters '+' 1 1 2 ["NUMBER"]))) =
      .ok (some (.ok (some (.ofText "NUMBER" "1" (some ⟨1, 1, 2, 2, 1, 3⟩))),
        .error (.parse (.unexpectedCharacters '+' 1 1 2 ["NUMBER"])),
        .unexpectedToken (.ofText "PLUS" "+" (some ⟨1, 1, 2, 2, 1, 3⟩)) ["NUMBER"] none)) := by
    rw [ofConfig, prepared_spacedSums]
    cbv
  obtain ⟨l, hl, hfacts⟩ := map_eq_ok.1 hfacts
  obtain ⟨x, hx, hfacts⟩ := Option.map_eq_some_iff.1 hfacts
  simp only [Prod.mk.injEq] at hfacts
  obtain ⟨hnumber, hplus, hmisplaced⟩ := hfacts
  have hfound := (pull_of_context hx _).2.1 _ hnumber
  have hrefused := (pull_of_context hx _).2.2 _ _ _ _ _ hplus
  rw [hmisplaced] at hrefused
  have hstate : 0 < LR.sumsTable.rows.length := by decide
  exact ⟨LR.build_sums, l, hl, ⟨_, hfound, ((pull_accepted rfl hl hstate _).1 _ hfound).1⟩,
    _, _, _, hrefused, rfl, ((pull_accepted rfl hl hstate _).2 _ _ _ hrefused).2.2.2⟩

end GrammarKit
