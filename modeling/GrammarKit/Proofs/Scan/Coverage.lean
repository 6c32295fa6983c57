/-
Scanners cover their window. A scanner is asked for tokens, in any state of the parser, and told to skip text, in any
order. Whatever it was asked, the characters that it has gone over are the pieces of its answers, one after the other:
tokens, matches of ignored terminals, and text that was skipped on request. Every token has the place of its piece in
the whole text, and the scanner stands at the place that follows from the text alone.
-/
import GrammarKit.Proofs.LR.Table
import GrammarKit.Proofs.Scan.Pieces
import GrammarKit.Scan.Source
import Mathlib

namespace GrammarKit

/-! ## Lexers of a configuration -/

/-- Terminals that are not accepted might as well not be there. -/
theorem Lexicon.ofPrepared_filter (c : LexerConfig) (prepared : List Prepared) (allowEmpty : Bool) (accepts : String → Bool) :
    ofPrepared c (prepared.filter (accepts ·.terminal.name)) allowEmpty (fun _ => true) =
      ofPrepared c prepared allowEmpty accepts := by
  unfold ofPrepared
  rw [List.filter_true]

/-- What is looked for in a state of the parser: what its context says, or everything. -/
def ContextualLexer.lexicon (l : ContextualLexer) (state : Option Nat) : Lexicon :=
  match state.bind (l.contexts[·]?) with
  | some context => context.lexicon
  | none => l.root

namespace Lexer

/-- The lexicon that a lexer goes by in a state of the parser. -/
def lexicon? (l : Lexer) (state : Option Nat) : Option Lexicon :=
  match l with
  | basic x => some x
  | contextual x => some (x.lexicon state)
  | custom _ => none

/-- A lexer that goes by the terminals of a configuration, whatever the state of the parser or depending on it. -/
inductive MadeFrom (c : LexerConfig) : Lexer → Prop
  | basic {x : Lexicon} (h : Lexicon.ofConfig c = .ok x) : MadeFrom c (.basic x)
  | restricted {x : Lexicon} (accepts : List String) (h : Lexicon.restricted c accepts = .ok x) :
    MadeFrom c (.basic x)
  | contextual {x : ContextualLexer} (states : List (List String)) (always : List String)
    (h : ContextualLexer.ofConfig c states always = .ok x) : MadeFrom c (.contextual x)

end Lexer

namespace ContextualLexer

variable {c : LexerConfig} {states : List (List String)} {always : List String} {l : ContextualLexer}

/-- What a state looks for are the terminals it takes, the ignored ones and those that are always looked for; names that
stand for no text make no difference. -/
theorem ofPrepared_sought (c : LexerConfig) (always accepts : List String) (allowEmpty : Bool) :
    Lexicon.ofPrepared c c.prepared allowEmpty (sought c always accepts).contains =
      Lexicon.ofPrepared c c.prepared allowEmpty (accepts ++ c.ignore ++ always).contains := by
  rw [← Lexicon.ofPrepared_filter,
    ← Lexicon.ofPrepared_filter c c.prepared allowEmpty (accepts ++ c.ignore ++ always).contains]
  refine congrArg (Lexicon.ofPrepared c · allowEmpty _) (List.filter_congr fun p hp => ?_)
  obtain ⟨t, ht, rfl⟩ := List.mem_map.1 hp
  have htext := List.mem_map_of_mem (f := Terminal.name) ht
  rw [Bool.eq_iff_iff, List.contains_iff_mem, List.contains_iff_mem, sought, mem_sortedNames]
  simp [htext]

/-- Sharing changes nothing: as long as every kept lexicon is the one that its names make, each state has the lexicon
that it would have on its own. -/
theorem contextsFor_eq (c : LexerConfig) (prepared : List Prepared) (always : List String) :
    ∀ (states : List (List String)) (made : List (List String × Lexicon)),
      (∀ names l, made.lookup names = some l → Lexicon.ofPrepared c prepared true names.contains = .ok l) →
      contextsFor c prepared always made states = states.mapM fun accepts => do
        return ⟨← Lexicon.ofPrepared c prepared true (sought c always accepts).contains, sortedNames accepts⟩
  | [], _, _ => rfl
  | accepts :: states, made, h => by
    rw [contextsFor, List.mapM_cons]
    cases hmade : made.lookup (sought c always accepts) with
    | some lexicon =>
      dsimp only
      rw [h _ _ hmade, contextsFor_eq c prepared always states made h]
      rfl
    | none =>
      dsimp only
      cases hnew : Lexicon.ofPrepared c prepared true (sought c always accepts).contains with
      | error f => rfl
      | ok lexicon =>
        have h' : ∀ names l, ((sought c always accepts, lexicon) :: made).lookup names = some l →
            Lexicon.ofPrepared c prepared true names.contains = .ok l := by
          intro names l hl
          rw [List.lookup_cons] at hl
          split at hl
          · rename_i heq
            cases hl
            rwa [eq_of_beq heq]
          · exact h names l hl
        have ih := contextsFor_eq c prepared always states _ h'
        simp only [bind, Except.bind]
        rw [ih]
        rfl

/-- There is a context for each state, in which the terminals are looked for that the state takes, the ignored ones and
those that are always looked for. -/
theorem ofConfig_eq_ok (h : ofConfig c states always = .ok l) : Lexicon.ofConfig c = .ok l.root ∧
    l.contexts.length = states.length ∧ ∀ (i : Nat) (accepts : List String), states[i]? = some accepts →
      ∃ context, l.contexts[i]? = some context ∧ context.expected = sortedNames accepts ∧
        Lexicon.ofPrepared c c.prepared true (accepts ++ c.ignore ++ always).contains = .ok context.lexicon := by
  obtain ⟨contexts, hcontexts, h⟩ := bind_eq_ok.1 h
  obtain ⟨root, hroot, h⟩ := bind_eq_ok.1 h
  cases h
  rw [contextsFor_eq c c.prepared always states [] (by simp)] at hcontexts
  obtain ⟨hlen, hall⟩ := mapM_ok hcontexts
  refine ⟨hroot, hlen, fun i accepts hi => ?_⟩
  obtain ⟨context, hcontext, hget⟩ := hall i accepts hi
  obtain ⟨lexicon, hlexicon, hcontext⟩ := bind_eq_ok.1 hcontext
  cases hcontext
  exact ⟨_, hget, rfl, ofPrepared_sought c always accepts true ▸ hlexicon⟩

/-- In every state the lexicon is one of the configuration. -/
theorem exists_ofPrepared (h : ofConfig c states always = .ok l) (state : Option Nat) :
    ∃ allowEmpty accepts, Lexicon.ofPrepared c c.prepared allowEmpty accepts = .ok (l.lexicon state) := by
  obtain ⟨hroot, hlen, hall⟩ := ofConfig_eq_ok h
  unfold lexicon
  split
  · rename_i context hcontext
    obtain ⟨i, -, hi⟩ := Option.bind_eq_some_iff.1 hcontext
    have hlt : i < states.length := hlen ▸ (List.getElem?_eq_some_iff.1 hi).1
    obtain ⟨context', hcontext', -, hlexicon⟩ := hall i _ (List.getElem?_eq_getElem hlt)
    obtain rfl := Option.some.inj (hi.symm.trans hcontext')
    exact ⟨_, _, hlexicon⟩
  · exact ⟨_, _, hroot⟩

/-- A token is what the lexicon of the state finds, and so is where the lexer is left. -/
theorem pull_eq (l : ContextualLexer) (state : Option Nat) (cursor : Cursor) :
    (l.pull state cursor).cursor = ((l.lexicon state).pull cursor).cursor ∧
      foundToken? (l.pull state cursor).result = foundToken? ((l.lexicon state).pull cursor).result := by
  unfold pull lexicon
  cases state.bind (l.contexts[·]?) with
  | none => exact ⟨rfl, rfl⟩
  | some context =>
    dsimp only
    split
    · rename_i h
      rw [h]
      exact ⟨rfl, rfl⟩
    · exact ⟨rfl, rfl⟩

end ContextualLexer

namespace Lexer

variable {c : LexerConfig} {l : Lexer}

/-- In every state a lexer goes by a lexicon of its configuration. -/
theorem MadeFrom.exists_lexicon (h : l.MadeFrom c) (state : Option Nat) : ∃ x, l.lexicon? state = some x ∧
    ∃ allowEmpty accepts, Lexicon.ofPrepared c c.prepared allowEmpty accepts = .ok x := by
  cases h with
  | basic h | restricted accepts h => exact ⟨_, rfl, _, _, h⟩
  | contextual states always h => exact ⟨_, rfl, ContextualLexer.exists_ofPrepared h state⟩

theorem pull_eq {state : Option Nat} {x : Lexicon} (hx : l.lexicon? state = some x) (cursor : Cursor) :
    (l.pull state cursor).cursor = (x.pull cursor).cursor ∧
      foundToken? (l.pull state cursor).result = foundToken? (x.pull cursor).result := by
  cases l with
  | basic y =>
    obtain rfl := Option.some.inj hx
    exact ⟨rfl, rfl⟩
  | contextual y =>
    obtain rfl := Option.some.inj hx
    exact y.pull_eq state cursor
  | custom y => cases hx

end Lexer

/-! ## Calls -/

namespace Scanner

/-- What a scanner may be asked. -/
inductive Call where
  /-- For the next token, in a state of the parser if there is one. -/
  | pull (state : Option Nat)
  | skipChar
  | skipTo (offset : Nat)

/-- The scanner after a call. -/
def after (s : Scanner) : Call → Scanner
  | .pull state => (TokenSource.pull s state).2
  | .skipChar => (TokenSource.skipChar s).getD s
  | .skipTo offset => (TokenSource.skipTo s offset).getD s

/-- The token that a call returns. -/
def token? (s : Scanner) : Call → Option Token
  | .pull state => foundToken? (TokenSource.pull s state).1
  | .skipChar | .skipTo _ => none

/-- The scanner after some calls. -/
def run (s : Scanner) (calls : List Call) : Scanner := calls.foldl after s

/-- The tokens that some calls return. -/
def returned (s : Scanner) : List Call → List Token
  | [] => []
  | call :: calls => (s.token? call).toList ++ (s.after call).returned calls

end Scanner

namespace Lexer

open Scanner (Call)

/-- The pieces that a call takes off a text from a byte offset on, and the text behind them: what the lexicon of the
state finds, one character, or the characters up to an offset further on. -/
inductive Takes (l : Lexer) (offset : Nat) : Call → List Char → List Piece → List Char → Prop
  | pull {state : Option Nat} {x : Lexicon} {text rest : List Char} {ps : List Piece} (hx : l.lexicon? state = some x)
    (h : x.Finds text ps rest) : Takes l offset (.pull state) text ps rest
  | skipChar {c : Char} {rest : List Char} : Takes l offset .skipChar (c :: rest) [.skipped [c]] rest
  | skipNothing : Takes l offset .skipChar [] [] []
  | skipTo {chars rest : List Char} (h : chars ≠ []) :
    Takes l offset (.skipTo (offset + Text.bytes chars)) (chars ++ rest) [.skipped chars] rest
  | noPlace {target : Nat} {text : List Char} (h : target ≤ offset ∨ Text.cutAt? (target - offset) text = none) :
    Takes l offset (.skipTo target) text [] text

/-- The pieces that calls take off a text, one call after the other. -/
inductive Reads (l : Lexer) : Nat → List Call → List Char → List Piece → List Char → Prop
  | nil {offset : Nat} {text : List Char} : Reads l offset [] text [] text
  | cons {offset : Nat} {call : Call} {calls : List Call} {text rest rest' : List Char} {ps qs : List Piece}
    (h : l.Takes offset call text ps rest) (k : Reads l (offset + Text.bytes (Piece.text ps)) calls rest qs rest') :
    Reads l offset (call :: calls) text (ps ++ qs) rest'

variable {l : Lexer} {offset : Nat} {text rest : List Char} {ps : List Piece}

theorem Takes.append_eq {call : Call} (h : l.Takes offset call text ps rest) : text = Piece.text ps ++ rest := by
  cases h with
  | pull _ h => exact h.append_eq
  | skipChar | skipNothing | noPlace => rfl
  | skipTo => simp [Piece.chars]

/-- Nothing is lost, and nothing is read twice. -/
theorem Reads.append_eq {calls : List Call} (h : l.Reads offset calls text ps rest) : text = Piece.text ps ++ rest := by
  induction h with
  | nil => rfl
  | cons h _ ih => rw [h.append_eq, ih, Piece.text_append, List.append_assoc]

end Lexer

namespace LexerConfig

/-- A stretch of text that a lexer of the configuration can go over: a match of a terminal, ignored or not, or what is
skipped. -/
def Allows (c : LexerConfig) : Lexer.Piece → Prop
  | .token terminal chars => chars ≠ [] ∧ Lexicon.NamesText c.terminals terminal ∧ terminal ∉ c.ignore
  | .ignored terminal chars => chars ≠ [] ∧ Lexicon.NamesText c.terminals terminal ∧ terminal ∈ c.ignore
  | .skipped chars => chars ≠ []

theorem allows_of_matches {c : LexerConfig} {x : Lexicon} {allowEmpty : Bool} {accepts : String → Bool}
    (h : Lexicon.ofPrepared c c.prepared allowEmpty accepts = .ok x) {p : Lexer.Piece} (hp : x.Matches p) :
    c.Allows p := by
  have hignore : x.ignore = c.ignore := (Lexicon.names_of_ofPrepared h).1
  have hne := hp.chars_ne_nil
  cases p with
  | token terminal chars | ignored terminal chars =>
    obtain ⟨hname, rest, hm⟩ := hp
    refine ⟨hne, Lexicon.namesText_of_match? h hm, ?_⟩
    simpa [Lexicon.isIgnored, hignore] using hname
  | skipped chars => exact hne

theorem Allows.chars_ne_nil {c : LexerConfig} {p : Lexer.Piece} (h : c.Allows p) : p.chars ≠ [] := by
  cases p with
  | token terminal chars | ignored terminal chars => exact h.1
  | skipped chars => exact h

end LexerConfig

/-! ## Scanners at work -/

namespace Scanner

open Lexer (Piece)

variable {c : LexerConfig} {s : Scanner} {w : Window} {before : List Char}

/-- A call takes pieces off the text ahead, returns the token among them, and leaves the scanner behind them. -/
def Serves (c : LexerConfig) (w : Window) (before : List Char) (s : Scanner) (call : Call) : Prop :=
  (s.after call).lexer = s.lexer ∧ ∃ ps,
    s.lexer.Takes (Text.bytes before) call s.cursor.ahead ps (s.after call).cursor.ahead ∧
    (s.after call).cursor.Behind w (before ++ Piece.text ps) ∧
    (s.token? call).toList = Piece.tokens w.text (Text.bytes before) ps ∧ ∀ p ∈ ps, c.Allows p

theorem serves_pull (hcallbacks : c.callbacks = []) (hl : s.lexer.MadeFrom c) (hb : s.cursor.Behind w before)
    (state : Option Nat) : Serves c w before s (.pull state) := by
  obtain ⟨x, hx, allowEmpty, accepts, hmade⟩ := hl.exists_lexicon state
  have hnone : x.callbacks = [] := (Lexicon.names_of_ofPrepared hmade).2.1.trans hcallbacks
  obtain ⟨hcursor, htoken⟩ := Lexer.pull_eq hx s.cursor
  obtain ⟨ps, hfinds, hbehind, htokens⟩ := x.pull_finds hnone s.cursor hb
  rw [← hcursor] at hfinds hbehind
  rw [← htoken] at htokens
  exact ⟨rfl, ps, .pull hx hfinds, hbehind, htokens, fun p hp =>
    LexerConfig.allows_of_matches hmade (hfinds.matches_of_mem p hp)⟩

/-- Nothing is taken where the scanner stays. -/
theorem serves_of_stays (hb : s.cursor.Behind w before) {call : Call} (hafter : s.after call = s)
    (htoken : s.token? call = none) (htakes : s.lexer.Takes (Text.bytes before) call s.cursor.ahead [] s.cursor.ahead) :
    Serves c w before s call := by
  refine ⟨by rw [hafter], [], by rwa [hafter], ?_, by rw [htoken]; rfl, by simp⟩
  rw [hafter]
  simpa using hb

/-- Characters that the scanner skips are taken as one piece. -/
theorem serves_of_skips (hb : s.cursor.Behind w before) {call : Call} {chars rest : List Char}
    (hahead : s.cursor.ahead = chars ++ rest) (hne : chars ≠ [])
    (hafter : s.after call = { s with cursor := s.cursor.advance chars.length }) (htoken : s.token? call = none)
    (htakes : s.lexer.Takes (Text.bytes before) call (chars ++ rest) [.skipped chars] rest) :
    Serves c w before s call := by
  have hrest : (s.cursor.advance chars.length).ahead = rest := by simp [Cursor.advance, hahead]
  refine ⟨by rw [hafter], [.skipped chars], ?_, ?_, by rw [htoken]; rfl, by simpa [LexerConfig.Allows] using hne⟩
  · rw [hafter, hahead, hrest]
    exact htakes
  · rw [hafter]
    simpa [Piece.chars] using hb.advance hahead

theorem serves_skipChar (hb : s.cursor.Behind w before) : Serves c w before s .skipChar := by
  have hafter : s.after .skipChar = ((s.cursor.skipChar.map fun c => { s with cursor := c }).getD s) := rfl
  cases hahead : s.cursor.ahead with
  | nil =>
    rw [Cursor.skipChar, hahead] at hafter
    exact serves_of_stays hb hafter rfl (hahead ▸ .skipNothing)
  | cons ch rest =>
    rw [Cursor.skipChar, hahead] at hafter
    exact serves_of_skips hb (show s.cursor.ahead = [ch] ++ rest from hahead) (by simp) hafter rfl .skipChar

theorem serves_skipTo (hb : s.cursor.Behind w before) (target : Nat) : Serves c w before s (.skipTo target) := by
  have hafter : s.after (.skipTo target) = ((s.cursor.skipTo target).map fun c => { s with cursor := c }).getD s := rfl
  by_cases hle : target ≤ s.cursor.offset
  · rw [Cursor.skipTo, if_pos hle] at hafter
    exact serves_of_stays hb hafter rfl (.noPlace (.inl (hb.offset_eq ▸ hle)))
  · rw [Cursor.skipTo, if_neg hle] at hafter
    cases hcut : Text.cutAt? (target - s.cursor.offset) s.cursor.ahead with
    | none =>
      rw [hcut] at hafter
      exact serves_of_stays hb hafter rfl (.noPlace (.inr (hb.offset_eq ▸ hcut)))
    | some cut =>
      obtain ⟨chars, rest⟩ := cut
      rw [hcut] at hafter
      obtain ⟨hahead, hbytes⟩ := Text.append_of_cutAt? hcut
      have hne : chars ≠ [] := by
        rintro rfl
        rw [Text.bytes] at hbytes
        omega
      have htarget : target = Text.bytes before + Text.bytes chars := by
        rw [hbytes, ← hb.offset_eq]
        omega
      exact serves_of_skips hb hahead hne hafter rfl (htarget ▸ .skipTo hne)

/-- A call takes its pieces off the text ahead, and the scanner is left behind them. -/
theorem call_serves (hcallbacks : c.callbacks = []) (hl : s.lexer.MadeFrom c) (hb : s.cursor.Behind w before) :
    ∀ call : Call, Serves c w before s call
  | .pull state => serves_pull hcallbacks hl hb state
  | .skipChar => serves_skipChar hb
  | .skipTo target => serves_skipTo hb target

/-- Calls take their pieces off the text ahead, one after the other. -/
theorem run_reads (hcallbacks : c.callbacks = []) : ∀ (calls : List Call) {s : Scanner} {before : List Char},
    s.lexer.MadeFrom c → s.cursor.Behind w before → ∃ ps,
      s.lexer.Reads (Text.bytes before) calls s.cursor.ahead ps (s.run calls).cursor.ahead ∧
      (s.run calls).cursor.Behind w (before ++ Piece.text ps) ∧
      s.returned calls = Piece.tokens w.text (Text.bytes before) ps ∧ ∀ p ∈ ps, c.Allows p
  | [], s, before, _, hb => ⟨[], .nil, by simpa [run] using hb, rfl, by simp⟩
  | call :: calls, s, before, hl, hb => by
    obtain ⟨hlexer, ps, htakes, hbehind, htokens, hps⟩ := call_serves hcallbacks hl hb call
    obtain ⟨qs, hreads, hbehind', htokens', hqs⟩ := run_reads hcallbacks calls (hlexer ▸ hl) hbehind
    rw [hlexer, Text.bytes_append] at hreads
    refine ⟨ps ++ qs, .cons htakes hreads, ?_, ?_, fun p hp => (List.mem_append.1 hp).elim (hps p) (hqs p)⟩
    · rw [Piece.text_append, ← List.append_assoc]
      exact hbehind'
    · rw [returned, htokens, htokens', Text.bytes_append, Piece.tokens_append]

/-- A scanner is drained by asking it for tokens as long as it returns one. -/
theorem drain_eq (s : Scanner) : (TokenSource.drain s).1 =
    (match s.token? (.pull none) with
      | some t => t :: (TokenSource.drain (s.after (.pull none))).1
      | none => []) := by
  rcases hp : TokenSource.pull s none with ⟨f | _ | t, s'⟩
  · rw [Earley.Chart.drain_error hp, token?, hp]
    rfl
  · rw [Earley.Chart.drain_ok_none hp, token?, hp]
    rfl
  · rw [Earley.Chart.drain_ok_some hp, token?, after, hp]
    rfl

/-- What comes of a scanner is what it returns for some calls. -/
theorem exists_returned_eq_drain (s : Scanner) : ∃ calls, s.returned calls = (TokenSource.drain s).1 := by
  induction hsize : TokenSource.size s using Nat.strong_induction_on generalizing s with
  | _ size ih =>
    rw [drain_eq]
    cases ht : s.token? (.pull none) with
    | none => exact ⟨[], rfl⟩
    | some t =>
      have hpull : (TokenSource.pull s none).1 = .ok (some t) := by
        rw [token?] at ht
        cases hr : (TokenSource.pull s none).1 with
        | error f => rw [hr] at ht; cases ht
        | ok t' => rw [hr] at ht; exact congrArg _ ht
      obtain ⟨calls, hcalls⟩ := ih _ (hsize ▸ TokenSource.size_pull_lt s none t hpull) _ rfl
      refine ⟨.pull none :: calls, ?_⟩
      rw [returned, ht, after, hcalls]
      rfl

theorem length_returned_le : ∀ (calls : List Call) (s : Scanner), (s.returned calls).length ≤ calls.length
  | [], _ => Nat.le_refl _
  | call :: calls, s => by
    have ih := length_returned_le calls (s.after call)
    have htoken : (s.token? call).toList.length ≤ 1 := by cases s.token? call <;> simp
    rw [returned, List.length_append, List.length_cons]
    omega

/-- A scanner that returns a token for each call and none after them has come to its end. -/
theorem drain_eq_returned : ∀ {n : Nat} {s : Scanner}, (s.returned (List.replicate n (.pull none))).length = n →
    (s.run (List.replicate n (.pull none))).token? (.pull none) = none →
      (TokenSource.drain s).1 = s.returned (List.replicate n (.pull none))
  | 0, s, _, hend => by
    rw [drain_eq, show s.token? (.pull none) = none from hend]
    rfl
  | n + 1, s, hlen, hend => by
    rw [List.replicate_succ, returned] at hlen ⊢
    have hle := length_returned_le (List.replicate n (.pull none)) (s.after (.pull none))
    rw [List.length_replicate] at hle
    rw [drain_eq]
    cases ht : s.token? (.pull none) with
    | none =>
      rw [ht, Option.toList_none, List.nil_append] at hlen
      omega
    | some t =>
      rw [ht, Option.toList_some, List.singleton_append, List.length_cons] at hlen
      exact congrArg (t :: ·) (drain_eq_returned (Nat.succ.inj hlen) hend)

/-- A scanner starts behind what is before its window. -/
theorem start_behind {l : Lexer} (hl : l.MadeFrom c) (w : Window) : (Scanner.start l w).cursor.Behind w w.before := by
  have hstart : (Scanner.start l w).cursor = .ofWindow w := by cases hl <;> rfl
  exact hstart ▸ .ofWindow w

/-- The tokens of a window follow each other. -/
theorem inOrder_drain (hcallbacks : c.callbacks = []) {l : Lexer} (hl : l.MadeFrom c) (w : Window) :
    Token.InOrder (TokenSource.drain (Scanner.start l w)).1 := by
  obtain ⟨calls, hcalls⟩ := exists_returned_eq_drain (Scanner.start l w)
  obtain ⟨ps, -, hb, htokens, hps⟩ := run_reads hcallbacks calls hl (start_behind hl w)
  have htext : w.text = w.before ++ (Piece.text ps ++ (((Scanner.start l w).run calls).cursor.ahead ++ w.after)) := by
    rw [hb.text_eq, List.append_assoc]
  rw [← hcalls, htokens]
  exact (Piece.inOrder_tokens htext fun p hp => (hps p hp).chars_ne_nil).1

end Scanner

/-- A window between two places shows the characters between them. -/
theorem Window.cut_eq_ok {text : List Char} {a b : Nat} {w : Window} (h : cut text a b = .ok w) :
    w.text = text ∧ Text.bytes w.before = a ∧ Text.bytes w.before + Text.bytes w.inside = b := by
  unfold cut at h
  split at h
  · rename_i before inside after hcut
    obtain rfl := Except.ok.inj h
    unfold Text.cut3? at hcut
    obtain ⟨_, hguard, hcut⟩ := Option.bind_eq_some_iff.1 hcut
    obtain ⟨⟨before', rest⟩, hbefore, hcut⟩ := Option.bind_eq_some_iff.1 hcut
    obtain ⟨⟨inside', after'⟩, hinside, hcut⟩ := Option.bind_eq_some_iff.1 hcut
    cases hcut
    have hle : a ≤ b := by
      by_contra hlt
      rw [guard, if_neg hlt] at hguard
      cases hguard
    obtain ⟨rfl, rfl⟩ := Text.append_of_cutAt? hbefore
    obtain ⟨rfl, hbytes⟩ := Text.append_of_cutAt? hinside
    exact ⟨List.append_assoc .., rfl, by dsimp only; omega⟩
  · cases h

/-- Whatever a scanner is asked in a window from byte `a` to byte `b` of a text, it stands between the two at a
character of the text, at the line and column that count from the start of the text, and every token that it returned
has the text and the place of its span. The characters that it went over are cut into pieces: the tokens that it
returned, in order, and between them matches of ignored terminals and what was skipped on request. -/
theorem Scanner.run_covers {c : LexerConfig} (hcallbacks : c.callbacks = []) {l : Lexer} (hl : l.MadeFrom c)
    {text : List Char} {a b : Nat} {w : Window} (hw : Window.cut text a b = .ok w) (calls : List Scanner.Call) :
    let s := Scanner.start l w
    let cursor := (s.run calls).cursor
    (a ≤ cursor.offset ∧ cursor.offset ≤ b ∧ Text.positionAt? text cursor.offset = some cursor.position) ∧
    (∀ t ∈ s.returned calls, t.StandsAt text) ∧
    ∃ ps, l.Reads a calls w.inside ps cursor.ahead ∧ w.inside = Lexer.Piece.text ps ++ cursor.ahead ∧
      s.returned calls = Lexer.Piece.tokens text a ps ∧ ∀ p ∈ ps, c.Allows p := by
  intro s cursor
  obtain ⟨rfl, rfl, rfl⟩ := Window.cut_eq_ok hw
  obtain ⟨ps, hreads, hb, htokens, hps⟩ := s.run_reads hcallbacks calls hl (start_behind hl w)
  have hahead : s.cursor.ahead = w.inside := by cases hl <;> rfl
  rw [hahead] at hreads
  have hinside := hreads.append_eq
  refine ⟨⟨?_, ?_, ?_⟩, fun t ht => ?_, ps, hreads, hinside, htokens, hps⟩
  · rw [hb.offset_eq, Text.bytes_append]
    omega
  · rw [hb.offset_eq, Text.bytes_append, hinside, Text.bytes_append]
    omega
  · rw [hb.offset_eq, Text.positionAt?, hb.text_eq, Text.cutAt?_append, hb.position_eq]
    rfl
  · have htext : w.text = w.before ++ (Lexer.Piece.text ps ++ (cursor.ahead ++ w.after)) := by
      rw [hb.text_eq, List.append_assoc]
    exact Lexer.Piece.standsAt_of_mem_tokens htext (htokens ▸ ht)

/-! ## Letters on lines -/

/-- Letters on lines of their own. -/
def letterLines : LexerConfig where
  terminals := [{ name := "LETTER", pattern := .literal "a" "" }, { name := "BREAK", pattern := .literal "\n" "" }]
  ignore := ["BREAK"]

/-- A window that begins within a line. A character that is no letter is skipped, and so is the end of its line. -/
theorem Scanner.run_covers_letterLines : ∃ x w, Lexicon.ofConfig letterLines = .ok x ∧
    Window.cut ['a', 'a', '\n', '?', '\n', 'a', 'a'] 1 6 = .ok w ∧
    let calls := [.pull none, .pull (some 0), .skipChar, .skipTo 4, .pull none]
    let s := Scanner.start (.basic x) w
    s.returned calls =
        [.ofText "LETTER" "a" (some ⟨1, 1, 2, 2, 1, 3⟩), .ofText "LETTER" "a" (some ⟨5, 3, 1, 6, 3, 2⟩)] ∧
      (∀ t ∈ s.returned calls, t.StandsAt ['a', 'a', '\n', '?', '\n', 'a', 'a']) ∧
      ∃ ps, (Lexer.basic x).Reads 1 calls w.inside ps (s.run calls).cursor.ahead ∧
        s.returned calls = Lexer.Piece.tokens ['a', 'a', '\n', '?', '\n', 'a', 'a'] 1 ps := by
  have hcut : Window.cut ['a', 'a', '\n', '?', '\n', 'a', 'a'] 1 6 =
      .ok ⟨['a'], ['a', '\n', '?', '\n', 'a'], ['a']⟩ := by cbv
  have hreturned : (Lexicon.ofConfig letterLines).map (fun x =>
      (Scanner.start (.basic x) ⟨['a'], ['a', '\n', '?', '\n', 'a'], ['a']⟩).returned
        [.pull none, .pull (some 0), .skipChar, .skipTo 4, .pull none]) =
      .ok [.ofText "LETTER" "a" (some ⟨1, 1, 2, 2, 1, 3⟩), .ofText "LETTER" "a" (some ⟨5, 3, 1, 6, 3, 2⟩)] := by cbv
  obtain ⟨x, hx, hreturned⟩ := map_eq_ok.1 hreturned
  obtain ⟨-, hstands, ps, hreads, -, htokens, -⟩ := Scanner.run_covers rfl (.basic hx) hcut
    [.pull none, .pull (some 0), .skipChar, .skipTo 4, .pull none]
  exact ⟨x, _, hx, hcut, hreturned, hstands, ps, hreads, htokens⟩

end GrammarKit
