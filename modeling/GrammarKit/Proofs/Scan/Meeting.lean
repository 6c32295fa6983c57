/-
Where a lexer stops. Whatever it is asked, it goes over matches of ignored terminals first. Behind them it meets the end
of its window, a token, or a failure, and the failure is about characters that stand there: about a token of them, or
about the first one. After a failure the lexer still stands before these characters, and it is never told in vain to go
on behind them.
-/
import GrammarKit.LR.Recovery
import GrammarKit.Pipeline.Text
import GrammarKit.Proofs.Scan.Context

namespace GrammarKit

/-! ## Cursors that go on -/

namespace Cursor

variable {c : Cursor} {chars rest : List Char}

/-- The next character can be skipped. -/
theorem skipChar_of_ahead {ch : Char} (h : c.ahead = ch :: rest) : c.skipChar = some (c.advance 1) := by
  rw [skipChar, h]
  rfl

/-- Characters ahead can be skipped to their end. -/
theorem skipTo_of_ahead (h : c.ahead = chars ++ rest) (hne : chars ≠ []) :
    c.skipTo (c.offset + Text.bytes chars) = some (c.advance chars.length) := by
  have hpos := Text.bytes_pos hne
  rw [skipTo, if_neg (by omega), Nat.add_sub_cancel_left, h, Text.cutAt?_append]
  rfl

namespace Behind

variable {w : Window} {before passed : List Char}

theorem inside_eq (h : c.Behind w (w.before ++ passed)) : w.inside = passed ++ c.ahead := by
  have htext := h.text_eq
  rw [Window.text, List.append_assoc, List.append_assoc, List.append_cancel_left_eq, ← List.append_assoc,
    List.append_cancel_right_eq] at htext
  exact htext

/-- A cursor stands between two characters of the text. -/
theorem positionAt?_eq (h : c.Behind w before) : Text.positionAt? w.text c.offset = some c.position := by
  rw [h.offset_eq, Text.positionAt?, h.text_eq, Text.cutAt?_append, h.position_eq]
  rfl

end Behind

end Cursor

/-- A lexicon is left behind the matches that it goes over. -/
theorem Lexicon.Passes.behind {x : Lexicon} {w : Window} {cursor stop : Cursor} (h : x.Passes cursor stop) :
    ∀ {before : List Char}, cursor.Behind w before → ∃ passed, stop.Behind w (before ++ passed) := by
  induction h with
  | stay => exact fun hb => ⟨[], by simpa using hb⟩
  | past hm _ _ ih =>
    intro before hb
    obtain ⟨chars, rest, hahead, rfl, -⟩ := Lexicon.exists_append_of_match? hm
    obtain ⟨passed, hstop⟩ := ih (hb.advance hahead)
    exact ⟨chars ++ passed, by rwa [← List.append_assoc]⟩

/-! ## Failures and their places -/

namespace ParseFailure

/-- The byte offset of what a failure is about; the end of the input has none. -/
def offset? : ParseFailure → Option Nat
  | unexpectedToken t _ _ => t.span.map (·.start)
  | unexpectedCharacters _ offset .. => some offset
  | unexpectedEnd _ => none

/-- A failure is about characters at a cursor: about a token of them, or about the only one of them. -/
inductive About (c : Cursor) : ParseFailure → List Char → Prop
  | token {t : Token} {chars : List Char} {names : List String} {note : Option String}
    (hspan : t.span = some (c.position.spanOf chars)) : About c (.unexpectedToken t names note) chars
  | character {ch : Char} {names : List String} :
    About c (.unexpectedCharacters ch c.position.offset c.position.line c.position.column names) [ch]

/-- The token that is refused. -/
def refused? : ParseFailure → Option Token
  | .unexpectedToken t _ _ => some t
  | _ => none

theorem About.offset?_eq {c : Cursor} {f : ParseFailure} {chars : List Char} (h : f.About c chars) :
    f.offset? = some c.offset := by
  cases h with
  | token hspan =>
    rw [offset?, hspan]
    rfl
  | character => rfl

end ParseFailure

/-! ## Lexers that stop -/

namespace Lexer

/-- What a lexer meets at the place where it stops, and where it is left. -/
inductive Meets (stop : Cursor) : Outcome (Option Token) → Cursor → Prop
  | ended (h : stop.ahead = []) : Meets stop (.ok none) stop
  | token {t : Token} {chars rest : List Char} (hahead : stop.ahead = chars ++ rest) (hne : chars ≠ [])
    (hspan : t.span = some (stop.position.spanOf chars)) :
    Meets stop (.ok (some t)) { stop.advance chars.length with last := some t }
  | failed {f : ParseFailure} {chars rest : List Char} (hahead : stop.ahead = chars ++ rest) (hne : chars ≠ [])
    (hf : f.About stop chars) : Meets stop (.error (.parse f)) stop

variable {stop left : Cursor} {result : Outcome (Option Token)}

/-- A match is a stretch of characters, with a token that has its span. -/
theorem exists_chars_of_match? {x : Lexicon} {name : String} {n : Nat} (hm : x.match? stop.ahead = some (name, n)) :
    ∃ chars rest, stop.ahead = chars ++ rest ∧ chars ≠ [] ∧ chars.length = n ∧
      (Lexicon.tokenAt stop name n).span = some (stop.position.spanOf chars) := by
  obtain ⟨chars, rest, hahead, hlength, -⟩ := Lexicon.exists_append_of_match? hm
  have hpos := (Lexicon.match?_eq_some hm).1
  refine ⟨chars, rest, hahead, List.length_pos_iff.1 (hlength ▸ hpos), hlength, ?_⟩
  rw [Lexicon.tokenAt, hahead, ← hlength, List.take_left]
  rfl

theorem meets_of_unexpected (x : Lexicon) (hne : stop.ahead ≠ []) :
    Meets stop (.error (.parse (x.unexpected stop))) stop := by
  obtain ⟨ch, rest, hahead⟩ := List.exists_cons_of_ne_nil hne
  have habout : (x.unexpected stop).About stop [ch] := by
    rw [Lexicon.unexpected, hahead]
    exact .character
  exact .failed hahead (List.cons_ne_nil _ _) habout

theorem meets_of_pulls {x : Lexicon} (h : x.Pulls stop result left) : Meets stop result left := by
  cases h with
  | ended h => exact .ended h
  | found h _ =>
    obtain ⟨chars, rest, hahead, hne, rfl, hspan⟩ := exists_chars_of_match? h
    exact .token hahead hne hspan
  | refused hne _ => exact meets_of_unexpected x hne

/-- Where the full lexicon explains a failure, it is about the token that this finds there. -/
theorem meets_of_misplaced (y : ContextualLexer) (expected : List String) (x : Lexicon) (hne : stop.ahead ≠ []) :
    Meets stop (.error (.parse (y.misplaced expected stop (x.unexpected stop)))) stop := by
  unfold ContextualLexer.misplaced
  split
  · rename_i name n hm
    split
    · exact meets_of_unexpected x hne
    · obtain ⟨chars, rest, hahead, hne, -, hspan⟩ := exists_chars_of_match? hm
      exact .failed hahead hne (.token hspan)
  · exact meets_of_unexpected x hne

section Behind

variable {cursor : Cursor} {w : Window} {before : List Char} (hb : cursor.Behind w before)
include hb

theorem lexicon_meets {x : Lexicon} (hx : x.callbacks = []) : ∃ stop passed, stop.Behind w (before ++ passed) ∧
    Meets stop (x.pull cursor).result (x.pull cursor).cursor := by
  obtain ⟨stop, hpasses, hpulls⟩ := x.pull_pulls hx cursor
  obtain ⟨passed, hstop⟩ := hpasses.behind hb
  exact ⟨stop, passed, hstop, meets_of_pulls hpulls⟩

/-- In a state with a context, the lexer stops where the lexicon of the state stops. -/
theorem context_meets {y : ContextualLexer} {state : Nat} {context : LexContext}
    (hcontext : y.contexts[state]? = some context) (hx : context.lexicon.callbacks = []) :
    ∃ stop passed, stop.Behind w (before ++ passed) ∧
      Meets stop (y.pull (some state) cursor).result (y.pull (some state) cursor).cursor := by
  obtain ⟨stop, hpasses, hpulls⟩ := context.lexicon.pull_pulls hx cursor
  obtain ⟨passed, hstop⟩ := hpasses.behind hb
  obtain ⟨hcursor, hok, hrefused⟩ := ContextualLexer.pull_of_context hcontext cursor
  refine ⟨stop, passed, hstop, ?_⟩
  rw [hcursor]
  generalize (context.lexicon.pull cursor).result = r, (context.lexicon.pull cursor).cursor = left at *
  cases hpulls with
  | ended h =>
    rw [hok _ rfl]
    exact .ended h
  | found h hkept =>
    rw [hok _ rfl]
    exact meets_of_pulls (.found h hkept)
  | refused hne =>
    rw [hrefused _ _ _ _ _ rfl]
    exact meets_of_misplaced y _ _ hne

/-- A lexer without callbacks goes over some characters, and stops at a place where it meets something. -/
theorem pull_meets {c : LexerConfig} (hcallbacks : c.callbacks = []) {l : Lexer} (hl : l.MadeFrom c)
    (state : Option Nat) : ∃ stop passed, stop.Behind w (before ++ passed) ∧
      Meets stop (l.pull state cursor).result (l.pull state cursor).cursor := by
  have hnone : ∀ {x : Lexicon} {allowEmpty : Bool} {accepts : String → Bool},
      Lexicon.ofPrepared c c.prepared allowEmpty accepts = .ok x → x.callbacks = [] := fun h =>
    (Lexicon.names_of_ofPrepared h).2.1.trans hcallbacks
  cases hl with
  | basic h | restricted accepts h => exact lexicon_meets hb (hnone h)
  | @contextual y states always h =>
    show ∃ stop passed, _ ∧ Meets stop (y.pull state cursor).result (y.pull state cursor).cursor
    cases hcontext : state.bind (y.contexts[·]?) with
    | none =>
      rw [show y.pull state cursor = y.root.pull cursor by rw [ContextualLexer.pull, hcontext]]
      exact lexicon_meets hb (hnone (ContextualLexer.ofConfig_eq_ok h).1)
    | some context =>
      obtain ⟨i, rfl, hi⟩ := Option.bind_eq_some_iff.1 hcontext
      obtain ⟨allowEmpty, accepts, hmade⟩ := ContextualLexer.exists_ofPrepared h (some i)
      rw [ContextualLexer.lexicon_of_context hi] at hmade
      exact context_meets hb hi (hnone hmade)

end Behind

/-! ## Streams -/

/-- The stream of a lexer without a hook that has come to a cursor. -/
def streamAt (l : Lexer) (cursor : Cursor) : Hooked Scanner := ⟨.passing, ⟨l, cursor⟩, []⟩

theorem stream_eq {c : LexerConfig} {l : Lexer} (hl : l.MadeFrom c) (w : Window) :
    l.stream none w = l.streamAt (.ofWindow w) := by
  cases hl <;> rfl

theorem pull_streamAt (l : Lexer) (cursor : Cursor) (state : Option Nat) :
    TokenSource.pull (l.streamAt cursor) state =
      ((l.pull state cursor).result, l.streamAt (l.pull state cursor).cursor) :=
  TokenSource.pull_passing rfl rfl state

/-- After a failure the stream goes on behind the characters that the failure is about. -/
theorem skipFailed_streamAt (l : Lexer) {cursor : Cursor} {f : ParseFailure} {chars rest : List Char}
    (hahead : cursor.ahead = chars ++ rest) (hne : chars ≠ []) (hf : f.About cursor chars) :
    LR.skipFailed (l.streamAt cursor) f = some (l.streamAt (cursor.advance chars.length)) := by
  cases hf with
  | @token t _ names note hspan =>
    have hstop : (cursor.position.spanOf chars).stop = cursor.offset + Text.bytes chars := Text.offset_feed _ _
    have hskip : LR.skipFailed (l.streamAt cursor) (.unexpectedToken t names note) =
        TokenSource.skipTo (l.streamAt cursor) (cursor.offset + Text.bytes chars) := by
      rw [LR.skipFailed, hspan, ← hstop]
    rw [hskip]
    show (((cursor.skipTo _).map fun c => Scanner.mk l c).map fun i => Hooked.mk .passing i []) = _
    rw [Cursor.skipTo_of_ahead hahead hne]
    rfl
  | character =>
    show (((cursor.skipChar).map fun c => Scanner.mk l c).map fun i => Hooked.mk .passing i []) = _
    rw [Cursor.skipChar_of_ahead hahead]
    rfl

end Lexer

end GrammarKit
