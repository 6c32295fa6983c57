/-
Lexing in place. What a lexicon without callbacks finds depends on the characters ahead of it alone. So a window is cut
into the same pieces as its characters by themselves, and the lexicon stops at the same character for the same reason.
Only the places differ: those in the larger text are found by moving the others to where the window starts.
-/
import GrammarKit.Proofs.Scan.Drained
import GrammarKit.Proofs.Scan.Pieces
import GrammarKit.Proofs.Tree.Sameness

namespace GrammarKit

open TokenSource

/-! ## Moving places -/

/-- The span of the same stretch in a larger text, in which it starts later. -/
def Span.moved? (text : List Char) (start : Nat) (a : Span) : Option Span :=
  Text.span? text (start + a.start) (start + a.stop)

def Token.moved (text : List Char) (start : Nat) (t : Token) : Token :=
  { t with span := t.span.bind (Span.moved? text start) }

namespace ParseFailure

/-- The same failure in a larger text. -/
def moved (text : List Char) (start : Nat) : ParseFailure → ParseFailure
  | unexpectedToken t names note => unexpectedToken (t.moved text start) names note
  | unexpectedCharacters c offset line column names =>
    match Text.positionAt? text (start + offset) with
    | some p => unexpectedCharacters c p.offset p.line p.column names
    | none => unexpectedCharacters c offset line column names
  | unexpectedEnd names => unexpectedEnd names

/-- A failure without its place. -/
def unplaced : ParseFailure → ParseFailure
  | unexpectedToken t names note => unexpectedToken t.unplaced names note
  | unexpectedCharacters c _ _ _ names => unexpectedCharacters c 0 0 0 names
  | unexpectedEnd names => unexpectedEnd names

end ParseFailure

namespace Failure

def moved (text : List Char) (start : Nat) : Failure → Failure
  | parse f => parse (f.moved text start)
  | f => f

def unplaced : Failure → Failure
  | parse f => parse f.unplaced
  | f => f

@[simp] theorem unplaced_moved (text : List Char) (start : Nat) (f : Failure) :
    (f.moved text start).unplaced = f.unplaced := by
  rcases f with (_ | ⟨c, offset, line, column, names⟩ | _) | _ | _ | _ | _ | _ <;> try rfl
  rw [moved, ParseFailure.moved]
  split <;> rfl

end Failure

namespace Drained

/-- What is found in a larger text. -/
def moved (text : List Char) (start : Nat) (d : Drained) : Drained :=
  d.map (Token.moved text start) (Failure.moved text start)

/-- What is found, without the places. -/
def unplaced (d : Drained) : Drained := d.map Token.unplaced Failure.unplaced

@[simp] theorem unplaced_moved (text : List Char) (start : Nat) (d : Drained) :
    (d.moved text start).unplaced = d.unplaced := by
  rw [moved, unplaced, map_map, show Failure.unplaced ∘ Failure.moved text start = Failure.unplaced from
    funext (Failure.unplaced_moved text start)]
  rfl

end Drained

/-- Tokens of pieces are moved with their text. -/
theorem Lexer.Piece.map_moved_tokens {text rest : List Char} (source : List Char) (start : Nat) :
    ∀ {ps : List Piece} {before : List Char}, text = before ++ (Piece.text ps ++ rest) →
      (tokens text (Text.bytes before) ps).map (Token.moved source start) =
        tokens source (start + Text.bytes before) ps
  | [], _, _ => rfl
  | p :: ps, before, htext => by
    rw [text_cons, List.append_assoc] at htext
    have hafter : text = (before ++ p.chars) ++ (Piece.text ps ++ rest) := by rw [htext, List.append_assoc]
    have ih := map_moved_tokens source start hafter
    rw [Text.bytes_append, ← Nat.add_assoc] at ih
    cases p with
    | token terminal chars =>
      obtain ⟨a, hspan, hstart, hstop⟩ := Text.exists_span? htext
      have htoken : Token.moved source start (.ofText terminal (String.ofList chars)
          (Text.span? text (Text.bytes before) (Text.bytes before + Text.bytes chars))) =
            .ofText terminal (String.ofList chars)
              (Text.span? source (start + Text.bytes before) (start + Text.bytes before + Text.bytes chars)) := by
        rw [show Text.span? text (Text.bytes before) (Text.bytes before + Text.bytes chars) = some a from hspan]
        simp only [Token.moved, Token.ofText, Option.bind_some, Span.moved?, hstart, hstop, Lexer.Piece.chars,
          Nat.add_assoc]
      rw [tokens, tokens, List.map_cons, htoken]
      exact congrArg _ ih
    | ignored terminal chars => exact ih
    | skipped chars => exact ih

/-! ## Pieces of a window -/

namespace Lexicon

open Lexer (Piece)

variable {l : Lexicon}

/-- How a lexicon ends before the rest of a text: with a failure, unless nothing is left. -/
def stop? (l : Lexicon) (before rest : List Char) : Option Failure :=
  if rest = [] then none
  else
    let p := Position.after before
    some (.parse (.unexpectedCharacters (rest.headD '\x00') p.offset p.line p.column l.names))

theorem drained_stop {cursor : Cursor} {w : Window} {before : List Char} (hb : cursor.Behind w before)
    (hm : l.match? cursor.ahead = none) :
    drained (⟨.basic l, cursor⟩ : Scanner) = ⟨[], l.stop? before cursor.ahead⟩ := by
  by_cases hend : cursor.ahead = []
  · obtain ⟨htokens, hfailure⟩ := Scanner.drain_at_end (l := l) hend
    rw [stop?, if_pos hend]
    exact Drained.ext htokens hfailure
  · have hresult : (l.pull cursor).result = .error (.parse (l.unexpected cursor)) := by
      rw [pull, dif_neg hend]
      split
      · rename_i hm'
        cases hm.symm.trans hm'
      · rfl
    rw [drained_error (Prod.ext hresult rfl), stop?, if_neg hend, unexpected, hb.position_eq]

theorem drained_match (hcallbacks : l.callbacks = []) {cursor : Cursor} {name : String} {n : Nat}
    (hm : l.match? cursor.ahead = some (name, n)) :
    drained (⟨.basic l, cursor⟩ : Scanner) =
      if l.isIgnored name = true then drained (⟨.basic l, cursor.advance n⟩ : Scanner)
      else
        let t := tokenAt cursor name n
        let rest := drained (⟨.basic l, { cursor.advance n with last := some t }⟩ : Scanner)
        ⟨t :: rest.tokens, rest.failure⟩ := by
  have hne : cursor.ahead ≠ [] := fun h => by
    rw [h, match?_nil] at hm
    cases hm
  split
  · rename_i hignored
    obtain ⟨hresult, hcursor⟩ := pull_ignored hcallbacks hm hignored
    exact drained_congr (Prod.ext hresult (congrArg (Scanner.mk (.basic l)) hcursor))
  · rename_i hkept
    obtain ⟨n, rfl⟩ := Nat.exists_eq_add_one_of_ne_zero (Nat.pos_iff_ne_zero.1 (match?_eq_some hm).1)
    have hdrain := Scanner.drain_match hne hm hcallbacks (Bool.not_eq_true _ ▸ hkept)
    exact Drained.ext (congrArg (·.1) hdrain) (congrArg (·.2.1) hdrain)

/-- A text is cut into the same pieces wherever it stands. -/
theorem exists_pieces (hcallbacks : l.callbacks = []) (text : List Char) : ∃ ps rest, text = Piece.text ps ++ rest ∧
    ∀ {w : Window} {before : List Char} (cursor : Cursor), cursor.ahead = text → cursor.Behind w before →
      drained (⟨.basic l, cursor⟩ : Scanner) =
        ⟨Piece.tokens w.text (Text.bytes before) ps, l.stop? (before ++ Piece.text ps) rest⟩ := by
  induction hn : text.length using Nat.strong_induction_on generalizing text with
  | _ n ih =>
    cases hm : l.match? text with
    | none =>
      refine ⟨[], text, rfl, ?_⟩
      rintro w before cursor rfl hb
      rw [drained_stop hb hm, Piece.text_nil, List.append_nil, Piece.tokens]
    | some found =>
      obtain ⟨name, k⟩ := found
      obtain ⟨hpos, hle⟩ := match?_eq_some hm
      obtain ⟨ps, rest, hrest, hdrained⟩ := ih (text.drop k).length (by rw [List.length_drop]; omega) (text.drop k) rfl
      have htext : text = text.take k ++ text.drop k := (List.take_append_drop ..).symm
      have hlength : (text.take k).length = k := by rw [List.length_take]; omega
      cases hname : l.isIgnored name with
      | true =>
        refine ⟨.ignored name (text.take k) :: ps, rest, ?_, ?_⟩
        · rw [Piece.text_cons, List.append_assoc, ← hrest]
          exact htext
        · rintro w before cursor rfl hb
          have hbehind := hb.advance htext
          rw [hlength] at hbehind
          rw [drained_match hcallbacks hm, if_pos hname, hdrained _ rfl hbehind, Piece.text_cons, Piece.tokens,
            Text.bytes_append, List.append_assoc]
          rfl
      | false =>
        refine ⟨.token name (text.take k) :: ps, rest, ?_, ?_⟩
        · rw [Piece.text_cons, List.append_assoc, ← hrest]
          exact htext
        · rintro w before cursor rfl hb
          have hbehind := hb.advance htext
          rw [hlength] at hbehind
          have hspan : Text.span? w.text (Text.bytes before) (Text.bytes before + Text.bytes (cursor.ahead.take k)) =
              some (cursor.position.spanOf (cursor.ahead.take k)) := by
            have hsource : w.text = before ++ (cursor.ahead.take k ++ (cursor.ahead.drop k ++ w.after)) := by
              rw [← List.append_assoc (cursor.ahead.take k), ← htext, hb.text_eq]
            rw [hsource, hb.position_eq]
            exact Text.span?_append ..
          have hnext := hdrained { cursor.advance k with last := some (tokenAt cursor name k) } rfl
            ⟨hbehind.text_eq, hbehind.position_eq⟩
          rw [drained_match hcallbacks hm, if_neg (by simp [hname])]
          dsimp only
          rw [hnext, Piece.text_cons, Piece.tokens, hspan, Text.bytes_append, List.append_assoc]
          rfl

/-- Where a lexicon stops is moved with the text. -/
theorem stop?_moved {w : Window} {inside rest : List Char} (h : w.inside = inside ++ rest) :
    (l.stop? inside rest).map (Failure.moved w.text w.start) = l.stop? (w.before ++ inside) rest := by
  rw [stop?, stop?]
  split
  · rfl
  · have hposition : Text.positionAt? w.text (w.start + (Position.after inside).offset) =
        some (.after (w.before ++ inside)) := by
      have htext : w.text = (w.before ++ inside) ++ (rest ++ w.after) := by simp [Window.text, h]
      rw [Text.positionAt?, htext, Text.offset_after, Window.start, ← Text.bytes_append, Text.cutAt?_append]
      rfl
    simp only [Option.map_some, Failure.moved, ParseFailure.moved, hposition]

/-- In a window a lexicon without callbacks finds what it finds in the characters of the window by themselves, moved to
where the window starts. -/
theorem drained_window (hcallbacks : l.callbacks = []) (w : Window) :
    drained (Scanner.start (.basic l) w) =
      (drained (Scanner.start (.basic l) (.whole w.inside))).moved w.text w.start := by
  obtain ⟨ps, rest, htext, hdrained⟩ := exists_pieces hcallbacks w.inside
  have hwindow : drained (Scanner.start (.basic l) w) = _ := hdrained (.ofWindow w) rfl (.ofWindow w)
  have hwhole : drained (Scanner.start (.basic l) (.whole w.inside)) = _ :=
    hdrained (.ofWindow (.whole w.inside)) rfl (.ofWindow (.whole w.inside))
  have hown : (Window.whole w.inside).text = [] ++ (Piece.text ps ++ rest) := by
    simp [Window.text, Window.whole, ← htext]
  have hmoved := Piece.map_moved_tokens w.text w.start hown
  rw [hwindow, hwhole]
  exact Drained.ext hmoved.symm (stop?_moved htext).symm

/-- The tokens of a window have the places of their text in the larger text. -/
theorem standsAt_of_mem_window (hcallbacks : l.callbacks = []) (w : Window) :
    ∀ t ∈ (drained (Scanner.start (.basic l) w)).tokens, t.StandsAt w.text := by
  obtain ⟨ps, rest, htext, hdrained⟩ := exists_pieces hcallbacks w.inside
  have hwindow : drained (Scanner.start (.basic l) w) = _ := hdrained (.ofWindow w) rfl (.ofWindow w)
  have hsource : w.text = w.before ++ (Piece.text ps ++ (rest ++ w.after)) := by simp [Window.text, htext]
  rw [hwindow]
  exact fun t ht => Piece.standsAt_of_mem_tokens hsource ht

end Lexicon

end GrammarKit
