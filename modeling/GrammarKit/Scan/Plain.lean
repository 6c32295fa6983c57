/-
A custom lexer without patterns, for trying out parsers. It reads words between blanks, or single
characters, and looks their kinds up in a table. A few characters stand for the ways in which a lexer can
fail.
-/
import GrammarKit.Scan.Custom
import GrammarKit.Text.Report

namespace GrammarKit

structure PlainLexer where
  /-- The kinds of tokens, by their text. -/
  kinds : List (String × String)
  /-- The kind of every other token. -/
  otherwise : String := "WORD"

namespace PlainLexer

def kindOf (l : PlainLexer) (text : String) : String := (l.kinds.lookup text).getD l.otherwise

/-- The failure at a token that is refused. -/
def refused (text : String) (span : Option Span) : Failure :=
  .parse (.atToken (.ofText "BAD" text span) ["Z", "A", "Z"])

/-! ## Words -/

def word (l : PlainLexer) (text : String) : Outcome Token :=
  match text.toList.head? with
  | some '!' => .error (.usage (.custom s!"bad word {text}"))
  | some '?' => .error (refused text none)
  | _ => .ok (.ofText (l.kindOf text) text)

/-- The words of a whole text. -/
def words (l : PlainLexer) (text : List Char) : Outcome (List Token) :=
  (((String.ofList text).splitOn " ").filter (!·.isEmpty)).mapM l.word

/-! ## Characters -/

/-- How a character makes the lexer fail. -/
def failureAt (state : Option Nat) (c : Cursor) (ch : Char) : Option Failure :=
  match ch with
  | '!' => some (refused "!" none)
  | '?' => some (refused "?" (some (c.position.spanOf [ch])))
  | '~' => some (.parse (.atEnd ["B", "A"]))
  | '%' => some (.usage (.custom s!"stop in state {Report.option (state.map toString)}"))
  | _ => none

/-- The next character that is no blank and no line break, as a token. -/
def pull (l : PlainLexer) (state : Option Nat) (c : Cursor) : Pulled c :=
  match h : c.ahead with
  | [] => .stop c
  | ch :: _ =>
    have hlt : (c.advance 1).size < c.size := c.size_advance_lt Nat.one_pos (by simp [h])
    if ch = ' ' ∨ ch = '\n' then (pull l state (c.advance 1)).counted (Nat.le_of_lt hlt)
    else match failureAt state c ch with
      | some f => .fail c f
      | none =>
        let text := String.ofList [ch]
        let token := Token.ofText (l.kindOf text) text (some (c.position.spanOf [ch]))
        ⟨.ok (some token), { c.advance 1 with last := some token }, Nat.le_of_lt hlt, fun _ _ => hlt⟩
termination_by c.size

def puller (l : PlainLexer) : PullLexer where
  find state c := ((l.pull state c).result, (l.pull state c).cursor)
  size_le state c := (l.pull state c).size_le
  size_lt state c := (l.pull state c).size_lt

/-- The lexer as one of a level; words only if asked for by name. -/
def ofLevel (l : PlainLexer) (level : Nat) (wrapped : Bool) : Outcome CustomLexer :=
  if level = 0 && !wrapped then .ok (.text l.words) else CustomLexer.ofLevel level l.puller

end PlainLexer

end GrammarKit
