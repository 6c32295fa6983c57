/-
Lexers that a program brings along. Each declares how much of the lexing protocol it understands: it
reads a whole text at once, or it is asked for one token at a time, over whole texts only or over any
window. A window that a lexer does not understand is refused instead of being read from a wrong place.
-/
import GrammarKit.Scan.Cursor

namespace GrammarKit

inductive LexerLevel where
  /-- Reads a whole text at once. -/
  | text
  /-- Gives one token at a time, of whole texts. -/
  | stateful
  /-- Gives one token at a time, of any window. -/
  | native
  deriving DecidableEq

namespace LexerLevel

def ofNumber : Nat → Outcome LexerLevel
  | 0 => .ok text
  | 1 => .ok stateful
  | 2 => .ok native
  | n => .error (.configuration (.unknownLevel n))

def number : LexerLevel → Nat
  | text => 0
  | stateful => 1
  | native => 2

def report : LexerLevel → String
  | text => "Text"
  | stateful => "Stateful"
  | native => "Native"

end LexerLevel

/-- A lexer that is asked for one token at a time. What it owes to a parse is that every token takes something that was
ahead: a lexer that gives tokens without text could give them forever. -/
structure PullLexer where
  /-- The next token at a cursor, and where the cursor is afterwards; the parser's state is given where there is one. -/
  find : Option Nat → Cursor → Outcome (Option Token) × Cursor
  size_le : ∀ state c, (find state c).2.size ≤ c.size
  size_lt : ∀ state c t, (find state c).1 = .ok (some t) → (find state c).2.size < c.size

def PullLexer.pull (l : PullLexer) (state : Option Nat) (c : Cursor) : Pulled c :=
  ⟨(l.find state c).1, (l.find state c).2, l.size_le state c, l.size_lt state c⟩

inductive CustomLexer where
  | text (lex : List Char → Outcome (List Token))
  | stateful (lexer : PullLexer)
  | native (lexer : PullLexer)

namespace CustomLexer

def level : CustomLexer → LexerLevel
  | text _ => .text
  | stateful _ => .stateful
  | native _ => .native

/-- Wraps a lexer that gives one token at a time and declares the level `n`. -/
def ofLevel (n : Nat) (lexer : PullLexer) : Outcome CustomLexer := do
  match ← LexerLevel.ofNumber n with
  | .text => throw (.configuration .wholeTextLevel)
  | .stateful => return stateful lexer
  | .native => return native lexer

def refusal (l : CustomLexer) : Failure := .usage (.partialText l.level.number)

/-- The cursor at the start of a window. A lexer that reads whole texts has read it by then. -/
def openWindow (l : CustomLexer) (w : Window) : Cursor :=
  let c := Cursor.ofWindow w
  match l with
  | text lex => { c with queue := if w.isComplete then lex w.inside else .error l.refusal }
  | _ => c

def pull (l : CustomLexer) (state : Option Nat) (c : Cursor) : Pulled c :=
  match l with
  | text _ =>
    match h : c.queue with
    | .error f => .fail c f
    | .ok [] => ⟨.ok none, { c with last := none }, Nat.le_refl _, by simp⟩
    | .ok (t :: rest) =>
      have hlt : Cursor.size { c with queue := .ok rest, last := some t } < c.size := by
        simp [Cursor.size, Cursor.queued, h]
      ⟨.ok (some t), { c with queue := .ok rest, last := some t }, Nat.le_of_lt hlt, fun _ _ => hlt⟩
  | stateful lexer => if c.complete then lexer.pull state c else .fail c l.refusal
  | native lexer => lexer.pull state c

def report (l : CustomLexer) : String := s!"CustomLexer({l.level.report})"

end CustomLexer

end GrammarKit
