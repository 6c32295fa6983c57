/-
Pattern expressions. An expression is preferential: of two alternatives the left one is wanted first,
and a repetition wants either one more turn first (greedy) or to stop first. Every repetition is built
from a number of turns that are needed and turns that may follow, up to a number of them or without limit.
-/
import GrammarKit.Regex.CharSet

namespace GrammarKit.Regex

/-- A condition on the place between two characters. -/
inductive Look where
  | textStart
  | textEnd
  | lineStart
  | lineEnd
  | crlfLineStart
  | crlfLineEnd
  /-- Exactly one side is a word character. -/
  | boundary (ascii : Bool)
  | noBoundary (ascii : Bool)
  | wordStart (ascii : Bool)
  | wordEnd (ascii : Bool)
  /-- The left side is no word character. -/
  | wordStartHalf (ascii : Bool)
  /-- The right side is no word character. -/
  | wordEndHalf (ascii : Bool)
  deriving DecidableEq

inductive Expr where
  | empty
  | chars (set : CharSet)
  | look (cond : Look)
  | seq (first second : Expr)
  | alt (preferred other : Expr)
  /-- Exactly `count` turns of `body`. -/
  | exactly (count : Nat) (body : Expr)
  /-- At most `count` turns of `body`; each one is tried only after the one before. -/
  | upTo (greedy : Bool) (count : Nat) (body : Expr)
  /-- One or more turns of `body`. -/
  | many (greedy : Bool) (body : Expr)

namespace Expr

def seqAll (es : List Expr) : Expr :=
  es.foldl (fun before e => if before matches .empty then e else seq before e) empty

/-- From `least` to `most` turns, or without limit. -/
def times (greedy : Bool) (least : Nat) (most : Option Nat) (body : Expr) : Expr :=
  match least, most with
  | 0, none => upTo greedy 1 (many greedy body)
  | 1, none => many greedy body
  | n + 1, none => seq (exactly n body) (many greedy body)
  | 0, some m => upTo greedy m body
  | n, some m => if m = n then exactly n body else seq (exactly n body) (upTo greedy (m - n) body)

/-- How much there is to match with every repetition written out: the ranges of the sets, and one for each
other part. -/
def size : Expr → Nat
  | .empty | .look _ => 1
  | .chars s => s.ranges.length
  | .seq a b | .alt a b => a.size + b.size + 1
  | .exactly n a | .upTo _ n a => n * a.size + 1
  | .many _ a => a.size + 1

/-- The largest expression that is matched against text. -/
def sizeLimit : Nat := 300000

end Expr

/-! ## Options of the notation -/

/-- Switches that a pattern sets for its parts. -/
structure Options where
  ignoreCase : Bool := false
  multiLine : Bool := false
  dotAll : Bool := false
  swapGreed : Bool := false
  unicode : Bool := true
  crlf : Bool := false
  spaced : Bool := false

end GrammarKit.Regex
