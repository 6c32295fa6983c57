/-
Terminals made ready to match text. What does this is an engine, and a lexer may be given any: of a match it
is only known that it takes no more characters than there are. The engine that comes with it reads pattern and
flags as one source, twice: for a match at the start of a text and for a match of a whole text. Its limit on the
size of a pattern counts parts of the expression, and groups may be nested to any depth.
-/
import GrammarKit.Failure
import GrammarKit.Regex.Ends
import GrammarKit.Regex.Reader
import GrammarKit.Regex.Width

namespace GrammarKit

open Regex (Expr)

/-- A terminal that can be matched against text. -/
structure Matcher where
  /-- Number of characters matched at the start of a text. -/
  length? : List Char → Option Nat
  /-- Whether a text is matched from start to end. -/
  matchesWhole : List Char → Bool
  /-- Least number of bytes of a match. -/
  minWidth : Nat
  /-- Greatest number of bytes of a match; absent if matches can be arbitrarily long. -/
  maxWidth : Option Nat
  length?_le : ∀ {text : List Char} {n : Nat}, length? text = some n → n ≤ text.length

/-- What makes a terminal ready to be matched, given the flags of all patterns. -/
abbrev Engine := Terminal → String → Outcome Matcher

namespace Matcher

/-- Matches by an expression at the start of a text, and by another one from start to end. -/
def ofExprs (atStart throughout : Expr) (minWidth : Nat) (maxWidth : Option Nat) : Matcher where
  length? := atStart.matchLength?
  matchesWhole text := (throughout.matchLength? text).isSome
  minWidth
  maxWidth
  length?_le := Expr.matchLength?_le

/-- The source of a text pattern with its own flags and the flags of all patterns. -/
def source? (pattern : Pattern) (globalFlags : String) : Option String :=
  pattern.source?.map (Pattern.withFlags globalFlags)

/-- Least and greatest number of bytes that a match takes. -/
def widths (source : String) : Except Regex.Fault (Nat × Option Nat) := do
  let e ← Expr.read source.toList
  return (e.width.least.getD 0, e.width.most)

/-- Points at a character of a source, below the line it is in. -/
def faultReport (source : String) (fault : Regex.Fault) : String :=
  match fault with
  | .unopenedGroup index =>
    let before := source.toList.take index
    let line := (before.filter (· == '\n')).length
    let column := (before.reverse.takeWhile (· != '\n')).length
    let lines := source.splitOn "\n"
    let several := lines.length > 1
    let width := (toString lines.length).length
    let pad (n : Nat) : String := String.ofList (List.replicate n ' ')
    let ended := lines.dropLast.map fun text => if text.endsWith "\r" then (text.dropEnd 1).toString else text
    let shown := (ended ++ (lines.getLast?.filter (!·.isEmpty)).toList).zipIdx.map fun (text, k) =>
      let number := toString (k + 1)
      let lead := if several then pad (width - number.length) ++ number ++ ": " else pad 4
      let mark := if k = line then pad (lead.length + column) ++ "^\n" else ""
      lead ++ text ++ "\n" ++ mark
    let rule := if several then String.ofList (List.replicate 79 '~') ++ "\n" else ""
    "regex parse error:\n" ++ rule ++ String.join shown ++ rule ++ "error: unopened group"
  | _ => "regex parse error"

/-- Makes a terminal ready by reading its pattern, unless it is not matched against text or its pattern cannot be
read. -/
def ofTerminal : Engine := fun t globalFlags => do
  let some source := source? t.pattern globalFlags
    | throw (.grammar (.unmatchableTerminal t.name t.pattern))
  let read (text : String) : Outcome Expr :=
    match Expr.read text.toList with
    | .ok e => if e.size ≤ Expr.sizeLimit then .ok e else .error (.grammar (.uncompilableTerminal t.name))
    | .error _ => .error (.grammar (.uncompilableTerminal t.name))
  let atStart ← read s!"^(?:{source})"
  let throughout ← read s!"^(?:{source})$"
  let (minWidth, maxWidth) ← (widths source).mapError fun fault =>
    .grammar (.unanalysableTerminal t.name (faultReport source fault))
  return .ofExprs atStart throughout minWidth maxWidth

end Matcher

end GrammarKit
