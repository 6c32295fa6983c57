/-
Which tokens can stand for a terminal, by the terminal's pattern. Text is matched by name. A placeholder
takes any value of the host program, a typed placeholder those of its registered type, and a splice terminal
the trees that were made into its tokens. A value of the wrong type before a typed placeholder is a failure
of its own.
-/
import GrammarKit.Earley.Chart

namespace GrammarKit

/-- The patterns of terminals and the registered types. -/
structure TerminalPatterns where
  patterns : List (String × Pattern)
  types : List (String × HostType)

namespace TerminalPatterns

/-- The patterns of a list of terminals; of several with one name the last one's. -/
def ofTerminals (ts : List Terminal) (types : List (String × HostType)) : TerminalPatterns :=
  { patterns := ts.reverse.map fun t => (t.name, t.pattern), types }

/-- Whether a token can stand for a terminal. -/
def matches? (p : TerminalPatterns) : Earley.Chart.TokenMatch := fun terminal t =>
  match p.patterns.lookup terminal, t.value with
  | some (.placeholder none), .host _ => .ok true
  | some (.placeholder (some key)), .host v =>
    match p.types.lookup key with
    | none => .error (.configuration (.unregisteredPlaceholder key))
    | some type =>
      if type.accepts v then .ok true else .error (.typeMismatch key type.shortName v.shortName)
  | some (.tree _), .tree _ => .ok (t.kind == terminal)
  | some (.placeholder _), _ => .ok false
  | some (.tree _), _ => .ok false
  | _, .text _ => .ok (t.kind == terminal)
  | _, _ => .ok false

/-- How a terminal reads in messages. -/
def describe (p : TerminalPatterns) (terminal : String) : String :=
  match p.patterns.lookup terminal with
  | some (.tree label) => s!"Tree('{label}')"
  | some (.placeholder none) => "interpolated value"
  | some (.placeholder (some key)) =>
    match p.types.lookup key with
    | some type => s!"interpolated <{type.shortName}>"
    | none => s!"interpolated value[{key}]"
  | _ => terminal

/-- A failure with the expected terminals as they read in messages. -/
def describeExpected (p : TerminalPatterns) : ParseFailure → ParseFailure
  | .unexpectedToken t names note => .unexpectedToken t (sortedNames (names.map p.describe)) note
  | .unexpectedEnd names => .unexpectedEnd (sortedNames (names.map p.describe))
  | f => f

/-- What to say about an interpolated value that does not fit. -/
def note? (t : Token) : Option String :=
  match t.value with
  | .tree tree => some s!"Interpolated Tree('{tree.label}') is not valid in this context"
  | .host v => some s!"Interpolated value <{v.shortName}> is not valid in this context"
  | .text _ => none

/-- A failure with a note about the value that it is about. -/
def explain (p : TerminalPatterns) : ParseFailure → ParseFailure
  | .unexpectedToken t names note => p.describeExpected (.unexpectedToken t names ((note? t).or note))
  | f => p.describeExpected f

end TerminalPatterns

end GrammarKit
