/-
Parsing step by step. A session feeds single tokens, or the tokens of a lexer if it has one, tells what
could come next, and can be copied to try a continuation.
-/
import GrammarKit.LR.Machine
import GrammarKit.Scan.Source

namespace GrammarKit.LR

structure Session where
  parser : Parser
  machine : Machine
  scanner : Option Scanner := none

namespace Session

def start (p : Parser) (scanner : Option Scanner) (name : String) : Outcome Session := do
  return { parser := p, machine := ← Machine.start p name, scanner }

/-- Feeds one token. The end marker finishes the parse and gives its value. -/
def feed (s : Session) (t : Token) : Outcome (Option Child) × Session :=
  let (result, m) := s.machine.feed s.parser t (t.kind == endMarker)
  (result, { s with machine := m })

/-- Feeds the end of the input. -/
def finish (s : Session) : Outcome Child × Session :=
  let (result, m) := s.machine.finish s.parser
  (result, { s with machine := m })

/-- Feeds every token that a scanner still gives; the tokens that were fed come first in the result. -/
def drainInto (p : Parser) (m : Machine) (source : Scanner) (fed : List Token) :
    Outcome (List Token) × Machine × Scanner :=
  match h : TokenSource.pull source (some m.current) with
  | (.ok none, rest) => (.ok fed, m, rest)
  | (.ok (some t), rest) =>
    have hlt : TokenSource.size rest < TokenSource.size source := by
      have := TokenSource.size_pull_lt source (some m.current) t (by rw [h])
      rwa [h] at this
    match m.feed p t false with
    | (.ok _, m) => drainInto p m rest (fed ++ [t])
    | (.error f, m) => (.error f, m, rest)
  | (.error f, rest) => (.error f, m, rest)
termination_by TokenSource.size source

/-- Feeds every token that the scanner still gives. -/
def exhaust (s : Session) : Outcome (List Token) × Session :=
  match s.scanner with
  | none => (.error (.usage .noInput), s)
  | some source =>
    let (result, m, rest) := drainInto s.parser s.machine source []
    (result, { s with machine := m, scanner := some rest })

/-- Parses what is left of the input to its end. -/
def resume (s : Session) : Outcome Child :=
  match s.exhaust with
  | (.ok _, s) => s.finish.1
  | (.error f, _) => .error f

/-- The moves of the current state, by terminal in order. -/
def choices (s : Session) : List (String × Move) :=
  (s.parser.table.expected s.machine.current).filterMap fun name =>
    (s.parser.table.move? s.machine.current name).map fun move => (name, move)

/-- Whether a token of a terminal can be fed. A move does not suffice for that, since the reductions that
it begins may lead to a state without one. -/
def takes (s : Session) (terminal : String) : Bool := (s.feed (.ofText terminal "")).1.isOk

/-- The terminals that can be fed next, sorted. -/
def accepts (s : Session) : List String := (s.choices.map (·.1)).filter s.takes

def report (s : Session) : String :=
  Report.record "InteractiveParser"
    [("state", toString s.machine.current), ("has_lexer", Report.bool s.scanner.isSome)]

end Session

end GrammarKit.LR
