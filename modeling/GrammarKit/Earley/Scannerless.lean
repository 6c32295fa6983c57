/-
Parsing text without a lexer. Positions of the chart are places between characters, and where the chart
waits for a terminal, the terminal is matched against the text that follows. So the grammar decides which
terminal a stretch of text is.

Text that may be skipped carries the waiting items to its other end, and complete start symbols too, so
that it may stand before, between and after tokens. Nothing else moves across it, and derivations treat its
two ends as one place.
-/
import GrammarKit.Earley.Parser
import GrammarKit.Scan.Matcher
import GrammarKit.Text.Lines

namespace GrammarKit.Earley

structure Scannerless where
  grammar : ChartRules
  actions : Actions
  /-- The terminals of rules and skipped text, each once. -/
  terminals : List (String × Matcher)
  /-- Names of the terminals that may be skipped. -/
  ignore : List String
  options : Options

namespace Scannerless

/-- The terminals that rules or skipped text ask for. -/
def usedNames (l : LexerConfig) (p : ParserConfig) : List String :=
  fresh [] (p.rules.flatMap (terminalsOf ·.symbols) ++ l.ignore)

/-- Makes the used terminals ready; none may match the empty text. -/
def matchers (l : LexerConfig) (used : List String) : Outcome (List (String × Matcher)) :=
  (l.terminals.filter fun t => used.contains t.name).foldlM (fun ready t => do
    let m ← l.engine t l.globalFlags
    if m.minWidth = 0 then throw (.grammar (.emptyDynamicTerminal t.name))
    return ready.filter (·.1 != t.name) ++ [(t.name, m)]) []

def ofConfig (l : LexerConfig) (p : ParserConfig) (o : Options) : Outcome Scannerless := do
  if o.ambiguity = .forest then throw (.configuration .forestUnsupported)
  if !l.callbacks.isEmpty then throw (.grammar .dynamicCallbacks)
  let used := usedNames l p
  let terminals ← matchers l used
  match used.find? fun n => (terminals.lookup n).isNone with
  | some n => throw (.grammar (.missingDynamicTerminal n))
  | none =>
    return { grammar := .ofRules p.rules, actions := p.actions, terminals, ignore := l.ignore, options := o }

def report (s : Scannerless) : String :=
  Report.record "DynamicEarleyParser"
    [("rules", toString s.grammar.rules.length), ("terminals", toString s.terminals.length),
     ("config", s.options.report)]

/-- The length of a match that takes something. -/
def taken? (m : Matcher) (text : List Char) : Option Nat := (m.length? text).filter (0 < ·)

/-- How many characters a terminal may take at the start of a text: the longest match and, where lexing is
complete, what is matched when the text ends earlier. -/
def lengths (s : Scannerless) (terminal : String) (text : List Char) : List Nat :=
  match s.terminals.lookup terminal with
  | none => []
  | some m =>
    match taken? m text with
    | none => []
    | some longest =>
      if s.options.completeLexing then
        fresh [] (longest ::
          (List.range longest).reverse.filterMap fun cut => taken? m (text.take cut))
      else [longest]

/-! ## The chart of a text -/

/-- A chart on its way through a text. -/
structure Progress where
  chart : Chart
  /-- Items found for positions to come, in order. -/
  pending : List (Nat × Item)
  /-- The last position that was reached. -/
  furthest : Nat

namespace Progress

/-- What a position awaits, in order. -/
def seeds (p : Progress) (position : Nat) : List Item :=
  (p.pending.filter (·.1 == position)).map (·.2)

/-- Notes that a terminal takes the next `n` characters. -/
def take (p : Progress) (lines : LineTable) (text : List Char) (i : Item) (terminal : String) (n : Nat) :
    Progress :=
  let position := p.chart.stop
  let start := Text.bytes (lines.text.take position)
  let taken := text.take n
  let token := Token.ofText terminal (String.ofList taken) (some (lines.span start (start + Text.bytes taken)))
  { chart := { p.chart with scans := p.chart.scans ++ [⟨position, position + n, terminal, token⟩] }
    pending := p.pending ++ [(position + n, i.advance)]
    furthest := max p.furthest (position + n) }

/-- Notes that the next `n` characters may be skipped. -/
def skip (p : Progress) (name : String) (n : Nat) : Progress :=
  let position := p.chart.stop
  let g := p.chart.grammar
  let finished := p.chart.last.filter fun i =>
    i.origin = 0 && i.isComplete g.rules && (g.rules[i.dotted.rule]?).any (·.origin == name)
  let carried := (g.waiting p.chart.last).map (·.1) ++ finished
  let joined := (p.chart.gaps.lookup position).getD [] ++ [position]
  let known := (p.chart.gaps.lookup (position + n)).getD []
  { chart := { p.chart with
      gaps := (position + n, known ++ fresh known joined) ::
        p.chart.gaps.filter (·.1 != position + n) }
    pending := p.pending ++ carried.map ((position + n, ·))
    furthest := max p.furthest (position + n) }

end Progress

/-- Where no terminal matches. -/
def unexpected (lines : LineTable) (c : Chart) (text : List Char) : ParseFailure :=
  let offset := Text.bytes (lines.text.take c.stop)
  let (line, column) := lines.place offset
  .unexpectedCharacters (text.headD '\x00') offset line column (sortedNames c.expected)

/-- Matches terminals and skipped text at the last position of the chart, ahead of which is `text`. -/
def matchAhead (s : Scannerless) (lines : LineTable) (start : String) (p : Progress) (text : List Char) :
    Progress :=
  let p := (p.chart.grammar.waiting p.chart.last).foldl (fun p (i, terminal) =>
    (s.lengths terminal text).foldl (fun p n => p.take lines text i terminal n) p) p
  s.ignore.foldl (fun p name =>
    match (s.terminals.lookup name).bind (taken? · text) with
    | some n => p.skip start n
    | none => p) p

/-- Goes through the rest of a text, character by character. Positions that nothing leads to are passed
over. -/
def scanText (s : Scannerless) (lines : LineTable) (start : String) : List Char → Progress → Outcome Chart
  | [], p => .ok p.chart
  | c :: text, p =>
    let position := p.chart.stop
    let p := if p.chart.last.isEmpty then p else s.matchAhead lines start p (c :: text)
    if !p.chart.last.isEmpty && p.furthest ≤ position then
      .error (.parse (unexpected lines p.chart (c :: text)))
    else
      let column := s.grammar.column p.chart.columns (p.seeds (position + 1))
      scanText s lines start text { p with chart := { p.chart with columns := p.chart.columns ++ [column] } }

/-- The chart of a text as a start symbol, whether or not it is complete. -/
def chartOf (s : Scannerless) (text : List Char) (start : String) : Outcome Chart := do
  let chart ← Chart.start s.grammar start
  s.scanText (.ofText text) start text { chart, pending := [], furthest := 0 }

/-- The terminals that the last reached column waits for. -/
def lastExpected (c : Chart) : List String :=
  c.grammar.expected ((c.columns.filter (!·.isEmpty)).getLastD [])

/-- Parses a whole text as a start symbol. -/
def parse (s : Scannerless) (text : List Char) (start : String) : Outcome Child := do
  let chart ← s.chartOf text start
  if !chart.accepts start then throw (.parse (.atEnd (lastExpected chart)))
  chart.value s.options.ambiguity s.actions start

end Scannerless

end GrammarKit.Earley
