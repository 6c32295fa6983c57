/-
Parsing by chart, for every grammar: the tokens are recognised first, then a derivation is read off the
chart and its nodes are built.
-/
import GrammarKit.Earley.Assembly
import GrammarKit.Grammar.Basic

namespace GrammarKit.Earley

structure Options where
  ambiguity : Ambiguity := .resolve
  /-- Terminals matched against text may take less than their longest match. -/
  completeLexing : Bool := false

def Options.report (o : Options) : String :=
  Report.record "EarleyConfig"
    [("ambiguity", o.ambiguity.report), ("complete_lex", Report.bool o.completeLexing)]

/-- The value of a chart's start symbol. -/
def Chart.value (c : Chart) (a : Ambiguity) (actions : Actions) (start : String) : Outcome Child :=
  match c.derive a actions start with
  | some v => .ok v
  | none => .error (.grammar (.noFiniteDerivation start))

structure Parser where
  grammar : ChartRules
  actions : Actions
  matches? : Chart.TokenMatch
  options : Options

namespace Parser

def ofConfig (c : ParserConfig) (matches? : Chart.TokenMatch) (o : Options) : Outcome Parser :=
  if o.ambiguity = .forest then .error (.configuration .forestUnsupported)
  else .ok { grammar := .ofRules c.rules, actions := c.actions, matches?, options := o }

/-- Parses the tokens of a source as a start symbol. -/
def parse {σ : Type} [TokenSource σ] (p : Parser) (source : σ) (start : String) : Outcome Child := do
  let chart ← Chart.ofTokens p.grammar p.matches? source start
  if !chart.accepts start then throw (.parse (.atEnd chart.expected))
  chart.value p.options.ambiguity p.actions start

def report (p : Parser) : String :=
  Report.record "EarleyParser"
    [("rules", toString p.grammar.rules.length), ("config", p.options.report)]

end Parser

end GrammarKit.Earley
