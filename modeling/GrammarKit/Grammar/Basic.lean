/-
Grammars: terminals, rules, start symbols and the terminals to skip.
-/
import GrammarKit.Grammar.Shaping
import GrammarKit.Scan.Config

namespace GrammarKit

structure Grammar where
  terminals : List Terminal
  rules : List Rule
  start : List String
  ignore : List String

/-- What a parser is built from. -/
structure ParserConfig where
  rules : List Rule
  actions : Actions
  start : List String
  /-- The rules were already extended by those for splicing. -/
  augmented : Bool := false

def ParserConfig.report (c : ParserConfig) : String :=
  Report.record "ParserConf"
    [("rules", toString c.rules.length), ("callbacks", toString c.actions.size),
     ("start", Report.texts c.start), ("augmented", Report.bool c.augmented)]

namespace Grammar

def terminal? (g : Grammar) (name : String) : Option Terminal := g.terminals.find? (·.name == name)

def rulesOf (g : Grammar) (origin : String) : List Rule := g.rules.filter (·.origin == origin)

def lexerConfig (g : Grammar) : LexerConfig := { terminals := g.terminals, ignore := g.ignore }

/-- The rules with the actions that shape their nodes. -/
def parserConfig (g : Grammar) (s : Shaping) : ParserConfig :=
  { rules := g.rules, actions := s.ofRules g.rules, start := g.start }

end Grammar

end GrammarKit
