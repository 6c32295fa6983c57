/-
Pipelines that read all tokens first, parse them by table, and build the nodes of the derivation last.
-/
import GrammarKit.Cyk.Parser
import GrammarKit.Grammar.Evaluation
import GrammarKit.Pipeline.Text

namespace GrammarKit

structure TabularPipeline where
  lexer : Lexer
  hook : Option PostLexer
  parser : Cyk.Parser
  actions : Actions
  start : List String

namespace TabularPipeline

def ofConfig (l : LexerChoice) (lexing : LexerConfig) (parsing : ParserConfig) : Outcome TabularPipeline := do
  let lexer ← match l with
    | .basic => .basic <$> Lexicon.ofConfig lexing
    | .custom c => .ok (.custom c)
    | l => .error (l.mismatch .cyk)
  return { lexer, hook := lexing.postLexer, parser := ← Cyk.Parser.ofRules parsing.rules
           actions := parsing.actions, start := parsing.start }

/-- The value of a node of the rule at a place. -/
def act (p : TabularPipeline) (rule : Nat) : Action :=
  match p.parser.rules[rule]? with
  | some r => p.actions.apply r
  | none => fun children => .tree ⟨"", children, none⟩

/-- All tokens of a window. -/
def tokens (p : TabularPipeline) (w : Window) : Outcome (List Token) :=
  match TokenSource.drain (p.lexer.stream p.hook w) with
  | (_, some f, _) => .error f
  | (tokens, none, _) => .ok tokens

/-- Parses the text of a window. -/
def parse (p : TabularPipeline) (w : Window) (start : Option String) : Outcome Child := do
  let name ← chooseStart p.start start
  let derivation ← p.parser.derive (← p.tokens w) name
  return derivation.evaluate p.act

end TabularPipeline

end GrammarKit
