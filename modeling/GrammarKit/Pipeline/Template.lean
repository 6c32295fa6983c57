/-
Pipelines for templates. The grammar is extended so that trees can stand wherever their labels can, the
tokens of a template are parsed by chart, and in the result the carried trees are spliced in.
-/
import GrammarKit.Grammar.Splicing
import GrammarKit.Pipeline.Text
import GrammarKit.Template.Matching
import GrammarKit.Template.Tokens
import GrammarKit.Tree.Splice

namespace GrammarKit

/-- What can be parsed: a window of a text, or a template. -/
inductive PipelineInput where
  | text (w : Window)
  | template (t : Template)

structure TemplatePipeline where
  parser : Earley.Parser
  patterns : TerminalPatterns
  reader : TemplateReader
  /-- For text instead of templates. -/
  lexicon : Lexicon
  start : List String

namespace TemplatePipeline

/-- The keys of typed placeholders without a registered type. -/
def missingTypes (lexing : LexerConfig) (o : PipelineOptions) : List String :=
  lexing.terminals.filterMap fun t => match t.pattern with
    | .placeholder (some key) => if (o.placeholderTypes.lookup key).isSome then none else some key
    | _ => none

def ofConfig (lexing : LexerConfig) (parsing : ParserConfig) (o : PipelineOptions) :
    Outcome TemplatePipeline := do
  let missing := missingTypes lexing o
  if !missing.isEmpty then throw (.configuration (.unregisteredPlaceholders missing))
  let spliced := SplicedGrammar.extend parsing.rules lexing.terminals
  let patterns := TerminalPatterns.ofTerminals spliced.terminals o.placeholderTypes
  let placeholders := (o.placeholderTypes.map fun (key, type) =>
    (placeholderTerminalName (some key), type)).filter fun (name, _) =>
      (patterns.patterns.lookup name).isSome
  let textLexing := { lexing with terminals := spliced.terminals, postLexer := none }
  let parser ← Earley.Parser.ofConfig
    { rules := spliced.rules, actions := spliced.addActions parsing.actions, start := parsing.start
      augmented := true }
    patterns.matches? { ambiguity := o.ambiguity }
  let segmentLexicon ← Lexicon.ofConfig { textLexing with skipValidation := true }
  let lexicon ← Lexicon.ofConfig textLexing
  let reader : TemplateReader :=
    { lexicon := segmentLexicon, spliceTerminals := spliced.spliceTerminals, placeholders }
  return { parser, patterns, reader, lexicon, start := parsing.start }

/-- By label, the terminal of trees to splice. -/
def spliceTerminals (p : TemplatePipeline) : List (String × String) := p.reader.spliceTerminals

/-- The tokens of a template as the parser gets them. -/
def tokens (p : TemplatePipeline) (t : Template) : TemplateTokens := p.reader.tokens t

def parse (p : TemplatePipeline) (input : PipelineInput) (start : Option String) : Outcome Child := do
  let name ← chooseStart p.start start
  let inDomain (explain : ParseFailure → ParseFailure) : Failure → Failure
    | .parse f => .parse (explain f)
    | f => f
  match input with
  | .text w =>
    ((p.parser.parse (Scanner.start (.basic p.lexicon) w) name).map Child.splice).mapError
      (inDomain p.patterns.describeExpected)
  | .template t =>
    ((p.parser.parse (p.tokens t) name).map Child.splice).mapError (inDomain p.patterns.explain)

def report (p : TemplatePipeline) : String :=
  let pair (a b : String) : String := "(" ++ a ++ ", " ++ b ++ ")"
  Report.openRecord "TemplateFrontend"
    [("parser", p.parser.report),
     ("tree_terminals", Report.set (p.spliceTerminals.map fun (label, terminal) =>
        Text.quoted label ++ ": " ++ Text.quoted terminal)),
     ("typed", Report.list (p.reader.placeholders.map fun (name, type) =>
        pair (Text.quoted name) type.report)),
     ("start", Report.texts p.start)]

end TemplatePipeline

end GrammarKit
