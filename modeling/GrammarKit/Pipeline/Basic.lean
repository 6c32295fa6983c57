/-
Pipelines: a grammar, put together with a lexer and an algorithm and ready to parse. Not every lexer goes
with every algorithm, and only shift-reduce parsing can be done step by step or go on after a failure.
-/
import GrammarKit.Pipeline.Tabular
import GrammarKit.Pipeline.Template

namespace GrammarKit

inductive Pipeline where
  | text (p : TextPipeline)
  | tabular (p : TabularPipeline)
  | template (p : TemplatePipeline)

namespace Pipeline

/-- The pipeline of an algorithm and a lexer. -/
def ofConfig (a : Algorithm) (l : LexerChoice) (lexing : LexerConfig) (parsing : ParserConfig)
    (o : PipelineOptions) : Outcome Pipeline :=
  match a, l with
  | .earley, .template => .template <$> TemplatePipeline.ofConfig lexing parsing o
  | a, .template => .error (.configuration (.templateLexerMismatch a.display))
  | .cyk, .basic | .cyk, .custom _ => .tabular <$> TabularPipeline.ofConfig l lexing parsing
  | .lalr, .basic | .lalr, .contextual | .lalr, .custom _
  | .earley, .basic | .earley, .dynamic | .earley, .dynamicComplete | .earley, .custom _ =>
    .text <$> TextPipeline.ofConfig a l lexing parsing o
  | a, l => .error (l.mismatch a)

def start : Pipeline → List String
  | text p => p.start
  | tabular p => p.start
  | template p => p.start

/-- Parses a text or a template as a start symbol, or as the only one. -/
def parse (p : Pipeline) (input : PipelineInput) (start : Option String := none)
    (recovery : Option LR.Recovery := none) : LR.Parsed :=
  match p, input with
  | template p, _ =>
    if recovery.isSome then ⟨.error (.configuration .handlerUnsupported), []⟩
    else ⟨p.parse input start, []⟩
  | text p, .text w => p.parse w start recovery
  | tabular p, .text w =>
    if recovery.isSome then ⟨.error (.configuration .handlerUnsupported), []⟩
    else ⟨p.parse w start, []⟩
  | _, .template _ => ⟨.error (.configuration .templateInput), []⟩

/-- Begins to parse a text step by step; without text, tokens are fed one by one. -/
def interact (p : Pipeline) (source : Option (List Char)) (start : Option String) : Outcome LR.Session :=
  match p with
  | text p => p.interact source start
  | _ => .error (.configuration .interactiveUnsupported)

end Pipeline

end GrammarKit
