/-
Pipelines in which a parser asks a lexer for one token after another, or reads the text by itself.
-/
import GrammarKit.Earley.Scannerless
import GrammarKit.LR.Recovery
import GrammarKit.LR.Session
import GrammarKit.Pipeline.Choice

namespace GrammarKit

/-- A hook that changes nothing. -/
def PostLexer.passing : PostLexer := { skips := true }

/-- The tokens of a window as the parser gets them. -/
def Lexer.stream (l : Lexer) (hook : Option PostLexer) (w : Window) : Hooked Scanner :=
  .start (hook.getD .passing) (.start l w)

inductive Backend where
  | lalr (p : LR.Parser)
  | earley (p : Earley.Parser)
  | dynamic (p : Earley.Scannerless)

def Backend.report : Backend → String
  | lalr p => p.report
  | earley p => p.report
  | dynamic p => p.report

structure TextPipeline where
  lexer : Option Lexer
  hook : Option PostLexer
  backend : Backend
  start : List String

namespace TextPipeline

def backendFor (a : Algorithm) (l : LexerChoice) (lexing : LexerConfig) (parsing : ParserConfig)
    (o : PipelineOptions) : Outcome Backend :=
  match a with
  | .lalr => .lalr <$> LR.Parser.ofConfig parsing o.strict
  | .earley =>
    match l with
    | .dynamic => .dynamic <$> Earley.Scannerless.ofConfig lexing parsing { ambiguity := o.ambiguity }
    | .dynamicComplete =>
      .dynamic <$> Earley.Scannerless.ofConfig lexing parsing
        { ambiguity := o.ambiguity, completeLexing := true }
    | _ => .earley <$> Earley.Parser.ofConfig parsing Earley.Chart.byName { ambiguity := o.ambiguity }
  | .cyk => .error (.configuration .cykPairing)

/-- The lexer that goes with a backend. -/
def lexerFor (a : Algorithm) (l : LexerChoice) (lexing : LexerConfig) (b : Backend) :
    Outcome (Option Lexer) :=
  match l, b with
  | .dynamic, _ | .dynamicComplete, _ => .ok none
  | .basic, _ => (some ∘ .basic) <$> Lexicon.ofConfig lexing
  | .contextual, .lalr p =>
    let always := match lexing.postLexer with
      | some hook => hook.alwaysAccept
      | none => []
    (some ∘ .contextual) <$> ContextualLexer.ofConfig lexing p.table.accepted always
  | .custom c, _ => .ok (some (.custom c))
  | l, _ => .error (l.mismatch a)

def ofConfig (a : Algorithm) (l : LexerChoice) (lexing : LexerConfig) (parsing : ParserConfig)
    (o : PipelineOptions) : Outcome TextPipeline := do
  let backend ← backendFor a l lexing parsing o
  let lexer ← lexerFor a l lexing backend
  return { lexer, hook := lexing.postLexer, backend, start := parsing.start }

def stream (p : TextPipeline) (w : Window) : Outcome (Hooked Scanner) :=
  match p.lexer with
  | some l => .ok (l.stream p.hook w)
  | none => .error (.configuration .noLexer)

/-- Parses the text of a window. Only shift-reduce parsing can go on after a failure. -/
def parse (p : TextPipeline) (w : Window) (start : Option String) (recovery : Option LR.Recovery) :
    LR.Parsed :=
  match chooseStart p.start start with
  | .error f => ⟨.error f, []⟩
  | .ok name =>
    match p.backend with
    | .lalr b =>
      match p.stream w with
      | .ok source => b.parse source name recovery
      | .error f => ⟨.error f, []⟩
    | .earley b =>
      if recovery.isSome then ⟨.error (.configuration .handlerUnsupported), []⟩
      else ⟨do b.parse (← p.stream w) name, []⟩
    | .dynamic b =>
      if recovery.isSome then ⟨.error (.configuration .handlerUnsupported), []⟩
      else if !w.isComplete then ⟨.error (.usage .partialDynamicText), []⟩
      else ⟨b.parse w.inside name, []⟩

/-- Begins to parse a text step by step. The hook between lexer and parser is left out. -/
def interact (p : TextPipeline) (text : Option (List Char)) (start : Option String) :
    Outcome LR.Session :=
  match p.backend with
  | .lalr b => do
    let name ← chooseStart p.start start
    let scanner := match text, p.lexer with
      | some text, some l => some (Scanner.start l (.whole text))
      | _, _ => none
    LR.Session.start b scanner name
  | _ => .error (.configuration .interactiveUnsupported)

def report (p : TextPipeline) : String :=
  Report.record "ParsingFrontend"
    [("backend", p.backend.report), ("lexer", Report.bool p.lexer.isSome),
     ("postlex", Report.bool p.hook.isSome), ("start", Report.texts p.start)]

end TextPipeline

end GrammarKit
