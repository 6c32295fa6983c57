/-
What a lexer is built from: terminals, the names of those to skip, the hooks that a program puts between lexer
and parser, and an engine that matches patterns. Whatever engine it is, a match stays within the text.
-/
import GrammarKit.Scan.Matcher

namespace GrammarKit

/-- Changes the tokens of a lexer before the parser sees them. -/
structure PostLexer where
  /-- Terminals that the lexer must recognise in every context, because the hook takes them. -/
  alwaysAccept : List String := []
  /-- What becomes of a token; none drops it. -/
  update : Token → Option Token := some
  /-- Tokens that follow the last token of the lexer. -/
  appended : List Token := []
  /-- Whether input can be skipped after a failure. -/
  skips : Bool := false

structure LexerConfig where
  terminals : List Terminal
  /-- Names of the terminals that are matched and discarded. -/
  ignore : List String
  /-- Changes to tokens right after they are matched, by terminal. -/
  callbacks : List (String × (Token → Token)) := []
  postLexer : Option PostLexer := none
  /-- Allows terminals that match the empty text. -/
  skipValidation : Bool := false
  /-- Flags applied to every text pattern. -/
  globalFlags : String := ""
  /-- How text is matched. -/
  engine : Engine := Matcher.ofTerminal

namespace LexerConfig

def report (c : LexerConfig) : String :=
  Report.record "LexerConf"
    [("terminals", Report.list (c.terminals.map Terminal.report)),
     ("ignore", Report.texts c.ignore),
     ("callbacks", Report.texts (c.callbacks.map (·.1))),
     ("postlex", Report.bool c.postLexer.isSome),
     ("skip_validation", Report.bool c.skipValidation),
     ("global_flags", Text.quoted c.globalFlags)]

/-- The names of the terminals, sorted. -/
def terminalNames (c : LexerConfig) : List String := sortedNames (c.terminals.map (·.name))

end LexerConfig

end GrammarKit
