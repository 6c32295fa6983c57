/-
What a pipeline is put together from: an algorithm, a lexer, and how trees are to be built.
-/
import GrammarKit.Earley.Forest
import GrammarKit.Scan.Custom

namespace GrammarKit

inductive Algorithm where
  | lalr
  | earley
  | cyk
  deriving DecidableEq

namespace Algorithm

def display : Algorithm → String
  | lalr => "lalr"
  | earley => "earley"
  | cyk => "cyk"

def report : Algorithm → String
  | lalr => "Lalr"
  | earley => "Earley"
  | cyk => "Cyk"

end Algorithm

inductive LexerChoice where
  /-- All terminals at every place. -/
  | basic
  /-- The terminals that the parser's state takes. -/
  | contextual
  /-- No lexer: the parser matches terminals by itself, each as far as it goes. -/
  | dynamic
  /-- No lexer: the parser matches terminals by itself, at every length. -/
  | dynamicComplete
  | custom (lexer : CustomLexer)
  /-- Templates instead of text. -/
  | template

namespace LexerChoice

def display : LexerChoice → String
  | basic => "basic"
  | contextual => "contextual"
  | dynamic => "dynamic"
  | dynamicComplete => "dynamic_complete"
  | custom _ => "custom"
  | template => "template"

def report : LexerChoice → String
  | basic => "Basic"
  | contextual => "Contextual"
  | dynamic => "Dynamic"
  | dynamicComplete => "DynamicComplete"
  | custom l => s!"Custom({l.report})"
  | template => "Template"

/-- The pairing of an algorithm with a lexer that it has no use for. -/
def mismatch (l : LexerChoice) (a : Algorithm) : Failure :=
  .configuration (.lexerMismatch l.display a.display)

end LexerChoice

structure PipelineOptions where
  /-- The types of typed placeholders, in the order of their keys. -/
  placeholderTypes : List (String × HostType) := []
  ambiguity : Earley.Ambiguity := .resolve
  /-- Conflicts between shifting and reducing are errors. -/
  strict : Bool := false
  /-- Resolved conflicts are logged. -/
  verbose : Bool := false
  shaping : Shaping := {}

def Shaping.report (s : Shaping) : String :=
  Report.record "ParseTreeBuilder"
    [("propagate_positions", Report.bool s.propagatePositions),
     ("keep_all_tokens", Report.bool s.keepAllTokens),
     ("user_callbacks", Report.texts (s.actions.map (·.1)))]

def PipelineOptions.report (o : PipelineOptions) : String :=
  Report.record "FrontendOptions"
    [("placeholder_types", Report.set (o.placeholderTypes.map fun (key, type) =>
        Text.quoted key ++ ": " ++ type.report)),
     ("ambiguity", o.ambiguity.report),
     ("strict", Report.bool o.strict),
     ("debug", Report.bool o.verbose),
     ("propagate_positions", Report.bool o.shaping.propagatePositions),
     ("keep_all_tokens", Report.bool o.shaping.keepAllTokens),
     ("callbacks", Report.texts (o.shaping.actions.map (·.1)))]

/-- The start symbol of a parse: the one that is asked for, or else the only one. -/
def chooseStart (declared : List String) (requested : Option String) : Outcome String :=
  match requested, declared with
  | none, [only] => .ok only
  | none, [] => .error (.configuration .noStart)
  | none, _ => .error (.configuration (.severalStarts declared))
  | some name, _ =>
    if declared.contains name then .ok name
    else .error (.configuration (.undeclaredStart name declared))

end GrammarKit
