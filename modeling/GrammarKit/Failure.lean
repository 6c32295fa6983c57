/-
What can go wrong, as causes. A parse failure says where the input stopped fitting and what would have
fitted; every other failure says what is wrong with a grammar, a configuration, an interpolated value
or the use of a parser. `message` is the text shown to people.
-/
import GrammarKit.Tree.Basic
import GrammarKit.Grammar.Rule
import GrammarKit.Grammar.Terminal

namespace GrammarKit

/-! ## Lists of names -/

/-- Sorted, each name once. -/
def sortedNames (names : List String) : List String :=
  dedup (names.mergeSort (fun a b => a ≤ b))
where
  dedup : List String → List String
    | [] => []
    | [a] => [a]
    | a :: b :: rest => if a = b then dedup (b :: rest) else a :: dedup (b :: rest)

/-- Names as alternatives in a sentence. -/
def alternatives : List String → String
  | [] => "nothing"
  | [a] => a
  | [a, b] => s!"{a} or {b}"
  | names => ", ".intercalate names.dropLast ++ ", or " ++ names.getLastD ""

/-! ## Parse failures -/

inductive ParseFailure where
  /-- A token that no continuation allows; `note` explains it in terms of the program's values. -/
  | unexpectedToken (token : Token) (expected : List String) (note : Option String)
  /-- No terminal matches at a place of the text. -/
  | unexpectedCharacters (character : Char) (offset line column : Nat) (allowed : List String)
  /-- The input ends too early. -/
  | unexpectedEnd (expected : List String)

namespace ParseFailure

/-- The failure at a token, with the expected names sorted. -/
def atToken (token : Token) (expected : List String) : ParseFailure :=
  unexpectedToken token (sortedNames expected) none

/-- The failure at the end of the input, with the expected names sorted. -/
def atEnd (expected : List String) : ParseFailure := unexpectedEnd (sortedNames expected)

def expected : ParseFailure → List String
  | unexpectedToken _ names _ => names
  | unexpectedCharacters _ _ _ _ names => names
  | unexpectedEnd names => names

def token? : ParseFailure → Option Token
  | unexpectedToken t _ _ => some t
  | _ => none

def line? : ParseFailure → Option Nat
  | unexpectedToken t _ _ => t.line?
  | unexpectedCharacters _ _ line _ _ => some line
  | unexpectedEnd _ => none

def column? : ParseFailure → Option Nat
  | unexpectedToken t _ _ => t.column?
  | unexpectedCharacters _ _ _ column _ => some column
  | unexpectedEnd _ => none

def message : ParseFailure → String
  | unexpectedToken t names note =>
    let place := match t.line?, t.column? with
      | some line, some column => s!" at line {line}, column {column}"
      | _, _ => ""
    let base := s!"Unexpected token {t.describe}{place}. Expected {alternatives names}"
    match note with
    | some n => s!"{n}. {base}"
    | none => base
  | unexpectedCharacters c _ line column names =>
    let base := s!"No terminal matches '{c}' in the current parser context, at line {line} col {column}"
    if names.isEmpty then base else s!"{base}. Expected {alternatives names}"
  | unexpectedEnd names => s!"Unexpected end of input. Expected {alternatives names}"

end ParseFailure

/-! ## Faults of configurations and grammars -/

/-- Parts that do not fit together, and start symbols that cannot be chosen. -/
inductive ConfigurationFault where
  | lexerMismatch (lexer algorithm : String)
  | templateLexerMismatch (algorithm : String)
  | templateInput
  | handlerUnsupported
  | interactiveUnsupported
  | cykPairing
  | noLexer
  | forestUnsupported
  | noStart
  | severalStarts (declared : List String)
  | undeclaredStart (name : String) (declared : List String)
  | unknownStart (name : String)
  | unknownLevel (level : Nat)
  | wholeTextLevel
  | unregisteredPlaceholder (key : String)
  | unregisteredPlaceholders (keys : List String)

namespace ConfigurationFault

def message : ConfigurationFault → String
  | lexerMismatch lexer algorithm => s!"The {lexer} lexer cannot be used with the {algorithm} algorithm"
  | templateLexerMismatch algorithm => s!"Template lexing requires the earley algorithm, not {algorithm}"
  | templateInput => "Templates can only be parsed by a frontend built with the template lexer"
  | handlerUnsupported => "on_error is only supported by the LALR backend"
  | interactiveUnsupported => "parse_interactive is only supported by the LALR backend"
  | cykPairing => "The CYK algorithm is served by CykFrontend"
  | noLexer => "No lexer is bound to this frontend"
  | forestUnsupported => "The Earley backend builds trees; ambiguity='forest' is not supported"
  | noStart => "No start symbol declared"
  | severalStarts declared =>
    let names := ", ".intercalate declared
    s!"Several start symbols are declared ({names}); specify which one to parse"
  | undeclaredStart name declared =>
    let names := ", ".intercalate declared
    s!"Unknown start rule {name}. Must be one of {names}"
  | unknownStart name => s!"Unknown start rule {name}"
  | unknownLevel level => s!"Unknown custom lexer capability level {level} (expected 0, 1 or 2)"
  | wholeTextLevel => "Level 0 custom lexers tokenize whole texts; wrap them with CustomLexer::Text"
  | unregisteredPlaceholder key => s!"No host type registered for placeholder[{key}]"
  | unregisteredPlaceholders keys =>
    "No host type registered for typed placeholders: " ++ ", ".intercalate keys

end ConfigurationFault

/-- Rules and terminals that contradict each other, or that a parser cannot serve. -/
inductive GrammarFault where
  | invalidSymbol (item : String)
  | terminalRedefined (name : String)
  | ruleRedefined (rule : Rule)
  | undefinedTerminal (name : String) (rule : Rule)
  | undefinedRule (name : String) (rule : Rule)
  | undefinedIgnored (name : String)
  | startWithoutRules (name : String)
  | unmatchableTerminal (name : String) (pattern : Pattern)
  | uncompilableTerminal (name : String)
  | unanalysableTerminal (name report : String)
  | emptyTerminal (name : String) (pattern : Pattern)
  | emptyDynamicTerminal (name : String)
  | missingDynamicTerminal (name : String)
  | dynamicCallbacks
  | emptyRule (rule : Rule)
  | shiftReduce (terminal : String) (state : Nat) (rule : Rule)
  | reduceReduce (state : Nat) (terminal : String) (rules : List Rule)
  | missingGoto (origin : String) (state : Nat)
  /-- No number of reductions leads to the next token. -/
  | endlessReduction (terminal : String)
  | noDerivation (start : String)
  | noFiniteDerivation (start : String)

namespace GrammarFault

def message : GrammarFault → String
  | invalidSymbol item => s!"Invalid symbol '{item}'"
  | terminalRedefined name => s!"Terminal '{name}' defined more than once"
  | ruleRedefined rule => s!"Rule {rule.display} defined more than once"
  | undefinedTerminal name rule => s!"Terminal '{name}' used but not defined (in rule {rule.display})"
  | undefinedRule name rule => s!"Rule '{name}' used but not defined (in rule {rule.display})"
  | undefinedIgnored name => s!"Ignored terminal '{name}' is not defined"
  | startWithoutRules name => s!"Start symbol '{name}' has no rules"
  | unmatchableTerminal name pattern =>
    s!"Terminal '{name}' ({pattern.display}) cannot be matched against text"
  | uncompilableTerminal name => s!"Cannot compile terminal '{name}'"
  | unanalysableTerminal name report => s!"Cannot analyze terminal '{name}': {report}"
  | emptyTerminal name pattern => s!"Lexer does not allow zero-width terminals ({name}: {pattern.display})"
  | emptyDynamicTerminal name =>
    s!"Dynamic Earley doesn't allow zero-width terminals (terminal {name} matches the empty string)"
  | missingDynamicTerminal name => s!"Terminal {name} is used but not defined"
  | dynamicCallbacks => "Dynamic Earley doesn't support lexer callbacks, which the grammar declares"
  | emptyRule rule => s!"CYK doesn't support empty rules (rule {rule.display})"
  | shiftReduce terminal state rule =>
    s!"Shift/Reduce conflict for terminal {terminal} (state {state}, rule {rule.display})"
  | reduceReduce state terminal rules =>
    s!"Reduce/Reduce collision in state {state} on terminal {terminal} between the following rules: " ++
      ", ".intercalate (rules.map Rule.display)
  | missingGoto origin state => s!"No goto for {origin} in state {state}"
  | endlessReduction terminal => s!"Reductions never end on terminal {terminal}"
  | noDerivation start => s!"No derivation of {start} over the input"
  | noFiniteDerivation start => s!"No finite derivation of {start}"

end GrammarFault

/-- Input that an operation cannot take. -/
inductive UsageFault where
  | invalidWindow (start stop length : Nat)
  | invalidSourceSpan (start stop length : Nat)
  | segmentCount (interpolations segments : Nat)
  | partialText (level : Nat)
  | partialDynamicText
  | noInput
  /-- Raised by a lexer of the program. -/
  | custom (text : String)

namespace UsageFault

def message : UsageFault → String
  | invalidWindow start stop length => s!"Invalid text slice {start}..{stop} of a text of length {length}"
  | invalidSourceSpan start stop length =>
    s!"Source span {start}..{stop} does not fit a source text of length {length}"
  | segmentCount interpolations segments =>
    s!"A template with {interpolations} interpolations needs {interpolations + 1} literal segments, " ++
      s!"got {segments}"
  | partialText level => s!"Custom lexers of capability level {level} cannot lex a partial text slice"
  | partialDynamicText => "Dynamic lexers cannot parse a partial text slice"
  | noInput => "This interactive parser was created without input"
  | custom text => text

end UsageFault

/-! ## Failures -/

inductive Failure where
  | parse (failure : ParseFailure)
  | configuration (fault : ConfigurationFault)
  | grammar (fault : GrammarFault)
  /-- A tree whose label no rule of the grammar builds. -/
  | splice (label : String)
  /-- A value of another type than its placeholder is registered with. -/
  | typeMismatch (key expected found : String)
  | usage (fault : UsageFault)

namespace Failure

def message : Failure → String
  | parse f => f.message
  | configuration f => s!"Configuration error: {f.message}"
  | grammar f => s!"Grammar error: {f.message}"
  | splice label => s!"Cannot splice Tree('{label}'): grammar does not produce this label"
  | typeMismatch key expected found => s!"Expected {expected} for placeholder[{key}], got {found}"
  | usage f => s!"Usage error: {f.message}"

/-- Advice that goes with the failure. -/
def help? : Failure → Option String
  | splice _ => some "only trees whose label is a rule name or alias of this grammar can be spliced"
  | _ => none

end Failure

/-- What an operation returns: a value, or the failure that stopped it. -/
abbrev Outcome (α : Type) := Except Failure α

end GrammarKit
