/-
Grammars in the making. A draft lists terminals and rules as they are written; building it resolves what
the items of a rule refer to, declares terminals for literals and placeholders on the way, and checks
that every name is defined.

An item in quotes is a literal, `PLACEHOLDER` and `PLACEHOLDER[key]` are placeholders, and any other item
is a name: of a terminal if its first character other than an underscore is an upper case letter, of a
rule otherwise. Literals without a terminal of their own and terminals named with an underscore are
hidden. A `?` in front of an origin lets single children take the place of its nodes, a `!` keeps every
token.
-/
import GrammarKit.Grammar.Basic

namespace GrammarKit

/-- A rule as it is written. -/
structure RuleDraft where
  origin : String
  items : List String
  nodeLabel : Option String := none
  options : RuleOptions := {}

/-- A rule whose origin may be marked. -/
def RuleDraft.ofMarked (origin : String) (items : List String) (nodeLabel : Option String)
    (options : RuleOptions) : RuleDraft :=
  let (name, options) := marks origin.toList options
  ⟨String.ofList name, items, nodeLabel, options⟩
where
  marks : List Char → RuleOptions → List Char × RuleOptions
    | '?' :: rest, o => marks rest { o with expandSingle := true }
    | '!' :: rest, o => marks rest { o with keepAllTokens := true }
    | name, o => (name, o)

structure GrammarDraft where
  terminals : List Terminal := []
  rules : List RuleDraft := []
  start : List String := []
  ignore : List String := []

/-! ## Names of literals -/

/-- The names of the marks that are common in notations. -/
def markNames : List (String × String) :=
  [(".", "DOT"), (",", "COMMA"), (":", "COLON"), (";", "SEMICOLON"), ("+", "PLUS"), ("-", "MINUS"),
   ("*", "STAR"), ("/", "SLASH"), ("\\", "BACKSLASH"), ("|", "VBAR"), ("?", "QMARK"), ("!", "BANG"),
   ("@", "AT"), ("#", "HASH"), ("$", "DOLLAR"), ("%", "PERCENT"), ("^", "CIRCUMFLEX"),
   ("&", "AMPERSAND"), ("<", "LESSTHAN"), (">", "MORETHAN"), ("=", "EQUAL"), ("\"", "DBLQUOTE"),
   ("\x27", "QUOTE"), ("\x60", "BACKQUOTE"), ("~", "TILDE"), ("(", "LPAR"), (")", "RPAR"),
   ("\x7b", "LBRACE"), ("\x7d", "RBRACE"), ("[", "LSQB"), ("]", "RSQB"), ("\n", "NEWLINE"),
   ("\t", "TAB"), (" ", "SPACE")]

def isNameChar (c : Char) : Bool := c.isAlphanum || c == '_'

/-- The terminal name that a literal asks for: itself in upper case if it is a word, the name of a mark
otherwise. -/
def literalName? (text : String) : Option String :=
  match text.toList with
  | [] => none
  | c :: rest =>
    if (c.isAlpha || c == '_') && rest.all isNameChar then
      some (String.ofList ((c :: rest).map Char.toUpper))
    else markNames.lookup text

/-! ## Resolving items -/

/-- The terminals so far, and the names of those declared for literals. -/
structure Resolution where
  terminals : List Terminal
  generated : List String := []

namespace Resolution

def declare (r : Resolution) (t : Terminal) : Resolution :=
  if r.terminals.any (·.name == t.name) then r else { r with terminals := r.terminals ++ [t] }

/-- The name of a new literal: the one it asks for, unless taken, or else a numbered one. -/
def freshName (r : Resolution) (text : String) : String :=
  match literalName? text with
  | some name => if r.terminals.any (·.name == name) then numbered else name
  | none => numbered
where
  numbered : String :=
    let count := (r.generated.filter (·.startsWith "__ANON_")).length
    s!"__ANON_{count}"

def literal (r : Resolution) (text : String) (keepAll : Bool) : Part × Resolution :=
  let pattern := Pattern.literal text ""
  match r.terminals.find? (·.pattern == pattern) with
  | some t => (⟨.terminal t.name, r.generated.contains t.name && !keepAll⟩, r)
  | none =>
    let name := r.freshName text
    (⟨.terminal name, !keepAll⟩,
      { terminals := r.terminals ++ [{ name, pattern }]
        generated := if r.generated.contains name then r.generated else name :: r.generated })

/-- The text of an item in quotes. -/
def quotedText? (item : List Char) : Option (List Char) :=
  match item with
  | '"' :: rest => if rest.getLast? == some '"' then some rest.dropLast else none
  | _ => none

/-- The key of a placeholder item. -/
def placeholderKey? (item : List Char) : Option (List Char) :=
  match item.drop placeholderName.length with
  | '[' :: rest =>
    if placeholderName.toList.isPrefixOf item && rest.getLast? == some ']' then some rest.dropLast
    else none
  | _ => none

/-- The part that an item stands for. -/
def item (r : Resolution) (keepAll : Bool) (item : String) : Outcome (Part × Resolution) :=
  let cs := item.toList
  match quotedText? cs, placeholderKey? cs with
  | some text, _ => .ok (r.literal (String.ofList text) keepAll)
  | none, some key =>
    let key := String.ofList key
    let name := placeholderTerminalName (some key)
    .ok (⟨.terminal name, false⟩, r.declare { name, pattern := .placeholder (some key) })
  | none, none =>
    if item == placeholderName then
      .ok (⟨.terminal placeholderName, false⟩,
        r.declare { name := placeholderName, pattern := .placeholder none })
    else
      match cs.dropWhile (· == '_') with
      | [] => .error (.grammar (.invalidSymbol item))
      | c :: _ =>
        if !cs.all isNameChar then .error (.grammar (.invalidSymbol item))
        else if c.isUpper then .ok (⟨.terminal item, cs.head? == some '_' && !keepAll⟩, r)
        else .ok (⟨.nonterminal item, false⟩, r)

/-- The parts that items stand for, from left to right. -/
def items (r : Resolution) (keepAll : Bool) : List String → Outcome (List Part × Resolution)
  | [] => .ok ([], r)
  | i :: rest => do
    let (part, r) ← r.item keepAll i
    let (parts, r) ← items r keepAll rest
    return (part :: parts, r)

/-- Resolves rules in order. Each is numbered among the rules of its origin and must be a new
production. -/
def rules (r : Resolution) (before : List Rule) : List RuleDraft → Outcome (List Rule × Resolution)
  | [] => .ok (before, r)
  | d :: rest => do
    let (parts, r) ← r.items d.options.keepAllTokens d.items
    let rule : Rule :=
      { origin := d.origin
        parts
        order := (before.filter (·.origin == d.origin)).length
        nodeLabel := d.nodeLabel
        options := { d.options with emptyIndices := parts.map fun _ => false } }
    if before.any (·.production == rule.production) then throw (.grammar (.ruleRedefined rule))
    rules r (before ++ [rule]) rest

end Resolution

/-! ## Building -/

/-- The terminals of a draft, each once. Two terminals of one name must have the same pattern. -/
def declaredTerminals (seen : List Terminal) : List Terminal → Outcome (List Terminal)
  | [] => .ok seen
  | t :: rest =>
    match seen.find? (·.name == t.name) with
    | some s =>
      if s.pattern = t.pattern then declaredTerminals seen rest
      else .error (.grammar (.terminalRedefined t.name))
    | none => declaredTerminals (seen ++ [t]) rest

namespace Grammar

/-- The first name in a rule that nothing defines. -/
def undefinedIn (g : Grammar) (r : Rule) : Option GrammarFault :=
  r.symbols.findSome? fun
    | .terminal n => if (g.terminal? n).isNone then some (.undefinedTerminal n r) else none
    | .nonterminal n => if (g.rulesOf n).isEmpty then some (.undefinedRule n r) else none

/-- What is wrong with the names of a grammar. -/
def fault? (g : Grammar) : Option GrammarFault :=
  (g.rules.findSome? g.undefinedIn)
    |>.or ((g.ignore.find? fun n => (g.terminal? n).isNone).map .undefinedIgnored)
    |>.or ((g.start.find? fun n => (g.rulesOf n).isEmpty).map .startWithoutRules)

end Grammar

/-- The grammar of a draft; without a start symbol it starts with `start`. -/
def GrammarDraft.build (d : GrammarDraft) : Outcome Grammar := do
  let terminals ← declaredTerminals [] d.terminals
  let (rules, r) ← Resolution.rules { terminals } [] d.rules
  let g : Grammar :=
    { terminals := r.terminals
      rules
      start := if d.start.isEmpty then ["start"] else d.start
      ignore := d.ignore }
  match g.fault? with
  | some fault => throw (.grammar fault)
  | none => return g

end GrammarKit
