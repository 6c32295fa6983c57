/-
Lexers that try their terminals in a fixed order and take the first match. Higher priority comes first,
then the greater width, then the longer way of writing, then the name.

A literal that a pattern of the same priority matches from start to end need not be tried on its own:
the pattern is matched, and a token whose text is the literal gets the literal's name. The literal keeps
its own place in the order only if it has flags that the pattern has not.
-/
import GrammarKit.Scan.Config
import GrammarKit.Scan.Cursor

namespace GrammarKit

/-- A terminal with its matcher, or with the reason why it has none. -/
structure Prepared where
  terminal : Terminal
  matcher : Outcome Matcher

/-- A terminal of a lexicon. -/
structure Entry where
  name : String
  matcher : Matcher
  /-- Texts that make a token one of another terminal. -/
  keywords : List (String × String)

structure Lexicon where
  entries : List Entry
  ignore : List String
  callbacks : List (String × (Token → Token))

namespace LexerConfig

/-- The terminals that match text, made ready. -/
def prepared (c : LexerConfig) : List Prepared :=
  (c.terminals.filter (·.pattern.isText)).map fun t => ⟨t, c.engine t c.globalFlags⟩

end LexerConfig

namespace Lexicon

/-- The matchers of the terminals in order, up to the first failure. Of terminals with one name the last
one's matcher stands for all. -/
def matchers (allowEmpty : Bool) : List Prepared → Outcome (List (String × Matcher))
  | [] => .ok []
  | p :: rest => do
    let m ← p.matcher
    if m.minWidth = 0 && !allowEmpty then
      throw (.grammar (.emptyTerminal p.terminal.name p.terminal.pattern))
    return (← matchers allowEmpty rest) ++ [(p.terminal.name, m)]

/-- The literals of a pattern's priority that the pattern matches from start to end, with their texts. -/
def literalsOf (selected : List Terminal) (t : Terminal) (m : Matcher) : List (String × Terminal) :=
  selected.filterMap fun s => match s.pattern with
    | .literal text _ =>
      if s.priority = t.priority && m.matchesWhole text.toList then some (text, s) else none
    | _ => none

/-- Whether a literal needs no place of its own beside a pattern that matches it. -/
def isFolded (literal pattern : Terminal) : Bool :=
  literal.pattern.flags.toList.all fun f => pattern.pattern.flags.toList.contains f

/-- Terminals by descending priority, width and written length, then by name. -/
def before (width : Terminal → Option Nat) (a b : Terminal) : Bool :=
  let keys := (compare b.priority a.priority)
    |>.then (match width a, width b with
      | none, none => .eq
      | none, some _ => .lt
      | some _, none => .gt
      | some m, some n => compare n m)
    |>.then (compare b.pattern.writtenLength a.pattern.writtenLength)
    |>.then (compare a.name b.name)
  keys != .gt

/-- The lexicon of those terminals whose names are accepted. -/
def ofPrepared (c : LexerConfig) (prepared : List Prepared) (allowEmpty : Bool)
    (accepts : String → Bool) : Outcome Lexicon := do
  let chosen := prepared.filter (accepts ·.terminal.name)
  let selected := chosen.map (·.terminal)
  let ready ← matchers allowEmpty chosen
  let patterns := selected.filter fun t => t.pattern matches .regex ..
  let taken := patterns.map fun t => (t, match ready.lookup t.name with
    | some m => literalsOf selected t m
    | none => [])
  let folded := taken.flatMap fun (t, literals) =>
    (literals.filter fun (_, s) => isFolded s t).map fun (_, s) => s.name
  let width (t : Terminal) : Option Nat := match ready.lookup t.name with
    | some m => m.maxWidth
    | none => some 0
  let ordered := (selected.filter fun t => !folded.contains t.name).mergeSort (before width)
  let entries := (ordered.foldl (fun kept t => if kept.any (·.name == t.name) then kept else kept ++ [t])
    ([] : List Terminal)).filterMap fun t => (ready.lookup t.name).map fun m =>
      { name := t.name
        matcher := m
        keywords := (taken.filter (·.1.name == t.name)).flatMap fun (_, literals) =>
          literals.map fun (text, s) => (text, s.name) }
  return { entries, ignore := c.ignore, callbacks := c.callbacks }

/-- The lexicon of every text terminal. -/
def ofConfig (c : LexerConfig) : Outcome Lexicon :=
  ofPrepared c c.prepared c.skipValidation fun _ => true

/-- The lexicon of the text terminals with accepted names. -/
def restricted (c : LexerConfig) (accepts : List String) : Outcome Lexicon :=
  ofPrepared c c.prepared c.skipValidation accepts.contains

/-- The names that tokens can get, sorted; skipped terminals and their literals are left out. -/
def names (l : Lexicon) : List String :=
  sortedNames ((l.entries.filter fun e => !l.ignore.contains e.name).flatMap fun e =>
    e.name :: e.keywords.map (·.2))

def isIgnored (l : Lexicon) (name : String) : Bool := l.ignore.contains name

/-- The terminal that matches at the start of a text, and how many characters it takes. A match of
nothing does not count. -/
def match? (l : Lexicon) (text : List Char) : Option (String × Nat) :=
  l.entries.findSome? fun e =>
    match e.matcher.length? text with
    | some (n + 1) =>
      let taken := String.ofList (text.take (n + 1))
      some (((e.keywords.find? (·.1 == taken)).map (·.2)).getD e.name, n + 1)
    | _ => none

/-- The failure at a cursor where nothing matches. -/
def unexpected (l : Lexicon) (c : Cursor) : ParseFailure :=
  .unexpectedCharacters (c.ahead.headD '\x00') c.position.offset c.position.line c.position.column l.names

/-- The token of the next `n` characters. -/
def tokenAt (c : Cursor) (kind : String) (n : Nat) : Token :=
  let taken := c.ahead.take n
  .ofText kind (String.ofList taken) (some (c.position.spanOf taken))

/-- The next token that is not skipped. -/
def pull (l : Lexicon) (c : Cursor) : Pulled c :=
  if h : c.ahead = [] then .stop c
  else match l.match? c.ahead with
    | some (name, n + 1) =>
      let token := tokenAt c name (n + 1)
      let token := match l.callbacks.lookup token.kind with
        | some callback => callback token
        | none => token
      have hlt : (c.advance (n + 1)).size < c.size := c.size_advance_lt (Nat.succ_pos n) h
      if l.isIgnored token.kind then (pull l (c.advance (n + 1))).counted (Nat.le_of_lt hlt)
      else
        ⟨.ok (some token), { c.advance (n + 1) with last := some token }, Nat.le_of_lt hlt, fun _ _ => hlt⟩
    | _ => .fail c (.parse (l.unexpected c))
termination_by c.size

def report (l : Lexicon) : String :=
  Report.openRecord "BasicLexer"
    [("terminals", Report.texts (l.entries.map (·.name))), ("ignore", Report.set (l.ignore.eraseDups.map Text.quoted))]

end Lexicon

end GrammarKit
