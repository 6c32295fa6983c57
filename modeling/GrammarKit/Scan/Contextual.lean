/-
Lexers that look only for what the parser can take next: one lexicon for each parser state, and one of
all terminals for everything else. Where the lexicon of a state finds nothing but the full one does, the
failure names the token that was found there and what the state would have taken.
-/
import GrammarKit.Scan.Lexicon

namespace GrammarKit

/-- What a lexer looks for in one parser state. -/
structure LexContext where
  lexicon : Lexicon
  /-- The names that the state takes, sorted. -/
  expected : List String

structure ContextualLexer where
  /-- By parser state. -/
  contexts : List LexContext
  /-- All terminals. -/
  root : Lexicon

namespace ContextualLexer

/-- The names of the terminals that match text and that a state looks for: those it takes, the skipped ones and those
in `always`. States that look for the same share a lexicon. -/
def sought (c : LexerConfig) (always accepts : List String) : List String :=
  let text := (c.terminals.filter (·.pattern.isText)).map (·.name)
  sortedNames (accepts.filter text.contains ++ c.ignore ++ always)

/-- Contexts of states one after the other. The lexicons made so far are kept by what they look for. -/
def contextsFor (c : LexerConfig) (prepared : List Prepared) (always : List String) :
    (made : List (List String × Lexicon)) → List (List String) → Outcome (List LexContext)
  | _, [] => .ok []
  | made, accepts :: states => do
    let names := sought c always accepts
    match made.lookup names with
    | some lexicon => return ⟨lexicon, sortedNames accepts⟩ :: (← contextsFor c prepared always made states)
    | none =>
      let lexicon ← Lexicon.ofPrepared c prepared true names.contains
      return ⟨lexicon, sortedNames accepts⟩ :: (← contextsFor c prepared always ((names, lexicon) :: made) states)

/-- A lexer for parser states that take the given terminals. Skipped terminals and those in `always` are
looked for in every state. -/
def ofConfig (c : LexerConfig) (states : List (List String)) (always : List String) :
    Outcome ContextualLexer := do
  let prepared := c.prepared
  let contexts ← contextsFor c prepared always [] states
  return { contexts, root := ← Lexicon.ofPrepared c prepared c.skipValidation fun _ => true }

/-- The failure where a state's lexicon finds nothing, in view of what the full lexicon finds. -/
def misplaced (l : ContextualLexer) (expected : List String) (c : Cursor) (f : ParseFailure) :
    ParseFailure :=
  match l.root.match? c.ahead with
  | some (name, n) =>
    if l.root.isIgnored name then f else .atToken (Lexicon.tokenAt c name n) expected
  | none => f

def pull (l : ContextualLexer) (state : Option Nat) (c : Cursor) : Pulled c :=
  match state.bind (l.contexts[·]?) with
  | none => l.root.pull c
  | some context =>
    let p := context.lexicon.pull c
    match h : p.result with
    | .error (.parse (.unexpectedCharacters a b d e f)) =>
      ⟨.error (.parse (l.misplaced context.expected p.cursor (.unexpectedCharacters a b d e f))), p.cursor,
        p.size_le, by simp⟩
    | r => ⟨r, p.cursor, p.size_le, fun t ht => p.size_lt t (h.trans ht)⟩

end ContextualLexer

end GrammarKit
