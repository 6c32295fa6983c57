/-
Ready-made hooks between lexer and parser: changes to single tokens, and changes to the whole token stream.
-/
import GrammarKit.Scan.Config

namespace GrammarKit

def Token.ofKind (kind : String) (t : Token) : Token := { t with kind }

/-- A change to a token; its parts apply in the order in which they are listed. -/
structure TokenChange where
  kind : Option String := none
  text : Option String := none
  /-- The text becomes upper case; letters outside of ASCII stay as they are. -/
  upper : Bool := false
  dropSpan : Bool := false

def TokenChange.apply (c : TokenChange) (t : Token) : Token :=
  let t := { t with kind := c.kind.getD t.kind }
  let t := match c.text with
    | some s => { t with value := .text s }
    | none => t
  let t := if c.upper then { t with value := .text ((t.text?.getD "").map Char.toUpper) } else t
  if c.dropSpan then { t with span := none } else t

/-- A change to the token stream by kind. -/
structure StreamChange where
  alwaysAccept : List String := []
  /-- Kinds of tokens that are discarded. -/
  drop : List String := []
  /-- New kinds, by old kind. -/
  kinds : List (String × String) := []
  /-- Tokens that follow at the end. -/
  append : List Token := []
  skips : Bool := false

def StreamChange.hook (c : StreamChange) : PostLexer :=
  { alwaysAccept := c.alwaysAccept
    update := fun t =>
      if c.drop.contains t.kind then none else some (t.ofKind ((c.kinds.lookup t.kind).getD t.kind))
    appended := c.append
    skips := c.skips }

end GrammarKit
