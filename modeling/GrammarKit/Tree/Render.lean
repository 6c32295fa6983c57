/-
Trees as text: on one line with every label and token spelled out, or indented with one node a line.
-/
import GrammarKit.Tree.Basic

namespace GrammarKit

def Token.inTree (t : Token) : String :=
  match t.value with
  | .text s => s!"Token('{t.kind}', '{s}')"
  | _ => s!"Token('{t.kind}', {t.describe})"

mutual

def Tree.display : Tree → String
  | ⟨l, cs, _⟩ => s!"Tree('{l}', [" ++ ", ".intercalate (Child.displayAll cs) ++ "])"

def Child.display : Child → String
  | .tree t => t.display
  | .token t => t.inTree

def Child.displayAll : List Child → List String
  | [] => []
  | c :: cs => c.display :: Child.displayAll cs

end

def indent (level : Nat) : String := String.ofList (List.replicate (2 * level) ' ')

mutual

/-- A node above a single token shares its line with it. -/
def Tree.prettyAt (level : Nat) : Tree → String
  | ⟨l, [.token t], _⟩ => indent level ++ l ++ "\t" ++ t.display ++ "\n"
  | ⟨l, cs, _⟩ => indent level ++ l ++ "\n" ++ Child.prettyAll level cs

def Child.prettyAll (level : Nat) : List Child → String
  | [] => ""
  | .tree t :: cs => t.prettyAt (level + 1) ++ Child.prettyAll level cs
  | .token t :: cs => indent (level + 1) ++ t.display ++ "\n" ++ Child.prettyAll level cs

end

def Tree.pretty (t : Tree) : String := t.prettyAt 0

end GrammarKit
