/-
Parse trees. A tree has a label and children, a child is a tree or a token, and a token carries the
text it was matched from, a tree that was put in its place, or a value of the host program.

Places in the source are carried along and never compared: `same` looks at labels, kinds and values
alone, and at the identity of host values.
-/
import GrammarKit.Text.Span
import GrammarKit.Tree.Host

namespace GrammarKit

mutual

structure Tree where
  /-- The label of the rule that built the node. -/
  label : String
  children : List Child
  span : Option Span

structure Token where
  /-- The name of the terminal that the token stands for. -/
  kind : String
  value : TokenValue
  span : Option Span

inductive TokenValue where
  | text (s : String)
  | tree (t : Tree)
  | host (v : HostValue)

inductive Child where
  | tree (t : Tree)
  | token (t : Token)

end

instance : Inhabited Tree := ⟨⟨"", [], none⟩⟩
instance : Inhabited Token := ⟨⟨"", .text "", none⟩⟩
instance : Inhabited Child := ⟨.tree default⟩

namespace Token

def ofText (kind text : String) (span : Option Span := none) : Token := ⟨kind, .text text, span⟩

def text? (t : Token) : Option String :=
  match t.value with
  | .text s => some s
  | _ => none

def tree? (t : Token) : Option Tree :=
  match t.value with
  | .tree s => some s
  | _ => none

def host? (t : Token) : Option HostValue :=
  match t.value with
  | .host v => some v
  | _ => none

def line? (t : Token) : Option Nat := t.span.map (·.line)

def column? (t : Token) : Option Nat := t.span.map (·.column)

/-- What a message calls the token. -/
def describe (t : Token) : String :=
  match t.value with
  | .text s => s!"{t.kind}('{s}')"
  | .tree s => s!"Tree('{s.label}')"
  | .host v => s!"interpolated value <{v.shortName}>"

def display (t : Token) : String := t.text?.getD t.describe

end Token

namespace Child

def tree? : Child → Option Tree
  | tree t => some t
  | token _ => none

def span : Child → Option Span
  | tree t => t.span
  | token t => t.span

end Child

/-! ## Equality -/

mutual

def Tree.same : Tree → Tree → Bool
  | ⟨l, cs, _⟩, ⟨m, ds, _⟩ => l == m && Child.sameAll cs ds

def Token.same : Token → Token → Bool
  | ⟨k, v, _⟩, ⟨l, w, _⟩ => k == l && v.same w

def TokenValue.same : TokenValue → TokenValue → Bool
  | .text s, .text t => s == t
  | .tree s, .tree t => s.same t
  | .host v, .host w => v.same w
  | _, _ => false

def Child.same : Child → Child → Bool
  | .tree s, .tree t => s.same t
  | .token s, .token t => s.same t
  | _, _ => false

def Child.sameAll : List Child → List Child → Bool
  | [], [] => true
  | c :: cs, d :: ds => c.same d && Child.sameAll cs ds
  | _, _ => false

end

/-! ## Walks -/

mutual

/-- Every token below a tree, from left to right. -/
def Tree.tokens : Tree → List Token
  | ⟨_, cs, _⟩ => Child.tokensOf cs

def Child.tokens : Child → List Token
  | .tree t => t.tokens
  | .token t => [t]

def Child.tokensOf : List Child → List Token
  | [] => []
  | c :: cs => c.tokens ++ Child.tokensOf cs

end

mutual

/-- A tree and every tree below it, each before its own subtrees. -/
def Tree.topDown : Tree → List Tree
  | ⟨l, cs, s⟩ => ⟨l, cs, s⟩ :: Child.topDownOf cs

def Child.topDownOf : List Child → List Tree
  | [] => []
  | .tree t :: cs => t.topDown ++ Child.topDownOf cs
  | .token _ :: cs => Child.topDownOf cs

end

mutual

/-- A tree and every tree below it, each after its own subtrees. -/
def Tree.bottomUp : Tree → List Tree
  | ⟨l, cs, s⟩ => Child.bottomUpOf cs ++ [⟨l, cs, s⟩]

def Child.bottomUpOf : List Child → List Tree
  | [] => []
  | .tree t :: cs => t.bottomUp ++ Child.bottomUpOf cs
  | .token _ :: cs => Child.bottomUpOf cs

end

/-- The subtrees with a label, from the top down. -/
def Tree.find (t : Tree) (label : String) : List Tree := t.topDown.filter (·.label == label)

end GrammarKit
