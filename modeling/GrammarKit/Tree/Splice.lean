/-
Splicing: tokens that carry a tree give way to that tree. The carried trees are put in as they are and not
looked into.
-/
import GrammarKit.Tree.Basic

namespace GrammarKit

mutual

/-- Puts carried trees in place below a tree. -/
def Tree.splice : Tree → Tree
  | ⟨l, cs, s⟩ => ⟨l, Child.spliceAll cs, s⟩

def Child.splice : Child → Child
  | .tree t => .tree t.splice
  | .token ⟨_, .tree t, _⟩ => .tree t
  | .token ⟨k, .text s, span⟩ => .token ⟨k, .text s, span⟩
  | .token ⟨k, .host v, span⟩ => .token ⟨k, .host v, span⟩

def Child.spliceAll : List Child → List Child
  | [] => []
  | c :: cs => c.splice :: Child.spliceAll cs

end

end GrammarKit
