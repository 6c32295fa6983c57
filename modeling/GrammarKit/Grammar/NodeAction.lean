/-
Ready-made actions for nodes, chosen by name.
-/
import GrammarKit.Grammar.Shaping

namespace GrammarKit

inductive NodeAction where
  | first
  | last
  /-- A tree of the children from right to left. -/
  | reverse
  /-- A token of their number. -/
  | count
  /-- A token of all texts below. -/
  | leaves
  /-- A tree that gives way to its children in an inlined rule. -/
  | hide
  /-- The empty tree. -/
  | discard

namespace NodeAction

def ofName : String → NodeAction
  | "first" => first
  | "last" => last
  | "reverse" => reverse
  | "count" => count
  | "leaves" => leaves
  | "hide" => hide
  | _ => discard

/-- The empty tree. -/
def nothing : Child := .tree ⟨"none", [], none⟩

def apply : NodeAction → Action
  | first, children => children.head?.getD nothing
  | last, children => children.getLast?.getD nothing
  | reverse, children => .tree ⟨"reversed", children.reverse, none⟩
  | count, children => .token (.ofText "COUNT" (toString children.length))
  | leaves, children =>
    .token (.ofText "LEAVES" ("|".intercalate ((Child.tokensOf children).filterMap Token.text?)))
  | hide, children => .tree ⟨"_hidden", children, none⟩
  | discard, _ => nothing

end NodeAction

end GrammarKit
