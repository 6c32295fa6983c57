/-
The table of all stretches of a token list, filled from short stretches to long ones. A cell holds the best
derivation of every nonterminal that derives its stretch: of the rule with the highest priority, then the
lowest order, then of the first place where the stretch can be cut in two.
-/
import GrammarKit.Cyk.NormalForm
import GrammarKit.Grammar.Derivation

namespace GrammarKit.Cyk

/-- Derivations in the normal form. -/
inductive Binary where
  | leaf (rule : NormalRule) (t : Token)
  | branch (rule : NormalRule) (left right : Binary)

namespace Binary

/-- What a node with the given children adds to the node above it: itself, below the rules that were skipped,
or the children alone if it is a piece or a wrapper. -/
def contribution (r : NormalRule) (children : List Derivation) : List Derivation :=
  match r.source with
  | .rule index => [r.skipped.foldr (fun unit d => .node unit [d]) (.node index children)]
  | _ => children

/-- The derivations in terms of the grammar's own rules. -/
def parts : Binary → List Derivation
  | leaf r t => contribution r [.token t]
  | branch r left right => contribution r (left.parts ++ right.parts)

def rule : Binary → NormalRule
  | leaf r _ => r
  | branch r _ _ => r

/-- The derivation in terms of the grammar's own rules, unless the root is a piece or a wrapper. -/
def restore? (b : Binary) : Option Derivation :=
  match b.rule.source with
  | .rule _ => b.parts.head?
  | _ => none

end Binary

structure Rank where
  priority : Int
  order : Nat

namespace Rank

/-- The rank of a rule of the normal form: that of the outermost rule of the grammar that it stands for. -/
def ofNormal (rules : List Rule) (r : NormalRule) : Rank :=
  let outer := match r.skipped, r.source with
    | unit :: _, _ => rules[unit]?
    | [], .rule index => rules[index]?
    | [], _ => none
  match outer with
  | some o => ⟨o.priority, o.order⟩
  | none => ⟨0, 0⟩

/-- At least as good: a higher priority, or the same and no higher order. -/
def noWorse (a b : Rank) : Bool := b.priority < a.priority || (a.priority = b.priority && a.order ≤ b.order)

end Rank

/-- The best derivation of each nonterminal over a stretch. -/
abbrev Cell := List (String × Rank × Binary)

namespace Cell

/-- Adds a derivation where it is better than the one that is there. -/
def offer (c : Cell) (name : String) (rank : Rank) (b : Binary) : Cell :=
  match c.lookup name with
  | some (present, _) =>
    if present.noWorse rank then c else c.map fun e => if e.1 == name then (name, rank, b) else e
  | none => c ++ [(name, rank, b)]

def get? (c : Cell) (name : String) : Option Binary := (c.lookup name).map (·.2)

/-- The cell of one token. -/
def ofToken (rules : List Rule) (g : NormalForm) (t : Token) : Cell :=
  g.terminalRules.foldl (fun c (n, r) =>
    if n == t.kind then c.offer r.origin (.ofNormal rules r) (.leaf r t) else c) []

/-- Adds what two neighbouring stretches derive together, in the order of the rules. In another order the cell has the
same names and ranks (`Table.Filled.rank?_eq`). -/
def join (rules : List Rule) (g : NormalForm) (c : Cell) (left right : Cell) : Cell :=
  g.pairRules.foldl (fun c ((a, b), r) =>
    match left.get? a, right.get? b with
    | some x, some y => c.offer r.origin (.ofNormal rules r) (.branch r x y)
    | _, _ => c) c

end Cell

/-- Cells by length, from one token on, and by start. -/
abbrev Table := List (List Cell)

namespace Table

/-- The cell of `length` tokens from `start` on. -/
def cell (t : Table) (start length : Nat) : Cell := ((t[length - 1]?).getD [])[start]?.getD []

/-- The cells of the next length: each stretch is cut at every place, from left to right. -/
def nextRow (rules : List Rule) (g : NormalForm) (tokens : Nat) (t : Table) : List Cell :=
  let length := t.length + 1
  (List.range (tokens + 1 - length)).map fun start =>
    (List.range' 1 t.length).foldl (fun c k =>
      c.join rules g (t.cell start k) (t.cell (start + k) (length - k))) []

def grow (rules : List Rule) (g : NormalForm) (tokens : Nat) : (rows : Nat) → Table → Table
  | 0, t => t
  | n + 1, t => grow rules g tokens n (t ++ [nextRow rules g tokens t])

/-- The table of a token list. -/
def ofTokens (rules : List Rule) (g : NormalForm) (tokens : List Token) : Table :=
  grow rules g tokens.length (tokens.length - 1) [tokens.map (Cell.ofToken rules g)]

/-- The best derivation of a nonterminal over all tokens. -/
def whole? (t : Table) (name : String) : Option Binary := (t.cell 0 t.length).get? name

end Table

end GrammarKit.Cyk
