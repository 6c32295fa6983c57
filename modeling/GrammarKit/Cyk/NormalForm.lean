/-
Grammars in which a rule has one terminal or two nonterminals. Terminals beside other symbols are wrapped in
nonterminals of their own, long rules are split into chains of two symbols each, and rules of a single
nonterminal are replaced by copies of the rules that they lead to.

Every rule of the normal form knows where it comes from: from a rule of the grammar, together with the single
nonterminal rules that were skipped to reach it, or from a split or a wrapper, which have no node of their
own in a derivation.
-/
import GrammarKit.Closure
import GrammarKit.Failure

namespace GrammarKit.Cyk

/-- Where a rule of the normal form comes from. -/
inductive Source where
  /-- The rule at a place, or the first piece of it. -/
  | rule (index : Nat)
  /-- A later piece of a split rule. -/
  | split
  /-- A wrapped terminal. -/
  | wrapper
  deriving DecidableEq

structure NormalRule where
  origin : String
  symbols : List Symbol
  source : Source
  /-- Places of the single nonterminal rules on the way to this rule, the outermost first. -/
  skipped : List Nat := []
  deriving DecidableEq

def wrapperPrefix : String := "__T_"

def splitPrefix : String := "__SP_"

def wrapperName (terminal : String) : String := wrapperPrefix ++ terminal

/-- The nonterminal for what follows the first `piece` symbols of a rule. -/
def splitName (index piece : Nat) : String := s!"{splitPrefix}{index}_{piece}"

/-- Whether a name looks like one that the normal form brings in. -/
def isHelper (name : String) : Bool := name.startsWith wrapperPrefix || name.startsWith splitPrefix

namespace NormalRule

/-- The nonterminal that is the only symbol of a rule. -/
def unit? (r : NormalRule) : Option String :=
  match r.symbols with
  | [.nonterminal n] => some n
  | _ => none

def terminal? (r : NormalRule) : Option String :=
  match r.symbols with
  | [.terminal n] => some n
  | _ => none

def pair? (r : NormalRule) : Option (String × String) :=
  match r.symbols with
  | [a, b] => some (a.name, b.name)
  | _ => none

end NormalRule

/-! ## Wrapping and splitting -/

def wrap : Symbol → Symbol
  | .terminal n => .nonterminal (wrapperName n)
  | .nonterminal n => .nonterminal n

def wrapper (terminal : String) : NormalRule :=
  { origin := wrapperName terminal, symbols := [.terminal terminal], source := .wrapper }

/-- The pieces of the rule at `index` from its `piece`th symbol on. -/
def pieces (index : Nat) : (piece : Nat) → (origin : String) → Source → List Symbol → List NormalRule
  | piece, origin, source, a :: b :: c :: rest =>
    let next := splitName index piece
    { origin, symbols := [a, .nonterminal next], source } :: pieces index (piece + 1) next .split (b :: c :: rest)
  | _, origin, source, symbols => [{ origin, symbols, source }]

/-- The wrappers that a rule brings in, beside those that are there, and its pieces. -/
def normalize (wrapped : List String) (index : Nat) (r : Rule) : List String × List NormalRule :=
  match r.symbols with
  | a :: b :: rest =>
    let new := fresh wrapped ((a :: b :: rest).filterMap fun
      | .terminal n => some n
      | .nonterminal _ => none)
    (new, new.map wrapper ++ pieces index 1 r.origin (.rule index) ((a :: b :: rest).map wrap))
  | symbols => ([], [{ origin := r.origin, symbols, source := .rule index }])

/-- The rules in which no rule has more than two symbols. -/
def shorten (rules : List Rule) : List NormalRule :=
  (rules.zipIdx.foldl (fun (wrapped, found) (r, index) =>
    let (new, converted) := normalize wrapped index r
    (wrapped ++ new, found ++ converted)) ([], [])).2

/-! ## Single nonterminals -/

/-- The single nonterminal rules by origin: what they lead to, and their places. -/
def units (rules : List NormalRule) : List (String × String × Nat) :=
  rules.filterMap fun r => match r.unit?, r.source with
    | some target, .rule index => some (r.origin, target, index)
    | _, _ => none

/-- A nonterminal and the single nonterminal rules that lead to it. -/
abbrev Chain := String × List Nat

/-- One more rule on a chain, for each nonterminal that was not reached before. -/
def extend (us : List (String × String × Nat)) (found : List Chain) (c : Chain) : List Chain :=
  us.foldl (fun new (origin, target, index) =>
    if origin = c.1 && !(found ++ new).any (·.1 == target) then new ++ [(target, c.2 ++ [index])] else new) []

/-- Shortest chains, nearer nonterminals first. -/
def chains (us : List (String × String × Nat)) : (fuel : Nat) → (finished todo : List Chain) → List Chain
  | 0, finished, todo => finished ++ todo
  | _ + 1, finished, [] => finished
  | fuel + 1, finished, c :: todo =>
    chains us fuel (finished ++ [c]) (todo ++ extend us (finished ++ c :: todo) c)

/-- The copies that an origin gets of the rules it leads to. -/
def copies (rules : List NormalRule) (us : List (String × String × Nat)) (origin : String) :
    List NormalRule :=
  let reached := ((chains us (us.length + 1) [] [(origin, [])]).filter (·.1 != origin)).mergeSort
    fun a b => a.1 ≤ b.1
  reached.flatMap fun (target, chain) =>
    (rules.filter fun r => r.origin == target && r.unit?.isNone).map fun r =>
      { r with origin, skipped := chain ++ r.skipped }

/-- Replaces single nonterminal rules by copies. -/
def eliminateUnits (rules : List NormalRule) : List NormalRule :=
  let us := units rules
  rules.filter (·.unit?.isNone) ++ (sortedNames (us.map (·.1))).flatMap (copies rules us)

/-! ## The normal form -/

structure NormalForm where
  rules : List NormalRule

namespace NormalForm

/-- The normal form of rules none of which is empty. -/
def ofRules (rules : List Rule) : Outcome NormalForm :=
  match rules.find? (·.parts.isEmpty) with
  | some r => .error (.grammar (.emptyRule r))
  | none => .ok ⟨eliminateUnits (shorten rules)⟩

/-- The rules of a single terminal. -/
def terminalRules (g : NormalForm) : List (String × NormalRule) :=
  g.rules.filterMap fun r => r.terminal?.map fun n => (n, r)

/-- The rules of two nonterminals. -/
def pairRules (g : NormalForm) : List ((String × String) × NormalRule) :=
  g.rules.filterMap fun r => r.pair?.map fun p => (p, r)

end NormalForm

end GrammarKit.Cyk
