/-
How many bytes of UTF-8 a match of an expression takes. A bound is absent where there is none: no least
length for an expression that can match nothing at all, no greatest one for a repetition without limit.
-/
import GrammarKit.Regex.Syntax

namespace GrammarKit.Regex

/-- Bounds on the length of a match. -/
structure Width where
  least : Option Nat
  most : Option Nat
  deriving DecidableEq

def CharSet.width (s : CharSet) : Width :=
  ⟨s.first?.map codeWidth, s.last?.map codeWidth⟩

def both (f : Nat → Nat → Nat) : Option Nat → Option Nat → Option Nat
  | some a, some b => some (f a b)
  | _, _ => none

/-- The set of an expression that matches exactly one character of a set. -/
def Expr.charSet? : Expr → Option CharSet
  | .chars s => some s
  | .alt a b => match a.charSet?, b.charSet? with
    | some s, some t => some (s.union t)
    | _, _ => none
  | _ => none

/-- A choice between single characters counts as their set. -/
def Expr.width : Expr → Width
  | .empty | .look _ => ⟨some 0, some 0⟩
  | .chars s => s.width
  | .seq a b => ⟨both (· + ·) a.width.least b.width.least, both (· + ·) a.width.most b.width.most⟩
  | .alt a b => match (Expr.alt a b).charSet? with
    | some s => s.width
    | none => ⟨both min a.width.least b.width.least, both max a.width.most b.width.most⟩
  | .exactly 0 _ | .upTo _ 0 _ => ⟨some 0, some 0⟩
  | .exactly n a => ⟨a.width.least.map (n * ·), a.width.most.map (n * ·)⟩
  | .upTo _ n a => ⟨a.width.least.map fun _ => 0, a.width.most.map (n * ·)⟩
  | .many _ a => ⟨a.width.least, if a.width.most = some 0 then some 0 else none⟩

end GrammarKit.Regex
