/-
Sets of characters, kept as ranges of code points in increasing order that neither overlap nor touch.
Surrogate code points belong to no set.
-/
import GrammarKit.Unicode.Fold

namespace GrammarKit.Regex

/-- A set of characters: the first and the last code point of each range. -/
structure CharSet where
  ranges : List (Nat × Nat)

namespace CharSet

/-! ## Building -/

/-- Joins ranges that overlap or touch, in a list ordered by first code point. -/
def join : List (Nat × Nat) → List (Nat × Nat)
  | [] => []
  | r :: rs => go r rs
where
  go (r : Nat × Nat) : List (Nat × Nat) → List (Nat × Nat)
    | [] => [r]
    | s :: rest => if s.1 ≤ r.2 + 1 then go (r.1, max r.2 s.2) rest else r :: go s rest

/-- The parts of a range on either side of the surrogates. -/
def scalars (r : Nat × Nat) : List (Nat × Nat) :=
  [(r.1, min r.2 0xD7FF), (max r.1 0xE000, min r.2 0x10FFFF)].filter fun (a, b) => a ≤ b

def ofRanges (rs : List (Nat × Nat)) : CharSet :=
  ⟨join ((rs.flatMap scalars).mergeSort fun a b => a.1 ≤ b.1)⟩

def empty : CharSet := ⟨[]⟩

def single (c : Char) : CharSet := ⟨[(c.toNat, c.toNat)]⟩

def all : CharSet := ofRanges [(0, 0x10FFFF)]

/-! ## Reading -/

def contains (s : CharSet) (c : Char) : Bool :=
  s.ranges.any fun (a, b) => a ≤ c.toNat && c.toNat ≤ b

def isEmpty (s : CharSet) : Bool := s.ranges.isEmpty

def first? (s : CharSet) : Option Nat := s.ranges.head?.map (·.1)

def last? (s : CharSet) : Option Nat := s.ranges.getLast?.map (·.2)

/-! ## Algebra -/

def union (s t : CharSet) : CharSet := ofRanges (s.ranges ++ t.ranges)

/-- The gaps of a list of ranges, from `next` up to the last code point. -/
def gaps (next : Nat) : List (Nat × Nat) → List (Nat × Nat)
  | [] => [(next, 0x10FFFF)]
  | (a, b) :: rest => if next < a then (next, a - 1) :: gaps (b + 1) rest else gaps (b + 1) rest

def complement (s : CharSet) : CharSet := ofRanges ((gaps 0 s.ranges).filter fun (a, b) => a ≤ b)

def inter (s t : CharSet) : CharSet := (s.complement.union t.complement).complement

def diff (s t : CharSet) : CharSet := s.inter t.complement

def symmDiff (s t : CharSet) : CharSet := (s.diff t).union (t.diff s)

/-- Adds every character that differs from a member only in case. -/
def foldCase (s : CharSet) : CharSet :=
  let has (n : Nat) : Bool := s.ranges.any fun (a, b) => a ≤ n && n ≤ b
  let targets := (Unicode.foldPairs.filter fun (c, t) => has c || has t).map (·.2)
  let sources := (Unicode.foldPairs.filter fun (_, t) => targets.contains t).map (·.1)
  ofRanges (s.ranges ++ (targets ++ sources).map fun n => (n, n))

/-- Adds the other case of every ASCII letter. -/
def foldAsciiCase (s : CharSet) : CharSet :=
  let shift (lo hi : Nat) (move : Nat → Nat) : List (Nat × Nat) :=
    s.ranges.filterMap fun (a, b) =>
      let first := max a lo
      let last := min b hi
      if first ≤ last then some (move first, move last) else none
  ofRanges (s.ranges ++ shift 65 90 (· + 32) ++ shift 97 122 (· - 32))

end CharSet

/-- Number of bytes of a code point in UTF-8. -/
def codeWidth (n : Nat) : Nat :=
  if n ≤ 0x7F then 1 else if n ≤ 0x7FF then 2 else if n ≤ 0xFFFF then 3 else 4

end GrammarKit.Regex
