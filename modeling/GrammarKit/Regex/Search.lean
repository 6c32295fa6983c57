/-
Matching by preference. `Expr.ends` lists the places where a match may end, each once, the most
preferred first; the match an expression finds at a place is the head of that list.

A repetition explores places depth first and takes each place once: a place reached again offers the
same continuations, so what the first visit prefers decides. A turn that consumes nothing is not
repeated.
-/
import GrammarKit.Regex.Syntax
import GrammarKit.Unicode.Property

namespace GrammarKit.Regex

/-- A place in a text: how many characters come before it, the last of them, and those from it on. -/
structure Place where
  index : Nat
  prev : Option Char
  rest : List Char

namespace Place

def start (text : List Char) : Place := ⟨0, none, text⟩

def isWord (ascii : Bool) : Option Char → Bool
  | none => false
  | some c =>
    if c.toNat < 128 then c.isAlphanum || c == '_'
    else !ascii && Unicode.word.any fun (a, b) => a ≤ c.toNat && c.toNat ≤ b

def holds (p : Place) : Look → Bool
  | .textStart => p.prev.isNone
  | .textEnd => p.rest.isEmpty
  | .lineStart => p.prev.isNone || p.prev == some '\n'
  | .lineEnd => p.rest.isEmpty || p.rest.head? == some '\n'
  | .crlfLineStart =>
    p.prev.isNone || p.prev == some '\n' || (p.prev == some '\r' && p.rest.head? != some '\n')
  | .crlfLineEnd =>
    p.rest.isEmpty || p.rest.head? == some '\r' || (p.rest.head? == some '\n' && p.prev != some '\r')
  | .boundary a => isWord a p.prev != isWord a p.rest.head?
  | .noBoundary a => isWord a p.prev == isWord a p.rest.head?
  | .wordStart a => !isWord a p.prev && isWord a p.rest.head?
  | .wordEnd a => isWord a p.prev && !isWord a p.rest.head?
  | .wordStartHalf a => !isWord a p.prev
  | .wordEndHalf a => !isWord a p.rest.head?

end Place

/-- Every place once, where it comes first. -/
def firstPlaces (ps : List Place) : List Place :=
  (ps.foldl (fun kept p => if kept.any (·.index == p.index) then kept else p :: kept) []).reverse

/-- Places after one or more turns from `p`, and the indices of the places visited so far. A turn's
end `q` is visited once; unless the turn consumed nothing, further turns from `q` are wanted before
stopping there when the repetition is greedy, after it otherwise. `fuel` exceeds the length of the
rest of `p`. -/
def manyEnds (turn : Place → List Place) (greedy : Bool) :
    (fuel : Nat) → Place → List Nat → List Place × List Nat
  | 0, _, visited => ([], visited)
  | fuel + 1, p, visited =>
    (turn p).foldl (fun (out, visited) q =>
      if visited.contains q.index then (out, visited)
      else
        let (more, visited) :=
          if p.index < q.index then
            manyEnds turn greedy fuel q (q.index :: visited)
          else ([], q.index :: visited)
        (out ++ (if greedy then more ++ [q] else q :: more), visited))
      ([], visited)

/-- Places after `count` turns from one of the given places. -/
def exactlyEnds (turn : Place → List Place) : (count : Nat) → List Place → List Place
  | 0, ps => ps
  | n + 1, ps => exactlyEnds turn n (firstPlaces (ps.flatMap turn))

/-- Places after at most `count` turns from `p`, and what was visited so far: numbers of turns that are left,
with the indices of places. -/
def upToEnds (turn : Place → List Place) (greedy : Bool) :
    (count : Nat) → Place → List (Nat × Nat) → List Place × List (Nat × Nat)
  | 0, p, visited => ([p], visited)
  | n + 1, p, visited =>
    let (further, visited) := (turn p).foldl (fun (out, visited) q =>
      if visited.contains (n, q.index) then (out, visited)
      else
        let (more, visited) := upToEnds turn greedy n q ((n, q.index) :: visited)
        (out ++ more, visited))
      ([], visited)
    (if greedy then further ++ [p] else p :: further, visited)

/-- Where a match from a place may end, in order of preference. -/
def Expr.ends : Expr → Place → List Place
  | .empty, p => [p]
  | .chars s, p => match p.rest with
    | c :: cs => if s.contains c then [⟨p.index + 1, some c, cs⟩] else []
    | [] => []
  | .look l, p => if p.holds l then [p] else []
  | .seq a b, p => firstPlaces ((a.ends p).flatMap b.ends)
  | .alt a b, p => firstPlaces (a.ends p ++ b.ends p)
  | .exactly n a, p => exactlyEnds a.ends n [p]
  | .upTo greedy n a, p => firstPlaces (upToEnds a.ends greedy n p []).1
  | .many greedy a, p => (manyEnds a.ends greedy (p.rest.length + 1) p []).1

/-- Number of characters of the preferred match at the start of a text. -/
def Expr.matchLength? (e : Expr) (text : List Char) : Option Nat :=
  (e.ends (.start text)).head?.map (·.index)

end GrammarKit.Regex
