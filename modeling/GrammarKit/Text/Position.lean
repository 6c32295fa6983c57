/-
Positions in a text, followed character by character. `Position.feed` moves a position over the
characters after it; a span is the pair of positions on either side of a stretch. Texts are lists of
characters, and `cutAt?` finds the place of a byte offset, which exists only between characters.
-/
import GrammarKit.Text.Span

namespace GrammarKit

/-- A place in a text: its byte offset, line and column, and the offset at which its line starts. -/
structure Position where
  offset : Nat := 0
  line : Nat := 1
  column : Nat := 1
  lineStart : Nat := 0
  deriving DecidableEq

namespace Position

/-- The position after one more character. -/
def advance (p : Position) (c : Char) : Position :=
  let offset := p.offset + c.utf8Size
  if c = '\n' then ⟨offset, p.line + 1, 1, offset⟩ else { p with offset, column := p.column + 1 }

def feed (p : Position) (cs : List Char) : Position := cs.foldl advance p

/-- The position at the end of a text. -/
def after (cs : List Char) : Position := feed {} cs

/-- The stretch from `p` to `q`. -/
def spanTo (p q : Position) : Span := ⟨p.offset, p.line, p.column, q.offset, q.line, q.column⟩

/-- The span of the characters that follow `p`. -/
def spanOf (p : Position) (cs : List Char) : Span := p.spanTo (p.feed cs)

theorem feed_append (p : Position) (cs ds : List Char) : p.feed (cs ++ ds) = (p.feed cs).feed ds :=
  List.foldl_append

end Position

namespace Text

/-- Length in bytes. -/
def bytes : List Char → Nat
  | [] => 0
  | c :: cs => c.utf8Size + bytes cs

/-- The characters before and after a byte offset, if the offset lies in the text and between two
characters. -/
def cutAt? : Nat → List Char → Option (List Char × List Char)
  | 0, cs => some ([], cs)
  | _ + 1, [] => none
  | n + 1, c :: cs =>
    if c.utf8Size ≤ n + 1 then (cutAt? (n + 1 - c.utf8Size) cs).map fun (a, b) => (c :: a, b) else none

/-- The characters before, inside and after the bytes from `start` to `stop`. -/
def cut3? (text : List Char) (start stop : Nat) : Option (List Char × List Char × List Char) := do
  guard (start ≤ stop)
  let (before, rest) ← cutAt? start text
  let (inside, after) ← cutAt? (stop - start) rest
  return (before, inside, after)

/-- The position at a byte offset. -/
def positionAt? (text : List Char) (offset : Nat) : Option Position :=
  (cutAt? offset text).map fun (before, _) => .after before

/-- The span of the bytes from `start` to `stop`. -/
def span? (text : List Char) (start stop : Nat) : Option Span :=
  (cut3? text start stop).map fun (before, inside, _) => (Position.after before).spanOf inside

theorem append_of_cutAt? {n : Nat} {cs before rest : List Char} (h : cutAt? n cs = some (before, rest)) :
    cs = before ++ rest ∧ bytes before = n := by
  induction n, cs using cutAt?.induct generalizing before rest with
  | case1 cs => simp [cutAt?] at h; simp [h, bytes]
  | case2 n => simp [cutAt?] at h
  | case3 n c cs hle ih =>
    simp only [cutAt?, hle, if_true, Option.map_eq_some_iff] at h
    obtain ⟨⟨a, b⟩, hab, heq⟩ := h
    obtain ⟨rfl, rfl⟩ := Prod.mk.inj heq
    obtain ⟨rfl, hn⟩ := ih hab
    simp only [bytes, List.cons_append, true_and] at hn ⊢
    omega
  | case4 n c cs hle => simp [cutAt?, hle] at h

end Text

end GrammarKit
