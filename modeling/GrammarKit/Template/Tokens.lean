/-
The tokens of a template: segments are lexed one by one, and every value becomes a single token, a tree under
the splice terminal of its label and a host value under the first typed placeholder that takes it, or the
placeholder of any value.

A segment that is found at its place in the source text is lexed there, so its tokens have positions in the
source; the tokens of other segments have none.
-/
import GrammarKit.Scan.Source
import GrammarKit.Template.Basic

namespace GrammarKit

/-- What turns templates into tokens. -/
structure TemplateReader where
  lexicon : Lexicon
  /-- By label, the terminal of trees to splice. -/
  spliceTerminals : List (String × String)
  /-- The terminals of typed placeholders, in the order of their keys. -/
  placeholders : List (String × HostType)

/-- A part of a template, ready to become tokens. -/
inductive Piece where
  | segment (w : Window) (positioned : Bool)
  | value (v : Interpolation) (span : Option Span)

/-- A segment on its way to tokens. -/
structure OpenSegment where
  cursor : Cursor
  /-- The segment is lexed at its place in the source text. -/
  positioned : Bool

structure TemplateTokens where
  reader : TemplateReader
  pieces : List Piece
  segment : Option OpenSegment := none
  /-- Number of pieces begun. -/
  begun : Nat := 0

namespace Template

/-- The window in which a segment is lexed. -/
def segmentPiece (source : Option TemplateSource) (i : Nat) (text : String) : Piece :=
  let place := do
    let s ← source
    let r ← s.segment? i
    let (before, inside, after) ← Text.cut3? s.text.toList r.start r.stop
    if inside = text.toList then some (Window.mk before inside after) else none
  match place with
  | some w => .segment w true
  | none => .segment (.whole text.toList) false

def valuePiece (source : Option TemplateSource) (i : Nat) (v : Interpolation) : Piece :=
  .value v do
    let s ← source
    let r ← s.interpolation? i
    Text.span? s.text.toList r.start r.stop

/-- The parts of a template in order. -/
def pieces (t : Template) : List Piece :=
  segmentPiece t.source 0 t.head ::
    t.tail.zipIdx.flatMap fun ((v, text), i) => [valuePiece t.source i v, segmentPiece t.source (i + 1) text]

end Template

namespace TemplateReader

/-- The token of an interpolated value. -/
def valueToken (r : TemplateReader) (v : Interpolation) (span : Option Span) : Outcome Token :=
  match v with
  | .tree t =>
    match r.spliceTerminals.lookup t.label with
    | some terminal => .ok ⟨terminal, .tree t, span.or t.span⟩
    | none => .error (.splice t.label)
  | .host v =>
    let kind := ((r.placeholders.find? (·.2.accepts v)).map (·.1)).getD placeholderName
    .ok ⟨kind, .host v, span⟩

def tokens (r : TemplateReader) (t : Template) : TemplateTokens := { reader := r, pieces := t.pieces }

end TemplateReader

def Piece.size : Piece → Nat
  | segment w _ => w.inside.length + 2
  | value _ _ => 1

def Piece.sizeAll : List Piece → Nat
  | [] => 0
  | p :: ps => p.size + sizeAll ps

namespace TemplateTokens

def size (s : TemplateTokens) : Nat :=
  (match s.segment with
    | some o => o.cursor.size + 1
    | none => 0) + Piece.sizeAll s.pieces

/-- The next token: of the open segment, or else of the next piece that has one. -/
def pull (s : TemplateTokens) : Outcome (Option Token) × TemplateTokens :=
  match s with
  | ⟨r, pieces, some o, begun⟩ =>
    let p := r.lexicon.pull o.cursor
    match p.result with
    | .ok (some t) =>
      (.ok (some (if o.positioned then t else { t with span := none })),
        ⟨r, pieces, some { o with cursor := p.cursor }, begun⟩)
    | .ok none => pull ⟨r, pieces, none, begun⟩
    | .error f => (.error f, ⟨r, pieces, some { o with cursor := p.cursor }, begun⟩)
  | ⟨r, [], none, begun⟩ => (.ok none, ⟨r, [], none, begun⟩)
  | ⟨r, .segment w positioned :: rest, none, begun⟩ =>
    pull ⟨r, rest, some ⟨.ofWindow w, positioned⟩, begun + 1⟩
  | ⟨r, .value v span :: rest, none, begun⟩ =>
    ((r.valueToken v span).map some, ⟨r, rest, none, begun + 1⟩)
termination_by s.size
decreasing_by
  all_goals simp [size, Piece.sizeAll, Piece.size, Cursor.ofWindow, Cursor.size, Cursor.queued]

theorem size_pull_le (s : TemplateTokens) : s.pull.2.size ≤ s.size := by
  fun_induction pull s with
  | case1 r pieces o begun p t h => have := p.size_le; simp only [size]; omega
  | case2 r pieces o begun p h ih => simp only [size] at ih ⊢; omega
  | case3 r pieces o begun p f h => have := p.size_le; simp only [size]; omega
  | case4 => exact Nat.le_refl _
  | case5 r w positioned rest begun ih =>
    simp only [size, Piece.sizeAll, Piece.size, Cursor.ofWindow, Cursor.size,
      Cursor.queued, List.length_nil] at ih ⊢
    omega
  | case6 r v span rest begun => simp only [size, Piece.sizeAll]; omega

theorem size_pull_lt (s : TemplateTokens) (t : Token) (ht : s.pull.1 = .ok (some t)) :
    s.pull.2.size < s.size := by
  fun_induction pull s with
  | case1 r pieces o begun p u h => have := p.size_lt u h; simp only [size]; omega
  | case2 r pieces o begun p h ih => have := ih ht; simp only [size] at this ⊢; omega
  | case3 r pieces o begun p f h => simp at ht
  | case4 => simp at ht
  | case5 r w positioned rest begun ih =>
    have := ih ht
    simp only [size, Piece.sizeAll, Piece.size, Cursor.ofWindow, Cursor.size,
      Cursor.queued, List.length_nil] at this ⊢
    omega
  | case6 r v span rest begun => simp only [size, Piece.sizeAll, Piece.size]; omega

def report (s : TemplateTokens) : String :=
  Report.openRecord "TemplateTokens"
    [("part", toString s.begun), ("in_segment", Report.bool s.segment.isSome)]

end TemplateTokens

instance : TokenSource TemplateTokens where
  pull s _ := s.pull
  size := TemplateTokens.size
  size_pull_le s _ := s.size_pull_le
  size_pull_lt s _ t h := s.size_pull_lt t h
  size_skipChar _ _ h := by cases h
  size_skipTo _ _ _ h := by cases h

end GrammarKit
