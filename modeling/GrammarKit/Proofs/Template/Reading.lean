/-
The tokens of a template, part by part. Every part gives tokens of its own, whatever stands before and behind it: a
segment those that the lexicon finds in its window, and a value a single one. The tokens of the template are those of
its parts in order, up to the first failure, and a template that has come to its end stays there.
-/
import GrammarKit.Proofs.Scan.Drained
import GrammarKit.Proofs.Tree.Sameness
import GrammarKit.Template.Tokens

namespace GrammarKit

open TokenSource

/-! ## Parts -/

namespace Template

/-- What comes of each part, in order. -/
def parts {α : Type} (segment : Nat → String → α) (value : Nat → Interpolation → α) (t : Template) : List α :=
  segment 0 t.head :: t.tail.zipIdx.flatMap fun ((v, text), i) => [value i v, segment (i + 1) text]

theorem map_parts {α β : Type} (f : α → β) (segment : Nat → String → α) (value : Nat → Interpolation → α)
    (t : Template) : (t.parts segment value).map f = t.parts (fun i => f ∘ segment i) (fun i => f ∘ value i) := by
  simp [parts, List.map_flatMap]

/-- Where the places do not count, neither do the numbers of the parts. -/
theorem parts_const {α : Type} (segment : String → α) (value : Interpolation → α) (t : Template) :
    t.parts (fun _ => segment) (fun _ => value) =
      segment t.head :: t.tail.flatMap fun x => [value x.1, segment x.2] := by
  have hnumbered : t.tail.zipIdx.flatMap (fun y => [value y.1.1, segment y.1.2]) =
      (t.tail.zipIdx.map Prod.fst).flatMap fun x => [value x.1, segment x.2] := by rw [List.flatMap_map]
  rw [List.zipIdx_map_fst] at hnumbered
  exact congrArg _ hnumbered

/-- The parts that are read are listed in order. -/
theorem pieces_eq_parts (t : Template) : t.pieces = t.parts (segmentPiece t.source) (valuePiece t.source) := rfl

end Template

namespace TemplateReader

theorem valueToken_tree (r : TemplateReader) {u : Tree} {kind : String}
    (h : r.spliceTerminals.lookup u.label = some kind) (span : Option Span) :
    r.valueToken (.tree u) span = .ok ⟨kind, .tree u, span.or u.span⟩ := by
  simp only [valueToken, h]

/-- The tokens of a window by itself. -/
def own (r : TemplateReader) (w : Window) : Drained := drained (Scanner.start (.basic r.lexicon) w)

/-- A window on nothing has no tokens. -/
theorem own_nil (r : TemplateReader) : r.own (.whole []) = ⟨[], none⟩ := by
  have hend : (Cursor.ofWindow (.whole [])).ahead = [] := rfl
  obtain ⟨htokens, hfailure⟩ := Scanner.drain_at_end (l := r.lexicon) hend
  exact Drained.ext htokens hfailure

/-- Tokens of a segment have their places in the source, or none. -/
def place (positioned : Bool) (t : Token) : Token := if positioned then t else t.unplaced

/-- The tokens of a segment that has no place. -/
def readText (r : TemplateReader) (text : String) : Drained := (r.own (.whole text.toList)).map Token.unplaced id

/-- The token of a value that has no place. -/
def readValue (r : TemplateReader) (v : Interpolation) : Drained := .ofOutcome (r.valueToken v none)

theorem readText_empty (r : TemplateReader) : r.readText "" = ⟨[], none⟩ := congrArg (·.map Token.unplaced id) r.own_nil

theorem failure_readText (r : TemplateReader) (text : String) :
    (r.readText text).failure = (r.own (.whole text.toList)).failure := congrArg (·.failure) (Drained.map_id _)

/-- The tokens of a part by itself. -/
def read (r : TemplateReader) : Piece → Drained
  | .segment w positioned => (r.own w).map (place positioned) id
  | .value v span => .ofOutcome (r.valueToken v span)

end TemplateReader

namespace TemplateTokens

variable {r : TemplateReader}

/-- The rest of an open segment is read first. -/
theorem drained_open {pieces : List Piece} {positioned : Bool} {begun : Nat} (s : Scanner) :
    ∀ cursor, s = ⟨.basic r.lexicon, cursor⟩ →
      drained (⟨r, pieces, some ⟨cursor, positioned⟩, begun⟩ : TemplateTokens) =
        ((drained s).map (TemplateReader.place positioned) id).andThen
          (drained (⟨r, pieces, none, begun⟩ : TemplateTokens)) := by
  induction s using TokenSource.drain.induct with
  | case1 s f h =>
    rintro cursor rfl
    have hp : (r.lexicon.pull cursor).result = .error f := h
    have hpull : TokenSource.pull (⟨r, pieces, some ⟨cursor, positioned⟩, begun⟩ : TemplateTokens) none =
        (.error f, ⟨r, pieces, some ⟨(r.lexicon.pull cursor).cursor, positioned⟩, begun⟩) := by
      change pull _ = _
      rw [pull]
      simp only [hp]
    rw [drained_error (Prod.ext h rfl), drained_error hpull]
    rfl
  | case2 s h =>
    rintro cursor rfl
    have hp : (r.lexicon.pull cursor).result = .ok none := h
    have hpull : TokenSource.pull (⟨r, pieces, some ⟨cursor, positioned⟩, begun⟩ : TemplateTokens) none =
        TokenSource.pull (⟨r, pieces, none, begun⟩ : TemplateTokens) none := by
      change pull _ = pull _
      conv_lhs => rw [pull]
      simp only [hp]
    rw [drained_ok_none (Prod.ext h rfl), drained_congr hpull]
    rfl
  | case3 s t h _ _ _ _ _ ih =>
    rintro cursor rfl
    have hp : (r.lexicon.pull cursor).result = .ok (some t) := h
    have hpull : TokenSource.pull (⟨r, pieces, some ⟨cursor, positioned⟩, begun⟩ : TemplateTokens) none =
        (.ok (some (TemplateReader.place positioned t)),
          ⟨r, pieces, some ⟨(r.lexicon.pull cursor).cursor, positioned⟩, begun⟩) := by
      change pull _ = _
      rw [pull]
      simp only [hp]
      rfl
    rw [drained_ok_some (Prod.ext h rfl), drained_ok_some hpull, ih (r.lexicon.pull cursor).cursor rfl,
      ← Drained.cons_andThen]
    rfl

/-- The tokens of parts are those of each part by itself, up to the first failure. -/
theorem drained_pieces : ∀ (pieces : List Piece) (begun : Nat),
    drained (⟨r, pieces, none, begun⟩ : TemplateTokens) = .concat (pieces.map r.read)
  | [], begun => by
    have hpull : TokenSource.pull (⟨r, [], none, begun⟩ : TemplateTokens) none = (.ok none, ⟨r, [], none, begun⟩) := by
      change pull _ = _
      rw [pull]
    rw [drained_ok_none hpull]
    rfl
  | .segment w positioned :: pieces, begun => by
    have hpull : TokenSource.pull (⟨r, .segment w positioned :: pieces, none, begun⟩ : TemplateTokens) none =
        TokenSource.pull (⟨r, pieces, some ⟨.ofWindow w, positioned⟩, begun + 1⟩ : TemplateTokens) none := by
      change pull _ = pull _
      conv_lhs => rw [pull]
    rw [drained_congr hpull, drained_open _ _ rfl, drained_pieces pieces]
    rfl
  | .value v span :: pieces, begun => by
    have hpull : TokenSource.pull (⟨r, .value v span :: pieces, none, begun⟩ : TemplateTokens) none =
        ((r.valueToken v span).map some, ⟨r, pieces, none, begun + 1⟩) := by
      change pull _ = _
      rw [pull]
    rw [List.map_cons, Drained.concat_cons, TemplateReader.read]
    cases hv : r.valueToken v span with
    | error f =>
      rw [hv] at hpull
      rw [drained_error hpull]
      rfl
    | ok t =>
      rw [hv] at hpull
      rw [drained_ok_some hpull, drained_pieces pieces]
      rfl

/-- The tokens of a template are those of its parts, up to the first failure. -/
theorem drained_template (t : Template) : drained (r.tokens t) =
    .concat (t.parts (fun i => r.read ∘ Template.segmentPiece t.source i) fun i =>
      r.read ∘ Template.valuePiece t.source i) := by
  rw [← Template.map_parts, ← Template.pieces_eq_parts]
  exact drained_pieces ..

/-- Templates without places are read by their segments and values alone. -/
theorem drained_unplaced {t : Template} (h : t.source = none) : drained (r.tokens t) =
    .concat (t.parts (fun _ => r.readText) fun _ => r.readValue) := by
  rw [drained_template, h]
  rfl

/-! ## The end -/

/-- The end is found behind the last part. -/
theorem pull_end (s : TemplateTokens) : s.pull.1 = .ok none → ∃ begun, s.pull.2 = ⟨s.reader, [], none, begun⟩ := by
  fun_induction pull s with
  | case1 => rintro ⟨⟩
  | case2 r pieces o begun p h ih => exact ih
  | case3 => rintro ⟨⟩
  | case4 r begun => exact fun _ => ⟨begun, rfl⟩
  | case5 r w positioned rest begun ih => exact ih
  | case6 r v span rest begun =>
    cases r.valueToken v span with
    | error f => rintro ⟨⟩
    | ok t => rintro ⟨⟩

theorem exhausted_end (r : TemplateReader) (begun : Nat) : Exhausted (⟨r, [], none, begun⟩ : TemplateTokens) :=
  exhausted_of_fixed fun state => by
    change pull _ = _
    rw [pull]

/-- Tokens that come to their end without failure are at an end. -/
theorem exhausted_drain (s : TemplateTokens) (h : (drain s).2.1 = none) : Exhausted (drain s).2.2 := by
  induction s using TokenSource.drain.induct with
  | case1 s f hp =>
    rw [Earley.Chart.drain_error (Prod.ext hp rfl)] at h
    cases h
  | case2 s hp =>
    obtain ⟨begun, hend⟩ := pull_end s hp
    rw [Earley.Chart.drain_ok_none (Prod.ext hp rfl)]
    exact hend ▸ exhausted_end s.reader begun
  | case3 s t hp _ _ _ _ _ ih =>
    rw [Earley.Chart.drain_ok_some (Prod.ext hp rfl)] at h ⊢
    exact ih h

end TemplateTokens

end GrammarKit
