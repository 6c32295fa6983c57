/-
Templates that know where they were written. With their places they have the tokens that they have without them, up to
the places of the tokens, and end for the same reason. A segment that is found at its place in the source text gives its
tokens their places there, other segments give none, and the token of a value is placed where the value was written, or
else as the tree that it carries.
-/
import GrammarKit.Proofs.Scan.Coverage
import GrammarKit.Proofs.Scan.Windows
import GrammarKit.Proofs.Template.Interleaving

namespace GrammarKit

open TokenSource

/-! ## Places in the source text -/

namespace TemplateSource

/-- The window on the source text that shows a segment at its place, if the segment is found there. -/
def window? (s : TemplateSource) (i : Nat) (text : String) : Option Window := do
  let r ← s.segment? i
  let (before, inside, after) ← Text.cut3? s.text.toList r.start r.stop
  if inside = text.toList then some ⟨before, inside, after⟩ else none

/-- Where a value was written. -/
def span? (s : TemplateSource) (i : Nat) : Option Span := do
  let r ← s.interpolation? i
  Text.span? s.text.toList r.start r.stop

theorem window?_eq_some {s : TemplateSource} {i : Nat} {text : String} {w : Window} (h : s.window? i text = some w) :
    w.text = s.text.toList ∧ w.inside = text.toList ∧
      ∃ r, s.segment? i = some r ∧ w.start = r.start ∧ w.stop = r.stop := by
  obtain ⟨r, hr, h⟩ := Option.bind_eq_some_iff.1 h
  obtain ⟨⟨before, inside, after⟩, hcut, h⟩ := Option.bind_eq_some_iff.1 h
  dsimp only at h
  split at h
  · rename_i hinside
    cases h
    have hwindow : Window.cut s.text.toList r.start r.stop = .ok ⟨before, inside, after⟩ := by rw [Window.cut, hcut]
    obtain ⟨htext, hstart, hstop⟩ := Window.cut_eq_ok hwindow
    exact ⟨htext, hinside, r, hr, hstart, hstop⟩
  · cases h

/-- Places that are accepted are stretches of the source text. -/
theorem exists_span_of_fault? {s : TemplateSource} (h : s.fault? = none) {r : ByteRange}
    (hr : some r ∈ s.segments ++ s.interpolations) : ∃ a, Text.span? s.text.toList r.start r.stop = some a := by
  have hfits := List.find?_eq_none.1 (Option.map_eq_none_iff.1 h) r (List.mem_filterMap.2 ⟨_, hr, rfl⟩)
  obtain ⟨cut, hcut⟩ := Option.ne_none_iff_exists'.1 (by simpa [fits] using hfits)
  exact ⟨_, by rw [Text.span?, hcut, Option.map_some]⟩

end TemplateSource

namespace Template

theorem withSource_eq_ok {t placed : Template} {s : TemplateSource} (h : t.withSource s = .ok placed) :
    s.fault? = none ∧ placed = { t with source := some s } := by
  rw [withSource] at h
  split at h
  · cases h
  · rename_i hfault
    exact ⟨hfault, (Except.ok.inj h).symm⟩

end Template

/-- The place of the tree that a value is. -/
def Interpolation.span? : Interpolation → Option Span
  | .tree u => u.span
  | .host _ => none

/-! ## Parts at their places -/

namespace TemplateReader

variable {r : TemplateReader}

/-- The tokens of a segment at its place, or without places if it is not found there. -/
def readAt (r : TemplateReader) (s : TemplateSource) (i : Nat) (text : String) : Drained :=
  match s.window? i text with
  | some w => (r.own (.whole text.toList)).moved s.text.toList w.start
  | none => (r.own (.whole text.toList)).map Token.unplaced id

/-- The token of a value where the value was written, or else where its tree was. -/
def valueAt (r : TemplateReader) (s : TemplateSource) (i : Nat) (v : Interpolation) : Drained :=
  .ofOutcome ((r.valueToken v none).map fun t => { t with span := (s.span? i).or v.span? })

theorem read_valuePiece (s : TemplateSource) (i : Nat) (v : Interpolation) :
    r.read (Template.valuePiece (some s) i v) = r.valueAt s i v := by
  have hpiece : Template.valuePiece (some s) i v = .value v (s.span? i) := rfl
  rw [hpiece, read, valueAt]
  cases v with
  | tree u =>
    simp only [valueToken]
    split <;> rfl
  | host v => simp [valueToken, Except.map, Interpolation.span?]

theorem read_segmentPiece (hcallbacks : r.lexicon.callbacks = []) (s : TemplateSource) (i : Nat) (text : String) :
    r.read (Template.segmentPiece (some s) i text) = r.readAt s i text := by
  have hpiece : Template.segmentPiece (some s) i text = match s.window? i text with
      | some w => .segment w true
      | none => .segment (.whole text.toList) false := rfl
  rw [hpiece, readAt]
  cases hw : s.window? i text with
  | none => rfl
  | some w =>
    obtain ⟨htext, hinside, -⟩ := TemplateSource.window?_eq_some hw
    have hwindow : r.own w = _ := Lexicon.drained_window hcallbacks w
    rw [htext, hinside] at hwindow
    show (r.own w).map (place true) id = _
    rw [hwindow, Drained.map_id]
    exact Drained.ext (List.map_id' _) rfl

/-- Tokens of a segment that is found at its place stand there in the source text. -/
theorem standsAt_readAt (hcallbacks : r.lexicon.callbacks = []) {s : TemplateSource} {i : Nat} {text : String}
    {w : Window} (hw : s.window? i text = some w) : ∀ t ∈ (r.readAt s i text).tokens, t.StandsAt s.text.toList := by
  obtain ⟨htext, hinside, -⟩ := TemplateSource.window?_eq_some hw
  have hread : r.readAt s i text = drained (Scanner.start (.basic r.lexicon) w) := by
    rw [Lexicon.drained_window hcallbacks, readAt, hw, htext, hinside]
    rfl
  rw [hread, ← htext]
  exact Lexicon.standsAt_of_mem_window hcallbacks w

theorem unplaced_readAt (s : TemplateSource) (i : Nat) (text : String) :
    (r.readAt s i text).unplaced = (r.readText text).unplaced := by
  rw [readAt, readText]
  cases s.window? i text with
  | none => rfl
  | some w =>
    dsimp only
    rw [Drained.unplaced_moved, Drained.unplaced, Drained.unplaced, Drained.map_map]
    rfl

theorem unplaced_valueAt (s : TemplateSource) (i : Nat) (v : Interpolation) :
    (r.valueAt s i v).unplaced = (r.readValue v).unplaced := by
  rw [valueAt, readValue]
  cases r.valueToken v none <;> rfl

end TemplateReader

/-! ## Pipelines -/

namespace TemplatePipeline

variable {lexing : LexerConfig} {parsing : ParserConfig} {o : PipelineOptions} {p : TemplatePipeline}

theorem reader_callbacks (hp : ofConfig lexing parsing o = .ok p) : p.reader.lexicon.callbacks = lexing.callbacks := by
  rw [reader_lexicon_eq hp]
  exact (Lexicon.names_of_ofPrepared (ofConfig_eq_ok hp).2.2.2).2.1

/-- Knowing where it was written changes nothing in the tokens of a template but their places, nor in how they end. All
places that are accepted are stretches of the source text. A segment that is found at its place has its tokens there,
with their own text and at its lines and columns, and other segments have tokens without places; the token of a value is
where the value was written, or else where the tree was that it carries. -/
theorem drained_withSource (hp : ofConfig lexing parsing o = .ok p) (hcallbacks : lexing.callbacks = [])
    {t placed : Template} {s : TemplateSource} (hs : t.withSource s = .ok placed) :
    (drained (p.tokens placed)).unplaced = (drained (p.tokens { t with source := none })).unplaced ∧
    (∀ r, some r ∈ s.segments ++ s.interpolations → ∃ a, Text.span? s.text.toList r.start r.stop = some a) ∧
    drained (p.tokens placed) = .concat (t.parts (p.reader.readAt s) (p.reader.valueAt s)) ∧
    ∀ i text w, s.window? i text = some w → ∀ token ∈ (p.reader.readAt s i text).tokens,
      token.StandsAt s.text.toList := by
  have hnone : p.reader.lexicon.callbacks = [] := (reader_callbacks hp).trans hcallbacks
  obtain ⟨hfault, rfl⟩ := Template.withSource_eq_ok hs
  have hplaced : drained (p.tokens { t with source := some s }) =
      .concat (t.parts (p.reader.readAt s) (p.reader.valueAt s)) := by
    have hread : drained (p.tokens { t with source := some s }) =
        .concat (t.parts (fun i => p.reader.read ∘ Template.segmentPiece (some s) i) fun i =>
          p.reader.read ∘ Template.valuePiece (some s) i) := TemplateTokens.drained_template _
    rw [hread]
    congr
    · funext i text
      exact TemplateReader.read_segmentPiece hnone s i text
    · funext i v
      exact TemplateReader.read_valuePiece s i v
  have hplain : drained (p.tokens { t with source := none }) =
      .concat (t.parts (fun _ => p.reader.readText) fun _ => p.reader.readValue) :=
    TemplateTokens.drained_unplaced rfl
  refine ⟨?_, fun r hr => TemplateSource.exists_span_of_fault? hfault hr, hplaced, fun i text w hw =>
    TemplateReader.standsAt_readAt hnone hw⟩
  rw [hplaced, hplain, Drained.unplaced, Drained.unplaced, Drained.map_concat, Drained.map_concat, Template.map_parts,
    Template.map_parts]
  congr
  · funext i text
    exact TemplateReader.unplaced_readAt s i text
  · funext i v
    exact TemplateReader.unplaced_valueAt s i v

/-! ## Two zeros in a line -/

/-- The four parts in a line; the first zero stands elsewhere. -/
def fourPlaces : TemplateSource where
  text := "1xy0"
  segments := [some ⟨0, 1⟩, none, some ⟨3, 4⟩]
  interpolations := [some ⟨1, 2⟩, none]

/-- The first zero has no place, and neither has the number; the tree and the last zero have theirs. -/
theorem drained_fourPlaces : ∃ p,
    ofConfig zerosAndNumber.lexerConfig (zerosAndNumber.parserConfig {}) numberOrAny.options = .ok p ∧
    zerosAndNumber.lexerConfig.callbacks = [] ∧
    fourParts.withSource fourPlaces = .ok { fourParts with source := some fourPlaces } ∧
    (drained (p.tokens { fourParts with source := some fourPlaces })).unplaced =
      (drained (p.tokens { fourParts with source := none })).unplaced ∧
    drained (p.tokens { fourParts with source := some fourPlaces }) =
      .concat (fourParts.parts (p.reader.readAt fourPlaces) (p.reader.valueAt fourPlaces)) ∧
    drained (p.tokens { fourParts with source := some fourPlaces }) =
      ⟨[.ofText "__ANON_0" "0" none, ⟨"TREE__START", .tree zeroTree, some ⟨1, 1, 2, 2, 1, 3⟩⟩,
        ⟨"PLACEHOLDER__NUM", .host numberOrAny.seven, none⟩,
        .ofText "__ANON_0" "0" (some ⟨3, 1, 4, 4, 1, 5⟩)], none⟩ := by
  obtain ⟨p, m, hp, hlexicon, hsplice, h1⟩ := exists_zerosAndNumber
  have hs : fourParts.withSource fourPlaces = .ok { fourParts with source := some fourPlaces } := by
    have hfault : fourPlaces.fault? = none := by cbv
    rw [Template.withSource, hfault]
  obtain ⟨hsame, -, hplaced, -⟩ := drained_withSource hp rfl hs
  refine ⟨p, hp, rfl, hs, hsame, hplaced, hplaced.trans ?_⟩
  have hzero : p.reader.own (.whole "0".toList) = ⟨[twoZeros.zero 0], none⟩ := by
    rw [TemplateReader.own, hlexicon]
    exact Drained.ext (twoZeros.drain_zero h1).1 (twoZeros.drain_zero h1).2
  have hplaceholders : p.reader.placeholders = [("PLACEHOLDER__NUM", ⟨"i64"⟩)] := by
    rw [(reader_tables hp).2, Grammar.parserConfig, Grammar.lexerConfig, extend_number]
    decide +kernel
  have htree : p.reader.valueToken (.tree zeroTree) none = .ok ⟨"TREE__START", .tree zeroTree, none⟩ := by
    refine p.reader.valueToken_tree ?_ none
    rw [(reader_tables hp).1, Grammar.parserConfig, Grammar.lexerConfig, extend_number]
    rfl
  have hseven : p.reader.valueToken (.host numberOrAny.seven) none =
      .ok ⟨"PLACEHOLDER__NUM", .host numberOrAny.seven, none⟩ := by
    rw [TemplateReader.valueToken, hplaceholders]
    rfl
  have hfirst : p.reader.readAt fourPlaces 0 "0" = ⟨[.ofText "__ANON_0" "0" none], none⟩ := by
    rw [TemplateReader.readAt, show fourPlaces.window? 0 "0" = none by cbv]
    dsimp only
    rw [hzero]
    rfl
  have hempty : p.reader.readAt fourPlaces 1 "" = ⟨[], none⟩ := by
    rw [TemplateReader.readAt, show fourPlaces.window? 1 "" = none by cbv]
    exact p.reader.readText_empty
  have hlast : p.reader.readAt fourPlaces 2 "0" =
      ⟨[.ofText "__ANON_0" "0" (some ⟨3, 1, 4, 4, 1, 5⟩)], none⟩ := by
    rw [TemplateReader.readAt, show fourPlaces.window? 2 "0" = some ⟨['1', 'x', 'y'], ['0'], []⟩ by cbv]
    dsimp only
    rw [hzero]
    cbv
  have hvalue : p.reader.valueAt fourPlaces 0 (.tree zeroTree) =
      ⟨[⟨"TREE__START", .tree zeroTree, some ⟨1, 1, 2, 2, 1, 3⟩⟩], none⟩ := by
    rw [TemplateReader.valueAt, htree, show fourPlaces.span? 0 = some ⟨1, 1, 2, 2, 1, 3⟩ by cbv]
    rfl
  have hnumber : p.reader.valueAt fourPlaces 1 (.host numberOrAny.seven) =
      ⟨[⟨"PLACEHOLDER__NUM", .host numberOrAny.seven, none⟩], none⟩ := by
    rw [TemplateReader.valueAt, hseven, show fourPlaces.span? 1 = none by cbv]
    rfl
  change Drained.concat [p.reader.readAt fourPlaces 0 "0", p.reader.valueAt fourPlaces 0 (.tree zeroTree),
    p.reader.readAt fourPlaces 1 "", p.reader.valueAt fourPlaces 1 (.host numberOrAny.seven),
    p.reader.readAt fourPlaces 2 "0"] = _
  rw [hfirst, hvalue, hempty, hnumber, hlast]
  rfl

end TemplatePipeline

end GrammarKit
