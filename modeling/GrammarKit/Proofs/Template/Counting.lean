/-
Reading a template by a count of its parts. The parts that are left are those from a number on, where segments have the
even numbers and values the odd ones. So a reader might as well keep the template itself and the number of the next
part, and look the part up in the segments or in the values; a segment without text need not be opened.
-/
import GrammarKit.Proofs.Template.Joining
import GrammarKit.Proofs.Template.Places

namespace GrammarKit

/-! ## Parts by number -/

namespace Template

variable {α : Type} (segment : Nat → String → α) (value : Nat → Interpolation → α)

/-- The part with a number: a segment if it is even, a value if it is odd. -/
def part? (t : Template) (n : Nat) : Option α :=
  if n % 2 = 0 then (t.segments[n / 2]?).map (segment (n / 2)) else (t.interpolations[n / 2]?).map (value (n / 2))

theorem getElem?_tail : ∀ (tail : List (Interpolation × String)) (k n : Nat),
    ((tail.zipIdx k).flatMap fun ((v, text), i) => [value i v, segment (i + 1) text])[n]? =
      if n % 2 = 0 then (tail[n / 2]?).map fun x => value (k + n / 2) x.1
      else (tail[n / 2]?).map fun x => segment (k + n / 2 + 1) x.2
  | [], _, _ => by simp
  | _ :: _, _, 0 => rfl
  | _ :: _, _, 1 => rfl
  | x :: tail, k, n + 2 => by
    have ih := getElem?_tail tail (k + 1) n
    have hhalf : (n + 2) / 2 = n / 2 + 1 := by omega
    have hparity : (n + 2) % 2 = n % 2 := by omega
    rw [List.zipIdx_cons, List.flatMap_cons, List.cons_append, List.cons_append, List.nil_append,
      List.getElem?_cons_succ, List.getElem?_cons_succ, ih, hhalf, hparity, List.getElem?_cons_succ]
    simp only [Nat.add_assoc, Nat.add_comm 1]

theorem getElem?_parts (t : Template) : ∀ n, (t.parts segment value)[n]? = t.part? segment value n
  | 0 => rfl
  | n + 1 => by
    rw [parts, List.getElem?_cons_succ, getElem?_tail, part?]
    have hhalf : n % 2 = 1 → (n + 1) / 2 = n / 2 + 1 := by omega
    rcases Nat.mod_two_eq_zero_or_one n with h | h
    · rw [if_pos h, if_neg (by omega), interpolations, List.getElem?_map, Option.map_map, Nat.zero_add,
        show (n + 1) / 2 = n / 2 by omega]
      rfl
    · rw [if_neg (by omega), if_pos (by omega), hhalf h, segments, List.getElem?_cons_succ, List.getElem?_map,
        Option.map_map, Nat.zero_add]
      rfl

theorem length_parts (t : Template) : (t.parts segment value).length = 2 * t.segments.length - 1 := by
  have htail : ∀ (tail : List (Interpolation × String)) (k : Nat),
      ((tail.zipIdx k).flatMap fun ((v, text), i) => [value i v, segment (i + 1) text]).length = 2 * tail.length := by
    intro tail
    induction tail with
    | nil => exact fun _ => rfl
    | cons x tail ih =>
      intro k
      rw [List.zipIdx_cons, List.flatMap_cons, List.length_append, ih, List.length_cons]
      simp only [List.length_cons, List.length_nil]
      omega
  rw [parts, List.length_cons, htail, length_segments, interpolations, List.length_map]
  omega

/-! ## What is looked up -/

/-- The segment with a number, opened where it stands in the source text if it is found there. A segment without text
is not opened. -/
def openSegment? (t : Template) (i : Nat) : Option OpenSegment := do
  let text ← t.segments[i]?
  if text.isEmpty then none
  match t.source.bind (·.window? i text) with
  | some w => return ⟨.ofWindow w, true⟩
  | none => return ⟨.ofWindow (.whole text.toList), false⟩

/-- The token of the value with a number. -/
def valueToken? (r : TemplateReader) (t : Template) (i : Nat) : Outcome (Option Token) :=
  match t.interpolations[i]? with
  | some v => (r.valueToken v (t.source.bind (·.span? i))).map some
  | none => .ok none

end Template

/-! ## Counting -/

namespace TemplateTokens

/-- The reader that comes to the part with a number next. -/
def atPart (r : TemplateReader) (t : Template) (part : Nat) (segment : Option OpenSegment) : TemplateTokens :=
  ⟨r, t.pieces.drop part, segment, part⟩

variable {r : TemplateReader} {t : Template}

theorem tokens_eq_atPart : r.tokens t = atPart r t 0 none := rfl

/-- An open segment without text has no tokens. -/
theorem pull_open_empty {pieces : List Piece} {w : Window} {positioned : Bool} {begun : Nat} (hw : w.inside = []) :
    pull ⟨r, pieces, some ⟨.ofWindow w, positioned⟩, begun⟩ = pull ⟨r, pieces, none, begun⟩ := by
  have hend : (r.lexicon.pull (.ofWindow w)).result = .ok none := by
    rw [Lexicon.pull, dif_pos (show (Cursor.ofWindow w).ahead = [] from hw)]
    rfl
  rw [pull]
  simp only [hend]

/-- Behind the last part is the end. -/
theorem pull_behind {part : Nat} (h : 2 * t.segments.length - 1 ≤ part) :
    (atPart r t part none).pull = (.ok none, atPart r t part none) := by
  have hnil : t.pieces.drop part = [] := by
    rw [List.drop_eq_nil_iff, Template.pieces_eq_parts, Template.length_parts]
    exact h
  rw [atPart, hnil, pull]

/-- At an even number the segment is opened, and reading goes on there. -/
theorem pull_even {part : Nat} (h : part < 2 * t.segments.length - 1) (heven : part % 2 = 0) :
    (atPart r t part none).pull = (atPart r t (part + 1) (t.openSegment? (part / 2))).pull := by
  have hlt : part / 2 < t.segments.length := by omega
  have hpart := Template.getElem?_parts (Template.segmentPiece t.source) (Template.valuePiece t.source) t part
  rw [Template.part?, if_pos heven, List.getElem?_eq_getElem hlt, Option.map_some, ← Template.pieces_eq_parts] at hpart
  obtain ⟨hp, hget⟩ := List.getElem?_eq_some_iff.1 hpart
  have hdrop := List.drop_eq_getElem_cons hp
  rw [hget] at hdrop
  generalize htext : t.segments[part / 2] = text at hdrop
  have hsome : t.segments[part / 2]? = some text := htext ▸ List.getElem?_eq_getElem hlt
  have hpiece : Template.segmentPiece t.source (part / 2) text =
      match t.source.bind (·.window? (part / 2) text) with
      | some w => .segment w true
      | none => .segment (.whole text.toList) false := by cases t.source <;> rfl
  rw [hpiece] at hdrop
  unfold atPart Template.openSegment?
  rw [hdrop, hsome, Option.bind_eq_bind, Option.bind_some]
  cases hw : t.source.bind (·.window? (part / 2) text) with
  | none =>
    rw [pull]
    by_cases hempty : text = ""
    · subst hempty
      exact pull_open_empty rfl
    · simp [hempty]
  | some w =>
    rw [pull]
    by_cases hempty : text = ""
    · subst hempty
      obtain ⟨s, -, hs⟩ := Option.bind_eq_some_iff.1 hw
      exact pull_open_empty (TemplateSource.window?_eq_some hs).2.1
    · simp [hempty]

/-- At an odd number the value gives its token. -/
theorem pull_odd {part : Nat} (h : part < 2 * t.segments.length - 1) (hodd : part % 2 = 1) :
    (atPart r t part none).pull = (t.valueToken? r (part / 2), atPart r t (part + 1) none) := by
  have hlt : part / 2 < t.interpolations.length := by
    rw [Template.length_segments] at h
    omega
  have hpart := Template.getElem?_parts (Template.segmentPiece t.source) (Template.valuePiece t.source) t part
  rw [Template.part?, if_neg (by omega), List.getElem?_eq_getElem hlt, Option.map_some,
    ← Template.pieces_eq_parts] at hpart
  obtain ⟨hp, hget⟩ := List.getElem?_eq_some_iff.1 hpart
  have hdrop := List.drop_eq_getElem_cons hp
  rw [hget] at hdrop
  unfold atPart Template.valueToken?
  rw [hdrop, List.getElem?_eq_getElem hlt, Template.valuePiece, pull]
  cases t.source <;> rfl

/-- Without an open segment the reader goes by the number of the next part. -/
theorem pull_atPart (part : Nat) : (atPart r t part none).pull =
    if 2 * t.segments.length - 1 ≤ part then (.ok none, atPart r t part none)
    else if part % 2 = 0 then (atPart r t (part + 1) (t.openSegment? (part / 2))).pull
    else (t.valueToken? r (part / 2), atPart r t (part + 1) none) := by
  split
  · rename_i h
    exact pull_behind h
  · rename_i h
    split
    · rename_i heven
      exact pull_even (Nat.lt_of_not_le h) heven
    · rename_i hodd
      exact pull_odd (Nat.lt_of_not_le h) (by omega)

/-- In an open segment the reader goes by the lexicon, and comes back to the number at the end of the segment. -/
theorem pull_atPart_open (part : Nat) (o : OpenSegment) : (atPart r t part (some o)).pull =
    match (r.lexicon.pull o.cursor).result with
    | .ok (some token) => (.ok (some (if o.positioned then token else token.unplaced)),
        atPart r t part (some { o with cursor := (r.lexicon.pull o.cursor).cursor }))
    | .ok none => (atPart r t part none).pull
    | .error f => (.error f, atPart r t part (some { o with cursor := (r.lexicon.pull o.cursor).cursor })) := by
  unfold atPart
  rw [pull]
  rfl

theorem drop_of_cons {p : Piece} {rest : List Piece} {begun : Nat} (h : p :: rest = t.pieces.drop begun) :
    rest = t.pieces.drop (begun + 1) := by
  rw [← List.tail_drop, ← h, List.tail_cons]

theorem pieces_pull (s : TemplateTokens) : s.pieces = t.pieces.drop s.begun →
    s.pull.2.reader = s.reader ∧ s.pull.2.pieces = t.pieces.drop s.pull.2.begun := by
  fun_induction pull s with
  | case1 | case3 | case4 => exact fun h => ⟨rfl, h⟩
  | case2 r pieces o begun p h ih => exact ih
  | case5 r w positioned rest begun ih => exact fun h => ih (drop_of_cons h)
  | case6 r v span rest begun => exact fun h => ⟨rfl, drop_of_cons h⟩

/-- A reader of a template stays one, whatever it is asked. -/
theorem exists_atPart (part : Nat) (segment : Option OpenSegment) :
    ∃ part' segment', (atPart r t part segment).pull.2 = atPart r t part' segment' := by
  obtain ⟨hreader, hpieces⟩ := pieces_pull (t := t) (atPart r t part segment) rfl
  generalize (atPart r t part segment).pull.2 = s at *
  obtain ⟨_, _, segment', part'⟩ := s
  dsimp only at hreader hpieces
  subst hreader hpieces
  exact ⟨part', segment', rfl⟩

end TemplateTokens

end GrammarKit
