/-
Joining templates. A template is its parts in order, a text or a value each, where texts in a row count as one. Joining
puts the parts of one template behind those of another one, so it is associative, and the empty text joins to nothing
more. What is joined alternates as every template does: the values of the one stand before those of the other, and the
segments where the two meet become one.
-/
import GrammarKit.Template.Basic

namespace GrammarKit.Template

/-- A template without its places. -/
def unplaced (t : Template) : Template := { t with source := none }

/-- The segments and values in order. -/
def asParts (t : Template) : List Part := .text t.head :: t.tail.flatMap fun (v, text) => [.value v, .text text]

/-! ## Templates from parts -/

theorem unplaced_ofParts : ∀ parts : List Part, (ofParts parts).unplaced = ofParts parts
  | [] => rfl
  | .text s :: parts => by rw [ofParts, ← unplaced_ofParts parts]; rfl
  | .value _ :: _ => rfl

theorem ofParts_asParts (t : Template) : ofParts t.asParts = t.unplaced := by
  obtain ⟨head, tail, source⟩ := t
  induction tail generalizing head source with
  | nil => simp [asParts, ofParts, literal, unplaced]
  | cons x tail ih =>
    have hrest : ofParts (.text x.2 :: tail.flatMap fun (v, text) => [.value v, .text text]) = ⟨x.2, tail, none⟩ :=
      ih x.2 none
    rw [asParts, List.flatMap_cons, List.cons_append, List.cons_append, List.nil_append, ofParts, ofParts, hrest]
    simp [unplaced]

/-! ## Joining -/

/-- Places do not count. -/
theorem unplaced_join (a b : Template) : a.unplaced.join b.unplaced = a.join b := by
  obtain ⟨head, tail, source⟩ := a
  induction tail generalizing head source with
  | nil => rfl
  | cons x tail ih =>
    have hrest := ih x.2 none
    simp only [unplaced, join, joinAfter] at hrest ⊢
    rw [hrest]

theorem literal_join (b : Template) : (literal "").join b = b.unplaced := by
  simp [join, joinAfter, literal, unplaced]

/-- What a template begins with may be put before it or before what it is joined to. -/
theorem join_text (s : String) (a b : Template) :
    ({ a with head := s ++ a.head } : Template).join b = { a.join b with head := s ++ (a.join b).head } := by
  obtain ⟨head, _ | ⟨x, tail⟩, source⟩ := a
  · simp [join, joinAfter, String.append_assoc]
  · rfl

/-- Parts that are written one after another are joined. -/
theorem ofParts_append (q : List Part) : ∀ p : List Part, ofParts (p ++ q) = (ofParts p).join (ofParts q)
  | [] => by rw [List.nil_append, ofParts, literal_join, unplaced_ofParts]
  | .text s :: p => by rw [List.cons_append, ofParts, ofParts, ofParts_append q p, join_text]
  | .value v :: p => by
    rw [List.cons_append, ofParts, ofParts, ofParts_append q p]
    rfl

/-- Joining puts parts one after another. -/
theorem join_eq (a b : Template) : a.join b = ofParts (a.asParts ++ b.asParts) := by
  rw [ofParts_append, ofParts_asParts, ofParts_asParts, unplaced_join]

theorem join_assoc (a b c : Template) : (a.join b).join c = a.join (b.join c) := calc
  (a.join b).join c = (ofParts (a.asParts ++ b.asParts)).join (ofParts c.asParts) := by
    rw [← unplaced_join, join_eq a b, unplaced_ofParts, ofParts_asParts]
  _ = (ofParts a.asParts).join (ofParts (b.asParts ++ c.asParts)) := by
    rw [← ofParts_append, ← ofParts_append, List.append_assoc]
  _ = a.join (b.join c) := by rw [ofParts_asParts, ← join_eq b c, ← unplaced_join a, join_eq b c, unplaced_ofParts]

theorem join_literal (a : Template) : a.join (literal "") = a.unplaced := by
  have hparts : ofParts a.asParts = (ofParts a.asParts).join (ofParts []) := by rw [← ofParts_append, List.append_nil]
  rw [← ofParts_asParts a, hparts, ofParts_asParts, ofParts, ← unplaced_join a]
  rfl

/-! ## Segments and values -/

theorem interpolations_join (a b : Template) : (a.join b).interpolations = a.interpolations ++ b.interpolations := by
  obtain ⟨head, tail, source⟩ := a
  induction tail generalizing head source with
  | nil => rfl
  | cons x tail ih => exact congrArg (x.1 :: ·) (ih x.2 none)

/-- The last segment of the one and the first segment of the other become one. -/
theorem segments_join (a b : Template) : (a.join b).segments =
    a.segments.dropLast ++ (a.segments.getLastD "" ++ b.head) :: b.tail.map (·.2) := by
  obtain ⟨head, tail, source⟩ := a
  induction tail generalizing head source with
  | nil => rfl
  | cons x tail ih => exact congrArg (head :: ·) (ih x.2 none)

theorem length_segments (t : Template) : t.segments.length = t.interpolations.length + 1 := by
  simp [segments, interpolations]

/-- A template is told by its segments and values. -/
theorem ofLists_segments (t : Template) : ofLists t.segments t.interpolations = .ok t.unplaced := by
  have hzip : t.interpolations.zip (t.tail.map (·.2)) = t.tail := by
    rw [interpolations, ← List.unzip_fst, ← List.unzip_snd, List.zip_unzip]
  rw [segments, ofLists, if_pos (by simp [interpolations]), hzip]
  rfl

/-! ## Written part by part -/

/-- A template that is being written. -/
structure Draft where
  /-- The segments that are closed, each with the value after it. -/
  closed : List (String × Interpolation) := []
  /-- The segment that is being written. -/
  pending : String := ""

namespace Draft

/-- A text goes on with the segment, and a value closes it. -/
def write (d : Draft) : Part → Draft
  | .text s => { d with pending := d.pending ++ s }
  | .value v => ⟨d.closed ++ [(d.pending, v)], ""⟩

/-- The template that ends with the segment that is being written. -/
def finish (d : Draft) : Template :=
  d.closed.foldr (fun (text, v) t => { head := text, tail := (v, t.head) :: t.tail }) (literal d.pending)

/-- A draft is what its parts are written to. -/
theorem finish_eq (d : Draft) :
    d.finish = ofParts ((d.closed.flatMap fun (text, v) => [.text text, .value v]) ++ [.text d.pending]) := by
  obtain ⟨closed, pending⟩ := d
  induction closed with
  | nil => simp [finish, ofParts, literal]
  | cons x closed ih =>
    rw [List.flatMap_cons, List.append_assoc, List.cons_append, List.cons_append, List.nil_append, ofParts, ofParts, ← ih,
      String.append_empty]
    rfl

theorem finish_write (d : Draft) (part : Part) : (d.write part).finish = d.finish.join (ofParts [part]) := by
  rw [finish_eq, finish_eq, ← ofParts_append]
  cases part with
  | text s =>
    have hrow : ofParts [.text (d.pending ++ s)] = ofParts [.text d.pending, .text s] := by
      simp [ofParts, String.append_assoc]
    rw [write, List.append_assoc, ofParts_append, hrow, ← ofParts_append]
    rfl
  | value v =>
    have hopen : ofParts [.text d.pending, .value v, .text ""] = ofParts [.text d.pending, .value v] := by
      simp [ofParts, literal]
    simp only [write, List.flatMap_append, List.flatMap_cons, List.flatMap_nil, List.append_nil, List.append_assoc,
      List.cons_append, List.nil_append]
    rw [ofParts_append, hopen, ← ofParts_append]

/-- What is written then is joined to what was written first. -/
theorem finish_foldl : ∀ (parts : List Part) (d : Draft), (parts.foldl write d).finish = d.finish.join (ofParts parts)
  | [], d => by rw [List.foldl_nil, ofParts, join_literal, finish_eq, unplaced_ofParts]
  | part :: parts, d => by
    rw [List.foldl_cons, finish_foldl parts, finish_write, join_assoc, ← ofParts_append]
    rfl

end Draft

/-- Parts that are written from the start come to their template. -/
theorem ofParts_eq_finish (parts : List Part) : ofParts parts = (parts.foldl Draft.write {}).finish := by
  rw [Draft.finish_foldl, show ({} : Draft).finish = literal "" from rfl, literal_join, unplaced_ofParts]

/-! ## The laws of joining -/

/-- But for places, templates are a monoid under joining, and its unit is the empty text. What is joined has the values
of both and one segment more, where the segments between become one: these are the segments and values of a template.
The template of parts that are written one after another is the join of the templates of the first and of the others. -/
theorem join_laws (a b c : Template) (p q : List Part) :
    (a.join b).join c = a.join (b.join c) ∧ (literal "").join a = a.unplaced ∧ a.join (literal "") = a.unplaced ∧
    ((a.join b).segments.length = (a.join b).interpolations.length + 1 ∧
      (a.join b).segments = a.segments.dropLast ++ (a.segments.getLastD "" ++ b.head) :: b.tail.map (·.2) ∧
      (a.join b).interpolations = a.interpolations ++ b.interpolations ∧
      ofLists (a.join b).segments (a.join b).interpolations = .ok (a.join b)) ∧
    ofParts (p ++ q) = (ofParts p).join (ofParts q) ∧ ofParts p = (p.foldl Draft.write {}).finish := by
  have hjoin : (a.join b).unplaced = a.join b := by rw [join_eq, unplaced_ofParts]
  exact ⟨join_assoc a b c, literal_join a, join_literal a,
    ⟨length_segments _, segments_join a b, interpolations_join a b, by rw [ofLists_segments, hjoin]⟩,
    ofParts_append q p, ofParts_eq_finish p⟩

/-- Texts that meet become one, and so do those around an empty text. -/
example (v w : Interpolation) : ((ofParts [.text "a", .value v, .text "b"]).join
    (ofParts [.text "c", .text "", .value w])).segments = ["a", "bc", ""] := rfl

end GrammarKit.Template
