/-
How far a lexer has come. A cursor holds the characters still ahead in its window, the position of the
first of them in the whole text, and the last token handed out. Taking a token never adds characters or
tokens ahead, so `size` bounds the tokens to come.
-/
import GrammarKit.Text.Window

namespace GrammarKit

structure Cursor where
  ahead : List Char
  position : Position
  /-- Whether the window shows the whole text. -/
  complete : Bool
  last : Option Token := none
  /-- Tokens of a lexer that reads the whole text at once, or why it refused to. -/
  queue : Outcome (List Token) := .ok []

namespace Cursor

def ofWindow (w : Window) : Cursor :=
  { ahead := w.inside, position := .after w.before, complete := w.isComplete }

def queued (c : Cursor) : Nat :=
  match c.queue with
  | .ok tokens => tokens.length
  | .error _ => 0

/-- Characters and tokens ahead. -/
def size (c : Cursor) : Nat := c.ahead.length + c.queued

def offset (c : Cursor) : Nat := c.position.offset

/-- The cursor after the next `n` characters. -/
def advance (c : Cursor) (n : Nat) : Cursor :=
  { c with ahead := c.ahead.drop n, position := c.position.feed (c.ahead.take n) }

theorem size_advance_lt (c : Cursor) {n : Nat} (hn : 0 < n) (h : c.ahead ≠ []) :
    (c.advance n).size < c.size := by
  have := List.length_pos_iff.mpr h
  simp only [size, advance, queued, List.length_drop]
  omega

/-- Skips one character, if there is one. -/
def skipChar (c : Cursor) : Option Cursor := if c.ahead.isEmpty then none else some (c.advance 1)

/-- Skips to a byte offset further on in the window. -/
def skipTo (c : Cursor) (offset : Nat) : Option Cursor :=
  if offset ≤ c.offset then none
  else (Text.cutAt? (offset - c.offset) c.ahead).map fun (skipped, _) => c.advance skipped.length

theorem size_skipChar {c d : Cursor} (h : c.skipChar = some d) : d.size < c.size := by
  unfold skipChar at h
  split at h
  · cases h
  · rename_i hc
    cases h
    exact c.size_advance_lt Nat.one_pos (by simpa using hc)

theorem size_skipTo {c d : Cursor} {n : Nat} (h : c.skipTo n = some d) : d.size < c.size := by
  unfold skipTo at h
  split at h
  · cases h
  · rename_i hn
    rw [Option.map_eq_some_iff] at h
    obtain ⟨⟨skipped, rest⟩, hcut, rfl⟩ := h
    obtain ⟨happ, hlen⟩ := Text.append_of_cutAt? hcut
    have hpos : 0 < skipped.length := by
      rcases skipped with _ | ⟨a, as⟩
      · simp [Text.bytes] at hlen; omega
      · simp
    refine c.size_advance_lt hpos ?_
    intro he
    rw [he] at happ
    have : skipped = [] := (List.append_eq_nil_iff.mp happ.symm).1
    simp [this] at hpos

end Cursor

/-- What a lexer finds at a cursor: a token, the end of the input or a failure, and where the cursor
is afterwards. A token leaves less ahead than there was. -/
structure Pulled (c : Cursor) where
  result : Outcome (Option Token)
  cursor : Cursor
  size_le : cursor.size ≤ c.size := by omega
  size_lt : ∀ t, result = .ok (some t) → cursor.size < c.size

namespace Pulled

/-- Nothing was taken. -/
def stay (c : Cursor) (result : Outcome (Option Token)) (h : ∀ t, result ≠ .ok (some t)) : Pulled c :=
  ⟨result, c, Nat.le_refl _, fun t ht => absurd ht (h t)⟩

def stop (c : Cursor) : Pulled c := stay c (.ok none) (by simp)

def fail (c : Cursor) (f : Failure) : Pulled c := stay c (.error f) (by simp)

/-- What was found further on counts from the earlier cursor too. -/
def counted {c d : Cursor} (p : Pulled d) (h : d.size ≤ c.size) : Pulled c :=
  ⟨p.result, p.cursor, Nat.le_trans p.size_le h, fun t ht => Nat.lt_of_lt_of_le (p.size_lt t ht) h⟩

end Pulled

end GrammarKit
